import Mathlib.Algebra.Order.BigOperators.Group.Finset
import Mathlib.Data.Prod.Lex

/-! The Gregorian calendar: its dates in their order, the date after each, and how many days lie
before each. -/
namespace Gregorian

def Leap (year : ℕ) : Prop := year % 4 = 0 ∧ (year % 100 ≠ 0 ∨ year % 400 = 0)

instance (year : ℕ) : Decidable (Leap year) := inferInstanceAs (Decidable (_ ∧ _))

def yearLength (year : ℕ) : ℕ := if Leap year then 366 else 365

def monthLength (year : ℕ) : ℕ → ℕ
  | 2 => if Leap year then 29 else 28
  | 4 | 6 | 9 | 11 => 30
  | _ => 31

theorem monthLength_pos (year month : ℕ) : 1 ≤ monthLength year month := by
  unfold monthLength
  split
  · split
    · exact Nat.le_add_left 1 28
    · exact Nat.le_add_left 1 27
  all_goals omega

theorem january_mem : 1 ≤ 1 ∧ 1 ≤ 12 := by decide

/-- A date that the calendar has. -/
structure Date where
  year : ℕ
  month : ℕ
  day : ℕ
  month_mem : 1 ≤ month ∧ month ≤ 12
  day_mem : 1 ≤ day ∧ day ≤ monthLength year month
  deriving DecidableEq

variable {d e : Date} {y m m' n : ℕ}

/-- The date of the following day. -/
def Date.next (d : Date) : Date :=
  if hday : d.day < monthLength d.year d.month then
    { d with day := d.day + 1, day_mem := ⟨Nat.le_add_left 1 d.day, hday⟩ }
  else if hmonth : d.month < 12 then
    { year := d.year, month := d.month + 1, day := 1,
      month_mem := ⟨Nat.le_add_left 1 d.month, hmonth⟩, day_mem := ⟨le_rfl, monthLength_pos _ _⟩ }
  else
    { year := d.year + 1, month := 1, day := 1,
      month_mem := january_mem, day_mem := ⟨le_rfl, monthLength_pos _ _⟩ }

/-- Dates are ordered by year, then month, then day. -/
instance : LinearOrder Date :=
  LinearOrder.lift' (fun d : Date => toLex (d.year, toLex (d.month, d.day))) (by
    rintro ⟨y, m, k, _, _⟩ ⟨y', m', k', _, _⟩ h
    simp only [EmbeddingLike.apply_eq_iff_eq, Prod.mk.injEq] at h
    obtain ⟨rfl, rfl, rfl⟩ := h
    rfl)

theorem lt_iff : d < e ↔ d.year < e.year ∨ d.year = e.year ∧
    (d.month < e.month ∨ d.month = e.month ∧ d.day < e.day) := by
  change toLex (d.year, toLex (d.month, d.day)) < toLex (e.year, toLex (e.month, e.day)) ↔ _
  rw [Prod.Lex.toLex_lt_toLex, Prod.Lex.toLex_lt_toLex]

section Starts

/-- The days before the year's first day. -/
def yearStart (year : ℕ) : ℕ := ∑ y ∈ Finset.range year, yearLength y

/-- The days of the year before the month's first day. -/
def monthStart (year month : ℕ) : ℕ := ∑ m ∈ Finset.range (month - 1), monthLength year (m + 1)

theorem yearStart_succ (y : ℕ) : yearStart (y + 1) = yearStart y + yearLength y :=
  Finset.sum_range_succ _ y

theorem monthStart_succ (hm : 1 ≤ m) : monthStart y (m + 1) = monthStart y m + monthLength y m := by
  obtain ⟨k, rfl⟩ : ∃ k, m = k + 1 := ⟨m - 1, by omega⟩
  exact Finset.sum_range_succ _ k

theorem yearStart_mono : Monotone yearStart := fun _ _ h =>
  Finset.sum_le_sum_of_subset (Finset.range_mono h)

theorem monthStart_mono (h : m ≤ m') : monthStart y m ≤ monthStart y m' :=
  Finset.sum_le_sum_of_subset (Finset.range_mono (Nat.sub_le_sub_right h 1))

/-- The months make up the year. -/
theorem monthStart_end (y : ℕ) : monthStart y 13 = yearLength y := by
  simp only [monthStart, Finset.sum_range_succ, Finset.sum_range_zero, monthLength, yearLength]
  split
  · rfl
  · rfl

theorem yearLength_eq (y : ℕ) : yearLength y = 365 + if Leap y then 1 else 0 := by
  rw [yearLength]
  split
  · rfl
  · rfl

/-- A leap year every four years, but for the centuries that four hundred does not divide. -/
theorem leap_eq (y : ℕ) : (if Leap y then 1 else 0) + (if y % 100 = 0 then 1 else 0) =
    (if y % 4 = 0 then 1 else 0) + if y % 400 = 0 then 1 else 0 := by
  by_cases h4 : y % 4 = 0
  · by_cases h100 : y % 100 = 0
    · by_cases h400 : y % 400 = 0
      · simp [Leap, h4, h100, h400]
      · simp [Leap, h4, h100, h400]
    · have h400 : y % 400 ≠ 0 := by omega
      simp [Leap, h4, h100, h400]
  · have h100 : y % 100 ≠ 0 := by omega
    have h400 : y % 400 ≠ 0 := by omega
    simp [Leap, h4, h100, h400]

/-- A quotient rounded up grows behind each multiple. -/
theorem ceil_succ (k y : ℕ) : (y + 1 + k) / (k + 1) =
    (y + k) / (k + 1) + if y % (k + 1) = 0 then 1 else 0 := by
  have hmultiple : k + 1 ∣ y + k + 1 ↔ y % (k + 1) = 0 := by
    rw [Nat.add_assoc, Nat.dvd_add_left (Nat.dvd_refl _), Nat.dvd_iff_mod_eq_zero]
  rw [Nat.add_right_comm, Nat.succ_div]
  simp only [hmultiple]

theorem yearStart_eq (y : ℕ) :
    yearStart y + (y + 99) / 100 = 365 * y + (y + 3) / 4 + (y + 399) / 400 := by
  induction y with
  | zero => rfl
  | succ y ih =>
    have hleap := leap_eq y
    have h4 : (y + 1 + 3) / 4 = (y + 3) / 4 + if y % 4 = 0 then 1 else 0 := ceil_succ 3 y
    have h100 : (y + 1 + 99) / 100 = (y + 99) / 100 + if y % 100 = 0 then 1 else 0 :=
      ceil_succ 99 y
    have h400 : (y + 1 + 399) / 400 = (y + 399) / 400 + if y % 400 = 0 then 1 else 0 :=
      ceil_succ 399 y
    rw [yearStart_succ, yearLength_eq, h4, h100, h400]
    generalize (if y % 4 = 0 then 1 else 0) = a, (if y % 100 = 0 then 1 else 0) = b,
      (if y % 400 = 0 then 1 else 0) = c at hleap ⊢
    omega

theorem yearStart_leap (y : ℕ) :
    yearStart y + (if Leap y then 1 else 0) + y / 100 = 365 * y + y / 4 + y / 400 + 1 := by
  have hnext := yearStart_eq (y + 1)
  rw [yearStart_succ, yearLength_eq] at hnext
  omega

end Starts

/-- The days before a date. -/
def Date.number (d : Date) : ℕ := yearStart d.year + monthStart d.year d.month + (d.day - 1)

theorem number_lt_month (d : Date) :
    d.number < yearStart d.year + monthStart d.year (d.month + 1) := by
  obtain ⟨hfirst, hlast⟩ := d.day_mem
  rw [monthStart_succ d.month_mem.1, Date.number]
  omega

theorem number_lt_year (d : Date) : d.number < yearStart (d.year + 1) := by
  have hmonths : monthStart d.year (d.month + 1) ≤ monthStart d.year 13 :=
    monthStart_mono (Nat.succ_le_succ d.month_mem.2)
  have hday := number_lt_month d
  rw [monthStart_end] at hmonths
  rw [yearStart_succ]
  omega

theorem number_next (d : Date) : d.next.number = d.number + 1 := by
  obtain ⟨hfirst, hlast⟩ := d.day_mem
  rw [Date.next]
  split
  · rw [Date.number, Date.number]
    simp only
    omega
  · next hday =>
    have hend : d.day = monthLength d.year d.month := le_antisymm hlast (Nat.not_lt.mp hday)
    split
    · rw [Date.number, Date.number]
      simp only [monthStart_succ d.month_mem.1]
      omega
    · next hmonth =>
      have hdecember : d.month = 12 := le_antisymm d.month_mem.2 (Nat.not_lt.mp hmonth)
      have hmonths : yearLength d.year = monthStart d.year 12 + monthLength d.year 12 :=
        (monthStart_end d.year).symm.trans (monthStart_succ (by decide))
      have hjanuary : monthStart (d.year + 1) 1 = 0 := rfl
      rw [hdecember] at hend
      rw [Date.number, Date.number, hdecember]
      simp only [yearStart_succ, hjanuary, hmonths]
      omega

theorem number_strictMono : StrictMono Date.number := by
  intro d e h
  rcases lt_iff.mp h with hyear | ⟨hyear, hmonth | ⟨hmonth, hday⟩⟩
  · have hstart := yearStart_mono (show d.year + 1 ≤ e.year from hyear)
    have hlt := number_lt_year d
    change _ < yearStart e.year + monthStart e.year e.month + (e.day - 1)
    omega
  · have hstart := monthStart_mono (y := d.year) (show d.month + 1 ≤ e.month from hmonth)
    have hlt := number_lt_month d
    change _ < yearStart e.year + monthStart e.year e.month + (e.day - 1)
    rw [← hyear]
    omega
  · have hfirst := d.day_mem.1
    rw [Date.number, Date.number, ← hyear, ← hmonth]
    omega

theorem number_injective : Function.Injective Date.number := number_strictMono.injective

theorem number_iterate_next (d : Date) (n : ℕ) : (Date.next^[n] d).number = d.number + n := by
  induction n with
  | zero => rfl
  | succ n ih => rw [Function.iterate_succ_apply', number_next, ih, Nat.add_assoc]

/-- To count the days from a date to another is to take the difference of their numbers. -/
theorem iterate_next_eq_iff : Date.next^[n] d = e ↔ d.number + n = e.number := by
  rw [← number_injective.eq_iff, number_iterate_next]

end Gregorian
