import Mathlib.Tactic.IntervalCases
import NajmKernel.Gregorian

/-! The date and time of the CMOS clock, and its count of seconds since the Unix epoch. -/
namespace RealTimeClock

open Gregorian

/-- Wall-clock time as the RTC reports it. -/
structure DateTime where
  year : UInt16
  month : UInt8
  day : UInt8
  hour : UInt8
  minute : UInt8
  second : UInt8
  deriving DecidableEq

def DateTime.daysSinceEpoch (t : DateTime) : ℤ :=
  let year : ℤ := t.year.toNat
  let month : ℤ := t.month.toNat
  let day : ℤ := t.day.toNat
  -- March is the first month, so that the leap day is the last day of its year.
  let year := if month ≤ 2 then year - 1 else year
  let era := (if 0 ≤ year then year else year - 399).tdiv 400
  let yearOfEra := year - era * 400
  let monthShifted := if 2 < month then month - 3 else month + 9
  let dayOfYear := (153 * monthShifted + 2).tdiv 5 + day - 1
  let dayOfEra := yearOfEra * 365 + yearOfEra.tdiv 4 - yearOfEra.tdiv 100 + dayOfYear
  era * 146097 + dayOfEra - 719468

/-- No sum on the way here comes near the bounds of an `i64`. -/
def DateTime.toUnixSeconds (t : DateTime) : UInt64 :=
  let seconds := t.daysSinceEpoch * 86400 + t.hour.toNat * 3600 + t.minute.toNat * 60 +
    t.second.toNat
  UInt64.ofNat (max seconds 0).toNat

/-- A date of the calendar and a time of the day. -/
structure DateTime.Valid (t : DateTime) : Prop where
  month : 1 ≤ t.month.toNat ∧ t.month.toNat ≤ 12
  day : 1 ≤ t.day.toNat ∧ t.day.toNat ≤ monthLength t.year.toNat t.month.toNat
  hour : t.hour.toNat < 24
  minute : t.minute.toNat < 60
  second : t.second.toNat < 60

def DateTime.date (t : DateTime) (h : t.Valid) : Date :=
  ⟨t.year.toNat, t.month.toNat, t.day.toNat, h.month, h.day⟩

def DateTime.secondOfDay (t : DateTime) : ℕ :=
  t.hour.toNat * 3600 + t.minute.toNat * 60 + t.second.toNat

/-- The fields, in the order in which they decide which of two times is the later. -/
def DateTime.fields (t : DateTime) : List ℕ :=
  [t.year.toNat, t.month.toNat, t.day.toNat, t.hour.toNat, t.minute.toNat, t.second.toNat]

def epoch : Date := ⟨1970, 1, 1, january_mem, by decide⟩

variable {t u : DateTime}

section Days

variable {y : ℤ} {m : ℕ}

/-- The eras of four hundred years, and the years of an era, make a plain count of leap days. -/
theorem era_days (hy : -1 ≤ y) :
    let era := (if 0 ≤ y then y else y - 399).tdiv 400
    let yearOfEra := y - era * 400
    era * 146097 + (yearOfEra * 365 + yearOfEra.tdiv 4 - yearOfEra.tdiv 100) =
      365 * y + y / 4 - y / 100 + y / 400 := by
  have hera : (if 0 ≤ y then y else y - 399).tdiv 400 = y / 400 := by
    split
    · next hpos => exact Int.tdiv_eq_ediv_of_nonneg hpos
    · next hneg =>
      obtain rfl : y = -1 := by omega
      rfl
  simp only [hera]
  rw [Int.tdiv_eq_ediv_of_nonneg (by omega), Int.tdiv_eq_ediv_of_nonneg (by omega)]
  omega

/-- From March on the months begin along a line. -/
theorem monthStart_march (year : ℕ) (h3 : 3 ≤ m) (h12 : m ≤ 12) :
    monthStart year m = 59 + (if Leap year then 1 else 0) + (153 * (m - 3) + 2) / 5 := by
  induction m, h3 using Nat.le_induction with
  | base =>
    simp only [monthStart, Finset.sum_range_succ, Finset.sum_range_zero, monthLength]
    split
    · rfl
    · rfl
  | succ m h3 ih =>
    have hlength : (153 * (m - 3) + 2) / 5 + monthLength year m = (153 * (m + 1 - 3) + 2) / 5 := by
      have hlast : m ≤ 11 := by omega
      interval_cases m <;> rfl
    rw [monthStart_succ (by omega), ih (by omega)]
    omega

theorem yearStart_epoch : yearStart 1970 = 719528 := by
  have hyears := yearStart_eq 1970
  omega

theorem epoch_number : epoch.number = 719528 := by
  have hjanuary : monthStart 1970 1 = 0 := rfl
  rw [Date.number, epoch]
  simp only [hjanuary, yearStart_epoch]

theorem daysSinceEpoch_eq (h : t.Valid) :
    t.daysSinceEpoch = (t.date h).number - epoch.number := by
  have hyears := yearStart_eq t.year.toNat
  have hfirst := h.day.1
  obtain ⟨hmonth, hlast⟩ := h.month
  rw [epoch_number, Date.number, DateTime.date, DateTime.daysSinceEpoch]
  simp only
  by_cases hmarch : t.month.toNat ≤ 2
  · have hera := era_days (y := t.year.toNat - 1) (by omega)
    simp only at hera
    rw [if_pos (show (t.month.toNat : ℤ) ≤ 2 by omega),
      if_neg (show ¬ (2 : ℤ) < t.month.toNat by omega),
      Int.tdiv_eq_ediv_of_nonneg (b := 5) (by omega)]
    obtain hjanuary | hfebruary : t.month.toNat = 1 ∨ t.month.toNat = 2 := by omega
    · have hstart : monthStart t.year.toNat 1 = 0 := rfl
      rw [hjanuary, hstart]
      omega
    · have hstart : monthStart t.year.toNat 2 = 31 := rfl
      rw [hfebruary, hstart]
      omega
  · have hera := era_days (y := t.year.toNat) (by omega)
    have hstart := monthStart_march t.year.toNat (Nat.lt_of_not_le hmarch) hlast
    simp only at hera
    rw [if_neg (show ¬ (t.month.toNat : ℤ) ≤ 2 by omega),
      if_pos (show (2 : ℤ) < t.month.toNat by omega),
      Int.tdiv_eq_ediv_of_nonneg (b := 5) (by omega), hstart]
    have hleap := yearStart_leap t.year.toNat
    clear hyears
    omega

end Days

theorem epoch_le (h : t.Valid) (hyear : 1970 ≤ t.year.toNat) :
    epoch.number ≤ (t.date h).number := by
  have hstart := yearStart_mono hyear
  rw [epoch_number, ← yearStart_epoch, Date.number, DateTime.date]
  simp only
  omega

theorem secondOfDay_lt (h : t.Valid) : t.secondOfDay < 86400 := by
  have hhour := h.hour
  have hminute := h.minute
  have hsecond := h.second
  rw [DateTime.secondOfDay]
  omega

/-- The fields are too narrow for a count that an `u64` does not hold. -/
theorem number_lt (h : t.Valid) : (t.date h).number < 2 ^ 25 := by
  have hlt := number_lt_year (t.date h)
  have hyear : (t.date h).year + 1 ≤ 65536 := t.year.toNat_lt
  have hstart := yearStart_mono hyear
  have hyears := yearStart_eq 65536
  omega

theorem to_unix_seconds_eq (h : t.Valid) (hyear : 1970 ≤ t.year.toNat) :
    t.toUnixSeconds.toNat = 86400 * ((t.date h).number - epoch.number) + t.secondOfDay := by
  have hle := epoch_le h hyear
  have hnumber := number_lt h
  have hsecond := secondOfDay_lt h
  rw [DateTime.toUnixSeconds, daysSinceEpoch_eq h, UInt64.toNat_ofNat', DateTime.secondOfDay]
  rw [DateTime.secondOfDay] at hsecond
  omega

/-- The fields decide as the calendar and the clock do. -/
theorem fields_lt_iff (h : t.Valid) (hu : u.Valid) : t.fields < u.fields ↔
    t.date h < u.date hu ∨ t.date h = u.date hu ∧ t.secondOfDay < u.secondOfDay := by
  have hclock : t.secondOfDay < u.secondOfDay ↔ t.hour.toNat < u.hour.toNat ∨
      t.hour.toNat = u.hour.toNat ∧ (t.minute.toNat < u.minute.toNat ∨
        t.minute.toNat = u.minute.toNat ∧ t.second.toNat < u.second.toNat) := by
    have hminute := h.minute
    have hsecond := h.second
    have huminute := hu.minute
    have husecond := hu.second
    rw [DateTime.secondOfDay, DateTime.secondOfDay]
    omega
  have hdate : t.date h = u.date hu ↔ t.year.toNat = u.year.toNat ∧
      t.month.toNat = u.month.toNat ∧ t.day.toNat = u.day.toNat := by
    rw [DateTime.date, DateTime.date, Date.mk.injEq]
  rw [hclock, hdate, lt_iff, DateTime.fields, DateTime.fields]
  simp only [List.cons_lt_cons_iff, List.not_lt_nil, and_false, or_false, DateTime.date]
  omega

theorem to_unix_seconds_counts :
    (∀ (t : DateTime) (h : t.Valid), 1970 ≤ t.year.toNat → ∃ n,
      (∀ k, Date.next^[k] epoch = t.date h ↔ k = n) ∧
      t.toUnixSeconds.toNat = 86400 * n + t.secondOfDay) ∧
    (∀ (t u : DateTime) (h : t.Valid) (hu : u.Valid), 1970 ≤ t.year.toNat →
      u.date hu = (t.date h).next → u.secondOfDay = t.secondOfDay →
      u.toUnixSeconds.toNat = t.toUnixSeconds.toNat + 86400) ∧
    ∀ t u : DateTime, t.Valid → u.Valid → 1970 ≤ t.year.toNat → 1970 ≤ u.year.toNat →
      (t.fields < u.fields ↔ t.toUnixSeconds < u.toUnixSeconds) := by
  refine ⟨fun t h hyear => ?_, fun t u h hu hyear hnext hsame => ?_,
    fun t u h hu hyear huyear => ?_⟩
  · have hle := epoch_le h hyear
    refine ⟨(t.date h).number - epoch.number, fun k => ?_, to_unix_seconds_eq h hyear⟩
    rw [iterate_next_eq_iff]
    omega
  · have hle := epoch_le h hyear
    have hnumber := number_next (t.date h)
    rw [← hnext] at hnumber
    have huyear : 1970 ≤ u.year.toNat := by
      by_contra hlt
      have hstart := number_lt_year (u.date hu)
      have hmono := yearStart_mono (show (u.date hu).year + 1 ≤ 1970 from Nat.not_le.mp hlt)
      rw [yearStart_epoch, ← epoch_number] at hmono
      omega
    rw [to_unix_seconds_eq h hyear, to_unix_seconds_eq hu huyear, hnumber, hsame]
    omega
  · have hle := epoch_le h hyear
    have hule := epoch_le hu huyear
    have hsecond := secondOfDay_lt h
    have husecond := secondOfDay_lt hu
    rw [fields_lt_iff h hu, ← number_strictMono.lt_iff_lt, ← number_injective.eq_iff,
      UInt64.lt_iff_toNat_lt, to_unix_seconds_eq h hyear, to_unix_seconds_eq hu huyear]
    omega

example : (DateTime.mk 2000 2 29 23 59 59).toUnixSeconds = 951868799 ∧
    (DateTime.mk 2000 3 1 0 0 0).toUnixSeconds = 951868800 := by decide

end RealTimeClock
