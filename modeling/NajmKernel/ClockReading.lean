import Mathlib.Order.Monotone.Basic
import NajmKernel.Attempts
import NajmKernel.RealTimeClock

/-! Reading the CMOS clock while it goes on: two readings that agree are the time that the clock has
shown at some access between them, whatever an update makes of the registers meanwhile. -/
namespace RealTimeClock

open Attempts Attempt

def regSeconds : UInt8 := 0x00
def regMinutes : UInt8 := 0x02
def regHours : UInt8 := 0x04
def regDay : UInt8 := 0x07
def regMonth : UInt8 := 0x08
def regYear : UInt8 := 0x09
def regStatusA : UInt8 := 0x0A
def regStatusB : UInt8 := 0x0B

/-- What the chip answers for a register, by the number of the access. -/
abbrev Chip := ℕ → UInt8 → UInt8

section Driver

variable {ε : Type} (chip : Chip)

def readRegister (register : UInt8) : Attempt ℕ ε UInt8 :=
  of fun n => some (.ok (chip n (register &&& 0x7F)), n + 1)

def updateInProgress : Attempt ℕ ε Bool := do
  pure ((← readRegister chip regStatusA) &&& 0x80 != 0)

/-- The spin on the flag, which gets no further when its turns are used up. -/
def waitUpdate : ℕ → Attempt ℕ ε Unit
  | 0 => abort
  | spins + 1 => do
    if ← updateInProgress chip then waitUpdate spins else pure ()

/-- At most 165, which a byte holds. -/
def fromBcd (value : UInt8) : UInt8 := (value &&& (0x0F : UInt8)) + (value >>> (4 : UInt8)) * 10

def convert (binaryMode : Bool) (value : UInt8) : UInt8 :=
  if binaryMode then value else fromBcd value

/-- Of an hour of seven bits and the flag of the afternoon. -/
def decodeHour (binaryMode twentyFourHour : Bool) (hour : UInt8) : UInt8 :=
  let pm := !twentyFourHour && hour &&& 0x80 != 0
  let hour := convert binaryMode (hour &&& 0x7F)
  if pm && hour != 12 then hour + 12
  else if !twentyFourHour && !pm && hour == 12 then 0
  else hour

/-- The century is not in the registers read. -/
def decodeYear (binaryMode : Bool) (year : UInt8) : UInt16 :=
  let year := (convert binaryMode year).toUInt16
  if year < 70 then 2000 + year else 1900 + year

def decode (second minute hour day month year statusB : UInt8) : DateTime :=
  let binaryMode := statusB &&& 0x04 != 0
  let twentyFourHour := statusB &&& 0x02 != 0
  { year := decodeYear binaryMode year
    month := convert binaryMode month
    day := convert binaryMode day
    hour := decodeHour binaryMode twentyFourHour hour
    minute := convert binaryMode minute
    second := convert binaryMode second }

def readRaw (spins : ℕ) : Attempt ℕ ε DateTime := do
  waitUpdate chip spins
  let second ← readRegister chip regSeconds
  let minute ← readRegister chip regMinutes
  let hour ← readRegister chip regHours
  let day ← readRegister chip regDay
  let month ← readRegister chip regMonth
  let year ← readRegister chip regYear
  let statusB ← readRegister chip regStatusB
  pure (decode second minute hour day month year statusB)

/-- The loop of `now`. -/
def retry (spins : ℕ) : ℕ → DateTime → Attempt ℕ ε DateTime
  | 0, previous => pure previous
  | turns + 1, previous => do
    let current ← readRaw chip spins
    if current = previous then pure current else retry spins turns current

def now (spins : ℕ) : Attempt ℕ ε DateTime := do
  let previous ← readRaw chip spins
  retry chip spins 10 previous

def DateTime.isPlausible (t : DateTime) : Bool :=
  2000 ≤ t.year && t.year ≤ 2199 && (1 ≤ t.month && t.month ≤ 12) && (1 ≤ t.day && t.day ≤ 31) &&
    t.hour < 24 && t.minute < 60 && t.second ≤ 60

def init (spins : ℕ) : Attempt ℕ ε (Option DateTime) := do
  let now ← now chip spins
  pure (if now.isPlausible then some now else none)

/-- As many readings, one behind the other. -/
def readings (spins : ℕ) : ℕ → Attempt ℕ ε Unit
  | 0 => pure ()
  | count + 1 => do
    let _ ← readRaw chip spins
    readings spins count

end Driver

section Encodings

/-- How a chip is set to show a time: in binary or in decimal digits, with or without a flag for the
afternoon. -/
structure Mode where
  binary : Bool
  twentyFourHour : Bool

def Mode.digits (m : Mode) (n : ℕ) : UInt8 :=
  UInt8.ofNat (if m.binary then n else n / 10 * 16 + n % 10)

def Mode.hour (m : Mode) (hour : ℕ) : UInt8 :=
  if m.twentyFourHour then m.digits hour
  else m.digits (if hour % 12 = 0 then 12 else hour % 12) ||| (if 12 ≤ hour then 0x80 else 0)

/-- What the registers can show, with two digits for the year. -/
structure DateTime.Displayed (t : DateTime) : Prop where
  year : 1970 ≤ t.year.toNat ∧ t.year.toNat < 2070
  month : t.month.toNat < 100
  day : t.day.toNat < 100
  hour : t.hour.toNat < 24
  minute : t.minute.toNat < 100
  second : t.second.toNat < 100

structure Mode.Shows (m : Mode) (t : DateTime) (register : UInt8 → UInt8) : Prop where
  year : register regYear = m.digits (t.year.toNat % 100)
  month : register regMonth = m.digits t.month.toNat
  day : register regDay = m.digits t.day.toNat
  hour : register regHours = m.hour t.hour.toNat
  minute : register regMinutes = m.digits t.minute.toNat
  second : register regSeconds = m.digits t.second.toNat

def Mode.Set (m : Mode) (statusB : UInt8) : Prop :=
  (statusB &&& 0x04 != 0) = m.binary ∧ (statusB &&& 0x02 != 0) = m.twentyFourHour

/-- No sum on the way from the registers to the fields leaves its byte. -/
theorem sums_fit (binaryMode : Bool) (value : UInt8) :
    (fromBcd value).toNat = value.toNat % 16 + value.toNat / 16 * 10 ∧
      (convert binaryMode (value &&& 0x7F)).toNat + 12 < 256 := by
  have hall : ∀ n < 256, (fromBcd (UInt8.ofNat n)).toNat = n % 16 + n / 16 * 10 ∧
      ∀ b, (convert b (UInt8.ofNat n &&& 0x7F)).toNat + 12 < 256 := by decide +kernel
  obtain ⟨hdigits, hhour⟩ := hall value.toNat value.toNat_lt
  rw [UInt8.ofNat_toNat] at hdigits hhour
  exact ⟨hdigits, hhour binaryMode⟩

theorem convert_digits (m : Mode) {value : UInt8} (h : value.toNat < 100) :
    convert m.binary (m.digits value.toNat) = value := by
  have hall : ∀ b, ∀ n < 100, convert b (Mode.digits ⟨b, true⟩ n) = UInt8.ofNat n := by
    decide +kernel
  exact (hall m.binary value.toNat h).trans UInt8.ofNat_toNat

theorem decodeHour_hour (m : Mode) {hour : UInt8} (h : hour.toNat < 24) :
    decodeHour m.binary m.twentyFourHour (m.hour hour.toNat) = hour := by
  have hall : ∀ b w, ∀ n < 24, decodeHour b w (Mode.hour ⟨b, w⟩ n) = UInt8.ofNat n := by
    decide +kernel
  exact (hall m.binary m.twentyFourHour hour.toNat h).trans UInt8.ofNat_toNat

theorem decodeYear_digits (m : Mode) {year : UInt16} (h : 1970 ≤ year.toNat ∧ year.toNat < 2070) :
    decodeYear m.binary (m.digits (year.toNat % 100)) = year := by
  have hall : ∀ b, ∀ n < 100, decodeYear b (Mode.digits ⟨b, true⟩ ((1970 + n) % 100)) =
      UInt16.ofNat (1970 + n) := by decide +kernel
  have hyear := hall m.binary (year.toNat - 1970) (by omega)
  rw [Nat.add_sub_cancel' h.1] at hyear
  exact hyear.trans UInt16.ofNat_toNat

/-- A time is read as it is shown, in any of the chip's modes. -/
theorem decode_shown {m : Mode} {t : DateTime} {register : UInt8 → UInt8} {statusB : UInt8}
    (ht : t.Displayed) (hshows : m.Shows t register) (hset : m.Set statusB) :
    decode (register regSeconds) (register regMinutes) (register regHours) (register regDay)
      (register regMonth) (register regYear) statusB = t := by
  rw [decode, hset.1, hset.2, hshows.second, hshows.minute, hshows.hour, hshows.day, hshows.month,
    hshows.year, convert_digits m ht.second, convert_digits m ht.minute, convert_digits m ht.day,
    convert_digits m ht.month, decodeHour_hour m ht.hour, decodeYear_digits m ht.year]

end Encodings

section Updates

/-- A clock that goes on: at an even stage the registers show a time, at an odd one they are changed
behind the flag, and the flag is not up for ever. -/
structure Chip.Runs (chip : Chip) (m : Mode) (stage : ℕ → ℕ) (time : ℕ → DateTime) : Prop where
  monotone : Monotone stage
  shows : ∀ n, stage n % 2 = 0 → m.Shows (time (stage n / 2)) (chip n)
  flagged : ∀ n, stage n % 2 = 1 → chip n regStatusA &&& 0x80 ≠ 0
  settles : ∀ n, ∃ k ≥ n, chip k regStatusA &&& 0x80 = 0
  set : ∀ n, m.Set (chip n regStatusB)
  displayed : ∀ k, (time k).Displayed

/-- The registers, as they are read behind an access that has found the flag down. -/
def readAt (chip : Chip) (n : ℕ) : DateTime :=
  decode (chip (n + 1) regSeconds) (chip (n + 2) regMinutes) (chip (n + 3) regHours)
    (chip (n + 4) regDay) (chip (n + 5) regMonth) (chip (n + 6) regYear) (chip (n + 7) regStatusB)

variable {ε : Type} {chip : Chip} {m : Mode} {stage : ℕ → ℕ} {time : ℕ → DateTime}
  {n a b e spins : ℕ}

/-- Where the flag is down no update is going on. -/
theorem Chip.Runs.even (h : chip.Runs m stage time) (ha : chip a regStatusA &&& 0x80 = 0) :
    stage a % 2 = 0 := by
  by_contra hodd
  exact h.flagged a (by omega) ha

theorem waitUpdate_run (hle : n ≤ a)
    (hup : ∀ k, n ≤ k → k < a → chip k regStatusA &&& 0x80 ≠ 0)
    (hdown : chip a regStatusA &&& 0x80 = 0) (hspins : a - n < spins) :
    (waitUpdate chip spins : Attempt ℕ ε Unit).run n = some (.ok (), a + 1) := by
  induction spins generalizing n with
  | zero => exact absurd hspins (Nat.not_lt_zero _)
  | succ spins ih =>
    have hread : (updateInProgress chip : Attempt ℕ ε Bool).run n =
        some (.ok (chip n regStatusA &&& 0x80 != 0), n + 1) := rfl
    rw [waitUpdate, run_bind_of_ok hread]
    by_cases heq : n = a
    · rw [heq, hdown, if_neg (by decide), run_pure]
    · rw [if_pos (bne_iff_ne.mpr (hup n (Nat.le_refl _) (by omega)))]
      exact ih (by omega) (fun k hk => hup k (by omega)) (by omega)

theorem readRaw_run (h : chip.Runs m stage time) (n : ℕ) : ∃ a ≥ n,
    chip a regStatusA &&& 0x80 = 0 ∧ ∀ spins, a - n < spins →
      (readRaw chip spins : Attempt ℕ ε DateTime).run n = some (.ok (readAt chip a), a + 8) := by
  have hexists := h.settles n
  obtain ⟨hle, hdown⟩ := Nat.find_spec hexists
  refine ⟨Nat.find hexists, hle, hdown, fun spins hspins => ?_⟩
  have hup (k : ℕ) (hk : n ≤ k) (hlt : k < Nat.find hexists) :
      chip k regStatusA &&& 0x80 ≠ 0 := fun hzero => Nat.find_min hexists hlt ⟨hk, hzero⟩
  rw [readRaw, run_bind_of_ok (waitUpdate_run hle hup hdown hspins)]
  rfl

/-- A reading that repeats the one before it is taken. -/
theorem run_retry {spins turns u : ℕ} {previous current : DateTime}
    (hread : (readRaw chip spins : Attempt ℕ ε DateTime).run n = some (.ok current, u)) :
    (retry chip spins (turns + 1) previous : Attempt ℕ ε DateTime).run n =
      if current = previous then some (.ok current, u)
      else (retry chip spins turns current).run u := by
  rw [retry, run_bind_of_ok hread]
  split
  · exact run_pure
  · rfl

theorem run_init {spins u : ℕ} {t : DateTime}
    (hnow : (now chip spins : Attempt ℕ ε DateTime).run n = some (.ok t, u)) :
    (init chip spins : Attempt ℕ ε _).run n =
      some (.ok (if t.isPlausible then some t else none), u) := by
  rw [init, run_bind_of_ok hnow, run_pure]

/-- A reading that no update touches is exact. -/
theorem readAt_steady (h : chip.Runs m stage time) (heven : stage a % 2 = 0)
    (hsame : stage (a + 7) = stage a) : readAt chip a = time (stage a / 2) := by
  have hstage (k : ℕ) (hk : k ≤ 7) : stage (a + k) = stage a := by
    have hlow := h.monotone (Nat.le_add_right a k)
    have hhigh := h.monotone (Nat.add_le_add_left hk a)
    omega
  have hshows (k : ℕ) (hk : k ≤ 7) : m.Shows (time (stage a / 2)) (chip (a + k)) := by
    have hat := h.shows (a + k) (by rw [hstage k hk, heven])
    rwa [hstage k hk] at hat
  rw [readAt, (hshows 1 (by decide)).second, (hshows 2 (by decide)).minute,
    (hshows 3 (by decide)).hour, (hshows 4 (by decide)).day, (hshows 5 (by decide)).month,
    (hshows 6 (by decide)).year]
  -- the same bytes, as one access would have read them
  have hone := hshows 0 (by decide)
  rw [← hone.second, ← hone.minute, ← hone.hour, ← hone.day, ← hone.month, ← hone.year]
  exact decode_shown (h.displayed _) hone (h.set _)

/-- Of two readings in a row that one update at most touches, one is exact; so where they agree,
both are. -/
theorem agreed_exact (h : chip.Runs m stage time) (hafter : a + 8 ≤ b)
    (ha : chip a regStatusA &&& 0x80 = 0) (hb : chip b regStatusA &&& 0x80 = 0)
    (hfirst : 2 * e ≤ stage a) (hlast : stage (b + 7) ≤ 2 * e + 2)
    (hagree : readAt chip b = readAt chip a) : ∃ k, a ≤ k ∧ k ≤ b ∧ stage k % 2 = 0 ∧
      readAt chip b = time (stage k / 2) := by
  have hea := h.even ha
  have heb := h.even hb
  have hab := h.monotone (show a + 7 ≤ b by omega)
  have haa := h.monotone (Nat.le_add_right a 7)
  have hbb := h.monotone (Nat.le_add_right b 7)
  by_cases hstart : stage b = 2 * e
  · refine ⟨a, Nat.le_refl _, by omega, hea, ?_⟩
    rw [hagree]
    exact readAt_steady h hea (by omega)
  · exact ⟨b, by omega, Nat.le_refl _, heb, readAt_steady h heb (by omega)⟩

theorem steady_agree (h : chip.Runs m stage time) (hafter : a + 8 ≤ b)
    (ha : chip a regStatusA &&& 0x80 = 0) (hsame : stage (b + 7) = stage a) :
    readAt chip b = readAt chip a := by
  have heven := h.even ha
  have hab := h.monotone (show a + 7 ≤ b by omega)
  have haa := h.monotone (Nat.le_add_right a 7)
  have hbb := h.monotone (Nat.le_add_right b 7)
  have hb : stage b = stage a := by omega
  rw [readAt_steady h heven (by omega), readAt_steady h (by rw [hb, heven]) (by omega), hb]

/-- Where one update at most touches four readings, two in a row agree. -/
theorem readings_agree (h : chip.Runs m stage time) {c d : ℕ} (hab : a + 8 ≤ b) (hbc : b + 8 ≤ c)
    (hcd : c + 8 ≤ d) (ha : chip a regStatusA &&& 0x80 = 0) (hb : chip b regStatusA &&& 0x80 = 0)
    (hc : chip c regStatusA &&& 0x80 = 0) (hfirst : 2 * e ≤ stage a)
    (hlast : stage (d + 7) ≤ 2 * e + 2) : readAt chip b = readAt chip a ∨
      readAt chip c = readAt chip b ∨ readAt chip d = readAt chip c := by
  have heb := h.even hb
  have hec := h.even hc
  have hsab := h.monotone (show a ≤ b by omega)
  have hsbc := h.monotone (show b + 7 ≤ c by omega)
  have hscd := h.monotone (show c + 7 ≤ d + 7 by omega)
  have hsbb := h.monotone (Nat.le_add_right b 7)
  have hscc := h.monotone (Nat.le_add_right c 7)
  by_cases hearly : stage b = 2 * e + 2
  · exact Or.inr (Or.inl (steady_agree h hbc hb (by omega)))
  · by_cases hlate : stage c = 2 * e
    · exact Or.inl (steady_agree h hab ha (by omega))
    · exact Or.inr (Or.inr (steady_agree h hcd hc (by omega)))

/-- What the driver takes for the time of day is a time that the clock has shown while it was being
read, whenever its updates come, if no more than one of them touches four readings; a time that is
not plausible is not taken. -/
theorem init_shown (h : chip.Runs m stage time) (hfirst : 2 * e ≤ stage n)
    (hlast : ∀ spins u, (readings chip spins 4 : Attempt ℕ Empty Unit).run n = some (.ok (), u) →
      stage u ≤ 2 * e + 2) : ∃ t k u enough, n ≤ k ∧ k < u ∧ stage k % 2 = 0 ∧
      t = time (stage k / 2) ∧ ∀ spins ≥ enough, (init chip spins : Attempt ℕ Empty _).run n =
        some (.ok (if t.isPlausible then some t else none), u) := by
  obtain ⟨a, hna, ha, hreada⟩ := readRaw_run (ε := Empty) h n
  obtain ⟨b, hab, hb, hreadb⟩ := readRaw_run (ε := Empty) h (a + 8)
  obtain ⟨c, hbc, hc, hreadc⟩ := readRaw_run (ε := Empty) h (b + 8)
  obtain ⟨d, hcd, hd, hreadd⟩ := readRaw_run (ε := Empty) h (c + 8)
  have hstart := h.monotone hna
  have hend : stage (d + 8) ≤ 2 * e + 2 := by
    refine hlast (d + 1) (d + 8) ?_
    rw [readings, run_bind_of_ok (hreada _ (by omega)), readings,
      run_bind_of_ok (hreadb _ (by omega)), readings, run_bind_of_ok (hreadc _ (by omega)),
      readings, run_bind_of_ok (hreadd _ (by omega)), readings, run_pure]
  have hdd := h.monotone (show d + 7 ≤ d + 8 by omega)
  have hcc := h.monotone (show c + 7 ≤ d + 7 by omega)
  have hbb := h.monotone (show b + 7 ≤ c + 7 by omega)
  have hsb := h.monotone (show a ≤ b by omega)
  have hsc := h.monotone (show b ≤ c by omega)
  by_cases hfirstPair : readAt chip b = readAt chip a
  · obtain ⟨k, hak, hkb, heven, hexact⟩ :=
      agreed_exact (e := e) h hab ha hb (by omega) (by omega) hfirstPair
    refine ⟨_, k, b + 8, b + 1, by omega, by omega, heven, hexact, fun spins hspins => run_init ?_⟩
    rw [now, run_bind_of_ok (hreada spins (by omega)), run_retry (hreadb spins (by omega)),
      if_pos hfirstPair]
  · by_cases hsecondPair : readAt chip c = readAt chip b
    · obtain ⟨k, hbk, hkc, heven, hexact⟩ :=
        agreed_exact (e := e) h hbc hb hc (by omega) (by omega) hsecondPair
      refine ⟨_, k, c + 8, c + 1, by omega, by omega, heven, hexact, fun spins hspins => run_init ?_⟩
      rw [now, run_bind_of_ok (hreada spins (by omega)), run_retry (hreadb spins (by omega)),
        if_neg hfirstPair, run_retry (hreadc spins (by omega)), if_pos hsecondPair]
    · have hthirdPair : readAt chip d = readAt chip c :=
        ((readings_agree (e := e) h hab hbc hcd ha hb hc (by omega) (by omega)).resolve_left
          hfirstPair).resolve_left hsecondPair
      obtain ⟨k, hck, hkd, heven, hexact⟩ :=
        agreed_exact (e := e) h hcd hc hd (by omega) (by omega) hthirdPair
      refine ⟨_, k, d + 8, d + 1, by omega, by omega, heven, hexact, fun spins hspins => run_init ?_⟩
      rw [now, run_bind_of_ok (hreada spins (by omega)), run_retry (hreadb spins (by omega)),
        if_neg hfirstPair, run_retry (hreadc spins (by omega)), if_neg hsecondPair,
        run_retry (hreadd spins (by omega)), if_pos hthirdPair]

/-- The last second of a year and the first of the next. -/
def newYear (k : ℕ) : DateTime := if k = 0 then ⟨2025, 12, 31, 23, 59, 59⟩ else ⟨2026, 1, 1, 0, 0, 0⟩

/-- Decimal digits, with a flag for the afternoon. -/
def decimal : Mode := ⟨false, false⟩

def registersOf (m : Mode) (t : DateTime) (register : UInt8) : UInt8 :=
  if register = regSeconds then m.digits t.second.toNat
  else if register = regMinutes then m.digits t.minute.toNat
  else if register = regHours then m.hour t.hour.toNat
  else if register = regDay then m.digits t.day.toNat
  else if register = regMonth then m.digits t.month.toNat
  else if register = regYear then m.digits (t.year.toNat % 100)
  else 0

/-- Between the third access and the sixth the year changes. -/
def newYearStage (n : ℕ) : ℕ := if n < 3 then 0 else if n < 6 then 1 else 2

/-- Meanwhile the registers hold anything. -/
def newYearChip : Chip := fun n register =>
  if newYearStage n = 1 then if register = regStatusB then 0 else 0xFF
  else registersOf decimal (newYear (newYearStage n / 2)) register

theorem registersOf_shows (m : Mode) (t : DateTime) : m.Shows t (registersOf m t) :=
  ⟨rfl, rfl, rfl, rfl, rfl, rfl⟩

theorem newYearChip_runs : newYearChip.Runs decimal newYearStage newYear := by
  refine ⟨fun a b hab => ?_, fun n hn => ?_, fun n hn => ?_, fun n => ⟨max n 6, by omega, ?_⟩,
    fun n => ?_, fun k => ?_⟩
  · unfold newYearStage
    by_cases hfirst : a < 3
    · rw [if_pos hfirst]
      exact Nat.zero_le _
    · rw [if_neg hfirst, if_neg (show ¬ b < 3 by omega)]
      split <;> split <;> omega
  · have hrest : newYearChip n = registersOf decimal (newYear (newYearStage n / 2)) :=
      funext fun register => if_neg (by omega)
    rw [hrest]
    exact registersOf_shows _ _
  · have hchanging : newYearStage n = 1 := by
      unfold newYearStage at hn ⊢
      split_ifs at hn ⊢
      omega
    rw [newYearChip, if_pos hchanging]
    decide
  · have hlast : newYearStage (max n 6) = 2 := by
      unfold newYearStage
      rw [if_neg (by omega), if_neg (by omega)]
    rw [newYearChip, hlast]
    rfl
  · have hzero : newYearChip n regStatusB = 0 := by
      unfold newYearChip
      split <;> rfl
    rw [hzero]
    exact ⟨rfl, rfl⟩
  · unfold newYear
    split <;> exact ⟨by decide, by decide, by decide, by decide, by decide, by decide⟩

theorem init_shown_newYear : ∃ t u enough, (t = newYear 0 ∨ t = newYear 1) ∧
    ∀ spins ≥ enough, (init newYearChip spins : Attempt ℕ Empty _).run 0 =
      some (.ok (some t), u) := by
  have hlast : ∀ spins u, (readings newYearChip spins 4 : Attempt ℕ Empty Unit).run 0 =
      some (.ok (), u) → newYearStage u ≤ 2 * 0 + 2 := by
    intro spins u _
    unfold newYearStage
    split
    · omega
    · split <;> omega
  obtain ⟨t, k, u, enough, -, -, -, ht, hrun⟩ := init_shown newYearChip_runs (Nat.zero_le _) hlast
  have hvalid : ∀ k, (newYear k).isPlausible = true := by
    intro k
    unfold newYear
    split <;> decide
  refine ⟨t, u, enough, ?_, fun spins hspins => ?_⟩
  · rw [ht, newYear]
    split
    · exact Or.inl rfl
    · exact Or.inr rfl
  · rw [hrun spins hspins, ht, if_pos (hvalid _)]

end Updates

end RealTimeClock
