import NajmKernel.SpaceRuns
import NajmKernel.UserMemory

/-! How a pointer of a user program is checked: page by page, through the four tables of the active
address space, against what the hardware grants each byte. -/
namespace UserPointers

open PhysicalMemory PageTables AddressSpaces

/-- Why a check has no answer: its turns ran out, or an assertion failed. -/
inductive Stop where
  | turns
  | panic
  deriving DecidableEq, Repr

def checkedAdd (a b : UInt64) : Option UInt64 :=
  if a.toNat + b.toNat < 2 ^ 64 then some (a + b) else none

def pageOf (addr : UInt64) : UInt64 := addr &&& ~~~0xFFF

/-- The loop over the pages of a range, which both checks run. -/
def eachPage (check : UInt64 → Bool) (lastPage : UInt64) : UInt64 → ℕ → Except Stop Bool
  | _, 0 => .error .turns
  | page, turns + 1 =>
    if check page = false then .ok false
    else if page = lastPage then .ok true
    else eachPage check lastPage (page + 4096) turns

section Walks

variable (m : Memory) (requireWritable : Bool) (addr : ℕ)

/-- The flags that both walks ask of an entry. -/
def permits (flags : PageTableFlags) : Bool :=
  if flags.contains .present = false ∨ flags.contains .userAccessible = false then false
  else if requireWritable = true ∧ flags.contains .writable = false then false
  else true

/-- The walk of `page_is_user_accessible` from a table of level `l`. A huge page is looked for at
every level but the last. -/
def userWalk : ℕ → Frame → Bool
  | 0, _ => true
  | l + 1, table =>
    let e := entry m table (index (l + 1) (addr / 4096))
    if permits requireWritable e.flags = false then false
    else if l ≠ 0 ∧ e.flags.contains .hugePage = true then true
    else userWalk l e.frame

/-- The walk of `page_is_accessible`, which knows no huge pages. -/
def spaceWalk : ℕ → Frame → Bool
  | 0, _ => true
  | l + 1, table =>
    let e := entry m table (index (l + 1) (addr / 4096))
    if permits requireWritable e.flags = false then false
    else spaceWalk l e.frame

end Walks

/-- What both checks of a range do: `unready` is their outcome before the offset of the window on
physical memory has been recorded. -/
def checkRange (unready : Except Stop Bool) (check : Option (UInt64 → Bool)) (start len : UInt64)
    (turns : ℕ) : Except Stop Bool :=
  if len = 0 then .ok true
  else
    match checkedAdd start (len - 1) with
    | none => .ok false
    | some last =>
      if isUserAddress start.toNat = false ∨ isUserAddress last.toNat = false then .ok false
      else
        match check with
        | none => unready
        | some check => eachPage check (pageOf last) (pageOf start) turns

def pageIsUserAccessible (m : Memory) (cr3 : Frame) (addr : UInt64) (requireWritable : Bool) :
    Bool :=
  userWalk m requireWritable addr.toNat 4 cr3

def rangeIsUser (window : Option Memory) (cr3 : Frame) (start len : UInt64)
    (requireWritable : Bool) : ℕ → Except Stop Bool :=
  checkRange (.ok false)
    (window.map fun m page =>
      if isCanonical page.toNat then pageIsUserAccessible m cr3 page requireWritable else false)
    start len

def pageIsAccessible (m : Memory) (space : AddressSpace) (addr : UInt64)
    (requireWritable : Bool) : Bool :=
  if isCanonical addr.toNat then spaceWalk m requireWritable addr.toNat 4 space.root else false

def rangeIsAccessible (window : Option Memory) (space : AddressSpace) (start len : UInt64)
    (requireWritable : Bool) : ℕ → Except Stop Bool :=
  checkRange (.error .panic)
    (window.map fun m page => pageIsAccessible m space page requireWritable) start len

/-- The answer does not depend on the turns once there are enough of them. -/
def Answers (check : ℕ → Except Stop Bool) (answer : Bool) : Prop :=
  ∃ enough, ∀ turns, enough ≤ turns → check turns = .ok answer

/-! What the hardware grants. -/

/-- The bits of an address that select its entry in a table of level `l`. -/
def slot (l addr : ℕ) : ℕ := addr / 2 ^ (12 + 9 * (l - 1)) % 512

structure Permitted (requireWritable : Bool) (flags : PageTableFlags) : Prop where
  present : flags.contains .present = true
  userAccessible : flags.contains .userAccessible = true
  writable : requireWritable = true → flags.contains .writable = true

/-- Ring 3 may access the byte: every entry permits it, down to the leaf, which maps 4 KiB from a
table of level 1, and 2 MiB or 1 GiB from one of level 2 or 3 where its page-size bit is set. -/
inductive Granted (m : Memory) (requireWritable : Bool) (addr : ℕ) : ℕ → Frame → Prop
  | leaf {t : Frame} (permitted : Permitted requireWritable (entry m t (slot 1 addr)).flags) :
      Granted m requireWritable addr 1 t
  | large {l : ℕ} {t : Frame} (level : l = 2 ∨ l = 3)
      (permitted : Permitted requireWritable (entry m t (slot l addr)).flags)
      (huge : (entry m t (slot l addr)).flags.contains .hugePage = true) :
      Granted m requireWritable addr l t
  | table {l : ℕ} {t : Frame}
      (permitted : Permitted requireWritable (entry m t (slot (l + 2) addr)).flags)
      (small : l + 2 = 4 ∨ (entry m t (slot (l + 2) addr)).flags.contains .hugePage = false)
      (below : Granted m requireWritable addr (l + 1) (entry m t (slot (l + 2) addr)).frame) :
      Granted m requireWritable addr (l + 2) t

/-- No entry of the root sets the page-size bit, which is reserved there. -/
def PlainRoot (m : Memory) (root : Frame) : Prop :=
  ∀ i < 512, (entry m root i).flags.contains .hugePage = false

/-- The page is not reached through a huge one. -/
def SmallPath (m : Memory) (page : ℕ) : ℕ → Frame → Prop
  | 0, _ => True
  | l + 1, t =>
    let e := entry m t (index (l + 1) page)
    e.flags.contains .present = true →
      (l ≠ 0 → e.flags.contains .hugePage = false) ∧ SmallPath m page l e.frame

/-- The user half of an address space without huge pages. -/
def HugeFree (m : Memory) (root : Frame) : Prop :=
  ∀ page, 4096 * page < userSpaceEnd → SmallPath m page 4 root

variable {m : Memory} {w : Bool} {l addr page : ℕ} {t cr3 : Frame} {start len last : UInt64}
  {flags : PageTableFlags} {space : AddressSpace}

theorem permits_iff : permits w flags = true ↔ Permitted w flags := by
  constructor
  · intro h
    unfold permits at h
    split at h
    · cases h
    · rename_i hf
      split at h
      · cases h
      · rename_i hw
        simp only [not_or, Bool.not_eq_false] at hf
        refine ⟨hf.1, hf.2, fun hreq => ?_⟩
        simpa [hreq] using hw
  · rintro ⟨hp, hu, hw⟩
    have hwrite : ¬ (w = true ∧ flags.contains .writable = false) := by
      rintro ⟨hreq, hno⟩
      rw [hw hreq] at hno
      cases hno
    simp [permits, hp, hu, hwrite]

theorem slot_eq_index (l addr : ℕ) : slot l addr = index l (addr / 4096) := by
  rw [slot, index, Nat.div_div_eq_div_mul, pow_add, pow_mul]
  norm_num

/-- Below the root the walk finds what the hardware grants, huge pages included. -/
theorem userWalk_iff (hl : l ≤ 2) :
    userWalk m w addr (l + 1) t = true ↔ Granted m w addr (l + 1) t := by
  induction l generalizing t with
  | zero =>
    have hwalk : userWalk m w addr 1 t = permits w (entry m t (slot 1 addr)).flags := by
      rw [slot_eq_index]
      simp [userWalk]
    rw [hwalk, permits_iff]
    constructor
    · exact Granted.leaf
    · intro h
      cases h with
      | leaf permitted => exact permitted
      | large level => omega
  | succ l ih =>
    rw [userWalk, ← slot_eq_index]
    by_cases hp : permits w (entry m t (slot (l + 2) addr)).flags = true
    · rw [if_neg (by simp [hp])]
      by_cases hh : (entry m t (slot (l + 2) addr)).flags.contains .hugePage = true
      · rw [if_pos ⟨by omega, hh⟩]
        simp only [true_iff]
        exact .large (by omega) (permits_iff.mp hp) hh
      · rw [if_neg (by simp [hh]), ih (by omega)]
        constructor
        · exact Granted.table (permits_iff.mp hp) (Or.inr (Bool.eq_false_iff.mpr hh))
        · intro h
          cases h with
          | large _ _ huge => exact absurd huge hh
          | table _ _ below => exact below
    · rw [if_pos (Bool.eq_false_iff.mpr hp)]
      constructor
      · intro h
        cases h
      · intro h
        cases h with
        | large _ permitted => exact absurd (permits_iff.mpr permitted) hp
        | table permitted => exact absurd (permits_iff.mpr permitted) hp

theorem userWalk_root (plain : PlainRoot m cr3) :
    userWalk m w addr 4 cr3 = true ↔ Granted m w addr 4 cr3 := by
  have hplain := plain (slot 4 addr) (Nat.mod_lt _ (by decide))
  rw [userWalk, ← slot_eq_index, hplain]
  by_cases hp : permits w (entry m cr3 (slot 4 addr)).flags = true
  · rw [if_neg (by simp [hp]), if_neg (by simp), userWalk_iff le_rfl]
    constructor
    · exact Granted.table (permits_iff.mp hp) (Or.inl rfl)
    · intro h
      cases h with
      | large level => omega
      | table _ _ below => exact below
  · rw [if_pos (Bool.eq_false_iff.mpr hp)]
    constructor
    · intro h
      cases h
    · intro h
      cases h with
      | large level => omega
      | table permitted => exact absurd (permits_iff.mpr permitted) hp

/-- Without huge pages on the way the two walks are one. -/
theorem spaceWalk_eq (h : SmallPath m (addr / 4096) l t) :
    spaceWalk m w addr l t = userWalk m w addr l t := by
  induction l generalizing t with
  | zero => rfl
  | succ l ih =>
    rw [spaceWalk, userWalk]
    by_cases hp : permits w (entry m t (index (l + 1) (addr / 4096))).flags = true
    · obtain ⟨hsmall, hbelow⟩ := h (permits_iff.mp hp).present
      have hhuge : ¬ (l ≠ 0 ∧
          (entry m t (index (l + 1) (addr / 4096))).flags.contains .hugePage = true) := by
        rintro ⟨hl, hh⟩
        rw [hsmall hl] at hh
        cases hh
      rw [if_neg (by simp [hp]), if_neg (by simp [hp]), if_neg hhuge]
      exact ih hbelow
    · rw [if_pos (Bool.eq_false_iff.mpr hp), if_pos (Bool.eq_false_iff.mpr hp)]

/-! From pages to bytes. -/

theorem toNat_pageOf (addr : UInt64) : (pageOf addr).toNat = 4096 * (addr.toNat / 4096) := by
  have hmask : (~~~(0xFFF : UInt64)).toNat = 2 ^ 64 - (2 ^ 12 - 1 + 1) := by decide
  rw [pageOf, UInt64.toNat_and, hmask, show (4096 : ℕ) = 2 ^ 12 by norm_num]
  apply Nat.eq_of_testBit_eq
  intro i
  rw [Nat.testBit_and, Nat.testBit_two_pow_sub_succ (by norm_num), Nat.testBit_two_pow_sub_one,
    Nat.testBit_two_pow_mul, Nat.testBit_div_two_pow]
  by_cases hi : i < 12
  · simp [hi]
  · have hle : 12 ≤ i := by omega
    by_cases htop : i < 64
    · simp [hi, hle, htop]
    · have hbit : addr.toNat.testBit i = false :=
        Nat.testBit_lt_two_pow (lt_of_lt_of_le addr.toNat_lt (Nat.pow_le_pow_right (by decide)
          (by omega)))
      simp [hle, hbit]

/-- One turn a page, and the check of each page decides. -/
theorem eachPage_spec (check : UInt64 → Bool) {n : ℕ} {page lastPage : UInt64}
    (hlast : lastPage.toNat = page.toNat + 4096 * n) :
    ∃ answer, (∀ turns, n < turns → eachPage check lastPage page turns = .ok answer) ∧
      (answer = true ↔ ∀ i ≤ n, ∀ p : UInt64, p.toNat = page.toNat + 4096 * i → check p = true) := by
  induction n generalizing page with
  | zero =>
    have hsame : page = lastPage := UInt64.toNat_inj.mp (by omega)
    have hall : (∀ i ≤ 0, ∀ p : UInt64, p.toNat = page.toNat + 4096 * i → check p = true) ↔
        check page = true := by
      constructor
      · intro h
        exact h 0 le_rfl page (by omega)
      · intro h i hi p hp
        have : p = page := UInt64.toNat_inj.mp (by omega)
        rwa [this]
    refine ⟨check page, fun turns hturns => ?_, hall.symm⟩
    obtain ⟨turns, rfl⟩ := Nat.exists_eq_succ_of_ne_zero (Nat.ne_zero_of_lt hturns)
    rw [eachPage, if_pos hsame]
    cases check page <;> rfl
  | succ n ih =>
    have hne : page ≠ lastPage := by
      rintro rfl
      omega
    have hnext : (page + 4096).toNat = page.toNat + 4096 := by
      have := lastPage.toNat_lt
      rw [UInt64.toNat_add]
      exact Nat.mod_eq_of_lt (by simp only [UInt64.reduceToNat]; omega)
    by_cases hc : check page = true
    · have hrest : lastPage.toNat = (page + 4096).toNat + 4096 * n := by omega
      obtain ⟨answer, hrun, hiff⟩ := ih hrest
      refine ⟨answer, fun turns hturns => ?_, hiff.trans ?_⟩
      · obtain ⟨turns, rfl⟩ := Nat.exists_eq_succ_of_ne_zero (Nat.ne_zero_of_lt hturns)
        rw [eachPage, if_neg (by simp [hc]), if_neg hne, hrun turns (by omega)]
      · constructor
        · intro h i hi p hp
          rcases Nat.eq_zero_or_pos i with rfl | hpos
          · have : p = page := UInt64.toNat_inj.mp (by omega)
            rwa [this]
          · exact h (i - 1) (by omega) p (by omega)
        · intro h i hi p hp
          exact h (i + 1) (by omega) p (by omega)
    · refine ⟨false, fun turns hturns => ?_, ?_⟩
      · obtain ⟨turns, rfl⟩ := Nat.exists_eq_succ_of_ne_zero (Nat.ne_zero_of_lt hturns)
        rw [eachPage, if_pos (Bool.eq_false_iff.mpr hc)]
      · simp only [Bool.false_eq_true, false_iff, not_forall]
        exact ⟨0, by omega, page, by omega, hc⟩

/-- The loop over a range, by the bytes of the range. -/
theorem eachPage_range (check : UInt64 → Bool) {P : ℕ → Prop}
    (hle : start.toNat ≤ last.toNat)
    (hcheck : ∀ p : UInt64, p.toNat ≤ last.toNat → (check p = true ↔ P (p.toNat / 4096))) :
    ∃ answer, Answers (eachPage check (pageOf last) (pageOf start)) answer ∧
      (answer = true ↔ ∀ a, start.toNat ≤ a → a ≤ last.toNat → P (a / 4096)) := by
  have hlast : (pageOf last).toNat = (pageOf start).toNat +
      4096 * (last.toNat / 4096 - start.toNat / 4096) := by
    rw [toNat_pageOf, toNat_pageOf]
    omega
  obtain ⟨answer, hrun, hiff⟩ := eachPage_spec check hlast
  refine ⟨answer, ⟨_, fun turns hturns => hrun turns hturns⟩, hiff.trans ?_⟩
  rw [← UserMemory.pages_iff_bytes hle]
  constructor
  · intro h i hi
    have hlt : 4096 * (start.toNat / 4096 + i) < 2 ^ 64 := by
      have := last.toNat_lt
      omega
    have hp : (UInt64.ofNat (4096 * (start.toNat / 4096 + i))).toNat =
        4096 * (start.toNat / 4096 + i) := UInt64.toNat_ofNat_of_lt' hlt
    have hc := h i hi (UInt64.ofNat (4096 * (start.toNat / 4096 + i)))
      (by rw [hp, toNat_pageOf]; omega)
    rw [hcheck _ (by omega), hp, Nat.mul_div_cancel_left _ (by decide)] at hc
    exact hc
  · intro h i hi p hp
    rw [toNat_pageOf] at hp
    rw [hcheck p (by omega)]
    have : p.toNat / 4096 = start.toNat / 4096 + i := by omega
    rw [this]
    exact h i hi

theorem toNat_pred (h : len ≠ 0) : (len - 1).toNat = len.toNat - 1 ∧ 0 < len.toNat := by
  have hpos : 0 < len.toNat := by
    rw [Nat.pos_iff_ne_zero]
    intro hz
    exact h (UInt64.toNat_inj.mp hz)
  refine ⟨UInt64.toNat_sub_of_le _ _ ?_, hpos⟩
  exact UInt64.le_iff_toNat_le.mpr hpos

/-- The bytes from `start` on are a range of user addresses, and `P` holds of the page of each. -/
def Ranges (P : ℕ → Prop) (start len : UInt64) : Prop :=
  len = 0 ∨ start.toNat + (len.toNat - 1) < 2 ^ 64 ∧
    ∀ a, start.toNat ≤ a → a ≤ start.toNat + (len.toNat - 1) → a < userSpaceEnd ∧ P (a / 4096)

/-- A check of a range answers, by the pages of its bytes. -/
theorem checkRange_spec (unready : Except Stop Bool) (start len : UInt64)
    (check : UInt64 → Bool) {P : ℕ → Prop}
    (hcheck : ∀ p : UInt64, p.toNat < userSpaceEnd → (check p = true ↔ P (p.toNat / 4096))) :
    ∃ answer, Answers (checkRange unready (some check) start len) answer ∧
      (answer = true ↔ Ranges P start len) := by
  unfold Ranges
  by_cases hz : len = 0
  · exact ⟨true, ⟨0, fun turns _ => by rw [checkRange, if_pos hz]⟩, by simp [hz]⟩
  obtain ⟨hpred, hpos⟩ := toNat_pred hz
  simp only [hz, false_or]
  by_cases hwrap : start.toNat + (len.toNat - 1) < 2 ^ 64
  · have hlast : (start + (len - 1)).toNat = start.toNat + (len.toNat - 1) := by
      rw [UInt64.toNat_add, hpred]
      exact Nat.mod_eq_of_lt hwrap
    have hsum : checkedAdd start (len - 1) = some (start + (len - 1)) := by
      rw [checkedAdd, hpred, if_pos hwrap]
    by_cases huser : isUserAddress start.toNat = false ∨
        isUserAddress (start + (len - 1)).toNat = false
    · refine ⟨false, ⟨0, fun turns _ => ?_⟩, ?_⟩
      · simp only [checkRange, if_neg hz, hsum, if_pos huser]
      · simp only [Bool.false_eq_true, false_iff]
        intro h
        have hstart := (h.2 start.toNat le_rfl (by omega)).1
        have hend := (h.2 (start.toNat + (len.toNat - 1)) (by omega) le_rfl).1
        rw [hlast] at huser
        simp only [isUserAddress, decide_eq_false_iff_not] at huser
        omega
    · have hends := huser
      simp only [isUserAddress, hlast, not_or, Bool.not_eq_false, decide_eq_true_eq] at hends
      have hle : start.toNat ≤ (start + (len - 1)).toNat := by omega
      obtain ⟨answer, ⟨enough, hrun⟩, hiff⟩ :=
        eachPage_range check (P := P) hle fun p hp => hcheck p (by omega)
      refine ⟨answer, ⟨enough, fun turns hturns => ?_⟩, hiff.trans ?_⟩
      · simp only [checkRange, if_neg hz, hsum, if_neg huser]
        exact hrun turns hturns
      · rw [hlast]
        constructor
        · intro h
          exact ⟨hwrap, fun a hsa hal => ⟨by omega, h a hsa hal⟩⟩
        · intro h a hsa hal
          exact (h.2 a hsa hal).2
  · have hsum : checkedAdd start (len - 1) = none := by rw [checkedAdd, hpred, if_neg hwrap]
    refine ⟨false, ⟨0, fun turns _ => ?_⟩, ?_⟩
    · simp only [checkRange, if_neg hz, hsum]
    · simp only [Bool.false_eq_true, false_iff]
      intro h
      exact hwrap h.1

/-- Every address of a page takes the same walk. -/
theorem userWalk_page {b : ℕ} (h : addr / 4096 = b / 4096) :
    userWalk m w addr l t = userWalk m w b l t := by
  induction l generalizing t with
  | zero => rfl
  | succ l ih => rw [userWalk, userWalk, h, ih]

theorem canonical_of_user (h : addr < userSpaceEnd) : isCanonical addr = true := by
  apply decide_eq_true
  left
  unfold userSpaceEnd at h
  omega

section Checks

variable (plain : PlainRoot m cr3)
include plain

/-- The pages Ring 3 may access. -/
theorem page_iff_granted {p : UInt64} (hp : p.toNat < userSpaceEnd) :
    (if isCanonical p.toNat = true then pageIsUserAccessible m cr3 p w else false) = true ↔
      Granted m w (4096 * (p.toNat / 4096)) 4 cr3 := by
  rw [if_pos (canonical_of_user hp), pageIsUserAccessible, ← userWalk_root plain,
    userWalk_page (b := 4096 * (p.toNat / 4096)) (by omega)]

theorem granted_page : Granted m w (4096 * (addr / 4096)) 4 cr3 ↔ Granted m w addr 4 cr3 := by
  rw [← userWalk_root plain, ← userWalk_root plain, userWalk_page (b := addr) (by omega)]

end Checks

theorem spacePage_eq (free : HugeFree m space.root) {p : UInt64} (hp : p.toNat < userSpaceEnd) :
    pageIsAccessible m space p w =
      if isCanonical p.toNat then pageIsUserAccessible m space.root p w else false := by
  have hpage : 4096 * (p.toNat / 4096) < userSpaceEnd := by omega
  rw [pageIsAccessible, spaceWalk_eq (free _ hpage), pageIsUserAccessible]

theorem rangeIsUser_spec (plain : PlainRoot m cr3) (start len : UInt64) (w : Bool) :
    ∃ answer, Answers (rangeIsUser (some m) cr3 start len w) answer ∧
      (answer = true ↔ Ranges (fun page => Granted m w (4096 * page) 4 cr3) start len) :=
  checkRange_spec _ start len _ fun _ hp => page_iff_granted plain hp

theorem rangeIsAccessible_spec (plain : PlainRoot m space.root) (free : HugeFree m space.root)
    (start len : UInt64) (w : Bool) :
    ∃ answer, Answers (rangeIsAccessible (some m) space start len w) answer ∧
      (answer = true ↔ Ranges (fun page => Granted m w (4096 * page) 4 space.root) start len) := by
  apply checkRange_spec
  intro p hp
  have hpage := page_iff_granted (w := w) plain hp
  rwa [← spacePage_eq free hp] at hpage

/-- A pointer check comes to an end, and admits a range exactly when each of its bytes lies below
the user limit and the hardware grants it; where no huge page is in the way, the check of the
active address space gives the same answer. -/
theorem pointer_checks_exact (plain : PlainRoot m cr3) (start len : UInt64) (w : Bool) :
    ∃ answer, Answers (rangeIsUser (some m) cr3 start len w) answer ∧
      (answer = true ↔ len = 0 ∨ start.toNat + (len.toNat - 1) < 2 ^ 64 ∧
        ∀ a, start.toNat ≤ a → a ≤ start.toNat + (len.toNat - 1) →
          a < userSpaceEnd ∧ Granted m w a 4 cr3) ∧
      ∀ space : AddressSpace, space.root = cr3 → HugeFree m cr3 →
        Answers (rangeIsAccessible (some m) space start len w) answer := by
  obtain ⟨answer, hrun, hiff⟩ := rangeIsUser_spec plain start len w
  refine ⟨answer, hrun, ?_, ?_⟩
  · rw [hiff, Ranges]
    simp only [granted_page plain]
  · rintro space rfl free
    obtain ⟨other, hother, hiff'⟩ := rangeIsAccessible_spec plain free start len w
    have hsame : other = answer := Bool.eq_iff_iff.mpr (hiff'.trans hiff.symm)
    rwa [hsame] at hother

/-- A root whose only frame is its own table: every byte below it is granted. -/
def selfMapped : Memory := fun _ o => if o % 8 = 0 then 7 else 0

theorem entry_selfMapped (t : Frame) (i : ℕ) :
    entry selfMapped t i = ⟨0, .present ||| .writable ||| .userAccessible⟩ := by
  have hread : selfMapped.read t (8 * i) 8 = [7, 0, 0, 0, 0, 0, 0, 0] := by
    simp [Memory.read, selfMapped, List.range_succ]
  rw [entry, Memory.word, hread]
  decide

theorem selfMapped_plain (root : Frame) : PlainRoot selfMapped root := by
  intro i _
  rw [entry_selfMapped]
  decide

theorem selfMapped_granted (l : ℕ) (t : Frame) : Granted selfMapped w addr (l + 1) t := by
  have hflags (i : ℕ) (t : Frame) : Permitted w (entry selfMapped t i).flags := by
    rw [entry_selfMapped]
    exact ⟨by decide, by decide, fun _ => by decide⟩
  induction l generalizing t with
  | zero => exact .leaf (hflags _ _)
  | succ l ih =>
    refine .table (hflags _ _) (Or.inr ?_) (ih _)
    rw [entry_selfMapped]
    decide

theorem selfMapped_hugeFree (root : Frame) : HugeFree selfMapped root := by
  have hsmall (l page : ℕ) (t : Frame) : SmallPath selfMapped page l t := by
    induction l generalizing t with
    | zero => trivial
    | succ l ih =>
      intro _
      rw [entry_selfMapped]
      exact ⟨fun _ => by decide, ih _⟩
  exact fun page _ => hsmall 4 page root

theorem pointer_checks_exact_selfMapped :
    Answers (rangeIsUser (some selfMapped) 0 0x1ffc 0x2000 true) true ∧
      Answers (rangeIsAccessible (some selfMapped) ⟨0, []⟩ 0x1ffc 0x2000 true) true := by
  obtain ⟨answer, hrun, hiff, hspace⟩ :=
    pointer_checks_exact (selfMapped_plain 0) 0x1ffc 0x2000 true
  have hanswer : answer = true := by
    refine hiff.mpr (Or.inr ⟨by decide, fun a _ ha => ⟨?_, selfMapped_granted 3 0⟩⟩)
    exact lt_of_le_of_lt ha (by decide)
  rw [hanswer] at hrun hspace
  exact ⟨hrun, hspace ⟨0, []⟩ rfl (selfMapped_hugeFree 0)⟩

/-! The address spaces of this kernel. -/

section Spaces

variable {X : Mapper} {kernelRoot : Frame} {level : Frame → Option ℕ} {data : Frame → Prop}
  {s₀ s : SpaceRuns.State} {place : Placement} {es : List SpaceRuns.Event} {id : ℕ}

theorem smallPath_of_tree (T : TableTree m space.root place w) (hp : page < 2 ^ 35)
    (ht : place t = some (l, page / 512 ^ l)) : SmallPath m page l t := by
  induction l generalizing t with
  | zero => trivial
  | succ l ih =>
    intro hpresent
    have hu := used_of_present hpresent
    refine ⟨fun hl => ?_, ih (T.child_of_page hp ht hu)⟩
    obtain ⟨k, rfl⟩ := Nat.exists_eq_succ_of_ne_zero hl
    exact (T.parent (TableTree.slot_of_page hp ht) hu).huge

theorem hugeFree_of_tree (T : TableTree m space.root place w) : HugeFree m space.root := by
  intro page hpage
  have hp : page < 2 ^ 35 := by
    unfold userSpaceEnd at hpage
    omega
  apply smallPath_of_tree T hp
  rw [T.atRoot, Nat.div_eq_of_lt (lt_trans hp (by norm_num))]

theorem plainRoot_of_isolated {place : ℕ → Placement}
    (I : SpaceRuns.Isolated kernelRoot level data s₀ s place)
    (plain : PlainRoot s₀.system.bytes kernelRoot) (hs : s.spaces id = some space) :
    PlainRoot s.system.bytes space.root := by
  intro i hi
  by_cases hlow : i < 256
  · have T := I.tree hs
    by_cases hu : isUnused s.system.bytes space.root i
    · rw [entry, hu]
      decide
    · exact (T.parent ⟨T.atRoot, hi, fun _ => hlow⟩ hu).huge
  · have hword := I.upper hs i (by omega) hi
    rw [entry, hword]
    exact plain i hi

/-- In every state the kernel reaches, the two checks of a pointer agree on every address space
it has built, and admit what the hardware grants there. -/
theorem space_pointer_checks (boots : SpaceRuns.Boots kernelRoot level data s₀)
    (plain : PlainRoot s₀.system.bytes kernelRoot)
    (hrun : TransitionSystem.exec (SpaceRuns.next X kernelRoot) s₀ es = some s)
    (hs : s.spaces id = some space) (start len : UInt64) (w : Bool) :
    ∃ answer, Answers (rangeIsUser (some s.system.bytes) space.root start len w) answer ∧
      Answers (rangeIsAccessible (some s.system.bytes) space start len w) answer ∧
      (answer = true ↔
        Ranges (fun page => Granted s.system.bytes w (4096 * page) 4 space.root) start len) := by
  obtain ⟨place, I⟩ := boots.run hrun
  have hplain := plainRoot_of_isolated I plain hs
  obtain ⟨answer, hanswer, hiff⟩ := rangeIsUser_spec hplain start len w
  obtain ⟨other, hother, hiff'⟩ :=
    rangeIsAccessible_spec hplain (hugeFree_of_tree (I.tree hs)) start len w
  have hsame : other = answer := Bool.eq_iff_iff.mpr (hiff'.trans hiff.symm)
  rw [hsame] at hother
  exact ⟨answer, hanswer, hother, hiff⟩

end Spaces

/-! The memory of a program, by the walk of its tables. -/

/-- What a syscall sees of the program whose root is active. -/
def userSpace (m : Memory) (cr3 : Frame) (bytes : ℕ → UInt8) : UserMemory.UserSpace where
  accessible page := userWalk m false (4096 * page) 4 cr3
  writable page := userWalk m true (4096 * page) 4 cr3
  bytes := bytes

theorem userWalk_weaken (h : userWalk m true addr l t = true) :
    userWalk m false addr l t = true := by
  induction l generalizing t with
  | zero => rfl
  | succ l ih =>
    rw [userWalk] at h ⊢
    by_cases hp : permits true (entry m t (index (l + 1) (addr / 4096))).flags = true
    · have hpermit := permits_iff.mp hp
      have hread : permits false (entry m t (index (l + 1) (addr / 4096))).flags = true :=
        permits_iff.mpr ⟨hpermit.present, hpermit.userAccessible, by simp⟩
      rw [if_neg (by simp [hp])] at h
      rw [if_neg (by simp [hread])]
      split
      · rfl
      · rename_i hhuge
        rw [if_neg hhuge] at h
        exact ih h
    · rw [if_pos (Bool.eq_false_iff.mpr hp)] at h
      cases h

theorem userSpace_allows {bytes : ℕ → UInt8} :
    (userSpace m cr3 bytes).allows w page = userWalk m w (4096 * page) 4 cr3 := by
  cases w with
  | false => simp [UserMemory.UserSpace.allows, userSpace]
  | true =>
    rw [Bool.eq_iff_iff]
    simp only [UserMemory.UserSpace.allows, userSpace, Bool.not_true, Bool.false_or,
      Bool.and_eq_true, and_iff_right_iff_imp]
    exact userWalk_weaken

theorem ranges_iff {P : ℕ → Prop} : Ranges P start len ↔ ∀ a, start.toNat ≤ a →
    a < start.toNat + len.toNat → a < userSpaceEnd ∧ P (a / 4096) := by
  rw [Ranges]
  by_cases hz : len = 0
  · simp only [hz, true_or, true_iff]
    intro a ha hlt
    exact absurd hlt (by simp; omega)
  have hpos := (toNat_pred hz).2
  simp only [hz, false_or]
  constructor
  · rintro ⟨-, h⟩ a ha hlt
    exact h a ha (by omega)
  · intro h
    refine ⟨?_, fun a ha hlast => h a ha (by omega)⟩
    have hlast := (h (start.toNat + (len.toNat - 1)) (Nat.le_add_right _ _) (by omega)).1
    unfold userSpaceEnd at hlast
    omega

/-- The check of the syscalls' user memory is the walk of the active tables. -/
theorem rangeIsUser_userSpace (m : Memory) (cr3 : Frame) (bytes : ℕ → UInt8)
    (start len : UInt64) (w : Bool) :
    Answers (rangeIsUser (some m) cr3 start len w)
      (UserMemory.rangeIsUser (userSpace m cr3 bytes) start.toNat len.toNat w) := by
  obtain ⟨answer, hrun, hiff⟩ := checkRange_spec (.ok false) start len
    (fun page => if isCanonical page.toNat then pageIsUserAccessible m cr3 page w else false)
    (P := fun page => userWalk m w (4096 * page) 4 cr3 = true) fun p hp => by
      rw [if_pos (canonical_of_user hp), pageIsUserAccessible,
        userWalk_page (b := 4096 * (p.toNat / 4096)) (by omega)]
  have hsame : UserMemory.rangeIsUser (userSpace m cr3 bytes) start.toNat len.toNat w = answer := by
    rw [Bool.eq_iff_iff, UserMemory.rangeIsUser_iff, hiff, ranges_iff]
    simp only [userSpace_allows, isUserAddress, decide_eq_true_eq]
  rwa [hsame]

end UserPointers
