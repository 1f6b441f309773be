import Mathlib.Data.BitVec
import Mathlib.Tactic.IntervalCases
import NajmKernel.PhysicalMemory

/-! Four-level page tables in physical memory, and what a mapper may do to them. Levels count
from the tables of leaf entries, level 1, up to the root, level 4; a page is known by its number. -/
namespace PageTables

open PhysicalMemory

/-- The twelve low and the twelve high bits of an entry. -/
structure PageTableFlags where
  low : BitVec 12
  high : BitVec 12
  deriving DecidableEq, Repr

namespace PageTableFlags

def present : PageTableFlags := ⟨BitVec.twoPow 12 0, 0#12⟩
def writable : PageTableFlags := ⟨BitVec.twoPow 12 1, 0#12⟩
def userAccessible : PageTableFlags := ⟨BitVec.twoPow 12 2, 0#12⟩
def hugePage : PageTableFlags := ⟨BitVec.twoPow 12 7, 0#12⟩
/-- Bit 63 of an entry. -/
def noExecute : PageTableFlags := ⟨0#12, BitVec.twoPow 12 11⟩

def union (a b : PageTableFlags) : PageTableFlags := ⟨a.low ||| b.low, a.high ||| b.high⟩

instance : OrOp PageTableFlags := ⟨union⟩

/-- `contains`, for the flags this kernel asks about. -/
def contains (a b : PageTableFlags) : Bool :=
  decide (a.low &&& b.low = b.low ∧ a.high &&& b.high = b.high)

@[simp] theorem low_or (a b : PageTableFlags) : (a ||| b).low = a.low ||| b.low := rfl

@[simp] theorem high_or (a b : PageTableFlags) : (a ||| b).high = a.high ||| b.high := rfl

theorem contains_or {a b c : PageTableFlags} (h : a.contains c = true ∨ b.contains c = true) :
    (a ||| b).contains c = true := by
  have key : ∀ x y z : BitVec 12, x &&& z = z ∨ y &&& z = z → (x ||| y) &&& z = z := by
    intro x y z hz
    apply BitVec.eq_of_getLsbD_eq
    intro i hi
    rcases hz with hz | hz <;>
      · have hb := congrArg (fun v => v.getLsbD i) hz
        simp only [BitVec.getLsbD_and, BitVec.getLsbD_or] at hb ⊢
        revert hb
        cases x.getLsbD i <;> cases y.getLsbD i <;> cases z.getLsbD i <;> simp
  apply decide_eq_true
  rcases h with h | h
  · obtain ⟨hl, hh⟩ := of_decide_eq_true h
    exact ⟨key _ _ _ (Or.inl hl), key _ _ _ (Or.inl hh)⟩
  · obtain ⟨hl, hh⟩ := of_decide_eq_true h
    exact ⟨key _ _ _ (Or.inr hl), key _ _ _ (Or.inr hh)⟩

theorem and_bit {x : BitVec 12} (h : i < 12) :
    x &&& BitVec.twoPow 12 i = BitVec.twoPow 12 i ↔ x.getLsbD i = true := by
  have hbit : (BitVec.twoPow 12 i).getLsbD i = true := by simp [h]
  constructor
  · intro he
    have hb := congrArg (fun v => v.getLsbD i) he
    simpa [hbit] using hb
  · intro hx
    rw [BitVec.and_twoPow, if_pos hx]

theorem contains_low (a : PageTableFlags) (h : i < 12) :
    a.contains ⟨BitVec.twoPow 12 i, 0#12⟩ = a.low.getLsbD i := by
  rw [Bool.eq_iff_iff, contains, decide_eq_true_eq, and_bit h]
  simp

theorem contains_present (a : PageTableFlags) : a.contains present = a.low.getLsbD 0 :=
  contains_low a (by decide)

theorem contains_writable (a : PageTableFlags) : a.contains writable = a.low.getLsbD 1 :=
  contains_low a (by decide)

theorem contains_userAccessible (a : PageTableFlags) :
    a.contains userAccessible = a.low.getLsbD 2 := contains_low a (by decide)

theorem contains_huge (a : PageTableFlags) : a.contains hugePage = a.low.getLsbD 7 :=
  contains_low a (by decide)

theorem contains_noExecute (a : PageTableFlags) : a.contains noExecute = a.high.getLsbD 11 := by
  have h := and_bit (x := a.high) (i := 11) (by decide)
  rw [Bool.eq_iff_iff, contains, decide_eq_true_eq, ← h]
  simp [noExecute]

theorem huge_or (a b : PageTableFlags) :
    (a ||| b).contains hugePage = (a.contains hugePage || b.contains hugePage) := by
  simp [contains_huge]

theorem noExecute_or (a b : PageTableFlags) :
    (a ||| b).contains noExecute = (a.contains noExecute || b.contains noExecute) := by
  simp [contains_noExecute]

end PageTableFlags

structure Entry where
  frame : Frame
  flags : PageTableFlags
  deriving DecidableEq, Repr

namespace Entry

def toWord (e : Entry) : ℕ :=
  e.flags.low.toNat + 4096 * e.frame.toNat + 2 ^ 52 * e.flags.high.toNat

def ofWord (w : ℕ) : Entry :=
  ⟨BitVec.ofNat 40 (w / 4096), ⟨BitVec.ofNat 12 w, BitVec.ofNat 12 (w / 2 ^ 52)⟩⟩

theorem toWord_lt (e : Entry) : e.toWord < 2 ^ 64 := by
  have hl := e.flags.low.isLt
  have hf := e.frame.isLt
  have hh := e.flags.high.isLt
  unfold toWord
  omega

@[simp] theorem ofWord_toWord (e : Entry) : ofWord e.toWord = e := by
  have hl := e.flags.low.isLt
  have hf := e.frame.isLt
  have hh := e.flags.high.isLt
  have hframe : BitVec.ofNat 40 (e.toWord / 4096) = e.frame := by
    apply BitVec.eq_of_toNat_eq
    rw [BitVec.toNat_ofNat, toWord]
    omega
  have hlow : BitVec.ofNat 12 e.toWord = e.flags.low := by
    apply BitVec.eq_of_toNat_eq
    rw [BitVec.toNat_ofNat, toWord]
    omega
  have hhigh : BitVec.ofNat 12 (e.toWord / 2 ^ 52) = e.flags.high := by
    apply BitVec.eq_of_toNat_eq
    rw [BitVec.toNat_ofNat, toWord]
    omega
  rw [ofWord, hframe, hlow, hhigh]

end Entry

/-- The index of a page in the level `l` table it is reached through. -/
def index (l page : ℕ) : ℕ := page / 512 ^ (l - 1) % 512

section Words

variable (m : Memory) (t : Frame) (i : ℕ)

def entry : Entry := Entry.ofWord (m.word t i)

def isUnused : Prop := m.word t i = 0

instance : Decidable (isUnused m t i) := inferInstanceAs (Decidable (_ = _))

def setEntry (e : Entry) : Memory := m.setWord t i e.toWord

end Words

variable {m m' : Memory} {t g f : Frame} {i j l page : ℕ} {e : Entry}

@[simp] theorem entry_setEntry_same : entry (setEntry m t i e) t i = e := by
  rw [entry, setEntry, Memory.word_setWord_same e.toWord_lt, Entry.ofWord_toWord]

theorem entry_setEntry_ne (h : g ≠ t ∨ j ≠ i) : entry (setEntry m t i e) g j = entry m g j := by
  rcases h with h | h
  · rw [entry, setEntry, Memory.word_setWord_frame_ne h, entry]
  · rw [entry, setEntry, Memory.word_setWord_index_ne h, entry]

theorem isUnused_setEntry_ne (h : g ≠ t ∨ j ≠ i) :
    isUnused (setEntry m t i e) g j ↔ isUnused m g j := by
  rcases h with h | h
  · rw [isUnused, setEntry, Memory.word_setWord_frame_ne h, isUnused]
  · rw [isUnused, setEntry, Memory.word_setWord_index_ne h, isUnused]

theorem setEntry_frame_ne (h : g ≠ t) : setEntry m t i e g = m g := Memory.setWord_frame_ne h

theorem entry_congr (h : m' g = m g) : entry m' g j = entry m g j := by
  rw [entry, entry, Memory.word_of_frame_eq h]

theorem isUnused_congr (h : m' g = m g) : isUnused m' g j ↔ isUnused m g j := by
  rw [isUnused, isUnused, Memory.word_of_frame_eq h]

theorem isUnused_zeroFrame : isUnused (m.zeroFrame g) g j := Memory.word_zeroFrame_same

/-- The entries a page is reached through, the root's first. -/
def path (m : Memory) : ℕ → Frame → ℕ → List Entry
  | 0, _, _ => []
  | l + 1, t, page =>
    entry m t (index (l + 1) page) :: path m l (entry m t (index (l + 1) page)).frame page

/-- The leaf entry of a page, where every entry on the way is in use. -/
def walk (m : Memory) : ℕ → Frame → ℕ → Option Entry
  | 0, _, _ => none
  | 1, t, page => if isUnused m t (index 1 page) then none else some (entry m t (index 1 page))
  | l + 2, t, page =>
    if isUnused m t (index (l + 2) page) then none
    else walk m (l + 1) (entry m t (index (l + 2) page)).frame page

/-- How many tables a mapping of the page would have to create. -/
def missing (m : Memory) : ℕ → Frame → ℕ → ℕ
  | 0, _, _ => 0
  | 1, _, _ => 0
  | l + 2, t, page =>
    if isUnused m t (index (l + 2) page) then l + 1
    else missing m (l + 1) (entry m t (index (l + 2) page)).frame page

inductive MapToError where
  | frameAllocationFailed
  | parentEntryHugePage
  | pageAlreadyMapped (frame : Frame)
  deriving DecidableEq, Repr

inductive FlagUpdateError where
  | pageNotMapped
  | parentEntryHugePage
  deriving DecidableEq, Repr

/-- Flags a mapper adds to the tables a page is reached through. -/
structure ParentFlags (flags added : PageTableFlags) : Prop where
  present : added.contains .present = true
  huge : added.contains .hugePage = false
  noExecute : added.contains .noExecute = false
  writable : flags.contains .writable = true → added.contains .writable = true
  userAccessible : flags.contains .userAccessible = true → added.contains .userAccessible = true

/-- The documented behaviour of `map_to` from a level `l` table down: missing tables come from the
allocator, are zeroed and linked; an entry in use is followed and may gain flags; a leaf entry is
only written when it was unused. -/
inductive MapTo {A : Type} (allocate : A → Option Frame × A) (page : ℕ) (frame : Frame)
    (flags : PageTableFlags) :
    ℕ → Frame → Memory → A → Except MapToError Unit → Memory → A → Prop
  | mapped {t : Frame} {m : Memory} {a : A} (unused : isUnused m t (index 1 page)) :
      MapTo allocate page frame flags 1 t m a (.ok ())
        (setEntry m t (index 1 page) ⟨frame, flags⟩) a
  | alreadyMapped {t : Frame} {m : Memory} {a : A} (used : ¬ isUnused m t (index 1 page)) :
      MapTo allocate page frame flags 1 t m a
        (.error (.pageAlreadyMapped frame)) m a
  | created {l : ℕ} {t next : Frame} {m m' : Memory} {a a₁ a' : A} {added : PageTableFlags}
      {r : Except MapToError Unit} (unused : isUnused m t (index (l + 2) page))
      (taken : allocate a = (some next, a₁)) (parent : ParentFlags flags added)
      (below : MapTo allocate page frame flags (l + 1) next
        ((setEntry m t (index (l + 2) page) ⟨next, added⟩).zeroFrame next) a₁ r m' a') :
      MapTo allocate page frame flags (l + 2) t m a r m' a'
  | exhausted {l : ℕ} {t : Frame} {m : Memory} {a a' : A} (unused : isUnused m t (index (l + 2) page))
      (none : allocate a = (none, a')) :
      MapTo allocate page frame flags (l + 2) t m a (.error .frameAllocationFailed) m a'
  | followed {l : ℕ} {t : Frame} {m m' : Memory} {a a' : A} {added : PageTableFlags}
      {r : Except MapToError Unit} (used : ¬ isUnused m t (index (l + 2) page))
      (small : (entry m t (index (l + 2) page)).flags.contains .hugePage = false)
      (parent : ParentFlags flags added)
      (below : MapTo allocate page frame flags (l + 1) (entry m t (index (l + 2) page)).frame
        (setEntry m t (index (l + 2) page) ⟨(entry m t (index (l + 2) page)).frame,
          (entry m t (index (l + 2) page)).flags ||| added⟩) a r m' a') :
      MapTo allocate page frame flags (l + 2) t m a r m' a'
  | huge {l : ℕ} {t : Frame} {m : Memory} {a : A} (used : ¬ isUnused m t (index (l + 2) page))
      (huge : (entry m t (index (l + 2) page)).flags.contains .hugePage = true) :
      MapTo allocate page frame flags (l + 2) t m a (.error .parentEntryHugePage) m a

/-- The documented behaviour of `update_flags`: it changes the flags of a leaf entry in use and
creates nothing. -/
inductive UpdateFlags (page : ℕ) (flags : PageTableFlags) :
    ℕ → Frame → Memory → Except FlagUpdateError Unit → Memory → Prop
  | updated {t : Frame} {m : Memory} (used : ¬ isUnused m t (index 1 page)) :
      UpdateFlags page flags 1 t m (.ok ())
        (setEntry m t (index 1 page) ⟨(entry m t (index 1 page)).frame, flags⟩)
  | unmapped {t : Frame} {m : Memory} (unused : isUnused m t (index 1 page)) :
      UpdateFlags page flags 1 t m (.error .pageNotMapped) m
  | followed {l : ℕ} {t : Frame} {m m' : Memory} {r : Except FlagUpdateError Unit}
      (used : ¬ isUnused m t (index (l + 2) page))
      (present : (entry m t (index (l + 2) page)).flags.contains .present = true)
      (small : (entry m t (index (l + 2) page)).flags.contains .hugePage = false)
      (below : UpdateFlags page flags (l + 1) (entry m t (index (l + 2) page)).frame m r m') :
      UpdateFlags page flags (l + 2) t m r m'
  | missing {l : ℕ} {t : Frame} {m : Memory} (missing : isUnused m t (index (l + 2) page) ∨
      (entry m t (index (l + 2) page)).flags.contains .present = false) :
      UpdateFlags page flags (l + 2) t m (.error .pageNotMapped) m
  | huge {l : ℕ} {t : Frame} {m : Memory} (huge : (entry m t (index (l + 2) page)).flags.contains .hugePage = true) :
      UpdateFlags page flags (l + 2) t m (.error .parentEntryHugePage) m

/-- A paging library: `map_to` may panic where the requested flags lack `PRESENT` or have
`HUGE_PAGE`. -/
structure Mapper where
  mapTo {A : Type} (allocate : A → Option Frame × A) (root : Frame) (page : ℕ) (frame : Frame)
    (flags : PageTableFlags) (m : Memory) (a : A) : Option (Except MapToError Unit × Memory × A)
  updateFlags (root : Frame) (page : ℕ) (flags : PageTableFlags) (m : Memory) :
    Except FlagUpdateError Unit × Memory
  mapTo_spec {A : Type} {allocate : A → Option Frame × A} {root : Frame} {page : ℕ}
    {frame : Frame} {flags : PageTableFlags} {m m' : Memory} {a a' : A}
    {r : Except MapToError Unit} :
    mapTo allocate root page frame flags m a = some (r, m', a') →
      MapTo allocate page frame flags 4 root m a r m' a'
  mapTo_returns {A : Type} {allocate : A → Option Frame × A} {root : Frame} {page : ℕ}
    {frame : Frame} {flags : PageTableFlags} {m : Memory} {a : A} :
    flags.contains .present = true → flags.contains .hugePage = false →
      (mapTo allocate root page frame flags m a).isSome
  updateFlags_spec {root : Frame} {page : ℕ} {flags : PageTableFlags} {m : Memory} :
    UpdateFlags page flags 4 root m (updateFlags root page flags m).1
      (updateFlags root page flags m).2

section Walker

/-- `map_to` as a walk that creates what it misses. -/
def mapFrom {A : Type} (allocate : A → Option Frame × A) (page : ℕ) (frame : Frame)
    (flags added : PageTableFlags) :
    ℕ → Frame → Memory → A → Except MapToError Unit × Memory × A
  | 0, _, m, a => (.ok (), m, a)
  | 1, t, m, a =>
    if isUnused m t (index 1 page) then (.ok (), setEntry m t (index 1 page) ⟨frame, flags⟩, a)
    else (.error (.pageAlreadyMapped frame), m, a)
  | l + 2, t, m, a =>
    let i := index (l + 2) page
    if isUnused m t i then
      match allocate a with
      | (some next, a) =>
        mapFrom allocate page frame flags added (l + 1) next
          ((setEntry m t i ⟨next, added⟩).zeroFrame next) a
      | (none, a) => (.error .frameAllocationFailed, m, a)
    else if (entry m t i).flags.contains .hugePage then (.error .parentEntryHugePage, m, a)
    else mapFrom allocate page frame flags added (l + 1) (entry m t i).frame
      (setEntry m t i ⟨(entry m t i).frame, (entry m t i).flags ||| added⟩) a

def updateFrom (page : ℕ) (flags : PageTableFlags) (m : Memory) :
    ℕ → Frame → Except FlagUpdateError Unit × Memory
  | 0, _ => (.ok (), m)
  | 1, t =>
    if isUnused m t (index 1 page) then (.error .pageNotMapped, m)
    else (.ok (), setEntry m t (index 1 page) ⟨(entry m t (index 1 page)).frame, flags⟩)
  | l + 2, t =>
    let i := index (l + 2) page
    if isUnused m t i ∨ (entry m t i).flags.contains .present = false then
      (.error .pageNotMapped, m)
    else if (entry m t i).flags.contains .hugePage then (.error .parentEntryHugePage, m)
    else updateFrom page flags m (l + 1) (entry m t i).frame

theorem mapFrom_spec {A : Type} {allocate : A → Option Frame × A} {frame : Frame}
    {flags added : PageTableFlags} (parent : ParentFlags flags added) {t : Frame} {m : Memory}
    {a : A} :
    MapTo allocate page frame flags (l + 1) t m a
      (mapFrom allocate page frame flags added (l + 1) t m a).1
      (mapFrom allocate page frame flags added (l + 1) t m a).2.1
      (mapFrom allocate page frame flags added (l + 1) t m a).2.2 := by
  induction l generalizing t m a with
  | zero =>
    by_cases hu : isUnused m t (index 1 page)
    · have hmapped : MapTo allocate page frame flags 1 t m a _ _ _ := .mapped hu
      simpa [mapFrom, hu] using hmapped
    · have hused : MapTo allocate page frame flags 1 t m a _ _ _ := .alreadyMapped hu
      simpa [mapFrom, hu] using hused
  | succ l ih =>
    by_cases hu : isUnused m t (index (l + 2) page)
    · rcases ha : allocate a with ⟨_ | next, a'⟩
      · have hnone : MapTo allocate page frame flags (l + 2) t m a _ _ _ := .exhausted hu ha
        simpa [mapFrom, hu, ha] using hnone
      · have := MapTo.created hu ha parent ih
        rw [mapFrom]
        simpa only [if_pos hu, ha] using this
    · by_cases hh : (entry m t (index (l + 2) page)).flags.contains .hugePage = true
      · have hhuge : MapTo allocate page frame flags (l + 2) t m a _ _ _ := .huge hu hh
        simpa [mapFrom, hu, hh] using hhuge
      · have := MapTo.followed (a := a) hu (Bool.eq_false_iff.mpr hh) parent ih
        rw [mapFrom]
        simpa only [if_neg hu, if_neg hh] using this

theorem mapFrom_eq {A : Type} {allocate : A → Option Frame × A} {frame : Frame}
    {flags added : PageTableFlags} (parent : ParentFlags flags added) {t : Frame} {m m' : Memory}
    {a a' : A} {r : Except MapToError Unit}
    (h : mapFrom allocate page frame flags added (l + 1) t m a = (r, m', a')) :
    MapTo allocate page frame flags (l + 1) t m a r m' a' := by
  have hs : MapTo allocate page frame flags (l + 1) t m a
      (mapFrom allocate page frame flags added (l + 1) t m a).1
      (mapFrom allocate page frame flags added (l + 1) t m a).2.1
      (mapFrom allocate page frame flags added (l + 1) t m a).2.2 := mapFrom_spec parent
  rw [h] at hs
  exact hs

theorem updateFrom_spec {flags : PageTableFlags} {t : Frame} {m : Memory} :
    UpdateFlags page flags (l + 1) t m (updateFrom page flags m (l + 1) t).1
      (updateFrom page flags m (l + 1) t).2 := by
  induction l generalizing t with
  | zero =>
    by_cases hu : isUnused m t (index 1 page)
    · simpa [updateFrom, hu] using UpdateFlags.unmapped hu
    · simpa [updateFrom, hu] using UpdateFlags.updated hu
  | succ l ih =>
    by_cases hu : isUnused m t (index (l + 2) page) ∨
        (entry m t (index (l + 2) page)).flags.contains .present = false
    · simpa [updateFrom, hu] using UpdateFlags.missing hu
    · obtain ⟨hused, hp⟩ := not_or.mp hu
      by_cases hh : (entry m t (index (l + 2) page)).flags.contains .hugePage = true
      · simpa [updateFrom, hu, hh] using UpdateFlags.huge hh
      · have := UpdateFlags.followed hused (Bool.not_eq_false _ ▸ hp) (Bool.eq_false_iff.mpr hh) ih
        rw [updateFrom]
        simpa only [if_neg hu, if_neg hh] using this

/-- The flags a walk gives the tables it passes: those of the request that concern parents. -/
def PageTableFlags.forParents (flags : PageTableFlags) : PageTableFlags :=
  ⟨flags.low &&& 7#12, 0#12⟩

theorem PageTableFlags.forParents_spec {flags : PageTableFlags}
    (h : flags.contains .present = true) : ParentFlags flags flags.forParents := by
  have hlow : ∀ k < 3, flags.forParents.low.getLsbD k = flags.low.getLsbD k := by
    intro k hk
    have h7 : (7#12).getLsbD k = true := by
      interval_cases k <;> rfl
    rw [forParents, BitVec.getLsbD_and, h7, Bool.and_true]
  constructor
  · rwa [contains_present, hlow 0 (by decide), ← contains_present]
  · rw [contains_huge, forParents, BitVec.getLsbD_and]
    exact Bool.and_false _
  · rw [contains_noExecute, forParents, BitVec.getLsbD_zero]
  · rw [contains_writable, contains_writable, hlow 1 (by decide)]
    exact id
  · rw [contains_userAccessible, contains_userAccessible, hlow 2 (by decide)]
    exact id

/-- A mapper with the documented behaviour. -/
def Mapper.walker : Mapper where
  mapTo allocate root page frame flags m a :=
    if flags.contains .present = true ∧ flags.contains .hugePage = false then
      some (mapFrom allocate page frame flags flags.forParents 4 root m a)
    else none
  updateFlags root page flags m := updateFrom page flags m 4 root
  mapTo_spec {A allocate root page frame flags m m' a a' r} h := by
    split at h
    case isTrue hp => exact mapFrom_eq (PageTableFlags.forParents_spec hp.1) (Option.some.inj h)
    case isFalse => cases h
  mapTo_returns h h' := by simp [h, h']
  updateFlags_spec := updateFrom_spec

end Walker

end PageTables
