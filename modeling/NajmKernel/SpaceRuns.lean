import NajmKernel.SpaceBytes
import NajmKernel.TransitionSystem

/-! Runs over many address spaces: creating, mapping, protecting, writing, zeroing and dropping
them in any order, and the invariant that every frame of a tree stands in one tree only. -/
namespace SpaceRuns

open PhysicalMemory PageTables PhysicalFrames AddressSpaces TransitionSystem

/-- `taken` lists the frames these operations have ever taken from the allocator. -/
structure State where
  system : System
  spaces : ℕ → Option AddressSpace
  taken : List Frame

/-- In `new` the space that CR3 holds is `current`, or the kernel's own. -/
inductive Event where
  | new (id : ℕ) (current : Option ℕ)
  | mapPage (id page : ℕ) (flags : PageTableFlags)
  | protectPage (id page : ℕ) (flags : PageTableFlags)
  | writeAt (id addr : ℕ) (bytes : List UInt8)
  | zeroAt (id addr len : ℕ)
  | drop (id : ℕ)
  deriving DecidableEq, Repr

/-- The frames that left the allocator between two states of it. -/
def gone (a b : FrameAllocator) : List Frame :=
  a.upcoming.take (a.upcoming.length - b.upcoming.length)

namespace State

def cr3 (kernelRoot : Frame) (s : State) : Option ℕ → Option Frame
  | none => some kernelRoot
  | some id => (s.spaces id).map AddressSpace.root

def create (kernelRoot : Frame) (s : State) (id : ℕ) (current : Option ℕ) : Option State :=
  if (s.spaces id).isSome then none
  else (s.cr3 kernelRoot current).bind fun cr3 =>
    (AddressSpace.new cr3 s.system).map fun r =>
      ⟨r.2, Function.update s.spaces id r.1, s.taken ++ gone s.system.frames r.2.frames⟩

def map (X : Mapper) (s : State) (id page : ℕ) (flags : PageTableFlags) : Option State :=
  (s.spaces id).bind fun space => (space.mapPage X page flags s.system).map fun r =>
    ⟨r.2.2, Function.update s.spaces id (some r.2.1),
      s.taken ++ gone s.system.frames r.2.2.frames⟩

def protect (X : Mapper) (s : State) (id page : ℕ) (flags : PageTableFlags) : Option State :=
  (s.spaces id).map fun space => { s with system := (space.protectPage X page flags s.system).2 }

def write (s : State) (id addr : ℕ) (bytes : List UInt8) : Option State :=
  (s.spaces id).map fun space =>
    { s with system := { s.system with bytes := (space.writeAt addr bytes s.system.bytes).2 } }

def zero (s : State) (id addr len : ℕ) : Option State :=
  (s.spaces id).map fun space =>
    { s with system := { s.system with bytes := (space.zeroAt addr len s.system.bytes).2 } }

def remove (s : State) (id : ℕ) : Option State :=
  (s.spaces id).map fun space =>
    { s with system := space.drop s.system, spaces := Function.update s.spaces id none }

end State

/-- A panic, or an operation on a space that does not exist, has no successor. -/
def next (X : Mapper) (kernelRoot : Frame) (s : State) : Event → Option State
  | .new id current => s.create kernelRoot id current
  | .mapPage id page flags => s.map X id page flags
  | .protectPage id page flags => s.protect X id page flags
  | .writeAt id addr bytes => s.write id addr bytes
  | .zeroAt id addr len => s.zero id addr len
  | .drop id => s.remove id

/-- The kernel's half as far as 4 KiB pages reach in it: `level` are its tables, and its pages lie
in frames of `data`. -/
structure KernelHalf (m : Memory) (kernelRoot : Frame) (level : Frame → Option ℕ)
    (data : Frame → Prop) : Prop where
  root : level kernelRoot = some 4
  child : ∀ {f l i}, level f = some (l + 1) → i < 512 → (l = 3 → 256 ≤ i) →
    (entry m f i).flags.contains .present = true →
    (l ≠ 0 → (entry m f i).flags.contains .hugePage = true ∨
      level (entry m f i).frame = some l) ∧ (l = 0 → data (entry m f i).frame)
  apart : ∀ {f}, data f → level f = none

/-- Where the runs start: no space yet, and the kernel's own frames not in the allocator. -/
structure Boots (kernelRoot : Frame) (level : Frame → Option ℕ) (data : Frame → Prop)
    (s : State) : Prop where
  spaces : ∀ id, s.spaces id = none
  taken : s.taken = []
  free : s.system.frames.free = []
  boot : s.system.frames.boot.Over
  kernel : KernelHalf s.system.bytes kernelRoot level data
  tables : ∀ f ∈ s.system.frames.upcoming, level f = none
  pages : ∀ f ∈ s.system.frames.upcoming, ¬ data f

variable {X : Mapper} {kernelRoot : Frame} {level : Frame → Option ℕ} {data : Frame → Prop}
  {s₀ s s' : State} {place : ℕ → Placement} {id a b page addr len : ℕ} {f g : Frame}
  {space space' : AddressSpace} {flags : PageTableFlags} {e : Event} {es : List Event}
  {m : Memory}

structure Isolated (kernelRoot : Frame) (level : Frame → Option ℕ) (data : Frame → Prop)
    (s₀ s : State) (place : ℕ → Placement) : Prop where
  start : Boots kernelRoot level data s₀
  nodup : s.system.frames.upcoming.Nodup
  within : ∀ f ∈ s.system.frames.upcoming, f ∈ s₀.system.frames.upcoming
  absent : ∀ {a}, s.spaces a = none → ∀ f, place a f = none
  tree : ∀ {a space}, s.spaces a = some space →
    TableTree s.system.bytes space.root (place a) false
  owned : ∀ {a space}, s.spaces a = some space → ∀ f ∈ space.ownedFrames, place a f ≠ none
  upper : ∀ {a space}, s.spaces a = some space → ∀ i, 256 ≤ i → i < 512 →
    s.system.bytes.word space.root i = s₀.system.bytes.word kernelRoot i
  fresh : ∀ {a f}, f ∈ s.system.frames.upcoming → place a f = none
  inside : ∀ {a f}, place a f ≠ none → f ∈ s₀.system.frames.upcoming
  disjoint : ∀ {a b f}, a ≠ b → place a f ≠ none → place b f = none
  kernel : ∀ {f}, level f ≠ none → s.system.bytes f = s₀.system.bytes f

namespace Isolated

variable (I : Isolated kernelRoot level data s₀ s place)
include I

theorem holds (h : s.spaces a = some space) : Holds s.system space (place a) false :=
  ⟨I.tree h, fun _ hf => I.fresh hf, I.nodup⟩

theorem not_table (h : place a f ≠ none) : level f = none := I.start.tables f (I.inside h)

theorem not_page (h : place a f ≠ none) : ¬ data f := I.start.pages f (I.inside h)

theorem root_placed (h : s.spaces a = some space) : place a space.root ≠ none := by
  rw [(I.tree h).atRoot]
  simp

/-- A change of memory that leaves alone the tables of every space and of the kernel. -/
theorem rewrite (hb : ∀ a g l n, place a g = some (l + 1, n) → m g = s.system.bytes g)
    (hk : ∀ g, level g ≠ none → m g = s.system.bytes g) :
    Isolated kernelRoot level data s₀ { s with system := { s.system with bytes := m } } place where
  start := I.start
  nodup := I.nodup
  within := I.within
  absent := I.absent
  tree h := (I.tree h).congr (hb _)
  owned := I.owned
  upper h i h1 h2 := by
    rw [← I.upper h i h1 h2]
    exact Memory.word_of_frame_eq (hb _ _ _ _ (I.tree h).atRoot)
  fresh := I.fresh
  inside := I.inside
  disjoint := I.disjoint
  kernel hf := (hk _ hf).trans (I.kernel hf)

end Isolated

/-- One space gets another placement, and what it gains comes from the allocator. -/
theorem Isolated.change (I : Isolated kernelRoot level data s₀ s place)
    {system : System} {taken : List Frame} {new : Option AddressSpace} (mine : Placement)
    (hsupply : ∃ left, s.system.frames.upcoming = left ++ system.frames.upcoming)
    (hcame : ∀ f, mine f ≠ none → place id f = none → f ∈ s.system.frames.upcoming)
    (hfresh : ∀ f ∈ system.frames.upcoming, mine f = none)
    (habsent : new = none → ∀ f, mine f = none)
    (htree : ∀ space, new = some space → TableTree system.bytes space.root mine false)
    (howned : ∀ space, new = some space → ∀ f ∈ space.ownedFrames, mine f ≠ none)
    (hupper : ∀ space, new = some space → ∀ i, 256 ≤ i → i < 512 →
      system.bytes.word space.root i = s₀.system.bytes.word kernelRoot i)
    (hbytes : ∀ f, mine f = none → system.bytes f = s.system.bytes f) :
    Isolated kernelRoot level data s₀ ⟨system, Function.update s.spaces id new, taken⟩
      (Function.update place id mine) := by
  obtain ⟨left, hleft⟩ := hsupply
  have hsub : ∀ f ∈ system.frames.upcoming, f ∈ s.system.frames.upcoming := by
    intro f hf
    rw [hleft]
    exact List.mem_append_right _ hf
  have hmine : ∀ f, mine f ≠ none → f ∈ s₀.system.frames.upcoming := by
    intro f hf
    by_cases hp : place id f = none
    · exact I.within f (hcame f hf hp)
    · exact I.inside hp
  -- what the space gains was in no other tree
  have hother : ∀ a f, a ≠ id → place a f ≠ none → mine f = none := by
    intro a f ha hp
    by_contra hm
    by_cases hi : place id f = none
    · exact hp (I.fresh (hcame f hm hi))
    · exact hp (I.disjoint (Ne.symm ha) hi)
  have hsame : ∀ a f, a ≠ id → place a f ≠ none → system.bytes f = s.system.bytes f :=
    fun a f ha hp => hbytes f (hother a f ha hp)
  have hplace : ∀ a, a ≠ id → Function.update place id mine a = place a :=
    fun a ha => Function.update_of_ne ha _ _
  have hspace : ∀ a, a ≠ id → Function.update s.spaces id new a = s.spaces a :=
    fun a ha => Function.update_of_ne ha _ _
  constructor
  · exact I.start
  · exact (List.nodup_append.mp (hleft ▸ I.nodup)).2.1
  · exact fun f hf => I.within f (hsub f hf)
  · intro a ha
    by_cases h : a = id
    · subst h
      simp only [Function.update_self] at ha ⊢
      exact habsent ha
    · simp only [hspace a h] at ha
      rw [hplace a h]
      exact I.absent ha
  · intro a space ha
    by_cases h : a = id
    · subst h
      simp only [Function.update_self] at ha ⊢
      exact htree space ha
    · simp only [hspace a h] at ha
      rw [hplace a h]
      apply (I.tree ha).congr
      intro f l n hf
      exact hsame a f h (by simp [hf])
  · intro a space ha
    by_cases h : a = id
    · subst h
      simp only [Function.update_self] at ha ⊢
      exact howned space ha
    · simp only [hspace a h] at ha
      rw [hplace a h]
      exact I.owned ha
  · intro a space ha i h1 h2
    by_cases h : a = id
    · subst h
      simp only [Function.update_self] at ha
      exact hupper space ha i h1 h2
    · simp only [hspace a h] at ha
      rw [← I.upper ha i h1 h2]
      exact Memory.word_of_frame_eq (hsame a _ h (I.root_placed ha))
  · intro a f hf
    by_cases h : a = id
    · subst h
      rw [Function.update_self]
      exact hfresh f hf
    · rw [hplace a h]
      exact I.fresh (hsub f hf)
  · intro a f hf
    by_cases h : a = id
    · subst h
      rw [Function.update_self] at hf
      exact hmine f hf
    · rw [hplace a h] at hf
      exact I.inside hf
  · intro a b f hab hf
    by_cases ha : a = id
    · subst ha
      rw [Function.update_self] at hf
      rw [hplace b (Ne.symm hab)]
      by_contra hp
      exact hf (hother b f (Ne.symm hab) hp)
    · rw [hplace a ha] at hf
      by_cases hb : b = id
      · subst hb
        rw [Function.update_self]
        exact hother a f ha hf
      · rw [hplace b hb]
        exact I.disjoint hab hf
  · intro f hf
    rw [← I.kernel hf]
    apply hbytes
    by_contra hm
    exact hf (I.start.tables f (hmine f hm))

theorem word_copy_upper {root cr3 : Frame} {i : ℕ} (hi : 256 ≤ i) :
    (AddressSpace.copyKernelHalf m root cr3).word root i = m.word cr3 i := by
  have hr : (AddressSpace.copyKernelHalf m root cr3).read root (8 * i) 8 = m.read cr3 (8 * i) 8 := by
    apply List.map_congr_left
    intro k _
    have : 2048 ≤ 8 * i + k := by omega
    simp [AddressSpace.copyKernelHalf, this]
  rw [Memory.word, Memory.word, hr]

theorem isUnused_copy {root cr3 : Frame} {i : ℕ} (hi : i < 256) :
    isUnused (AddressSpace.copyKernelHalf m root cr3) root i := by
  have hr : (AddressSpace.copyKernelHalf m root cr3).read root (8 * i) 8 = List.replicate 8 0 := by
    apply List.ext_getElem (by simp)
    intro k hk _
    have : ¬ 2048 ≤ 8 * i + k := by
      simp at hk
      omega
    rw [List.getElem_replicate]
    simp [AddressSpace.copyKernelHalf, Memory.read, this]
  rw [isUnused, Memory.word, hr, LittleEndian.ofBytes_replicate_zero]

theorem copy_frame_ne {root cr3 : Frame} (h : f ≠ root) :
    AddressSpace.copyKernelHalf m root cr3 f = m f := by
  funext o
  simp [AddressSpace.copyKernelHalf, h]

/-- The tree of a root alone. -/
def rootOnly (root : Frame) : Placement := fun f => if f = root then some (4, 0) else none

theorem rootOnly_tree {root : Frame} {w : Bool} (h : ∀ i < 256, isUnused m root i) :
    TableTree m root (rootOnly root) w := by
  have hat : ∀ {f x}, rootOnly root f = some x → f = root ∧ x = (4, 0) := by
    intro f x hf
    unfold rootOnly at hf
    split at hf
    case isTrue hr => exact ⟨hr, (Option.some.inj hf).symm⟩
    case isFalse => cases hf
  have hslot : ∀ {f l n i}, Slot (rootOnly root) f l n i → isUnused m f i := by
    rintro f l n i ⟨hp, -, hl⟩
    obtain ⟨rfl, hx⟩ := hat hp
    simp only [Prod.mk.injEq, Nat.reduceEqDiff] at hx
    exact h i (hl hx.1)
  constructor
  · simp [rootOnly]
  · exact fun hf => (hat hf).1
  · intro f l n hf
    have := (hat hf).2
    simp only [Prod.mk.injEq] at this
    omega
  · exact fun hf hg => (hat hf).1.trans (hat hg).1.symm
  · exact fun hs hu => absurd (hslot hs) hu
  · exact fun hs hu => absurd (hslot hs) hu
  · intro g l n hg hl
    have := (hat hg).2
    simp only [Prod.mk.injEq] at this
    omega

theorem Isolated.create (I : Isolated kernelRoot level data s₀ s place) {current : Option ℕ}
    (h : s.create kernelRoot id current = some s') :
    ∃ place', Isolated kernelRoot level data s₀ s' place' := by
  unfold State.create at h
  split at h
  case isTrue => cases h
  case isFalse hid =>
    rw [Option.not_isSome_iff_eq_none] at hid
    obtain ⟨cr3, hcr3, h⟩ := Option.bind_eq_some_iff.mp h
    obtain ⟨⟨made, system⟩, hnew, rfl⟩ := Option.map_eq_some_iff.mp h
    have hkernel : ∀ i, 256 ≤ i → i < 512 →
        s.system.bytes.word cr3 i = s₀.system.bytes.word kernelRoot i := by
      intro i h1 h2
      cases current with
      | none =>
        obtain rfl := Option.some.inj hcr3
        exact Memory.word_of_frame_eq (I.kernel (by simp [I.start.kernel.root]))
      | some b =>
        obtain ⟨space, hs, rfl⟩ := Option.map_eq_some_iff.mp hcr3
        exact I.upper hs i h1 h2
    unfold AddressSpace.new at hnew
    rcases ha : s.system.frames.allocateFrame with ⟨_ | root, frames⟩ <;>
      simp only [ha] at hnew
    · obtain ⟨h1, h2⟩ := allocate_none ha
      simp only [Option.some.injEq, Prod.mk.injEq] at hnew
      obtain ⟨rfl, rfl⟩ := hnew
      refine ⟨_, I.change (fun _ => none) ⟨[], by simp [h1, h2]⟩ (by simp) (by simp)
        (by simp) (by simp) (by simp) (by simp) (by simp)⟩
    · split at hnew
      case isFalse => cases hnew
      case isTrue =>
        simp only [Option.some.injEq, Prod.mk.injEq] at hnew
        obtain ⟨rfl, rfl⟩ := hnew
        have hsup := allocate_some ha
        have hroot : ∀ {f}, rootOnly root f ≠ none → f = root := by
          intro f hf
          by_contra hne
          exact hf (if_neg hne)
        refine ⟨_, I.change (rootOnly root) ⟨[root], by simp [hsup]⟩ ?_ ?_ (by simp) ?_ ?_
          ?_ ?_⟩
        · intro f hf _
          rw [hroot hf, hsup]
          exact List.mem_cons_self
        · intro f hf
          by_contra hne
          have hn := I.nodup
          rw [hsup] at hn
          exact (List.nodup_cons.mp hn).1 (hroot hne ▸ hf)
        · rintro space hsp
          obtain rfl := Option.some.inj hsp
          exact rootOnly_tree fun i hi => isUnused_copy hi
        · rintro space hsp
          obtain rfl := Option.some.inj hsp
          simp
        · rintro space hsp i h1 h2
          obtain rfl := Option.some.inj hsp
          exact (word_copy_upper h1).trans (hkernel i h1 h2)
        · intro f hf
          apply copy_frame_ne
          rintro rfl
          simp [rootOnly] at hf

theorem Isolated.map (I : Isolated kernelRoot level data s₀ s place)
    (h : s.map X id page flags = some s') :
    ∃ place', Isolated kernelRoot level data s₀ s' place' := by
  obtain ⟨space, hs, h⟩ := Option.bind_eq_some_iff.mp h
  obtain ⟨⟨r, space', system⟩, hmap, rfl⟩ := Option.map_eq_some_iff.mp h
  obtain ⟨mine, hH, hE, -⟩ := mapPage_spec (I.holds hs) (by simp) hmap
  obtain ⟨new, hnew, hplaced⟩ := hE.owned
  have hold : ∀ f, place id f ≠ none → mine f ≠ none := by
    intro f hf
    obtain ⟨x, hx⟩ := Option.ne_none_iff_exists'.mp hf
    rw [hE.old hx]
    simp
  refine ⟨_, I.change mine hE.supply (fun f => hE.came) hH.fresh (by simp) ?_ ?_ ?_
    (fun f => hE.outside)⟩
  · rintro u hu
    obtain rfl := Option.some.inj hu
    exact hH.tree
  · rintro u hu f hf
    obtain rfl := Option.some.inj hu
    rw [hnew, List.mem_append] at hf
    rcases hf with hf | hf
    · exact hold f (I.owned hs f hf)
    · exact (hplaced f hf).1
  · rintro u hu i h1 h2
    obtain rfl := Option.some.inj hu
    rw [hE.root, hE.upper h1]
    exact I.upper hs i h1 h2

theorem Isolated.protect (I : Isolated kernelRoot level data s₀ s place)
    (h : s.protect X id page flags = some s') : Isolated kernelRoot level data s₀ s' place := by
  obtain ⟨space, hs, rfl⟩ := Option.map_eq_some_iff.mp h
  rcases hx : space.protectPage X page flags s.system with ⟨r, system⟩
  obtain ⟨hH, hframes, hbytes, -⟩ := protectPage_spec (I.holds hs) hx
  have hother : ∀ f, place id f = none → system.bytes f = s.system.bytes f := by
    intro f hf
    apply hbytes
    simp [hf]
  have hne : ∀ {a f x}, a ≠ id → place a f = some x → place id f = none :=
    fun ha hf => I.disjoint ha (by simp [hf])
  constructor
  · exact I.start
  · exact hH.nodup
  · rw [hframes]
    exact I.within
  · exact I.absent
  · intro a u ha
    by_cases hid : a = id
    · subst hid
      obtain rfl := Option.some.inj (hs.symm.trans ha)
      exact hH.tree
    · exact (I.tree ha).congr fun f l n hf => hother f (hne hid hf)
  · exact I.owned
  · intro a u ha i h1 h2
    rw [← I.upper ha i h1 h2]
    apply Memory.word_of_frame_eq
    apply hbytes
    intro n hn
    by_cases hid : a = id
    · subst hid
      rw [(I.tree ha).atRoot] at hn
      simp at hn
    · rw [hne hid (I.tree ha).atRoot] at hn
      cases hn
  · rw [hframes]
    exact I.fresh
  · exact I.inside
  · exact I.disjoint
  · intro f hf
    rw [← I.kernel hf]
    apply hother
    by_contra hp
    exact hf (I.not_table hp)

/-- Below a table of the kernel every 4 KiB page lies in a frame of the kernel. -/
theorem KernelHalf.below (K : KernelHalf m kernelRoot level data) {l : ℕ} {t : Frame}
    (ht : level t = some (l + 1)) (hl : l < 3)
    (h : AddressSpace.translateFrom m (l + 1) t page = some f) : data f := by
  induction l generalizing t with
  | zero =>
    simp only [AddressSpace.translateFrom, ne_eq, not_true_eq_false, false_and, ite_false] at h
    split at h
    case isTrue => cases h
    case isFalse hp =>
      rw [Bool.not_eq_false] at hp
      rw [← Option.some.inj h]
      exact (K.child ht (Nat.mod_lt _ (by decide)) (by simp) hp).2 rfl
  | succ l ih =>
    rw [AddressSpace.translateFrom] at h
    split at h
    case isTrue => cases h
    case isFalse hp =>
      rw [Bool.not_eq_false] at hp
      split at h
      case isTrue => cases h
      case isFalse hh =>
        have hc := (K.child ht (Nat.mod_lt _ (by decide)) (by omega) hp).1 (by omega)
        rcases hc with hc | hc
        · exact absurd ⟨by omega, hc⟩ hh
        · exact ih hc (by omega) h

theorem KernelHalf.congr (K : KernelHalf m kernelRoot level data) {m' : Memory}
    (h : ∀ f, level f ≠ none → m' f = m f) : KernelHalf m' kernelRoot level data where
  root := K.root
  apart := K.apart
  child {f l i} hf hi hl hp := by
    have hm := h f (by simp [hf])
    rw [entry_congr hm] at hp ⊢
    exact K.child hf hi hl hp

/-- An address of the upper half leads a space to the pages the kernel has there. -/
theorem KernelHalf.translate (K : KernelHalf m kernelRoot level data)
    (hupper : ∀ i, 256 ≤ i → i < 512 → m.word space.root i = m.word kernelRoot i)
    (ha : ¬ addr < 2 ^ 47) (h : space.translate m addr = some f) : data f := by
  unfold AddressSpace.translate at h
  split at h
  case isFalse => cases h
  case isTrue hc =>
    have hc' : 2 ^ 64 - 2 ^ 47 ≤ addr ∧ addr < 2 ^ 64 := (of_decide_eq_true hc).resolve_left ha
    have hi : 256 ≤ index 4 (addr / 4096) := by
      rw [index]
      norm_num
      omega
    have hi' : index 4 (addr / 4096) < 512 := Nat.mod_lt _ (by decide)
    have he : entry m space.root (index 4 (addr / 4096)) =
        entry m kernelRoot (index 4 (addr / 4096)) := by
      rw [entry, entry, hupper _ hi hi']
    rw [AddressSpace.translateFrom] at h
    simp only [he] at h
    split at h
    case isTrue => cases h
    case isFalse hp =>
      rw [Bool.not_eq_false] at hp
      split at h
      case isTrue => cases h
      case isFalse hh =>
        rcases (K.child K.root hi' (fun _ => hi) hp).1 (by omega) with hx | hx
        · exact absurd ⟨by omega, hx⟩ hh
        · exact K.below hx (by omega) h

namespace Isolated

variable (I : Isolated kernelRoot level data s₀ s place)
include I

/-- A transfer through a space changes frames behind its own pages, or pages of the kernel. -/
theorem transfer (h : s.spaces a = some space) {turns done : ℕ} {content : ℕ → ℕ → List UInt8}
    (hg : ¬ ((∃ n, place a g = some (0, n)) ∨ data g)) :
    (space.transfer addr len content turns done s.system.bytes).2 g = s.system.bytes g := by
  refine transfer_outside (D := fun g => (∃ n, place a g = some (0, n)) ∨ data g) ?_
    (fun _ _ => rfl) hg
  intro m hm x _ _ f hf
  have hplaced : ∀ g, place a g ≠ none → (∀ n, place a g ≠ some (0, n)) →
      m g = s.system.bytes g := by
    intro g hp hn
    apply hm
    rintro (⟨n, hn'⟩ | hd)
    · exact hn n hn'
    · exact I.not_page hp hd
  have hkernel : ∀ f, level f ≠ none → m f = s₀.system.bytes f := by
    intro f hl
    rw [hm, I.kernel hl]
    rintro (⟨n, hn⟩ | hd)
    · exact hl (I.not_table (a := a) (by simp [hn]))
    · exact hl (I.start.kernel.apart hd)
  by_cases hx : x < 2 ^ 47
  · have hkept : TablesKept (place a) s.system.bytes m := by
      intro f l n hf
      exact hplaced f (by simp [hf]) (by simp [hf])
    exact Or.inl ⟨_, place_of_translate ((I.tree h).congr hkept) hx hf⟩
  · have K := I.start.kernel.congr hkernel
    refine Or.inr (K.translate ?_ hx hf)
    intro i h1 h2
    have hr : m space.root = s.system.bytes space.root :=
      hplaced _ (I.root_placed h) (by simp [(I.tree h).atRoot])
    have hk : m kernelRoot = s₀.system.bytes kernelRoot :=
      hkernel _ (by simp [I.start.kernel.root])
    rw [Memory.word_of_frame_eq hr, I.upper h i h1 h2, Memory.word_of_frame_eq hk]

theorem transferred
    (hm : ∀ g, ¬ ((∃ n, place a g = some (0, n)) ∨ data g) → m g = s.system.bytes g) :
    Isolated kernelRoot level data s₀ { s with system := { s.system with bytes := m } } place := by
  apply I.rewrite
  · intro b g l n hg
    apply hm
    rintro (⟨k, hk⟩ | hd)
    · by_cases hab : a = b
      · subst hab
        rw [hg] at hk
        simp at hk
      · rw [I.disjoint hab (by simp [hk])] at hg
        cases hg
    · exact I.not_page (a := b) (by simp [hg]) hd
  · intro g hg
    apply hm
    rintro (⟨k, hk⟩ | hd)
    · exact hg (I.not_table (a := a) (by simp [hk]))
    · exact hg (I.start.kernel.apart hd)

/-- Every address of another space's lower half shows the byte it showed. -/
theorem other_bytes (hs : s.spaces b = some space) (hab : a ≠ b)
    (hm : ∀ g, ¬ ((∃ n, place a g = some (0, n)) ∨ data g) → m g = s.system.bytes g)
    (hx : addr < 2 ^ 47) : space.byteAt m addr = space.byteAt s.system.bytes addr := by
  have hplaced : ∀ g, place b g ≠ none → m g = s.system.bytes g := by
    intro g hg
    apply hm
    rintro (⟨k, hk⟩ | hd)
    · exact hg (I.disjoint hab (by simp [hk]))
    · exact I.not_page hg hd
  have hkept : TablesKept (place b) s.system.bytes m := fun f l n hf => hplaced f (by simp [hf])
  rw [AddressSpace.byteAt, AddressSpace.byteAt, translate_congr (I.tree hs) hkept hx]
  cases ht : space.translate s.system.bytes addr with
  | none => rfl
  | some f =>
    rw [Option.map_some, Option.map_some,
      hplaced f (by simp [place_of_translate (I.tree hs) hx ht])]

theorem write {bytes : List UInt8} (h : s.write id addr bytes = some s') :
    Isolated kernelRoot level data s₀ s' place := by
  obtain ⟨space, hs, rfl⟩ := Option.map_eq_some_iff.mp h
  exact I.transferred fun g hg => I.transfer hs hg

theorem zero (h : s.zero id addr len = some s') : Isolated kernelRoot level data s₀ s' place := by
  obtain ⟨space, hs, rfl⟩ := Option.map_eq_some_iff.mp h
  exact I.transferred fun g hg => I.transfer hs hg

theorem frames_placed (h : s.spaces a = some space) (hf : f ∈ space.frames) :
    place a f ≠ none := by
  rw [AddressSpace.frames, List.mem_append, List.mem_singleton] at hf
  rcases hf with hf | rfl
  · exact I.owned h f hf
  · exact I.root_placed h

theorem not_unvisited (h : s.spaces a = some space) :
    ∀ f ∈ space.frames,
      f ∉ unvisited s.system.frames.boot.regions s.system.frames.boot.nextAddr := by
  intro f hf hu
  exact I.frames_placed h hf (I.fresh (List.mem_append_right _ hu))

theorem remove (h : s.remove id = some s') :
    Isolated kernelRoot level data s₀ s' (Function.update place id fun _ => none) := by
  obtain ⟨space, hs, rfl⟩ := Option.map_eq_some_iff.mp h
  obtain ⟨hn, hmem, -⟩ := releaseAll_spec I.nodup (I.not_unvisited hs)
  have hplace : ∀ a, a ≠ id → Function.update place id (fun _ => none) a = place a :=
    fun a ha => Function.update_of_ne ha _ _
  have hspace : ∀ {a u}, Function.update s.spaces id none a = some u → a ≠ id ∧ s.spaces a = some u := by
    intro a u hu
    by_cases ha : a = id
    · subst ha
      simp at hu
    · rw [Function.update_of_ne ha] at hu
      exact ⟨ha, hu⟩
  have hsub : ∀ {a f}, Function.update place id (fun _ => none) a f ≠ none →
      a ≠ id ∧ place a f ≠ none := by
    intro a f hf
    by_cases ha : a = id
    · subst ha
      simp at hf
    · rw [hplace a ha] at hf
      exact ⟨ha, hf⟩
  constructor
  · exact I.start
  · exact hn
  · intro f hf
    rcases (hmem f).mp hf with hf | hf
    · exact I.inside (I.frames_placed hs hf)
    · exact I.within f hf
  · intro a ha f
    by_contra hf
    obtain ⟨hne, hp⟩ := hsub hf
    simp only [Function.update_of_ne hne] at ha
    exact hp (I.absent ha f)
  · intro a u hu
    obtain ⟨hne, hu⟩ := hspace hu
    rw [hplace a hne]
    exact I.tree hu
  · intro a u hu
    obtain ⟨hne, hu⟩ := hspace hu
    rw [hplace a hne]
    exact I.owned hu
  · intro a u hu
    exact I.upper (hspace hu).2
  · intro a f hf
    by_contra hp
    obtain ⟨hne, hp⟩ := hsub hp
    rcases (hmem f).mp hf with hf | hf
    · exact hp (I.disjoint (Ne.symm hne) (I.frames_placed hs hf))
    · exact hp (I.fresh hf)
  · exact fun hf => I.inside (hsub hf).2
  · intro a b f hab hf
    obtain ⟨-, hp⟩ := hsub hf
    by_contra hq
    exact (hsub hq).2 (I.disjoint hab hp)
  · exact I.kernel

theorem step (h : next X kernelRoot s e = some s') :
    ∃ place', Isolated kernelRoot level data s₀ s' place' := by
  cases e with
  | new id current => exact I.create h
  | mapPage id page flags => exact I.map h
  | protectPage id page flags => exact ⟨_, I.protect h⟩
  | writeAt id addr bytes => exact ⟨_, I.write h⟩
  | zeroAt id addr len => exact ⟨_, I.zero h⟩
  | drop id => exact ⟨_, I.remove h⟩

end Isolated

theorem Boots.isolated (h : Boots kernelRoot level data s₀) :
    Isolated kernelRoot level data s₀ s₀ fun _ _ => none where
  start := h
  nodup := by
    rw [FrameAllocator.upcoming, h.free, List.nil_append]
    exact h.boot.nodup
  within _ hf := hf
  absent _ _ := rfl
  tree ha := by simp [h.spaces] at ha
  owned ha := by simp [h.spaces] at ha
  upper ha := by simp [h.spaces] at ha
  fresh _ := rfl
  inside hf := absurd rfl hf
  disjoint _ _ := rfl
  kernel _ := rfl

theorem preserves_isolated :
    Preserves (next X kernelRoot) Any fun s => ∃ place, Isolated kernelRoot level data s₀ s place := by
  rintro s e u ⟨place, I⟩ - hu
  exact I.step hu

theorem Boots.run (h : Boots kernelRoot level data s₀)
    (hrun : exec (next X kernelRoot) s₀ es = some s) :
    ∃ place, Isolated kernelRoot level data s₀ s place :=
  exec_invariant preserves_isolated ⟨_, h.isolated⟩ (meets_any _ _ _) hrun

end SpaceRuns
