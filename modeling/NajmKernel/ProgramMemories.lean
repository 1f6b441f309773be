import NajmKernel.ProgramPages
import NajmKernel.SpaceIsolation

/-! Programs storing and loading in their address spaces while the kernel builds, changes and drops
these: to its program each space is a memory of its own, which nothing but the actions on that space
changes. -/
namespace ProgramMemories

open PhysicalMemory PageTables PhysicalFrames AddressSpaces TransitionSystem SpaceRuns
open UserPointers (permits permits_iff)

/-! Programs and the kernel at work. -/

inductive Action where
  | kernel (e : Event)
  | store (id addr : ℕ) (byte : UInt8)
  deriving DecidableEq, Repr

/-- The space that an action is on. -/
def Action.target : Action → ℕ
  | .kernel (.new id _) => id
  | .kernel (.mapPage id _ _) => id
  | .kernel (.protectPage id _ _) => id
  | .kernel (.writeAt id _ _) => id
  | .kernel (.zeroAt id _ _) => id
  | .kernel (.drop id) => id
  | .store id _ _ => id

/-- Pages are mapped writable, as both loaders do it. -/
def Action.mapsWritable : Action → Bool
  | .kernel (.mapPage _ _ flags) => flags.contains .writable
  | _ => true

section Machine

variable (s : State) (id addr : ℕ)

/-- What a program gets for a load. -/
def load : Option UInt8 :=
  (s.spaces id).bind fun space =>
    (mmu s.system.bytes false space.root addr).map fun f => s.system.bytes f (addr % 4096)

/-- A store that faults changes nothing. -/
def store (byte : UInt8) : Option State :=
  (s.spaces id).map fun space =>
    match mmu s.system.bytes true space.root addr with
    | none => s
    | some f =>
      { s with system := { s.system with bytes := s.system.bytes.write f (addr % 4096) [byte] } }

end Machine

def next (X : Mapper) (kernelRoot : Frame) (s : State) : Action → Option State
  | .kernel e => SpaceRuns.next X kernelRoot s e
  | .store id addr byte => store s id addr byte

def memories (s : State) (id : ℕ) : Option ProgramMemory :=
  (s.spaces id).map fun space => pagesOf space s.system.bytes

/-- What an action on its space may do to the memory there; `w` says whether every page has been
mapped writable. A new page holds what its frame held. Without any flag an entry is no longer in
use where its frame is frame 0. -/
inductive Turn (w : Bool) : Action → Option ProgramMemory → Option ProgramMemory → Prop
  | made {id : ℕ} {current : Option ℕ} :
      Turn w (.kernel (.new id current)) none (some fun _ => none)
  | notMade {id : ℕ} {current : Option ℕ} : Turn w (.kernel (.new id current)) none none
  | mapped {id page : ℕ} {flags : PageTableFlags} {v : ProgramMemory} (bytes : ℕ → UInt8)
      (user : isUserAddress (4096 * page) = true ∧ flags.contains .userAccessible = true)
      (absent : v page = none) :
      Turn w (.kernel (.mapPage id page flags)) (some v)
        (some (Function.update v page (some ⟨flags, bytes⟩)))
  | notMapped {id page : ℕ} {flags : PageTableFlags} {v : ProgramMemory} :
      Turn w (.kernel (.mapPage id page flags)) (some v) (some v)
  | reflagged {id page : ℕ} {flags : PageTableFlags} {v : ProgramMemory} {p : Page}
      (user : isUserAddress (4096 * page) = true) (there : v page = some p) :
      Turn w (.kernel (.protectPage id page flags)) (some v)
        (some (Function.update v page (some { p with flags })))
  | cleared {id page : ℕ} {v : ProgramMemory} (user : isUserAddress (4096 * page) = true)
      (there : v page ≠ none) :
      Turn w (.kernel (.protectPage id page ⟨0, 0⟩)) (some v) (some (Function.update v page none))
  | notReflagged {id page : ℕ} {flags : PageTableFlags} {v : ProgramMemory}
      (refused : isUserAddress (4096 * page) = false ∨ v page = none) :
      Turn w (.kernel (.protectPage id page flags)) (some v) (some v)
  | written {id addr : ℕ} {bytes : List UInt8} {v : ProgramMemory} :
      Turn w (.kernel (.writeAt id addr bytes)) (some v)
        (some (v.put addr 0 (v.extent addr bytes.length) fun k => bytes[k]?.getD 0))
  | zeroed {id addr len : ℕ} {v : ProgramMemory} :
      Turn w (.kernel (.zeroAt id addr len)) (some v)
        (some (v.put addr 0 (v.extent addr len) fun _ => 0))
  | dropped {id : ℕ} {v : ProgramMemory} : Turn w (.kernel (.drop id)) (some v) none
  | stored {id addr : ℕ} {byte : UInt8} {v : ProgramMemory} (granted : v.grants addr true = true) :
      Turn w (.store id addr byte) (some v) (some (v.put addr 0 1 fun _ => byte))
  | faulted {id addr : ℕ} {byte : UInt8} {v : ProgramMemory}
      (refused : w = true → v.grants addr true = false) :
      Turn w (.store id addr byte) (some v) (some v)

variable {X : Mapper} {kernelRoot : Frame} {level : Frame → Option ℕ} {data : Frame → Prop}
  {s₀ s s' : State} {place place' : Placement} {places : ℕ → Placement} {w w' store : Bool}
  {id b addr len page l start o : ℕ} {f root t : Frame} {space space' : AddressSpace}
  {flags : PageTableFlags} {e : Entry} {m m' : Memory} {a : Action} {actions : List Action}

/-! One action. -/

/-- The upper half, which is there before the first space, is closed to programs. -/
def Supervisor (kernelRoot : Frame) (s₀ : State) : Prop :=
  ∀ i, 256 ≤ i → i < 512 →
    (entry s₀.system.bytes kernelRoot i).flags.contains .userAccessible = false

structure Working (w : Bool) (kernelRoot : Frame) (level : Frame → Option ℕ)
    (data : Frame → Prop) (s₀ s : State) (places : ℕ → Placement) : Prop where
  isolated : Isolated kernelRoot level data s₀ s places
  tree : ∀ {b space}, s.spaces b = some space →
    TableTree s.system.bytes space.root (places b) w

/-- An action does to its own space what its turn allows, and leaves the others alone. -/
structure Step (w : Bool) (places : ℕ → Placement) (s s' : State) (a : Action) : Prop where
  turn : Turn w a (memories s a.target) (memories s' a.target)
  tree : ∀ {space}, s'.spaces a.target = some space →
    ∃ place, TableTree s'.system.bytes space.root place w
  spaces : ∀ {b}, b ≠ a.target → s'.spaces b = s.spaces b
  frames : ∀ {b}, b ≠ a.target → ∀ f, places b f ≠ none → s'.system.bytes f = s.system.bytes f

theorem memories_some (hs : s.spaces id = some space) :
    memories s id = some (pagesOf space s.system.bytes) := by
  rw [memories, hs, Option.map_some]

section Kernel

variable (W : Working w kernelRoot level data s₀ s places)
include W

theorem Working.holds (hs : s.spaces id = some space) : Holds s.system space (places id) w :=
  ⟨W.tree hs, fun _ hf => W.isolated.fresh hf, W.isolated.nodup⟩

theorem Working.after (h : Step w places s s' a) {places' : ℕ → Placement}
    (I : Isolated kernelRoot level data s₀ s' places') :
    Working w kernelRoot level data s₀ s' places' := by
  refine ⟨I, fun {b space} hs => ?_⟩
  by_cases hb : b = a.target
  · subst hb
    obtain ⟨place, U⟩ := h.tree hs
    exact (I.tree hs).grantedBy U
  · have hold : s.spaces b = some space := by rw [← h.spaces hb, hs]
    have U : TableTree s'.system.bytes space.root (places b) w :=
      (W.tree hold).congr fun f l n hf => h.frames hb f (by simp [hf])
    exact (I.tree hs).grantedBy U

theorem Working.others (h : Step w places s s' a) (hb : b ≠ a.target) :
    memories s' b = memories s b := by
  rw [memories, memories, h.spaces hb]
  cases hs : s.spaces b with
  | none => rfl
  | some space => rw [Option.map_some, Option.map_some, pagesOf_congr (W.tree hs) (h.frames hb)]

theorem Working.create {current : Option ℕ} (h : s.create kernelRoot id current = some s') :
    Step w places s s' (.kernel (.new id current)) := by
  unfold State.create at h
  split at h
  case isTrue => cases h
  case isFalse hid =>
    rw [Option.not_isSome_iff_eq_none] at hid
    have hbefore : memories s id = none := by rw [memories, hid, Option.map_none]
    obtain ⟨cr3, -, h⟩ := Option.bind_eq_some_iff.mp h
    obtain ⟨⟨made, system⟩, hnew, rfl⟩ := Option.map_eq_some_iff.mp h
    have hspaces : ∀ {b}, b ≠ id → Function.update s.spaces id made b = s.spaces b :=
      fun hb => Function.update_of_ne hb _ _
    unfold AddressSpace.new at hnew
    rcases ha : s.system.frames.allocateFrame with ⟨_ | root, frames⟩ <;> simp only [ha] at hnew
    · simp only [Option.some.injEq, Prod.mk.injEq] at hnew
      obtain ⟨rfl, rfl⟩ := hnew
      refine ⟨?_, fun hs => ?_, hspaces, fun _ _ _ => rfl⟩
      · rw [Action.target, hbefore, memories]
        simpa using Turn.notMade
      · simp [Action.target] at hs
    · split at hnew
      case isFalse => cases hnew
      case isTrue =>
        simp only [Option.some.injEq, Prod.mk.injEq] at hnew
        obtain ⟨rfl, rfl⟩ := hnew
        have hempty : pagesOf ⟨root, []⟩ (AddressSpace.copyKernelHalf s.system.bytes root cr3) =
            fun _ => none := by
          funext page
          by_cases hp : page < 2 ^ 35
          · have hi : index 4 page < 256 := by
              rw [index]
              omega
            rw [pagesOf_lt hp, AddressSpace.leaf, walk, if_pos (isUnused_copy hi), Option.map_none]
          · exact pagesOf_ge hp
        refine ⟨?_, fun {space} hs => ⟨rootOnly root, ?_⟩, hspaces, fun _ f hf => ?_⟩
        · rw [Action.target, hbefore, memories_some (Function.update_self ..), hempty]
          exact Turn.made
        · simp only [Action.target, Function.update_self, Option.some.injEq] at hs
          subst hs
          exact rootOnly_tree fun i hi => isUnused_copy hi
        · apply copy_frame_ne
          rintro rfl
          apply hf
          apply W.isolated.fresh
          rw [allocate_some ha]
          exact List.mem_cons_self

theorem Working.map (hw : w = true → flags.contains .writable = true)
    (h : s.map X id page flags = some s') :
    Step w places s s' (.kernel (.mapPage id page flags)) := by
  obtain ⟨space, hs, h⟩ := Option.bind_eq_some_iff.mp h
  obtain ⟨⟨r, space', system⟩, hmap, rfl⟩ := Option.map_eq_some_iff.mp h
  obtain ⟨mine, hH, hE, hok, herr⟩ := mapPage_spec (W.holds hs) hw hmap
  have hleaves : ∀ {q}, q < 2 ^ 35 → space'.leaf system.bytes q = space.leaf s.system.bytes q →
      pagesOf space' system.bytes q = pagesOf space s.system.bytes q :=
    fun hq hl => pagesOf_leaf hl fun e he => hE.leaves (leaf_placed (W.tree hs) hq he)
  refine ⟨?_, fun {u} hu => ⟨mine, ?_⟩, fun hb => Function.update_of_ne hb _ _, fun hb f hf => ?_⟩
  · rw [Action.target, memories_some hs, memories_some (Function.update_self ..)]
    by_cases hr : r = .ok ()
    · have P := hok hr
      obtain ⟨frame, -, -, hafter⟩ := P.after
      have hp := page_lt P.user
      have hpages : pagesOf space' system.bytes =
          Function.update (pagesOf space s.system.bytes) page
            (some ⟨flags, system.bytes frame⟩) := by
        funext q
        by_cases hq : q = page
        · subst hq
          rw [Function.update_self, pagesOf_lt hp, hafter, Option.map_some]
        · rw [Function.update_of_ne hq]
          by_cases hlt : q < 2 ^ 35
          · exact hleaves hlt (P.others q hlt hq)
          · rw [pagesOf_ge hlt, pagesOf_ge hlt]
      have habsent : pagesOf space s.system.bytes page = none := by
        rw [pagesOf_lt hp, P.before, Option.map_none]
      rw [hpages]
      exact Turn.mapped _ ⟨P.user, ((mapPage_ok_iff (W.holds hs) hmap).mp hr).2.1⟩ habsent
    · have hpages : pagesOf space' system.bytes = pagesOf space s.system.bytes := by
        funext q
        by_cases hlt : q < 2 ^ 35
        · exact hleaves hlt (herr hr q hlt)
        · rw [pagesOf_ge hlt, pagesOf_ge hlt]
      rw [hpages]
      exact Turn.notMapped
  · simp only [Action.target, Function.update_self, Option.some.injEq] at hu
    subst hu
    exact hH.tree
  · apply hE.outside
    by_contra hm
    by_cases hi : places id f = none
    · exact hf (W.isolated.fresh (hE.came hm hi))
    · exact hf (W.isolated.disjoint (Ne.symm hb) hi)

theorem Working.protect (h : s.protect X id page flags = some s') :
    Step w places s s' (.kernel (.protectPage id page flags)) := by
  obtain ⟨space, hs, rfl⟩ := Option.map_eq_some_iff.mp h
  rcases hx : space.protectPage X page flags s.system with ⟨r, system⟩
  obtain ⟨hH, -, hbytes, -⟩ := protectPage_spec (W.holds hs) hx
  refine ⟨?_, fun {u} hu => ⟨places id, ?_⟩, fun _ => rfl, fun hb f hf => hbytes f fun n hn => ?_⟩
  · have hafter : memories { s with system } id = some (pagesOf space system.bytes) := by
      rw [memories, hs, Option.map_some]
    rw [Action.target, memories_some hs, hafter]
    rcases protect_pages (W.holds hs) hx with ⟨hrefused, hsame⟩ | ⟨huser, p, hp, hnew | ⟨rfl, hnew⟩⟩
    · rw [hsame]
      exact Turn.notReflagged hrefused
    · rw [hnew]
      exact Turn.reflagged huser hp
    · rw [hnew]
      exact Turn.cleared huser (by simp [hp])
  · obtain rfl := Option.some.inj (hs.symm.trans hu)
    exact hH.tree
  · have hplaced : places id f ≠ none := by simp [hn]
    exact hf (W.isolated.disjoint (Ne.symm hb) hplaced)

/-- A transfer that starts in the upper half stays there. -/
theorem Working.transfer_pages (hs : s.spaces id = some space) {content : ℕ → ℕ → List UInt8}
    {bytes : ℕ → UInt8} (hprov : Provides len content bytes) :
    pagesOf space (space.transfer addr len content len 0 s.system.bytes).2 =
      (pagesOf space s.system.bytes).put addr 0 ((pagesOf space s.system.bytes).extent addr len)
        bytes := by
  have I := W.isolated
  by_cases ha : addr ≤ 2 ^ 47
  · obtain ⟨stop, -, hle, hall, hend, hpages⟩ := ProgramMemories.transfer_pages (W.tree hs) hprov
      (Nat.zero_le len) ha (Nat.sub_le len 0)
    rw [hpages, ProgramMemory.extent_eq hle (fun k hk => hall k (Nat.zero_le k) hk) hend]
  · have habsent : (pagesOf space s.system.bytes).present (addr + 0) = false := by
      rw [ProgramMemory.present, pagesOf_ge (by omega)]
      rfl
    rw [ProgramMemory.extent_eq (Nat.zero_le len) (by omega) (Or.inr habsent),
      ProgramMemory.put_same]
    refine pagesOf_congr (W.tree hs) fun f hf => ?_
    refine transfer_outside (D := data) (fun m hm x h1 _ g hg => ?_) (fun _ _ => rfl)
      (I.not_page hf)
    have hreach : ∀ g, ¬ Isolated.Reach places data id g → m g = s.system.bytes g :=
      fun g hg => hm g fun hd => hg (Or.inr hd)
    rw [I.translate_kept hs hreach] at hg
    exact I.page_kernel hs (by omega) hg

/-- What a transfer through a space does to it and to the others. -/
theorem Working.transfer (hs : s.spaces id = some space) {content : ℕ → ℕ → List UInt8}
    (ha : a.target = id)
    (hturn : Turn w a (some (pagesOf space s.system.bytes))
      (some (pagesOf space (space.transfer addr len content len 0 s.system.bytes).2))) :
    Step w places s { s with system := { s.system with
      bytes := (space.transfer addr len content len 0 s.system.bytes).2 } } a := by
  subst ha
  have I := W.isolated
  refine ⟨?_, fun {u} hu => ⟨places a.target, ?_⟩, fun _ => rfl, fun hb f hf => ?_⟩
  · rw [memories_some hs, memories, hs, Option.map_some]
    exact hturn
  · obtain rfl := Option.some.inj (hs.symm.trans hu)
    refine (W.tree hs).congr fun f l n hf => I.transfer hs ?_
    rintro (⟨k, hk⟩ | hd)
    · rw [hf] at hk
      simp at hk
    · exact I.not_page (a := a.target) (by simp [hf]) hd
  · refine I.transfer hs ?_
    rintro (⟨k, hk⟩ | hd)
    · exact hf (I.disjoint (Ne.symm hb) (by simp [hk]))
    · exact I.not_page hf hd

theorem Working.write {bytes : List UInt8} (h : s.write id addr bytes = some s') :
    Step w places s s' (.kernel (.writeAt id addr bytes)) := by
  obtain ⟨space, hs, rfl⟩ := Option.map_eq_some_iff.mp h
  refine W.transfer hs rfl ?_
  rw [W.transfer_pages hs (provides_write bytes)]
  exact Turn.written

theorem Working.zero (h : s.zero id addr len = some s') :
    Step w places s s' (.kernel (.zeroAt id addr len)) := by
  obtain ⟨space, hs, rfl⟩ := Option.map_eq_some_iff.mp h
  refine W.transfer hs rfl ?_
  rw [W.transfer_pages hs (provides_zero len)]
  exact Turn.zeroed

omit W in
theorem removed (h : s.remove id = some s') : Step w places s s' (.kernel (.drop id)) := by
  obtain ⟨space, hs, rfl⟩ := Option.map_eq_some_iff.mp h
  refine ⟨?_, fun hu => ?_, fun hb => Function.update_of_ne hb _ _, fun _ _ _ => rfl⟩
  · rw [Action.target, memories_some hs, memories]
    simpa using Turn.dropped
  · simp [Action.target] at hu

/-- What the kernel does to a space is a step of it. -/
theorem Working.kernel {e : Event} (hw : w = true → (Action.kernel e).mapsWritable = true)
    (h : SpaceRuns.next X kernelRoot s e = some s') : Step w places s s' (.kernel e) := by
  cases e with
  | new id current => exact W.create h
  | mapPage id page flags => exact W.map hw h
  | protectPage id page flags => exact W.protect h
  | writeAt id addr bytes => exact W.write h
  | zeroAt id addr len => exact W.zero h
  | drop id => exact removed h

end Kernel

section Programs

variable (W : Working w kernelRoot level data s₀ s places) (hk : Supervisor kernelRoot s₀)
  (hs : s.spaces id = some space)
include W hk hs

/-- The upper half is closed to a program. -/
theorem Working.mmu_upper (ha : ¬ addr < 2 ^ 47) : mmu s.system.bytes store space.root addr = none := by
  rw [mmu]
  split
  case isFalse => rfl
  case isTrue hc =>
    have hi : 256 ≤ index 4 (addr / 4096) := by
      have hc' := of_decide_eq_true hc
      rw [index]
      norm_num
      omega
    have hi' : index 4 (addr / 4096) < 512 := Nat.mod_lt _ (by decide)
    have he : entry s.system.bytes space.root (index 4 (addr / 4096)) =
        entry s₀.system.bytes kernelRoot (index 4 (addr / 4096)) := by
      rw [entry, entry, W.isolated.upper hs _ hi hi']
    have hclosed : permits store
        (entry s.system.bytes space.root (index 4 (addr / 4096))).flags = false := by
      rw [he, ← Bool.not_eq_true]
      intro hperm
      have huser := (permits_iff.mp hperm).userAccessible
      rw [hk _ hi hi'] at huser
      cases huser
    rw [mmuWalk]
    exact if_pos hclosed

/-- The page and the frame behind an access that the hardware lets pass. -/
theorem Working.mmu_leaf (h : mmu s.system.bytes store space.root addr = some f) :
    addr < 2 ^ 47 ∧ ∃ e, space.leaf s.system.bytes (addr / 4096) = some e ∧
      permits store e.flags = true ∧ e.frame = f := by
  by_cases ha : addr < 2 ^ 47
  · exact ⟨ha, mmu_some (W.tree hs) ha h⟩
  · rw [W.mmu_upper hk hs ha] at h
    cases h

/-- A program loads what its memory has at the address, and faults where that grants no load. -/
theorem Working.load_eq : load s id addr = (pagesOf space s.system.bytes).load addr := by
  rw [load, hs, Option.bind_some, ProgramMemory.load]
  cases hm : mmu s.system.bytes false space.root addr with
  | none =>
    have hrefused : ¬ (pagesOf space s.system.bytes).grants addr false = true := by
      rw [grants_pagesOf]
      rintro ⟨ha, e, hl, hperm⟩
      rw [mmu_of_walk (W.tree hs) (by simp) ha hl hperm] at hm
      cases hm
    rw [if_neg hrefused, Option.map_none]
  | some f =>
    obtain ⟨ha, e, hl, hperm, rfl⟩ := W.mmu_leaf hk hs hm
    rw [if_pos (grants_pagesOf.mpr ⟨ha, e, hl, hperm⟩), pagesOf_lt (by omega), hl]
    rfl

omit hs in
/-- A store changes the one byte of the program's own memory, or faults. -/
theorem Working.stored {byte : UInt8} (h : ProgramMemories.store s id addr byte = some s') :
    Step w places s s' (.store id addr byte) ∧ Isolated kernelRoot level data s₀ s' places := by
  obtain ⟨space, hs, rfl⟩ := Option.map_eq_some_iff.mp h
  have I := W.isolated
  split
  case h_1 hm =>
    refine ⟨⟨?_, fun {u} hu => ⟨places id, ?_⟩, fun _ => rfl, fun _ _ _ => rfl⟩, I⟩
    · rw [Action.target, memories_some hs]
      refine Turn.faulted fun hw => ?_
      rw [← Bool.not_eq_true, grants_pagesOf]
      rintro ⟨ha, e, hl, hperm⟩
      rw [mmu_of_walk (W.tree hs) (fun _ => hw) ha hl hperm] at hm
      cases hm
    · exact W.tree hu
  case h_2 f hm =>
    obtain ⟨ha, e, hl, hperm, rfl⟩ := W.mmu_leaf hk hs hm
    have hplaced := leaf_placed (W.tree hs) (by omega) hl
    have hkept : ∀ g, ¬ ((∃ n, places id g = some (0, n)) ∨ data g) →
        s.system.bytes.write e.frame (addr % 4096) [byte] g = s.system.bytes g := by
      intro g hg
      apply Memory.write_frame_ne
      rintro rfl
      exact hg (Or.inl ⟨_, hplaced⟩)
    refine ⟨⟨?_, fun {u} hu => ⟨places id, ?_⟩, fun _ => rfl, fun hb g hg => ?_⟩,
      I.transferred hkept⟩
    · have hfit : addr % 4096 + [byte].length ≤ 4096 := Nat.mod_lt addr (by decide)
      have hbyte : ∀ k < [byte].length, [byte][k]? = some byte := by
        intro k hk
        obtain rfl : k = 0 := Nat.lt_one_iff.mp hk
        rfl
      have hpages : pagesOf space (s.system.bytes.write e.frame (addr % 4096) [byte]) =
          (pagesOf space s.system.bytes).put addr 0 (0 + [byte].length) fun _ => byte :=
        pagesOf_write (W.tree hs) (by omega) hl hfit (Nat.div_add_mod addr 4096).symm hbyte
      rw [Action.target, memories_some hs, memories, hs, Option.map_some, hpages]
      exact Turn.stored (grants_pagesOf.mpr ⟨ha, e, hl, hperm⟩)
    · obtain rfl := Option.some.inj (hs.symm.trans hu)
      refine (W.tree hs).congr fun g l n hg => Memory.write_frame_ne ?_
      rintro rfl
      rw [hplaced] at hg
      simp at hg
    · apply Memory.write_frame_ne
      rintro rfl
      have hmine : places id e.frame ≠ none := by simp [hplaced]
      exact hg (I.disjoint (Ne.symm hb) hmine)

end Programs

/-! Whole runs. -/

theorem step_next (W : Working w kernelRoot level data s₀ s places) (hk : Supervisor kernelRoot s₀)
    (hw : w = true → a.mapsWritable = true) (h : next X kernelRoot s a = some s') :
    Step w places s s' a ∧ ∃ places', Working w kernelRoot level data s₀ s' places' := by
  cases a with
  | kernel e =>
    have hstep := W.kernel hw h
    obtain ⟨places', I⟩ := W.isolated.step h
    exact ⟨hstep, places', W.after hstep I⟩
  | store id addr byte =>
    obtain ⟨hstep, I⟩ := W.stored hk h
    exact ⟨hstep, places, W.after hstep I⟩

theorem preserves_working (hk : Supervisor kernelRoot s₀) :
    Preserves (next X kernelRoot) (fun _ a => w = true → a.mapsWritable = true)
      fun s => ∃ places, Working w kernelRoot level data s₀ s places := by
  rintro s a s' ⟨places, W⟩ hw h
  exact (step_next W hk hw h).2

theorem Boots.working (hb : Boots kernelRoot level data s₀) :
    Working w kernelRoot level data s₀ s₀ fun _ _ => none :=
  ⟨hb.isolated, fun hs => by simp [hb.spaces] at hs⟩

section Example

/-- Two programs store to the address that both have a page at, while the kernel closes the page of
the first. -/
def sameAddress : List Action :=
  [.kernel (.new 0 none), .kernel (.new 1 (some 0)), .kernel (.mapPage 0 0x400 ⟨7#12, 0#12⟩),
    .kernel (.mapPage 1 0x400 ⟨7#12, 0#12⟩), .kernel (.zeroAt 0 0x400000 4096),
    .kernel (.writeAt 1 0x400ffe [5, 6]), .store 0 0x400ffe 1, .store 1 0x400ffe 2,
    .kernel (.protectPage 0 0x400 ⟨5#12, 0#12⟩), .store 0 0x400ffe 3,
    .store 1 0xffff800000000000 4]

theorem sameAddress_run : (exec (next Mapper.walker 1#40) bootState sameAddress).map (fun s =>
    (load s 0 0x400ffe, load s 0 0x400fff, load s 1 0x400ffe, load s 1 0x400fff)) =
      some (some 1, some 0, some 2, some 6) := by decide +kernel

theorem bootState_supervisor : Supervisor 1#40 bootState := by
  intro i h1 h2
  change (entry bootBytes 1#40 i).flags.contains .userAccessible = false
  by_cases hi : i = 256
  · subst hi
    rw [kernelEntry_bootBytes]
    decide
  · have hz : bootBytes.word 1#40 i = 0 := word_bootBytes fun k hk => by
      have h3 : 8 * i + k ≠ 2048 := by omega
      have h4 : 8 * i + k ≠ 2049 := by omega
      simp [bootBytes, h3, h4]
    rw [entry, hz]
    decide

end Example

end ProgramMemories
