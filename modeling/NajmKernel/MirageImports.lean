import NajmKernel.MirageExclusion

/-! The import address table in the space of a PE image: every slot leads to its thunk, where the
slots and the thunks that share bytes want the same of them. -/
namespace Mirage

open LittleEndian PhysicalMemory PageTables PhysicalFrames AddressSpaces Attempts Attempt
  SpaceBuilding PeParser TransitionSystem SpaceRuns Overwrites
open ElfLoader (LoadedImage)

/-- These bytes are at an address and behind it. -/
def ShowsAt (space : AddressSpace) (m : Memory) (addr : ℕ) (data : List UInt8) : Prop :=
  ∀ k < data.length, space.byteAt m (addr + k) = data[k]?

/-- The slot of every import holds the address of its thunk, and the thunk is there. -/
def Bound (image : Image) (space : AddressSpace) (m : Memory) : Prop :=
  ∀ i ∈ image.imports.zipIdx,
    ShowsAt space m (mirageImageBase + i.1.iatRva) (toBytes 8 (thunkAddress image i.2)) ∧
      ∃ thunk, lookup i.1.name = some thunk ∧
        ShowsAt space m (thunkAddress image i.2) (generateThunk thunk)

/-- Where two of the slots and thunks overlap, they want the same bytes. -/
def Undisturbed (image : Image) : Prop := ∀ p ∈ patches image, ∀ q ∈ patches image, p.Agrees q

variable {X : Mapper} {nx : Bool} {bytes : List UInt8} {image : Image} {b : Building}
  {kernelRoot cr3 : Frame} {level : Frame → Option ℕ} {data : Frame → Prop} {s₀ s : State}
  {es : List Event} {name : String} {loaded : LoadedImage} {sys' : System} {k q addr : ℕ}

theorem mem_patches {p : Patch UInt8} : p ∈ patches image ↔ ∃ i ∈ image.imports.zipIdx,
    p = ⟨thunkAddress image i.2, thunkCode i.1.name⟩ ∨
      p = ⟨mirageImageBase + i.1.iatRva, toBytes 8 (thunkAddress image i.2)⟩ := by
  simp [patches, patchesFor]

section Holds

variable (hi : Bounded image) (h : HoldsImage nx image b)
include hi h

/-- The patches lie below the stack. -/
theorem patch_not_stack {p : Patch UInt8} (hp : p ∈ patches image) (hk : k < p.data.length) :
    (p.addr + k) / 4096 ∉ stackRange ∧ p.addr + k < 2 ^ 47 := by
  have hle := imagePages_le hi
  obtain ⟨i, hin, hp⟩ := mem_patches.mp hp
  obtain ⟨⟨thunk, hthunk⟩, hroom⟩ := h.placed i hin
  have hslot : i.1.iatRva < 2 ^ 32 := by
    apply hi.slots
    rw [List.mem_iff_getElem?]
    exact ⟨i.2, List.mem_zipIdx_iff_getElem?.mp hin⟩
  have hlow : p.addr + k < stackBottom := by
    rw [thunkBase, mirageImageBase] at hroom
    rw [stackBottom]
    rcases hp with rfl | rfl
    · rw [thunkCode, hthunk, Option.map_some, Option.getD_some, length_generateThunk] at hk
      simp only
      omega
    · rw [length_toBytes] at hk
      simp only [mirageImageBase]
      omega
  rw [stackBottom] at hlow
  refine ⟨fun hs => ?_, by omega⟩
  have hs' := (mem_stackRange.mp hs).1
  rw [stackBottom] at hs'
  omega

theorem holds_iff_showsAt {p : Patch UInt8} {f : ℕ → Option UInt8} (hp : p ∈ patches image)
    (hf : ∀ a, a / 4096 ∉ stackRange → b.byteAt a = applyAll (patches image) f a) :
    p.Holds (applyAll (patches image) f) ↔ ShowsAt b.space b.system.bytes p.addr p.data := by
  apply forall_congr'
  intro k
  apply forall_congr'
  intro hk
  obtain ⟨hstack, hlt⟩ := patch_not_stack hi h hp hk
  rw [← hf _ hstack, Building.byteAt, if_pos hlt]

theorem bound_iff : Bound image b.space b.system.bytes ↔ Undisturbed image := by
  obtain ⟨f, hf⟩ := h.bound
  rw [Undisturbed, ← all_hold_iff (f := f)]
  constructor
  · intro hbound p hp
    rw [holds_iff_showsAt hi h hp hf]
    obtain ⟨i, hin, hp⟩ := mem_patches.mp hp
    obtain ⟨hslot, thunk, hthunk, hcode⟩ := hbound i hin
    rcases hp with rfl | rfl
    · rwa [thunkCode, hthunk]
    · exact hslot
  · intro hall i hin
    obtain ⟨⟨thunk, hthunk⟩, -⟩ := h.placed i hin
    have hcode := mem_patches.mpr ⟨i, hin, Or.inl rfl⟩
    have hslot := mem_patches.mpr ⟨i, hin, Or.inr rfl⟩
    refine ⟨(holds_iff_showsAt hi h hslot hf).mp (hall _ hslot), thunk, hthunk, ?_⟩
    have hshows := (holds_iff_showsAt hi h hcode hf).mp (hall _ hcode)
    rwa [thunkCode, hthunk] at hshows

end Holds

/-- Two imports with one slot: it cannot lead to both thunks. -/
theorem not_undisturbed_of_shared {i j : Import × ℕ} (hi : i ∈ image.imports.zipIdx)
    (hj : j ∈ image.imports.zipIdx)
    (hne : thunkAddress image i.2 % 256 ^ 8 ≠ thunkAddress image j.2 % 256 ^ 8)
    (hs : i.1.iatRva = j.1.iatRva) : ¬ Undisturbed image := by
  intro hU
  have hagrees := hU _ (mem_patches.mpr ⟨i, hi, Or.inr rfl⟩) _ (mem_patches.mpr ⟨j, hj, Or.inr rfl⟩)
  have heq := hagrees.eq (by rw [hs]) (by simp only [length_toBytes])
  have hdata : toBytes 8 (thunkAddress image i.2) = toBytes 8 (thunkAddress image j.2) :=
    congrArg Patch.data heq
  apply hne
  rw [← ofBytes_toBytes 8, ← ofBytes_toBytes 8, hdata]

/-- Later turns of the binding loop write over earlier ones, and over thunks. -/
theorem mirage_bound_iff (hb : Boots kernelRoot level data s₀)
    (hrun : exec (next X kernelRoot) s₀ es = some s)
    (hparse : (parse bytes).run s.system = some (.ok image, s.system))
    (h : (loadImage X cr3 nx bytes name).run s.system = some (.ok loaded, sys')) :
    Bound image loaded.addressSpace sys'.bytes ↔ Undisturbed image := by
  obtain ⟨place, I⟩ := hb.run hrun
  obtain ⟨image', hi', hholds, -⟩ := loadImage_ok I.nodup h
  obtain ⟨hi, -⟩ := parse_outcome.run_ok.mp hparse
  obtain rfl := hi.unique hi'
  have hiff := bound_iff hi.bounded hholds
  exact hiff

section Example

/-- Two imports of two descriptors, with one slot between them. -/
def sharedSlot : List UInt8 :=
  encode 0 4096 330 [(0, 0), (216, 60)] []
    (toBytes 4 276 ++ toBytes 4 0 ++ toBytes 4 0 ++ toBytes 4 308 ++ toBytes 4 0x800 ++
      toBytes 4 292 ++ toBytes 4 0 ++ toBytes 4 0 ++ toBytes 4 316 ++ toBytes 4 0x800 ++
      List.replicate 20 0 ++ toBytes 8 308 ++ toBytes 8 0 ++ toBytes 8 316 ++ toBytes 8 0 ++
      [0, 0, 0x53, 0x6C, 0x65, 0x65, 0x70, 0] ++
      [0, 0, 0x45, 0x78, 0x69, 0x74, 0x50, 0x72, 0x6F, 0x63, 0x65, 0x73, 0x73, 0])

def sharedImage : Image := ⟨0, 0, 4096, 330, [], [⟨"Sleep", 0x800⟩, ⟨"ExitProcess", 0x800⟩], []⟩

theorem sharedSlot_read : parsed sharedSlot = some sharedImage ∧ Loadable sharedSlot sharedImage := by
  decide +kernel

theorem sharedSlot_parsed : ImageIs sharedSlot sharedImage := imageIs_of_parsed sharedSlot_read.1

theorem sharedSlot_parses {σ : Type} (u : σ) :
    (parse sharedSlot).run u = some (.ok sharedImage, u) :=
  parse_outcome.returns _ sharedSlot_parsed u

theorem sharedSlot_loads : ∃ loaded sys',
    (loadImage .walker 1#40 true sharedSlot "shared.exe").run (bootWith 0x40000).system =
      some (.ok loaded, sys') :=
  bootWith_loads _ (by decide) sharedSlot_parsed sharedSlot_read.2 (by decide)

theorem mirage_bound_iff_shared : ∃ loaded sys',
    (loadImage .walker 1#40 true sharedSlot "shared.exe").run (bootWith 0x40000).system =
      some (.ok loaded, sys') ∧
    (Bound sharedImage loaded.addressSpace sys'.bytes ↔ Undisturbed sharedImage) := by
  obtain ⟨loaded, sys', h⟩ := sharedSlot_loads
  have hboots : Boots 1#40 bootLevel (fun _ => False) (bootWith 0x40000) :=
    bootWith_boots (by decide)
  exact ⟨loaded, sys', h, mirage_bound_iff (X := .walker) hboots (exec_nil _ _)
    (sharedSlot_parses _) h⟩

theorem sharedImage_disturbed : ¬ Undisturbed sharedImage :=
  not_undisturbed_of_shared (i := (⟨"Sleep", 0x800⟩, 0)) (j := (⟨"ExitProcess", 0x800⟩, 1))
    (by decide) (by decide) (by decide) rfl

theorem sharedSlot_not_bound : ∃ loaded sys',
    (parse sharedSlot).run (bootWith 0x40000).system =
      some (.ok sharedImage, (bootWith 0x40000).system) ∧
    (loadImage .walker 1#40 true sharedSlot "shared.exe").run (bootWith 0x40000).system =
      some (.ok loaded, sys') ∧ ¬ Bound sharedImage loaded.addressSpace sys'.bytes := by
  obtain ⟨loaded, sys', h⟩ := sharedSlot_loads
  have hboots : Boots 1#40 bootLevel (fun _ => False) (bootWith 0x40000) :=
    bootWith_boots (by decide)
  obtain ⟨place, I⟩ := hboots.run (X := .walker) (exec_nil _ _)
  obtain ⟨image, hi, hholds, -⟩ := loadImage_ok I.nodup h
  obtain rfl := sharedSlot_parsed.unique hi
  have hiff := bound_iff hi.bounded hholds
  exact ⟨loaded, sys', sharedSlot_parses _, h, fun hbound => sharedImage_disturbed (hiff.mp hbound)⟩

end Example

end Mirage
