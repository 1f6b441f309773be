import NajmKernel.BootStates
import NajmKernel.BuildingProgress
import NajmKernel.MirageImages

/-! When a load of a PE image cannot fail: its sections lie in the file and in the image, its
relocations in single pages, its imports are known and have room, and the frames are enough. -/
namespace Mirage

open LittleEndian PhysicalMemory PageTables PhysicalFrames AddressSpaces Attempts Attempt
  SpaceBuilding PeParser Overwrites SpaceRuns
open ElfLoader (LoadedImage)

variable {X : Mapper} {nx : Bool} {bytes : List UInt8} {image : Image} {b b' : Building}
  {delta rva : ℕ} {t : Section}

/-- Nothing that the loader looks at can stop it. -/
structure Loadable (bytes : List UInt8) (image : Image) : Prop where
  file : bytes.length < 2 ^ 64
  headers : min image.headersSize bytes.length ≤ imagePages image * 4096
  copies : ∀ t ∈ image.sections, t.rawSize ≠ 0 → t.rawOffset + t.rawSize ≤ bytes.length ∧
    t.virtualAddress + t.rawSize ≤ imagePages image * 4096
  exclusive : ∀ t ∈ image.sections, ¬ (t.writable = true ∧ t.executable = true)
  relocations : ∀ rva ∈ image.relocations, rva % 4096 ≤ 4096 - 8 ∧ rva < imagePages image * 4096
  placed : ∀ i ∈ image.imports.zipIdx, (lookup i.1.name).isSome = true ∧
    thunkAddress image i.2 + thunkStride ≤ thunkBase image + 4096
  slots : ∀ i ∈ image.imports, i.iatRva + 8 ≤ (imagePages image + 1) * 4096

instance (bytes : List UInt8) (image : Image) : Decidable (Loadable bytes image) :=
  decidable_of_iff (bytes.length < 2 ^ 64 ∧
      min image.headersSize bytes.length ≤ imagePages image * 4096 ∧
      (∀ t ∈ image.sections, t.rawSize ≠ 0 → t.rawOffset + t.rawSize ≤ bytes.length ∧
        t.virtualAddress + t.rawSize ≤ imagePages image * 4096) ∧
      (∀ t ∈ image.sections, ¬ (t.writable = true ∧ t.executable = true)) ∧
      (∀ rva ∈ image.relocations, rva % 4096 ≤ 4096 - 8 ∧ rva < imagePages image * 4096) ∧
      (∀ i ∈ image.imports.zipIdx, (lookup i.1.name).isSome = true ∧
        thunkAddress image i.2 + thunkStride ≤ thunkBase image + 4096) ∧
      ∀ i ∈ image.imports, i.iatRva + 8 ≤ (imagePages image + 1) * 4096)
    ⟨fun ⟨h1, h2, h3, h4, h5, h6, h7⟩ => ⟨h1, h2, h3, h4, h5, h6, h7⟩,
      fun h => ⟨h.file, h.headers, h.copies, h.exclusive, h.relocations, h.placed, h.slots⟩⟩

/-- The pages from the image's first on are mapped. -/
def Mapped (pages : ℕ) (b : Building) : Prop :=
  ∀ a, mirageImageBase ≤ a → a < mirageImageBase + pages * 4096 →
    (b.flagsAt (a / 4096)).isSome = true

theorem lt_of_page_ne {a pages : ℕ} (h : a < mirageImageBase + (pages + 1) * 4096)
    (hne : a / 4096 ≠ basePage + pages) : a < mirageImageBase + pages * 4096 := by
  by_contra hge
  apply hne
  rw [mirageImageBase] at h hge
  rw [basePage]
  omega

section Steps

variable {pages : ℕ} (hb : Sound b) (hm : Mapped pages b)
include hb hm

theorem copySection_returns (hle : pages ≤ 0x20001) (hfile : bytes.length < 2 ^ 64)
    (hraw : t.rawSize ≠ 0 → t.rawOffset + t.rawSize ≤ bytes.length ∧
      t.virtualAddress + t.rawSize ≤ pages * 4096) :
    ∃ b', (copySection bytes t).run b = some (.ok (), b') ∧ b'.frames = b.frames := by
  rw [copySection]
  by_cases hsize : t.rawSize = 0
  · rw [if_pos hsize]
    exact ⟨b, rfl, rfl⟩
  · obtain ⟨hin, hfits⟩ := hraw hsize
    have hlen : ((bytes.drop t.rawOffset).take (t.rawOffset + t.rawSize - t.rawOffset)).length =
        t.rawSize := by
      rw [List.length_take, List.length_drop]
      omega
    rw [if_neg hsize, run_sum_bind (by omega), run_bind_of_ok (run_slice ⟨by omega, hin⟩)]
    refine writeAt_returns MirageError.mapping _ _ hb ?_ fun a h1 h2 => hm a (by omega) ?_
    · rw [hlen, mirageImageBase]
      omega
    · rw [hlen] at h2
      omega

theorem relocate_returns (hle : pages ≤ 0x20001) (hin : rva % 4096 ≤ 4096 - 8)
    (hlt : rva < pages * 4096) :
    ∃ b', (relocate delta rva).run b = some (.ok (), b') ∧ b'.frames = b.frames := by
  have haddr : mirageImageBase + rva < 2 ^ 47 := by
    rw [mirageImageBase]
    omega
  have hoffset : (mirageImageBase + rva) % 4096 = rva % 4096 := by
    rw [mirageImageBase]
    omega
  have hmapped : (b.flagsAt ((mirageImageBase + rva) / 4096)).isSome = true :=
    hm _ (by omega) (by omega)
  obtain ⟨frame, hf⟩ := Option.ne_none_iff_exists'.mp (translate_ne_none hb haddr hmapped)
  rw [relocate, run_bind_of_ok (show _ = some (Except.ok frame, b) by rw [run_of, hf]), run_ensure_bind,
    if_pos (by omega), run_of]
  exact ⟨_, rfl, rfl⟩

theorem bindImport_returns {i : Import × ℕ} (hle : pages ≤ 0x20001)
    (hpages : pages = imagePages image + 1)
    (hplaced : (lookup i.1.name).isSome = true ∧
      thunkAddress image i.2 + thunkStride ≤ thunkBase image + 4096)
    (hslot : i.1.iatRva + 8 ≤ pages * 4096) :
    ∃ b', (bindImport image i).run b = some (.ok (), b') ∧ b'.frames = b.frames := by
  obtain ⟨⟨thunk, hthunk⟩, hroom⟩ := And.intro (Option.isSome_iff_exists.mp hplaced.1) hplaced.2
  have hstart : mirageImageBase ≤ thunkAddress image i.2 := by
    rw [thunkAddress, thunkBase]
    omega
  rw [thunkBase] at hroom
  obtain ⟨b₁, hrun₁, hf₁⟩ := writeAt_returns MirageError.mapping (thunkAddress image i.2)
    (generateThunk thunk) hb (by rw [length_generateThunk, mirageImageBase] at *; omega)
    fun a h1 h2 => hm a (by omega) (by rw [length_generateThunk] at h2; omega)
  obtain ⟨hs₁, hw₁⟩ := written_of_ok hb (by
    rw [length_generateThunk, mirageImageBase] at *
    omega) hrun₁
  obtain ⟨b₂, hrun₂, hf₂⟩ := writeAt_returns MirageError.mapping (mirageImageBase + i.1.iatRva)
    (toBytes 8 (thunkAddress image i.2)) hs₁ (by rw [length_toBytes, mirageImageBase]; omega)
    fun a h1 h2 => by
      rw [length_toBytes] at h2
      rw [hw₁.flagsAt]
      exact hm a (by omega) (by omega)
  refine ⟨b₂, ?_, hf₂.trans hf₁⟩
  rw [bindImport, hthunk]
  simp only
  rw [run_ensure_bind, if_pos (by rw [thunkBase]; omega), run_bind_of_ok hrun₁, hrun₂]

variable (X nx) in
theorem protectSection_returns (hle : pages ≤ 0x20001)
    (hx : ¬ (t.writable = true ∧ t.executable = true)) (hpages : ∀ k ∈ sectionPages t, k < pages) :
    ∃ b', (protectSection X nx t).run b = some (.ok (), b') ∧ b'.frames = b.frames := by
  rw [protectSection, run_ensure_bind, if_pos hx]
  obtain ⟨_, b', hrun, -, -, hf⟩ := run_foldlM_returns (l := sectionPages t)
    (g := fun _ i => do
      virtAddr (mirageImageBase + i * 4096)
      protectPage MirageError.mapping X ((mirageImageBase + i * 4096) / 4096) (sectionFlags nx t))
    (I := fun _ _ c => Sound c ∧ Mapped pages c ∧ c.frames = b.frames) (d := []) (b := ()) (s := b)
    (by
    rintro before k after _ c hl ⟨hc, hmc, hfc⟩
    have hk := hpages k (by rw [hl]; simp)
    have hcan : isCanonical (mirageImageBase + k * 4096) = true :=
      decide_eq_true (Or.inl (by rw [mirageImageBase]; omega))
    have huser : isUserAddress (4096 * ((mirageImageBase + k * 4096) / 4096)) = true := by
      apply decide_eq_true
      rw [mirageImageBase, userSpaceEnd]
      omega
    obtain ⟨c', hrun, hf⟩ := protectPage_returns MirageError.mapping X (sectionFlags nx t) hc huser
      (hmc _ (by omega) (by omega))
    obtain ⟨hs, -, -, hflags, -⟩ := protected_of_ok hc (sectionFlags_spec nx t).1 hrun
    refine ⟨(), c', ?_, hs, fun a h1 h2 => ?_, hf.trans hfc⟩
    · rw [virtAddr, run_demand_bind, if_pos hcan, hrun]
    · rw [hflags, Function.update_apply]
      split
      · rfl
      · exact hmc a h1 h2) ⟨hb, hm, rfl⟩
  exact ⟨b', hrun, hf⟩

end Steps

theorem Mapped.congr {pages : ℕ} (hm : Mapped pages b) (hf : b'.flagsAt = b.flagsAt) :
    Mapped pages b' := fun a h1 h2 => by
  rw [hf]
  exact hm a h1 h2

section Loops

variable (hi : Bounded image) (hl : Loadable bytes image) (hb : Sound b)
include hi hl hb

theorem copySections_returns (hm : Mapped (imagePages image) b) :
    ∃ b', (image.sections.foldlM (fun _ t => copySection bytes t) ()).run b = some (.ok (), b') ∧
      Sound b' ∧ b'.flagsAt = b.flagsAt ∧ b'.frames = b.frames := by
  have hle := imagePages_le hi
  obtain ⟨_, b', hrun, hend⟩ := run_foldlM_returns (l := image.sections)
    (g := fun _ t => copySection bytes t) (I := fun _ _ c => Sound c ∧ c.flagsAt = b.flagsAt ∧
      c.frames = b.frames) (d := []) (b := ()) (s := b) (by
    rintro before t after _ c hlist ⟨hc, hfc, hleft⟩
    have ht : t ∈ image.sections := by
      rw [hlist]
      simp
    obtain ⟨c', hrun, hf⟩ := copySection_returns hc (hm.congr hfc) (by omega) hl.file
      (hl.copies t ht)
    obtain ⟨hs, hflags, -⟩ := copySection_ok hi ht hc hrun
    exact ⟨(), c', hrun, hs, hflags.trans hfc, hf.trans hleft⟩) ⟨hb, rfl, rfl⟩
  exact ⟨b', hrun, hend⟩

theorem applyRelocations_returns (hm : Mapped (imagePages image) b) :
    ∃ b', (applyRelocations image).run b = some (.ok (), b') ∧ b'.frames = b.frames := by
  have hle := imagePages_le hi
  rw [applyRelocations]
  split
  case isTrue => exact ⟨b, rfl, rfl⟩
  case isFalse =>
    obtain ⟨_, b', hrun, -, -, hf⟩ := run_foldlM_returns (l := image.relocations)
      (g := fun _ rva => relocate
        ((mirageImageBase + (2 ^ 64 - image.preferredBase)) % 2 ^ 64) rva)
      (I := fun _ _ c => Sound c ∧ c.flagsAt = b.flagsAt ∧ c.frames = b.frames)
      (d := []) (b := ()) (s := b) (by
      rintro before rva after _ c hlist ⟨hc, hfc, hleft⟩
      have hrva : rva ∈ image.relocations := by
        rw [hlist]
        simp
      obtain ⟨hin, hlt⟩ := hl.relocations rva hrva
      obtain ⟨c', hrun, hf⟩ := relocate_returns hc (hm.congr hfc) (by omega) hin hlt
      obtain ⟨hs, hflags⟩ := relocate_ok (hi.relocations rva hrva) hc hrun
      exact ⟨(), c', hrun, hs, hflags.trans hfc, hf.trans hleft⟩) ⟨hb, rfl, rfl⟩
    exact ⟨b', hrun, hf⟩

theorem bindImports_returns (hm : Mapped (imagePages image) b)
    (hfree : b.flagsAt (basePage + imagePages image) = none) (hframes : 4 ≤ b.frames) :
    ∃ b', (bindImports X image).run b = some (.ok (), b') ∧ b.frames ≤ b'.frames + 4 := by
  obtain ⟨hp, hw, hu, -⟩ := loadFlags_spec
  have hle := imagePages_le hi
  have hcan : isCanonical (thunkBase image) = true := by
    apply decide_eq_true
    left
    rw [thunkBase, mirageImageBase]
    omega
  have huser : isUserAddress (4096 * (basePage + imagePages image)) = true := by
    apply decide_eq_true
    rw [basePage, userSpaceEnd]
    omega
  have hthree := b.missing_le (basePage + imagePages image)
  obtain ⟨b₁, hrun₁, hf₁⟩ := mapPage_returns MirageError.mapping X hb loadFlags_fillable huser hfree
    (by omega)
  obtain ⟨hs₁, hmap⟩ := mapped_of_ok hb hw hp hrun₁
  -- with the page of thunks the pages that are mapped go one further
  have hm₁ : Mapped (imagePages image + 1) b₁ := by
    intro a h1 h2
    rw [hmap.flagsAt, Function.update_apply]
    split
    case isTrue => rfl
    case isFalse hne => exact hm a h1 (lt_of_page_ne h2 hne)
  obtain ⟨b₂, hrun₂, hf₂⟩ := zeroAt_returns MirageError.mapping (thunkBase image) 4096 hs₁
    (by rw [thunkBase, mirageImageBase]; omega) fun a h1 h2 => hm₁ a
      (by rw [thunkBase] at h1; omega) (by rw [thunkBase] at h2; omega)
  obtain ⟨hs₂, hz⟩ := zeroed_of_ok hs₁ (by rw [thunkBase, mirageImageBase]; omega) hrun₂
  obtain ⟨_, b₃, hrun₃, hs₃, hflags₃, hf₃⟩ := run_foldlM_returns (l := image.imports.zipIdx)
    (g := fun _ i => bindImport image i) (I := fun _ _ c => Sound c ∧ c.flagsAt = b₂.flagsAt ∧
      c.frames = b₂.frames) (d := []) (b := ()) (s := b₂) (by
    rintro before i after _ c hlist ⟨hc, hfc, hleft⟩
    have hin : i ∈ image.imports.zipIdx := by
      rw [hlist]
      simp
    have hmem : i.1 ∈ image.imports := by
      rw [List.mem_iff_getElem?]
      exact ⟨i.2, List.mem_zipIdx_iff_getElem?.mp hin⟩
    obtain ⟨c', hrun, hf⟩ := bindImport_returns hc ((hm₁.congr hz.flagsAt).congr hfc) (by omega) rfl
      (hl.placed i hin) (hl.slots _ hmem)
    obtain ⟨hs, hflags, -, -⟩ := bindImport_ok hi hmem hc hrun
    exact ⟨(), c', hrun, hs, hflags.trans hfc, hf.trans hleft⟩) ⟨hs₂, rfl, rfl⟩
  obtain ⟨b₄, hrun₄, hf₄⟩ := protectPage_returns MirageError.mapping X thunkFlags hs₃ huser (by
    rw [hflags₃, hz.flagsAt, hmap.flagsAt, Function.update_self]
    rfl)
  refine ⟨b₄, ?_, by omega⟩
  rw [bindImports, virtAddr, run_demand_bind, if_pos hcan, thunkBase_page, run_bind_of_ok hrun₁,
    run_bind_of_ok hrun₂, run_bind_of_ok hrun₃, hrun₄]

variable (X nx) in
theorem protectSections_returns (hm : Mapped (imagePages image) b) :
    ∃ b', (image.sections.foldlM (fun _ t => protectSection X nx t) ()).run b =
      some (.ok (), b') ∧ b'.frames = b.frames := by
  have hle := imagePages_le hi
  obtain ⟨_, b', hrun, -, -, hf⟩ := run_foldlM_returns (l := image.sections)
    (g := fun _ t => protectSection X nx t) (I := fun _ _ c => Sound c ∧
      Mapped (imagePages image) c ∧ c.frames = b.frames) (d := []) (b := ()) (s := b) (by
    rintro before t after _ c hlist ⟨hc, hmc, hleft⟩
    have ht : t ∈ image.sections := by
      rw [hlist]
      simp
    obtain ⟨c', hrun, hf⟩ := protectSection_returns X nx hc hmc (by omega)
      (hl.exclusive t ht) fun k hk => sectionPages_lt hi ht hk
    obtain ⟨hs, -, hflags, -⟩ := protectSection_ok hc hrun
    refine ⟨(), c', hrun, hs, fun a h1 h2 => ?_, hf.trans hleft⟩
    rw [hflags]
    split
    · rfl
    · exact hmc a h1 h2) ⟨hb, hm, rfl⟩
  exact ⟨b', hrun, hf⟩

variable (X nx) in
/-- The frames of the image, of the page of thunks and of the stack are enough. -/
theorem buildImage_returns (hfree : ∀ q, b.flagsAt q = none)
    (hframes : rangeFrames 0 (imagePages image) + 23 ≤ b.frames) :
    ∃ b', (buildImage X nx bytes image).run b = some (.ok (), b') := by
  obtain ⟨hp, hw, hu, -⟩ := loadFlags_spec
  have hle := imagePages_le hi
  have hplace : mirageImageBase / 4096 % 512 = 0 := by decide
  obtain ⟨b₀, hrun₀, hs₀, hall, hf₀⟩ := mappedRange_returns MirageError.mapping X hb
    mirageImageBase (imagePages image) loadFlags_fillable (by decide)
    (by rw [mirageImageBase, userSpaceEnd]; omega) (fun i _ => hfree _) (by rw [hplace]; omega)
  rw [hplace] at hf₀
  have hm₀ : Mapped (imagePages image) b₀ := by
    intro a h1 h2
    rw [hall.flagsAt, if_pos]
    · rfl
    · refine mem_imageRange.mpr ?_
      rw [mirageImageBase] at h1 h2
      rw [basePage]
      omega
  obtain ⟨b₁, hrun₁, hf₁⟩ := zeroAt_returns MirageError.mapping mirageImageBase
    (imagePages image * 4096) hs₀ (by rw [mirageImageBase]; omega) fun a h1 h2 => hm₀ a h1 h2
  have hmap : (mapImage X image).run b = some (.ok (), b₁) := run_bind_ok.mpr ⟨(), b₀, hrun₀, hrun₁⟩
  obtain ⟨hs₁, -, hflags₁, -⟩ := mapImage_ok hi hb hmap
  have hm₁ : Mapped (imagePages image) b₁ := hm₀.congr (by
    funext q
    rw [hflags₁, hall.flagsAt]
    rfl)
  have hlen : ((bytes.drop 0).take (min image.headersSize bytes.length - 0)).length =
      min image.headersSize bytes.length := by
    rw [List.length_take, List.length_drop]
    omega
  have hheaders := hl.headers
  have hroom : mirageImageBase +
      ((bytes.drop 0).take (min image.headersSize bytes.length - 0)).length ≤ 2 ^ 47 := by
    rw [hlen, mirageImageBase]
    omega
  obtain ⟨b₂, hrun₂, hf₂⟩ := writeAt_returns MirageError.mapping mirageImageBase
    ((bytes.drop 0).take (min image.headersSize bytes.length - 0)) hs₁ hroom
    fun a h1 h2 => hm₁ a h1 (by rw [hlen] at h2; omega)
  obtain ⟨hs₂, hw₂⟩ := written_of_ok hs₁ hroom hrun₂
  obtain ⟨b₃, hrun₃, hs₃, hflags₃, hf₃⟩ := copySections_returns hi hl hs₂ (hm₁.congr hw₂.flagsAt)
  have hm₃ := (hm₁.congr hw₂.flagsAt).congr hflags₃
  obtain ⟨b₄, hrun₄, hf₄⟩ := applyRelocations_returns hi hl hs₃ hm₃
  obtain ⟨hs₄, hflags₄⟩ := applyRelocations_ok hi hs₃ hrun₄
  have hflags : ∀ q, b₄.flagsAt q = if q ∈ imageRange image then some loadFlags else none := by
    intro q
    rw [hflags₄, hflags₃, hw₂.flagsAt, hflags₁, hfree]
  obtain ⟨b₅, hrun₅, hf₅⟩ := bindImports_returns (X := X) hi hl hs₄ (hm₃.congr hflags₄) (by
    rw [hflags, if_neg]
    rw [mem_imageRange]
    omega) (by omega)
  obtain ⟨hs₅, -, hflags₅, -, -⟩ := bindImports_ok hi hs₄ hrun₅
  have hm₅ : Mapped (imagePages image) b₅ := by
    intro a h1 h2
    rw [hflags₅, Function.update_apply]
    split
    · rfl
    · exact (hm₃.congr hflags₄) a h1 h2
  obtain ⟨b₆, hrun₆, hf₆⟩ := protectSections_returns X nx hi hl hs₅ hm₅
  obtain ⟨hs₆, -, hflags₆, hlow, -⟩ := protectSections_ok hs₅ hrun₆
  obtain ⟨b₇, hrun₇⟩ := mapStack_returns MirageError.mapping X hs₆ nx (by
    intro q hq
    have habove := stackRange_above hi hq
    obtain ⟨k, rfl⟩ : ∃ k, q = basePage + k := ⟨q - basePage, by omega⟩
    have hnone : lastSection image.sections k = none := by
      rw [lastSection_none]
      intro t ht hk
      have := sectionPages_lt hi ht hk
      omega
    rw [hflags₆, hnone, hflags₅, Function.update_of_ne (by omega), hflags, if_neg]
    · rfl
    · rw [mem_imageRange]
      omega) (by omega)
  refine ⟨b₇, ?_⟩
  rw [buildImage, run_bind_of_ok hmap, run_bind_of_ok (run_slice ⟨Nat.zero_le _, by omega⟩),
    run_bind_of_ok hrun₂, run_bind_of_ok hrun₃, run_bind_of_ok hrun₄, run_bind_of_ok hrun₅,
    run_bind_of_ok hrun₆, hrun₇]

end Loops

/-- A file that parses to an image which nothing can stop is loaded, with frames enough. -/
theorem loadImage_returns {cr3 : Frame} {sys : System} (name : String) (hi : ImageIs bytes image)
    (hl : Loadable bytes image) (hn : sys.frames.upcoming.Nodup)
    (hkernel : 0 < AddressSpace.kernelEntries sys.bytes cr3)
    (hframes : rangeFrames 0 (imagePages image) + 24 ≤ sys.frames.upcoming.length) :
    ∃ loaded sys', (loadImage X cr3 nx bytes name).run sys = some (.ok loaded, sys') := by
  have hcheck : (checkImports image).run sys =
      (some (.ok (), sys) : Option (Except MirageError Unit × System)) := by
    obtain ⟨_, sys', hrun, rfl⟩ := run_foldlM_returns (l := image.imports)
      (g := fun _ i => (ensure ((lookup i.name).isSome = true) (.unimplementedImport i.name) :
        Attempt System MirageError Unit)) (I := fun _ _ c => c = sys) (d := []) (b := ())
      (s := sys) (by
      rintro before i after _ c hlist rfl
      have hmem : i ∈ image.imports := by
        rw [hlist]
        simp
      obtain ⟨k, hk⟩ := List.mem_iff_getElem?.mp hmem
      have hknown := (hl.placed (i, k) (List.mem_zipIdx_iff_getElem?.mpr hk)).1
      exact ⟨(), c, run_ensure_ok.mpr ⟨hknown, rfl⟩, rfl⟩) rfl
    exact hrun
  obtain ⟨space, sys₁, hnew, hlen⟩ := newSpace_returns cr3 MirageError.outOfMemory hkernel (by
    intro h
    rw [h] at hframes
    simp at hframes)
  obtain ⟨hs, hf, -⟩ := run_newSpace_ok hn hnew
  obtain ⟨b', hbuild⟩ := buildImage_returns X nx hi.bounded hl hs hf (by
      rw [Building.frames]
      simp only
      omega)
  refine ⟨⟨name, mirageImageBase + image.entryRva, SpaceBuilding.stackTop - 64, b'.space⟩,
    b'.system, ?_⟩
  rw [loadImage, run_bind_of_ok (parse_outcome.returns image hi sys), run_bind_of_ok hcheck,
    run_bind_of_ok hnew, run_bind_of_ok (run_building_ok.mpr hbuild), run_pure]

section Booted

/-- The image that the parser finds in a file. -/
def parsed (bytes : List UInt8) : Option Image :=
  match (parse bytes).run () with
  | some (.ok image, _) => some image
  | _ => none

theorem imageIs_of_parsed (h : parsed bytes = some image) : ImageIs bytes image := by
  rw [parsed] at h
  split at h
  · next hrun =>
    obtain rfl := Option.some.inj h
    exact (parse_outcome.run_ok.mp hrun).1
  · nomatch h

/-- The frames up to the limit are enough for a small image. -/
theorem bootWith_loads {limit : ℕ} (name : String) (hlimit : limit ≤ 2 ^ 52)
    (hi : ImageIs bytes image) (hl : Loadable bytes image)
    (hframes : rangeFrames 0 (imagePages image) + 24 ≤ (limit - 0x3000) / 4096) :
    ∃ loaded sys', (loadImage X 1#40 nx bytes name).run (bootWith limit).system =
      some (.ok loaded, sys') := by
  refine loadImage_returns name hi hl (bootWith_boots hlimit).isolated.nodup
    (bootWith_kernelEntries limit) ?_
  rwa [bootWith_frames]

end Booted

end Mirage
