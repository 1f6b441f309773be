import NajmKernel.ElfExactness
import NajmKernel.MirageLoader
import NajmKernel.Overwrites
import NajmKernel.PeSafety

/-! What a completed load of a PE image leaves in the lower half: the pages of the image with the
flags of the last section that covers them, the page of thunks behind it, the stack, and the bytes
that bound its imports. -/
namespace Mirage

open LittleEndian PhysicalMemory PageTables PhysicalFrames AddressSpaces Attempts Attempt
  SpaceBuilding PeParser Overwrites
open ElfLoader (LoadedImage)

variable {X : Mapper} {nx : Bool} {bytes : List UInt8} {image : Image} {b b' : Building}
  {k q addr delta rva : ℕ} {t : Section}

def basePage : ℕ := 0x200000000

/-- The pages of the image. -/
def imageRange (image : Image) : List ℕ :=
  (List.range (imagePages image)).map fun i => (mirageImageBase + i * 4096) / 4096

theorem page_of_image : (mirageImageBase + k * 4096) / 4096 = basePage + k := by
  rw [mirageImageBase, basePage]
  omega

theorem mem_imageRange : q ∈ imageRange image ↔ basePage ≤ q ∧ q < basePage + imagePages image := by
  rw [imageRange, List.mem_map]
  simp only [List.mem_range, page_of_image]
  constructor
  · rintro ⟨i, hi, rfl⟩
    omega
  · rintro ⟨h1, h2⟩
    exact ⟨q - basePage, by omega, by omega⟩

theorem thunkBase_page : thunkBase image / 4096 = basePage + imagePages image := page_of_image

theorem imagePages_le (h : Bounded image) : imagePages image ≤ 0x20000 := by
  have := h.size.2
  rw [imagePages]
  omega

section Filling

theorem mapImage_ok (hi : Bounded image) (hb : Sound b)
    (h : (mapImage X image).run b = some (.ok (), b')) :
    Sound b' ∧ (∀ q ∈ imageRange image, b.flagsAt q = none) ∧
      (∀ q, b'.flagsAt q = if q ∈ imageRange image then some loadFlags else b.flagsAt q) ∧
      ∀ k < imagePages image * 4096, b'.byteAt (mirageImageBase + k) = some 0 := by
  obtain ⟨hp, hw, -, -⟩ := loadFlags_spec
  have hle := imagePages_le hi
  rw [mapImage] at h
  obtain ⟨_, b₁, hloop, hzero⟩ := run_bind_ok.mp h
  obtain ⟨hs₁, hall⟩ := mappedRange_of_ok hb hw hp hloop
  obtain ⟨hs, hz⟩ := zeroed_of_ok hs₁ (by rw [mirageImageBase]; omega) hzero
  refine ⟨hs, hall.before, fun q => by rw [hz.flagsAt, hall.flagsAt, imageRange], fun k hk => ?_⟩
  rw [hz.byteAt, if_pos ⟨by omega, by omega⟩]

theorem copySection_ok (hi : Bounded image) (ht : t ∈ image.sections) (hb : Sound b)
    (h : (copySection bytes t).run b = some (.ok (), b')) :
    Sound b' ∧ b'.flagsAt = b.flagsAt ∧ ∀ k, b'.byteAt (mirageImageBase + k) =
      if t.virtualAddress ≤ k ∧ k < t.virtualAddress + t.rawSize then
        some (bytes[t.rawOffset + (k - t.virtualAddress)]?.getD 0)
      else b.byteAt (mirageImageBase + k) := by
  obtain ⟨hmem, hraw⟩ := hi.sections t ht
  have hsize := hi.size.2
  rw [copySection] at h
  split at h
  case isTrue hzero =>
    obtain ⟨-, rfl⟩ := Prod.mk.inj (Option.some.inj h)
    exact ⟨hb, rfl, fun k => by rw [if_neg (by omega)]⟩
  case isFalse =>
    obtain ⟨-, h⟩ := run_sum_bind_ok.mp h
    obtain ⟨⟨-, hin⟩, h⟩ := run_slice_bind_ok.mp h
    have hlen : ((bytes.drop t.rawOffset).take (t.rawOffset + t.rawSize - t.rawOffset)).length =
        t.rawSize := by
      rw [List.length_take, List.length_drop]
      omega
    obtain ⟨hs, hf⟩ := written_of_ok hb (by
      rw [hlen, mirageImageBase]
      omega) h
    refine ⟨hs, hf.flagsAt, fun k => ?_⟩
    rw [hf.byteAt, hlen]
    by_cases hk : t.virtualAddress ≤ k ∧ k < t.virtualAddress + t.rawSize
    · have hoff : mirageImageBase + k - (mirageImageBase + t.virtualAddress) =
          k - t.virtualAddress := by omega
      rw [if_pos ⟨by omega, by omega⟩, if_pos hk, hoff, List.getElem?_take_of_lt (by omega),
        List.getElem?_drop]
    · rw [if_neg (by omega), if_neg hk]

/-- A relocation changes eight bytes of one page. -/
theorem relocate_ok (hr : rva < 2 ^ 32) (hb : Sound b)
    (h : (relocate delta rva).run b = some (.ok (), b')) : Sound b' ∧ b'.flagsAt = b.flagsAt := by
  rw [relocate] at h
  obtain ⟨frame, u, hframe, h⟩ := run_bind_ok.mp h
  rw [run_of] at hframe
  split at hframe
  case h_1 => simp at hframe
  case h_2 f hf =>
    simp only [Option.some.injEq, Prod.mk.injEq, Except.ok.injEq] at hframe
    obtain ⟨rfl, rfl⟩ := hframe
    rw [run_ensure_bind] at h
    split at h
    case isFalse => simp at h
    case isTrue hin =>
      rw [run_of] at h
      obtain ⟨-, rfl⟩ := Prod.mk.inj (Option.some.inj h)
      have hw := writeAt_within (toBytes 8 (ofBytes (b.system.bytes.read f
        ((mirageImageBase + rva) % 4096) 8) + delta)) hf (by rw [length_toBytes]; omega)
        (by rw [length_toBytes]; decide)
      obtain ⟨hs, hfill⟩ := filled_of_transferred hb (by
        rw [length_toBytes, mirageImageBase]
        omega) (provides_write _) hw
      exact ⟨hs, hfill.flagsAt⟩

theorem applyRelocations_ok (hi : Bounded image) (hb : Sound b)
    (h : (applyRelocations image).run b = some (.ok (), b')) :
    Sound b' ∧ b'.flagsAt = b.flagsAt := by
  rw [applyRelocations] at h
  split at h
  case isTrue =>
    obtain ⟨-, rfl⟩ := Prod.mk.inj (Option.some.inj h)
    exact ⟨hb, rfl⟩
  case isFalse =>
    refine run_foldlM_ok (I := fun _ _ c => Sound c ∧ c.flagsAt = b.flagsAt) (d := []) ?_ h
      ⟨hb, rfl⟩
    rintro before rva after _ c _ c' hl ⟨hc, hf⟩ hstep
    obtain ⟨hs, hf'⟩ := relocate_ok (hi.relocations rva (by rw [hl]; simp)) hc hstep
    exact ⟨hs, hf'.trans hf⟩

end Filling

section Binding

theorem length_generateThunk (t : Thunk) : (generateThunk t).length = thunkStride := by
  have hle : ∀ c : Prop, [Decidable c] → ∀ l : List UInt8, l.length = 3 →
      (if c then l else []).length ≤ 3 := by
    intro c _ l hl
    split
    case isTrue => exact hl.le
    case isFalse => exact Nat.zero_le _
  have h1 := hle (1 ≤ t.args) [0x48, 0x89, 0xCF] rfl
  have h2 := hle (2 ≤ t.args) [0x48, 0x89, 0xD6] rfl
  have h3 := hle (3 ≤ t.args) [0x4C, 0x89, 0xC2] rfl
  simp only [generateThunk, List.length_append, List.length_replicate, length_toBytes,
    List.length_cons, List.length_nil, thunkStride]
  omega

/-- The code that an import of this name is bound to. -/
def thunkCode (name : String) : List UInt8 := ((lookup name).map generateThunk).getD []

/-- What a turn of the loop of `bind_imports` writes: the thunk, then the slot. -/
def patchesFor (image : Image) (i : Import × ℕ) : List (Patch UInt8) :=
  [⟨thunkAddress image i.2, thunkCode i.1.name⟩,
    ⟨mirageImageBase + i.1.iatRva, toBytes 8 (thunkAddress image i.2)⟩]

def patches (image : Image) : List (Patch UInt8) := image.imports.zipIdx.flatMap (patchesFor image)

/-- The import has a thunk, and this one room in the page. -/
def Placed (image : Image) (i : Import × ℕ) : Prop :=
  (∃ thunk, lookup i.1.name = some thunk) ∧
    thunkAddress image i.2 + thunkStride ≤ thunkBase image + 4096

theorem byteAt_of_filled {data : List UInt8}
    (h : Filled b b' addr data.length fun k => data[k]?.getD 0) :
    b'.byteAt = (⟨addr, data⟩ : Patch UInt8).apply b.byteAt := by
  funext a
  rw [h.byteAt, Patch.apply]
  by_cases ha : addr ≤ a ∧ a < addr + data.length
  · have hlt : a - addr < data.length := by omega
    rw [if_pos ha, if_pos ha, List.getElem?_eq_getElem hlt, Option.getD_some]
  · rw [if_neg ha, if_neg ha]

theorem thunkAddress_lt (hi : Bounded image)
    (h : ¬ thunkAddress image k + thunkStride > thunkBase image + 4096) :
    thunkAddress image k + thunkStride ≤ 2 ^ 47 := by
  have := imagePages_le hi
  simp only [thunkBase, mirageImageBase] at h
  omega

theorem bindImport_ok {i : Import × ℕ} (hi : Bounded image) (hmem : i.1 ∈ image.imports)
    (hb : Sound b) (h : (bindImport image i).run b = some (.ok (), b')) :
    Sound b' ∧ b'.flagsAt = b.flagsAt ∧ Placed image i ∧
      b'.byteAt = applyAll (patchesFor image i) b.byteAt := by
  rw [bindImport] at h
  split at h
  case h_1 => simp at h
  case h_2 thunk hlookup =>
    rw [run_ensure_bind] at h
    split at h
    case isFalse => simp at h
    case isTrue hfits =>
      obtain ⟨_, u, hthunk, hslot⟩ := run_bind_ok.mp h
      have hlt := thunkAddress_lt hi hfits
      have hrva := hi.slots _ hmem
      obtain ⟨hs, hf⟩ := written_of_ok hb (by rw [length_generateThunk]; exact hlt) hthunk
      obtain ⟨hs', hf'⟩ := written_of_ok hs (by
        rw [length_toBytes, mirageImageBase]
        omega) hslot
      refine ⟨hs', hf'.flagsAt.trans hf.flagsAt, ⟨⟨thunk, hlookup⟩, by omega⟩, ?_⟩
      rw [byteAt_of_filled hf', byteAt_of_filled hf, patchesFor, thunkCode, hlookup]
      rfl

theorem bindImports_ok (hi : Bounded image) (hb : Sound b)
    (h : (bindImports X image).run b = some (.ok (), b')) :
    Sound b' ∧ b.flagsAt (basePage + imagePages image) = none ∧
      b'.flagsAt = Function.update b.flagsAt (basePage + imagePages image) (some thunkFlags) ∧
      (∀ i ∈ image.imports.zipIdx, Placed image i) ∧
      ∃ f, b'.byteAt = applyAll (patches image) f := by
  obtain ⟨hp, hw, -, -⟩ := loadFlags_spec
  have hle := imagePages_le hi
  rw [bindImports, virtAddr, run_demand_bind] at h
  split at h
  case isFalse => cases h
  case isTrue =>
    rw [thunkBase_page] at h
    obtain ⟨_, b₁, hmap, h⟩ := run_bind_ok.mp h
    obtain ⟨_, b₂, hzero, h⟩ := run_bind_ok.mp h
    obtain ⟨_, b₃, hloop, hprotect⟩ := run_bind_ok.mp h
    obtain ⟨hs₁, hm⟩ := mapped_of_ok hb hw hp hmap
    obtain ⟨hs₂, hz⟩ := zeroed_of_ok hs₁ (by rw [thunkBase, mirageImageBase]; omega) hzero
    obtain ⟨hs₃, hf₃, hplaced, hbytes⟩ := run_foldlM_ok (I := fun done _ c => Sound c ∧
      c.flagsAt = b₂.flagsAt ∧ (∀ i ∈ done, Placed image i) ∧
      c.byteAt = applyAll (done.flatMap (patchesFor image)) b₂.byteAt) (d := []) (by
      rintro before i after _ c _ c' hl ⟨hc, hf, hall, hbytes⟩ hstep
      have hmem : i.1 ∈ image.imports := by
        have hin : i ∈ image.imports.zipIdx := by
          rw [hl]
          simp
        rw [List.mem_iff_getElem?]
        exact ⟨i.2, List.mem_zipIdx_iff_getElem?.mp hin⟩
      obtain ⟨hs, hf', hnew, hb'⟩ := bindImport_ok hi hmem hc hstep
      refine ⟨hs, hf'.trans hf, fun j hj => ?_, ?_⟩
      · rcases List.mem_append.mp hj with hj | hj
        · exact hall j hj
        · exact List.mem_singleton.mp hj ▸ hnew
      · have hsplit : ([] ++ before ++ [i]).flatMap (patchesFor image) =
            ([] ++ before).flatMap (patchesFor image) ++ patchesFor image i := by
          rw [List.flatMap_append, List.flatMap_singleton]
        rw [hb', hbytes, hsplit, applyAll_append]) hloop ⟨hs₂, rfl, by simp, rfl⟩
    obtain ⟨hs₄, -, -, hf₄, hb₄⟩ := protected_of_ok hs₃ (by decide) hprotect
    refine ⟨hs₄, hm.before, ?_, hplaced, b₂.byteAt, hb₄.trans hbytes⟩
    rw [hf₄, hf₃, hz.flagsAt, hm.flagsAt, Function.update_idem]

end Binding

section Tightening

/-- The section whose turn tightens a page last. -/
def lastSection (sections : List Section) (k : ℕ) : Option Section :=
  (sections.filter fun t => decide (k ∈ sectionPages t)).getLast?

theorem lastSection_snoc {sections : List Section} : lastSection (sections ++ [t]) k =
    if k ∈ sectionPages t then some t else lastSection sections k := by
  rw [lastSection, List.filter_append]
  by_cases hk : k ∈ sectionPages t
  · simp [hk]
  · simp [hk, lastSection]

theorem lastSection_some {sections : List Section} (h : lastSection sections k = some t) :
    t ∈ sections ∧ k ∈ sectionPages t := by
  have hmem := List.mem_of_getLast? h
  simpa using hmem

theorem lastSection_none {sections : List Section} :
    lastSection sections k = none ↔ ∀ t ∈ sections, k ∉ sectionPages t := by
  rw [lastSection, List.getLast?_eq_none_iff, List.filter_eq_nil_iff]
  simp

theorem sectionFlags_spec (nx : Bool) (t : Section) :
    (sectionFlags nx t).contains .present = true ∧
      (sectionFlags nx t).contains .userAccessible = true ∧
      (sectionFlags nx t).contains .writable = t.writable ∧
      (sectionFlags nx t).contains .noExecute = (!t.executable && nx) := by
  rw [sectionFlags]
  generalize t.writable = writable
  generalize t.executable = executable
  cases writable <;> cases executable <;> cases nx <;> decide

theorem protectSection_ok (hb : Sound b) (h : (protectSection X nx t).run b = some (.ok (), b')) :
    Sound b' ∧ ¬ (t.writable = true ∧ t.executable = true) ∧
      (∀ q, b'.flagsAt q = if q ∈ (sectionPages t).map (basePage + ·) then some (sectionFlags nx t)
        else b.flagsAt q) ∧ b'.byteAt = b.byteAt := by
  rw [protectSection, run_ensure_bind] at h
  split at h
  case isFalse => simp at h
  case isTrue hx =>
    obtain ⟨hs, hall⟩ := protectedRange_of_ok hb (sectionFlags_spec nx t).1 h
    refine ⟨hs, hx, fun q => ?_, hall.byteAt⟩
    rw [hall.flagsAt, List.map_congr_left fun i _ => page_of_image]

theorem protectSections_ok {sections : List Section} (hb : Sound b)
    (h : (sections.foldlM (fun _ t => protectSection X nx t) ()).run b = some (.ok (), b')) :
    Sound b' ∧ (∀ t ∈ sections, ¬ (t.writable = true ∧ t.executable = true)) ∧
      (∀ k, b'.flagsAt (basePage + k) = ((lastSection sections k).map (sectionFlags nx)).or
        (b.flagsAt (basePage + k))) ∧
      (∀ q < basePage, b'.flagsAt q = b.flagsAt q) ∧ b'.byteAt = b.byteAt := by
  refine run_foldlM_ok (I := fun done _ c => Sound c ∧
    (∀ t ∈ done, ¬ (t.writable = true ∧ t.executable = true)) ∧
    (∀ k, c.flagsAt (basePage + k) = ((lastSection done k).map (sectionFlags nx)).or
      (b.flagsAt (basePage + k))) ∧
    (∀ q < basePage, c.flagsAt q = b.flagsAt q) ∧ c.byteAt = b.byteAt) (d := []) ?_ h
    ⟨hb, by simp, fun k => rfl, fun _ _ => rfl, rfl⟩
  rintro done t - _ c _ c' - ⟨hc, hx, hf, hlow, hbytes⟩ hstep
  obtain ⟨hs, hx', hf', hbytes'⟩ := protectSection_ok hc hstep
  refine ⟨hs, fun u hu => ?_, fun k => ?_, fun q hq => ?_, hbytes'.trans hbytes⟩
  · rcases List.mem_append.mp hu with hu | hu
    · exact hx u hu
    · exact List.mem_singleton.mp hu ▸ hx'
  · have hiff : basePage + k ∈ (sectionPages t).map (basePage + ·) ↔ k ∈ sectionPages t := by simp
    rw [hf', lastSection_snoc]
    by_cases hk : k ∈ sectionPages t
    · rw [if_pos (hiff.mpr hk), if_pos hk]
      rfl
    · rw [if_neg (mt hiff.mp hk), if_neg hk, hf]
  · rw [hf', if_neg, hlow q hq]
    intro hin
    obtain ⟨i, -, he⟩ := List.mem_map.mp hin
    omega

theorem mem_sectionPages : k ∈ sectionPages t ↔ firstPage t ≤ k ∧ k ≤ lastPage t := by
  rw [sectionPages, List.mem_range'_1]
  omega

/-- The pages of a section are pages of the image. -/
theorem sectionPages_lt (hi : Bounded image) (ht : t ∈ image.sections) (hk : k ∈ sectionPages t) :
    k < imagePages image := by
  have hmem := (hi.sections t ht).1
  have hk' := (mem_sectionPages.mp hk).2
  rw [lastPage] at hk'
  rw [imagePages]
  omega

end Tightening

/-- The flags that a page of the image ends up with: those of the section tightened last on it, or
those it was filled with. -/
def flagsOf (nx : Bool) (image : Image) (k : ℕ) : PageTableFlags :=
  ((lastSection image.sections k).map (sectionFlags nx)).getD loadFlags

/-- What a completed load leaves. -/
structure HoldsImage (nx : Bool) (image : Image) (b : Building) : Prop where
  sound : Sound b
  exclusive : ∀ t ∈ image.sections, ¬ (t.writable = true ∧ t.executable = true)
  pages : ∀ k < imagePages image, b.flagsAt (basePage + k) = some (flagsOf nx image k)
  thunks : b.flagsAt (basePage + imagePages image) = some thunkFlags
  stack : ∀ q ∈ stackRange, b.flagsAt q = some (stackFlags nx)
  unmapped : ∀ q, ¬ (basePage ≤ q ∧ q ≤ basePage + imagePages image) → q ∉ stackRange →
    b.flagsAt q = none
  placed : ∀ i ∈ image.imports.zipIdx, Placed image i
  bound : ∃ f, ∀ a, a / 4096 ∉ stackRange → b.byteAt a = applyAll (patches image) f a

theorem stackRange_above (hi : Bounded image) (hq : q ∈ stackRange) :
    basePage + imagePages image < q := by
  have h1 := (mem_stackRange.mp hq).1
  have h2 := imagePages_le hi
  rw [stackBottom] at h1
  rw [basePage]
  omega

theorem buildImage_ok (hi : Bounded image) (hb : Sound b) (hf : ∀ q, b.flagsAt q = none)
    (h : (buildImage X nx bytes image).run b = some (.ok (), b')) : HoldsImage nx image b' := by
  rw [buildImage] at h
  obtain ⟨_, b₁, hmap, h⟩ := run_bind_ok.mp h
  obtain ⟨hin, h⟩ := run_slice_bind_ok.mp h
  obtain ⟨_, b₂, hheaders, h⟩ := run_bind_ok.mp h
  obtain ⟨_, b₃, hcopy, h⟩ := run_bind_ok.mp h
  obtain ⟨_, b₄, hreloc, h⟩ := run_bind_ok.mp h
  obtain ⟨_, b₅, hbind, h⟩ := run_bind_ok.mp h
  obtain ⟨_, b₆, hprotect, hstack⟩ := run_bind_ok.mp h
  obtain ⟨hs₁, -, hf₁, -⟩ := mapImage_ok hi hb hmap
  obtain ⟨hs₂, hw₂⟩ := written_of_ok hs₁ (by
    have hlt := hi.headers
    rw [List.length_take, List.length_drop, mirageImageBase]
    omega) hheaders
  obtain ⟨hs₃, hf₃⟩ : Sound b₃ ∧ b₃.flagsAt = b₂.flagsAt := by
    refine run_foldlM_ok (I := fun _ _ c => Sound c ∧ c.flagsAt = b₂.flagsAt) (d := []) ?_ hcopy
      ⟨hs₂, rfl⟩
    rintro before t after _ c _ c' hl ⟨hc, hfc⟩ hstep
    obtain ⟨hs, hf', -⟩ := copySection_ok hi (by rw [hl]; simp) hc hstep
    exact ⟨hs, hf'.trans hfc⟩
  obtain ⟨hs₄, hf₄⟩ := applyRelocations_ok hi hs₃ hreloc
  obtain ⟨hs₅, -, hf₅, hplaced, f, hbytes⟩ := bindImports_ok hi hs₄ hbind
  obtain ⟨hs₆, hx, hf₆, hlow, hb₆⟩ := protectSections_ok hs₅ hprotect
  obtain ⟨hs₇, hnew, hf₇, hb₇⟩ := stack_of_ok hs₆ hstack
  have hfilled : ∀ q, b₄.flagsAt q = if q ∈ imageRange image then some loadFlags else none := by
    intro q
    rw [hf₄, hf₃, hw₂.flagsAt, hf₁, hf]
  have hthunk : lastSection image.sections (imagePages image) = none := by
    rw [lastSection_none]
    intro t ht hk
    exact absurd (sectionPages_lt hi ht hk) (lt_irrefl _)
  have hnotstack : ∀ {q}, q ≤ basePage + imagePages image → q ∉ stackRange := fun hq hin =>
    absurd (stackRange_above hi hin) (not_lt.mpr hq)
  constructor
  · exact hs₇
  · exact hx
  · intro k hk
    rw [hf₇, if_neg (hnotstack (by omega)), hf₆, hf₅, Function.update_of_ne (by omega), hfilled,
      if_pos (mem_imageRange.mpr ⟨by omega, by omega⟩), flagsOf]
    cases lastSection image.sections k <;> rfl
  · rw [hf₇, if_neg (hnotstack le_rfl), hf₆, hthunk, hf₅, Function.update_self]
    rfl
  · intro q hq
    rw [hf₇, if_pos hq]
  · intro q hq hs
    rw [hf₇, if_neg hs]
    by_cases hlt : q < basePage
    · rw [hlow q hlt, hf₅, Function.update_of_ne (by omega), hfilled, if_neg]
      rw [mem_imageRange]
      omega
    · obtain ⟨k, rfl⟩ : ∃ k, q = basePage + k := ⟨q - basePage, by omega⟩
      have hnone : lastSection image.sections k = none := by
        rw [lastSection_none]
        intro t ht hk
        have := sectionPages_lt hi ht hk
        omega
      rw [hf₆, hnone, hf₅, Function.update_of_ne (by omega), hfilled, if_neg]
      · rfl
      · rw [mem_imageRange]
        omega
  · exact hplaced
  · refine ⟨f, fun a ha => ?_⟩
    rw [hb₇, if_neg ha, hb₆, hbytes]

/-- A load that returns has parsed an image and built it. -/
theorem loadImage_ok {cr3 : Frame} {name : String} {sys sys' : System} {loaded : LoadedImage}
    (hn : sys.frames.upcoming.Nodup)
    (h : (loadImage X cr3 nx bytes name).run sys = some (.ok loaded, sys')) :
    ∃ image, ImageIs bytes image ∧ HoldsImage nx image ⟨loaded.addressSpace, sys'⟩ ∧
      loaded.entry = mirageImageBase + image.entryRva := by
  rw [loadImage] at h
  obtain ⟨image, u, hparse, h₁⟩ := run_bind_ok.mp h
  obtain ⟨_, v, hcheck, h₂⟩ := run_bind_ok.mp h₁
  obtain ⟨space, w, hnew, h₃⟩ := run_bind_ok.mp h₂
  obtain ⟨⟨⟨⟩, space'⟩, x, hbuild, h₄⟩ := run_bind_ok.mp h₃
  obtain ⟨hi, hu⟩ := parse_outcome.run_ok.mp hparse
  have hv : v = u := by
    refine run_foldlM_ok (I := fun _ _ c => c = u) (d := []) ?_ hcheck rfl
    intro before i after _ c _ c' _ hc hstep
    exact (run_ensure_ok.mp hstep).2.trans hc
  rw [hv, hu] at hnew
  obtain ⟨hs, hf, -⟩ := run_newSpace_ok hn hnew
  rw [run_pure, Option.some.injEq, Prod.mk.injEq, Except.ok.injEq] at h₄
  obtain ⟨rfl, rfl⟩ := h₄
  exact ⟨image, hi, buildImage_ok hi.bounded hs hf (run_building_ok.mp hbuild), rfl⟩

end Mirage
