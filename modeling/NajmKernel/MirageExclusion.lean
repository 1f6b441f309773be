import NajmKernel.MirageProgress

/-! Write and execute permission in the space of a PE image: no page has both, where sections cover
the image. -/
namespace Mirage

open PhysicalMemory PageTables PhysicalFrames AddressSpaces Attempts Attempt SpaceBuilding PeParser
  TransitionSystem SpaceRuns
open ElfLoader (LoadedImage)

/-- No page of the lower half is both writable and executable. -/
def Exclusive (space : AddressSpace) (m : Memory) : Prop :=
  ∀ q p, q < 2 ^ 35 → permissions space m q = some p → ¬ (p.write = true ∧ p.execute = true)

/-- Every page of the image is a page of some section. -/
def Covered (bytes : List UInt8) : Prop :=
  ∀ k, k * 4096 < (headersOf bytes).imageSize → ∃ t ∈ sectionsOf bytes, k ∈ sectionPages t

variable {X : Mapper} {nx : Bool} {bytes : List UInt8} {image : Image} {b : Building}
  {kernelRoot cr3 : Frame} {level : Frame → Option ℕ} {data : Frame → Prop} {s₀ s : State}
  {es : List Event} {name : String} {loaded : LoadedImage} {sys' : System} {k q : ℕ}

theorem lt_imagePages : k < imagePages image ↔ k * 4096 < image.imageSize := by
  rw [imagePages]
  omega

section Permissions

variable (hi : Bounded image) (h : HoldsImage nx image b)
include hi h

theorem permissions_page (hk : k < imagePages image) :
    permissions b.space b.system.bytes (basePage + k) =
      some (match lastSection image.sections k with
        | some t => ⟨t.writable, t.executable || !nx⟩
        | none => ⟨true, true⟩) := by
  have hle := imagePages_le hi
  rw [h.sound.permissions (by rw [basePage]; omega), h.pages k hk, Option.bind_some, flagsOf]
  rcases lastSection image.sections k with _ | t
  · obtain ⟨-, hw, hu, hx⟩ := loadFlags_spec
    simp only [Option.map_none, Option.getD_none, hw, hu, hx, if_true, Bool.not_false]
  · obtain ⟨-, hu, hw, hx⟩ := sectionFlags_spec nx t
    simp only [Option.map_some, Option.getD_some, hw, hu, hx, if_true]
    cases t.executable <;> cases nx <;> rfl

theorem permissions_thunks : permissions b.space b.system.bytes (basePage + imagePages image) =
    some ⟨false, true⟩ := by
  have hle := imagePages_le hi
  rw [h.sound.permissions (by rw [basePage]; omega), h.thunks]
  rfl

omit hi in
theorem permissions_stack (hq : q ∈ stackRange) :
    permissions b.space b.system.bytes q = some ⟨true, !nx⟩ := by
  obtain ⟨-, hw, hu, hx⟩ := stackFlags_spec nx
  have hlt : q < 2 ^ 35 := lt_trans (ElfLoader.stack_lt hq) (by decide)
  rw [h.sound.permissions hlt, h.stack q hq, Option.bind_some, if_pos hu, hw, hx]

omit hi in
theorem permissions_unmapped (hlt : q < 2 ^ 35)
    (hq : ¬ (basePage ≤ q ∧ q ≤ basePage + imagePages image)) (hs : q ∉ stackRange) :
    permissions b.space b.system.bytes q = none := by
  rw [h.sound.permissions hlt, h.unmapped q hq hs]
  rfl

end Permissions

theorem exclusive_iff (hi : ImageIs bytes image) (h : HoldsImage true image b) :
    Exclusive b.space b.system.bytes ↔ Covered bytes := by
  have hb := hi.bounded
  have hsections : image.sections = sectionsOf bytes := hi.2.2.2.2.2.2.2.2.2
  have hsize : image.imageSize = (headersOf bytes).imageSize := hi.2.2.2.2.2.2.2.1
  constructor
  · intro hx k hk
    rw [← hsize, ← lt_imagePages] at hk
    have hle := imagePages_le hb
    have hperm := permissions_page hb h hk
    cases hl : lastSection image.sections k with
    | none =>
      rw [hl] at hperm
      exact absurd ⟨rfl, rfl⟩ (hx _ _ (by rw [basePage]; omega) hperm)
    | some t =>
      obtain ⟨hmem, hin⟩ := lastSection_some hl
      exact ⟨t, hsections ▸ hmem, hin⟩
  · intro hcov q p hq hp hboth
    by_cases hs : q ∈ stackRange
    · rw [permissions_stack h hs, Option.some.injEq] at hp
      subst hp
      cases hboth.2
    · by_cases hin : basePage ≤ q ∧ q ≤ basePage + imagePages image
      · obtain ⟨k, rfl⟩ : ∃ k, q = basePage + k := ⟨q - basePage, by omega⟩
        rcases Nat.lt_or_ge k (imagePages image) with hk | hk
        · rw [permissions_page hb h hk, Option.some.injEq] at hp
          obtain ⟨t, ht, hkt⟩ := hcov k (by rw [← hsize, ← lt_imagePages]; exact hk)
          cases hl : lastSection image.sections k with
          | none =>
            rw [lastSection_none] at hl
            exact hl t (hsections ▸ ht) hkt
          | some u =>
            rw [hl] at hp
            subst hp
            obtain ⟨hw, hx⟩ := hboth
            simp only [Bool.not_true, Bool.or_false] at hx
            exact h.exclusive u (lastSection_some hl).1 ⟨hw, hx⟩
        · obtain rfl : k = imagePages image := by omega
          rw [permissions_thunks hb h, Option.some.injEq] at hp
          subst hp
          cases hboth.1
      · rw [permissions_unmapped h hq hin hs] at hp
        cases hp

/-- The headers' page, too, is such a page, and a gap between two sections is. -/
theorem mirage_exclusive_iff (hb : Boots kernelRoot level data s₀)
    (hrun : exec (next X kernelRoot) s₀ es = some s)
    (h : (loadImage X cr3 true bytes name).run s.system = some (.ok loaded, sys')) :
    Exclusive loaded.addressSpace sys'.bytes ↔ Covered bytes := by
  obtain ⟨place, I⟩ := hb.run hrun
  obtain ⟨image, hi, hholds, -⟩ := loadImage_ok I.nodup h
  have hiff := exclusive_iff hi hholds
  exact hiff

section Example

/-- A header page, and a page of code behind it. -/
def plainImage : List UInt8 :=
  encode 4096 8192 240 [] [⟨4096, 3, 240, 3, true, false, true⟩] [0xCD, 0x80, 0xC3]

def plainLayout : Image :=
  ⟨4096, 0, 8192, 240, [⟨4096, 3, 240, 3, true, false, true⟩], [], []⟩

theorem plainImage_read : parsed plainImage = some plainLayout ∧ Loadable plainImage plainLayout ∧
    0 * 4096 < (headersOf plainImage).imageSize ∧
      ∀ t ∈ sectionsOf plainImage, 0 ∉ sectionPages t := by decide +kernel

theorem plainImage_loads : ∃ loaded sys',
    (loadImage .walker 1#40 true plainImage "plain.exe").run (bootWith 0x40000).system =
      some (.ok loaded, sys') := by
  obtain ⟨hparsed, hl, -⟩ := plainImage_read
  exact bootWith_loads _ (by decide) (imageIs_of_parsed hparsed) hl (by decide)

theorem mirage_exclusive_iff_plain : ∃ loaded sys',
    (loadImage .walker 1#40 true plainImage "plain.exe").run (bootWith 0x40000).system =
      some (.ok loaded, sys') ∧
    (Exclusive loaded.addressSpace sys'.bytes ↔ Covered plainImage) := by
  obtain ⟨loaded, sys', h⟩ := plainImage_loads
  exact ⟨loaded, sys', h, mirage_exclusive_iff (bootWith_boots (by decide)) (exec_nil _ _) h⟩

theorem plainImage_not_covered : ¬ Covered plainImage := by
  intro h
  obtain ⟨-, -, hsize, hnone⟩ := plainImage_read
  obtain ⟨t, ht, hk⟩ := h 0 hsize
  exact hnone t ht hk

theorem plainImage_not_exclusive : ∃ loaded sys',
    (loadImage .walker 1#40 true plainImage "plain.exe").run (bootWith 0x40000).system =
      some (.ok loaded, sys') ∧ ¬ Exclusive loaded.addressSpace sys'.bytes := by
  obtain ⟨loaded, sys', h⟩ := plainImage_loads
  have hboots : Boots 1#40 bootLevel (fun _ => False) (bootWith 0x40000) :=
    bootWith_boots (by decide)
  obtain ⟨place, I⟩ := hboots.run (X := .walker) (exec_nil _ _)
  obtain ⟨image, hi, hholds, -⟩ := loadImage_ok I.nodup h
  have hiff := exclusive_iff hi hholds
  exact ⟨loaded, sys', h, fun hx => plainImage_not_covered (hiff.mp hx)⟩

end Example

end Mirage
