import NajmKernel.ElfExactness

/-! The guard page below a loaded image's stack: nothing but the image's own segments can map it. -/
namespace ElfLoader

open LittleEndian PhysicalMemory PageTables PhysicalFrames AddressSpaces Attempts Attempt
  SpaceBuilding TransitionSystem SpaceRuns

/-- `USER_STACK_GUARD`. -/
def userStackGuard : ℕ := stackBottom - 4096

def guardPage : ℕ := userStackGuard / 4096

variable {X : Mapper} {R : PageRange} {nx : Bool} {bytes : List UInt8}
  {kernelRoot cr3 : Frame} {level : Frame → Option ℕ} {data : Frame → Prop} {s₀ s : State}
  {es : List Event} {name : String} {image : LoadedImage} {sys' : System}

theorem guardPage_lt : guardPage < lastPage := by decide

theorem guardPage_notMem_stack : guardPage ∉ stackRange := by
  intro h
  exact absurd (mem_stackRange.mp h).1 (by decide)

/-- Below the stack of a loaded image the guard page is free exactly where no segment covers it. -/
theorem stack_guard_iff (hb : Boots kernelRoot level data s₀)
    (hrun : exec (next X kernelRoot) s₀ es = some s)
    (h : (loadImage X R cr3 nx bytes name).run s.system = some (.ok image, sys')) :
    image.addressSpace.leaf sys'.bytes guardPage = none ↔ ∀ i, ¬ Covers bytes i guardPage := by
  obtain ⟨place, I⟩ := hb.run hrun
  obtain ⟨-, hholds, -⟩ := loadImage_ok I.nodup h
  have hlt : guardPage < 2 ^ 35 := lt_trans guardPage_lt (by decide)
  have hflags : (Building.mk image.addressSpace sys').flagsAt guardPage = none ↔
      image.addressSpace.leaf sys'.bytes guardPage = none := by
    rw [flagsAt_of_lt hlt, Option.map_eq_none_iff]
  rw [← hflags]
  constructor
  · intro hfree i hcovers
    obtain ⟨flags, -, hmapped⟩ := hholds.segments hcovers
    rw [hmapped] at hfree
    nomatch hfree
  · exact fun hcovers => hholds.unmapped hcovers guardPage_notMem_stack

theorem stack_guard_iff_small : ∃ image sys',
    (loadImage .walker .stepping 1#40 true smallImage "init").run (bootWith (2 ^ 52)).system =
      some (.ok image, sys') ∧ image.addressSpace.leaf sys'.bytes guardPage = none := by
  obtain ⟨image, sys', h⟩ := smallImage_loads .walker .stepping "init"
  refine ⟨image, sys', h, ?_⟩
  refine (stack_guard_iff (bootWith_boots le_rfl) (exec_nil _ _) h).mpr fun i hcovers => ?_
  have hpages := smallImage_pages hcovers
  have hguard : guardPage = 0x7fffeffef := by decide
  omega

/-- An image with one segment, a page of zeros in the place of the guard. -/
def guardImage : List UInt8 := encode 0x400000 [⟨1, 6, 0, userStackGuard, 0, 4096⟩] []

/-- What the loader reads of the file. -/
theorem guardImage_read : WellFormed guardImage ∧ guardImage.length = 120 ∧
    Loads guardImage 0 ∧ (headerOf guardImage).phnum = 1 ∧
    programHeader guardImage 0 = ⟨1, 6, 0, userStackGuard, 0, 4096⟩ := by decide +kernel

theorem guardImage_pages {i q : ℕ} : Covers guardImage i q ↔ i = 0 ∧ q = guardPage := by
  obtain ⟨-, -, hloads, hnum, hheader⟩ := guardImage_read
  have hpage : (programHeader guardImage 0).startPage = guardPage ∧
      (programHeader guardImage 0).endPage = guardPage := by
    rw [hheader]
    decide
  constructor
  · rintro ⟨⟨hi, -⟩, hq⟩
    obtain rfl : i = 0 := by omega
    have hpages := mem_pages.mp hq
    omega
  · rintro ⟨rfl, rfl⟩
    exact ⟨hloads, mem_pages.mpr ⟨hpage.1.le, hpage.2.ge⟩⟩

/-- The loader maps a segment where it means no page to be. -/
theorem guard_page_covered : ∃ image sys',
    (loadImage .walker .stepping 1#40 true guardImage "init").run (bootWith (2 ^ 52)).system =
      some (.ok image, sys') ∧ image.addressSpace.leaf sys'.bytes guardPage ≠ none := by
  obtain ⟨hwell, hlen, -, hnum, hheader⟩ := guardImage_read
  have haccepted : ∃ flags, Accepted true guardImage (programHeader guardImage 0) flags := by
    rw [hheader]
    refine ⟨.present ||| .userAccessible ||| .writable ||| .noExecute, by rfl, by decide, ?_, ?_, ?_,
      ?_⟩
    all_goals simp only [hlen]
    all_goals decide
  have hcompletes : ∀ i < (headerOf guardImage).phnum, Completes true guardImage i := by
    intro i hi
    obtain rfl : i = 0 := by omega
    refine Or.inr ⟨haccepted, fun q hq => ⟨?_, fun k hk => absurd hk (Nat.not_lt_zero k)⟩⟩
    rw [(guardImage_pages.mp hq).2]
    exact user_iff.mpr guardPage_lt
  have hapart : ∀ i q, Covers guardImage i q → q ∉ stackRange := by
    intro i q hq
    rw [(guardImage_pages.mp hq).2]
    exact guardPage_notMem_stack
  obtain ⟨image, sys', h⟩ : ∃ image sys', (loadImage .walker .stepping 1#40 true guardImage
      "init").run (bootWith (2 ^ 52)).system = some (.ok image, sys') :=
    loadImage_returns hwell hcompletes hapart
  refine ⟨image, sys', h, fun hfree => ?_⟩
  obtain ⟨place, I⟩ := (bootWith_boots (le_refl (2 ^ 52))).run (exec_nil (next .walker _) _)
  obtain ⟨flags, -, hmapped⟩ :=
    (loadImage_ok I.nodup h).2.1.segments (guardImage_pages.mpr ⟨rfl, rfl⟩)
  rw [flagsAt_of_lt (lt_trans guardPage_lt (by decide)), hfree] at hmapped
  nomatch hmapped

end ElfLoader
