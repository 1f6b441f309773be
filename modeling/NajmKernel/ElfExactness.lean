import NajmKernel.ElfSafety

/-! The lower half of a loaded ELF image is exactly the image. -/
namespace ElfLoader

open LittleEndian PhysicalMemory PageTables PhysicalFrames AddressSpaces Attempts Attempt
  SpaceBuilding TransitionSystem SpaceRuns

/-- Every page of the lower half is a page of one segment, with the permissions and the bytes this
gives it, or a page of the stack, or not there. -/
structure Exact (bytes : List UInt8) (space : AddressSpace) (m : Memory) : Prop where
  once : ∀ {i j q}, Covers bytes i q → Covers bytes j q → i = j
  apart : ∀ {i q}, Covers bytes i q → q ∉ stackRange
  segment : ∀ {i q}, Covers bytes i q → (programHeader bytes i).pFlags &&& pfR ≠ 0 ∧
    permissions space m q = some ⟨decide ((programHeader bytes i).pFlags &&& pfW ≠ 0),
      decide ((programHeader bytes i).pFlags &&& pfX ≠ 0)⟩
  stack : ∀ {q}, q ∈ stackRange → permissions space m q = some ⟨true, false⟩
  unmapped : ∀ {q}, q < 2 ^ 35 → (∀ i, ¬ Covers bytes i q) → q ∉ stackRange →
    space.leaf m q = none ∧ permissions space m q = none
  exclusive : ∀ {q p}, q < 2 ^ 35 → permissions space m q = some p →
    ¬ (p.write = true ∧ p.execute = true)
  contents : ∀ {i a}, a < 2 ^ 47 → Covers bytes i (a / 4096) →
    space.byteAt m a = some ((programHeader bytes i).content bytes a)
  stackContents : ∀ {a}, a / 4096 ∈ stackRange → space.byteAt m a = some 0

variable {X : Mapper} {R : PageRange} {nx : Bool} {bytes : List UInt8} {b : Building}
  {kernelRoot cr3 : Frame} {level : Frame → Option ℕ} {data : Frame → Prop} {s₀ s : State}
  {es : List Event} {name : String} {image : LoadedImage} {sys sys' : System} {i q : ℕ}

theorem stack_lt (h : q ∈ stackRange) : q < lastPage := by
  have := (mem_stackRange.mp h).2
  rw [stackTop] at this
  rw [lastPage]
  omega

/-- A load that returns has built the image and taken its entry from the header. -/
theorem loadImage_ok (hn : sys.frames.upcoming.Nodup)
    (h : (loadImage X R cr3 nx bytes name).run sys = some (.ok image, sys')) :
    WellFormed bytes ∧ HoldsImage nx bytes ⟨image.addressSpace, sys'⟩ ∧
      image.entry = (headerOf bytes).entry := by
  rw [loadImage] at h
  by_cases hw : WellFormed bytes
  · rw [run_bind_of_ok (parseHeader_ok hw)] at h
    obtain ⟨space, u, hnew, h⟩ := run_bind_ok.mp h
    obtain ⟨hs, hf, -⟩ := run_newSpace_ok hn hnew
    obtain ⟨⟨⟨⟩, space'⟩, u', hbuild, h⟩ := run_bind_ok.mp h
    simp only [run_pure, Option.some.injEq, Prod.mk.injEq, Except.ok.injEq] at h
    obtain ⟨rfl, rfl⟩ := h
    exact ⟨hw, buildImage_ok hw hs hf (run_building_ok.mp hbuild), rfl⟩
  · obtain ⟨e, he⟩ := parseHeader_error (s := sys) hw
    rw [run_bind, he] at h
    simp at h

theorem exact_of_holdsImage (h : HoldsImage true bytes b) :
    Exact bytes b.space b.system.bytes := by
  have hseg : ∀ {i q}, Covers bytes i q → (programHeader bytes i).pFlags &&& pfR ≠ 0 ∧
      permissions b.space b.system.bytes q =
        some ⟨decide ((programHeader bytes i).pFlags &&& pfW ≠ 0),
          decide ((programHeader bytes i).pFlags &&& pfX ≠ 0)⟩ ∧
      ¬ ((programHeader bytes i).pFlags &&& pfW ≠ 0 ∧
        (programHeader bytes i).pFlags &&& pfX ≠ 0) := by
    intro i q hc
    obtain ⟨flags, hflags, hat⟩ := h.segments hc
    obtain ⟨-, huser, hwrite, hexec, hboth⟩ := segmentFlags_spec hflags
    have hlt := page_lt (h.user hc)
    refine ⟨?_, ?_, hboth⟩
    · intro hr
      simp [segmentFlags, hr] at hflags
    · rw [h.sound.permissions hlt, hat, Option.bind_some, if_pos huser, hwrite, hexec]
      simp
  have hstack : ∀ {q}, q ∈ stackRange →
      permissions b.space b.system.bytes q = some ⟨true, false⟩ := by
    intro q hq
    obtain ⟨-, hwrite, huser, hexec⟩ := stackFlags_spec true
    have hlt : q < 2 ^ 35 := lt_trans (stack_lt hq) (by decide)
    rw [h.sound.permissions hlt, h.stack hq, Option.bind_some, if_pos huser, hwrite, hexec]
    rfl
  have hnone : ∀ {q}, q < 2 ^ 35 → (∀ i, ¬ Covers bytes i q) → q ∉ stackRange →
      b.space.leaf b.system.bytes q = none ∧ permissions b.space b.system.bytes q = none := by
    intro q hq hn hs
    have hf := h.unmapped hn hs
    refine ⟨?_, by rw [h.sound.permissions hq, hf]; rfl⟩
    rwa [flagsAt_of_lt hq, Option.map_eq_none_iff] at hf
  constructor
  · exact h.once
  · exact h.apart
  · exact fun hc => ⟨(hseg hc).1, (hseg hc).2.1⟩
  · exact hstack
  · exact hnone
  · intro q p hq hp hboth
    by_cases hc : ∃ i, Covers bytes i q
    · obtain ⟨i, hc⟩ := hc
      obtain ⟨-, hperm, hx⟩ := hseg hc
      obtain rfl := Option.some.inj (hperm.symm.trans hp)
      exact hx ⟨of_decide_eq_true hboth.1, of_decide_eq_true hboth.2⟩
    · by_cases hs : q ∈ stackRange
      · obtain rfl := Option.some.inj ((hstack hs).symm.trans hp)
        cases hboth.2
      · rw [(hnone hq (not_exists.mp hc) hs).2] at hp
        cases hp
  · intro i a ha hc
    have := h.contents hc
    rwa [Building.byteAt, if_pos ha] at this
  · intro a ha
    have hlt : a < 2 ^ 47 := by
      have := stack_lt ha
      rw [lastPage] at this
      omega
    have := h.stackContents ha
    rwa [Building.byteAt, if_pos hlt] at this

/-- In whatever state, and through whatever root, a load returns. -/
theorem elf_image_exact (hb : Boots kernelRoot level data s₀)
    (hrun : exec (next X kernelRoot) s₀ es = some s)
    (h : (loadImage X R cr3 true bytes name).run s.system = some (.ok image, sys')) :
    Exact bytes image.addressSpace sys'.bytes := by
  obtain ⟨place, I⟩ := hb.run hrun
  exact exact_of_holdsImage (loadImage_ok I.nodup h).2.1

/-- With four frames for every page of an image all of whose headers complete, and those of the
stack, it is loaded. -/
theorem loadImage_returns_of {limit total : ℕ} (hlimit : limit ≤ 2 ^ 52) (hw : WellFormed bytes)
    (hc : ∀ i < (headerOf bytes).phnum, Completes nx bytes i)
    (hstack : ∀ i q, Covers bytes i q → q ∉ stackRange)
    (htotal : CoverAtMost bytes (headerOf bytes).phnum total)
    (hfr : 4 * total + 20 ≤ (limit - 0x3000) / 4096) :
    ∃ image sys', (loadImage X R 1#40 nx bytes name).run (bootWith limit).system =
      some (.ok image, sys') := by
  have hframes := bootWith_frames limit
  obtain ⟨space, u, hnew, hlen⟩ := newSpace_returns 1#40 LoadError.outOfMemory
    (bootWith_kernelEntries limit) (by
      intro h
      rw [h, List.length_nil] at hframes
      omega)
  obtain ⟨hs, hf, -⟩ := run_newSpace_ok (bootWith_boots hlimit).isolated.nodup hnew
  have hleft : 4 * total + 19 ≤ (Building.mk space u).frames := by
    rw [Building.frames]
    simp only
    omega
  obtain ⟨mappedPages, c, hrun, hL, hnd, hframes'⟩ := loadSegments_returns (X := X) (R := R) hw hs hf
    htotal (by omega) le_rfl hc
  have hpages : mappedPages.length ≤ total := htotal _ hnd fun q hq => by
    obtain ⟨k, hk, hcov⟩ := hL.mapped.mp hq
    exact ⟨k, List.mem_range.mp hk, hcov⟩
  obtain ⟨c', hmap⟩ := mapStack_returns LoadError.mapping X hL.sound nx
    (fun q hq => hL.unmapped fun i _ hcov => hstack i q hcov hq) (by omega)
  have hbuild : (buildImage X R nx bytes (headerOf bytes)).run ⟨space, u⟩ =
      some (.ok (), ⟨c'.space, c'.system⟩) := by
    rw [buildImage]
    exact run_bind_ok.mpr ⟨_, c, hrun, hmap⟩
  refine ⟨⟨name, (headerOf bytes).entry, SpaceBuilding.stackTop, c'.space⟩, c'.system, ?_⟩
  rw [loadImage, run_bind_of_ok (parseHeader_ok hw), run_bind_of_ok hnew,
    run_bind_of_ok (run_building_ok.mpr hbuild)]
  rfl

/-- With the most memory there can be, an image all of whose headers complete is loaded. -/
theorem loadImage_returns (hw : WellFormed bytes)
    (hc : ∀ i < (headerOf bytes).phnum, Completes nx bytes i)
    (hstack : ∀ i q, Covers bytes i q → q ∉ stackRange) :
    ∃ image sys', (loadImage X R 1#40 nx bytes name).run (bootWith (2 ^ 52)).system =
      some (.ok image, sys') :=
  loadImage_returns_of le_rfl hw hc hstack (coverAtMost_lastPage hc) (by rw [lastPage]; norm_num)

section Example

/-- A page of code whose bytes end in mid-page, and three pages of data that are zero. -/
def smallImage : List UInt8 :=
  encode 0x400000 [⟨1, 5, 176, 0x400000, 3, 3⟩, ⟨1, 6, 0, 0x402f00, 0, 0x1200⟩] [0xCD, 0x80, 0xC3]

/-- What the loader reads of the file. -/
theorem smallImage_read : WellFormed smallImage ∧ smallImage.length = 179 ∧
    (headerOf smallImage).phnum = 2 ∧
    programHeader smallImage 0 = ⟨1, 5, 176, 0x400000, 3, 3⟩ ∧
    programHeader smallImage 1 = ⟨1, 6, 0, 0x402f00, 0, 0x1200⟩ := by decide +kernel

theorem smallImage_pages {i q : ℕ} (h : Covers smallImage i q) :
    i = 0 ∧ q = 0x400 ∨ i = 1 ∧ 0x402 ≤ q ∧ q ≤ 0x404 := by
  obtain ⟨-, -, hnum, h0, h1⟩ := smallImage_read
  have hp := mem_pages.mp h.2
  have hi := h.1.1
  rw [hnum] at hi
  interval_cases i
  · rw [h0, ProgramHeader.startPage, ProgramHeader.endPage] at hp
    simp only at hp
    omega
  · rw [h1, ProgramHeader.startPage, ProgramHeader.endPage] at hp
    simp only at hp
    omega

theorem smallImage_completes : ∀ i < (headerOf smallImage).phnum, Completes true smallImage i := by
  obtain ⟨-, hlen, hnum, h0, h1⟩ := smallImage_read
  intro i hi
  rw [hnum] at hi
  have hpages : ∀ q, Covers smallImage i q →
      isUserAddress (4096 * q) = true ∧ ∀ k < i, ¬ Covers smallImage k q := by
    intro q hq
    have hin := smallImage_pages hq
    refine ⟨user_iff.mpr (by rw [lastPage]; omega), fun k hk hc => ?_⟩
    have hin' := smallImage_pages hc
    omega
  have hacc : ∃ flags, Accepted true smallImage (programHeader smallImage i) flags := by
    interval_cases i
    · rw [h0]
      refine ⟨.present ||| .userAccessible, by rfl, by decide, ?_, ?_, ?_, ?_⟩
      all_goals simp only [hlen]
      all_goals decide
    · rw [h1]
      refine ⟨.present ||| .userAccessible ||| .writable ||| .noExecute, by rfl, by decide, ?_, ?_, ?_,
        ?_⟩
      all_goals simp only [hlen]
      all_goals decide
  exact Or.inr ⟨hacc, hpages⟩

theorem smallImage_loads (X : Mapper) (R : PageRange) (name : String) :
    ∃ image sys', (loadImage X R 1#40 true smallImage name).run (bootWith (2 ^ 52)).system =
      some (.ok image, sys') := by
  refine loadImage_returns smallImage_read.1 smallImage_completes fun i q hc hs => ?_
  have h1 := smallImage_pages hc
  have h2 := (mem_stackRange.mp hs).1
  rw [stackBottom] at h2
  omega

theorem elf_image_exact_small : ∃ image sys',
    (loadImage .walker .stepping 1#40 true smallImage "init").run (bootWith (2 ^ 52)).system =
      some (.ok image, sys') ∧ Exact smallImage image.addressSpace sys'.bytes := by
  obtain ⟨image, sys', h⟩ := smallImage_loads .walker .stepping "init"
  exact ⟨image, sys', h, elf_image_exact (bootWith_boots le_rfl) (exec_nil _ _) h⟩

end Example

end ElfLoader
