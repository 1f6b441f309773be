import NajmKernel.MirageExclusion

/-! The address that a loaded program starts at, which both loaders take from the file: when Ring 3
can execute it. -/
namespace EntryPoints

open LittleEndian PhysicalMemory PageTables PhysicalFrames AddressSpaces Attempts Attempt
  SpaceBuilding TransitionSystem SpaceRuns
open ElfLoader (LoadedImage)

/-- The address lies in a page of the lower half that Ring 3 may execute. -/
def Executable (space : AddressSpace) (m : Memory) (addr : ℕ) : Prop :=
  addr < 2 ^ 47 ∧ ∃ p, permissions space m (addr / 4096) = some p ∧ p.execute = true

variable {X : Mapper} {R : PageRange} {nx : Bool} {bytes : List UInt8} {b : Building}
  {kernelRoot cr3 : Frame} {level : Frame → Option ℕ} {data : Frame → Prop} {s₀ s : State}
  {es : List Event} {name : String} {loaded : LoadedImage} {sys' : System} {addr q : ℕ}

section Elf

open ElfLoader

/-- The entry of an ELF image is in an executable segment; where the CPU lacks NX, any segment or
the stack will do. -/
def ElfEntry (nx : Bool) (bytes : List UInt8) : Prop :=
  (∃ i, Covers bytes i ((headerOf bytes).entry / 4096) ∧
      ((programHeader bytes i).pFlags &&& pfX ≠ 0 ∨ nx = false)) ∨
    (headerOf bytes).entry / 4096 ∈ stackRange ∧ nx = false

theorem elf_executable_iff (h : HoldsImage nx bytes b) :
    Executable b.space b.system.bytes (headerOf bytes).entry ↔ ElfEntry nx bytes := by
  have hseg : ∀ {i q}, Covers bytes i q → q < 2 ^ 35 ∧ ∃ p,
      permissions b.space b.system.bytes q = some p ∧
      (p.execute = true ↔ (programHeader bytes i).pFlags &&& pfX ≠ 0 ∨ nx = false) := by
    intro i q hc
    obtain ⟨flags, hflags, hat⟩ := h.segments hc
    obtain ⟨-, huser, hwrite, hexec, -⟩ := segmentFlags_spec hflags
    have hlt := page_lt (h.user hc)
    refine ⟨hlt, _, by rw [h.sound.permissions hlt, hat, Option.bind_some, if_pos huser], ?_⟩
    rw [hexec]
    cases nx <;> simp
  have hstack : ∀ {q}, q ∈ stackRange → q < 2 ^ 35 ∧
      permissions b.space b.system.bytes q = some ⟨true, !nx⟩ := by
    intro q hq
    obtain ⟨-, hwrite, huser, hexec⟩ := stackFlags_spec nx
    have hlt : q < 2 ^ 35 := lt_trans (stack_lt hq) (by decide)
    refine ⟨hlt, ?_⟩
    rw [h.sound.permissions hlt, h.stack hq, Option.bind_some, if_pos huser, hwrite, hexec]
  constructor
  · rintro ⟨hlt, p, hp, hx⟩
    by_cases hc : ∃ i, Covers bytes i ((headerOf bytes).entry / 4096)
    · obtain ⟨i, hc⟩ := hc
      obtain ⟨-, p', hp', hiff⟩ := hseg hc
      obtain rfl := Option.some.inj (hp.symm.trans hp')
      exact Or.inl ⟨i, hc, hiff.mp hx⟩
    · by_cases hs : (headerOf bytes).entry / 4096 ∈ stackRange
      · obtain rfl := Option.some.inj (hp.symm.trans (hstack hs).2)
        simp only [Bool.not_eq_true'] at hx
        exact Or.inr ⟨hs, hx⟩
      · have hf := h.unmapped (not_exists.mp hc) hs
        rw [h.sound.permissions (by omega), hf] at hp
        cases hp
  · rintro (⟨i, hc, hx⟩ | ⟨hs, rfl⟩)
    · obtain ⟨hlt, p, hp, hiff⟩ := hseg hc
      exact ⟨by omega, p, hp, hiff.mpr hx⟩
    · obtain ⟨hlt, hp⟩ := hstack hs
      exact ⟨by omega, _, hp, rfl⟩

end Elf

section Pe

open PeParser Mirage

/-- The entry of a PE image is in the image, on a page whose last section, if it has one, is
executable, or in the page of thunks. -/
def PeEntry (nx : Bool) (bytes : List UInt8) : Prop :=
  let k := (headersOf bytes).entryRva / 4096
  k * 4096 < (headersOf bytes).imageSize ∧
      (∀ t, lastSection (sectionsOf bytes) k = some t → t.executable = true ∨ nx = false) ∨
    k = ((headersOf bytes).imageSize + 4095) / 4096

theorem pe_executable_iff {image : Image} (hi : ImageIs bytes image) (h : HoldsImage nx image b) :
    Executable b.space b.system.bytes (mirageImageBase + image.entryRva) ↔ PeEntry nx bytes := by
  have hb := hi.bounded
  obtain ⟨-, -, -, -, -, hentry, -, hsize, -, hsections⟩ := hi
  have hle := imagePages_le hb
  have hrva := hb.entry
  have hpage : (mirageImageBase + image.entryRva) / 4096 = basePage + image.entryRva / 4096 := by
    rw [mirageImageBase, basePage]
    omega
  have hlt : mirageImageBase + image.entryRva < 2 ^ 47 := by
    rw [mirageImageBase]
    omega
  rw [Executable, PeEntry, hpage, ← hentry, ← hsize, ← hsections, ← lt_imagePages]
  constructor
  · rintro ⟨-, p, hp, hx⟩
    rcases Nat.lt_trichotomy (image.entryRva / 4096) (imagePages image) with hk | hk | hk
    · left
      refine ⟨hk, fun t ht => ?_⟩
      rw [permissions_page hb h hk, ht, Option.some.injEq] at hp
      subst hp
      simpa using hx
    · exact Or.inr hk
    · have hstack : basePage + image.entryRva / 4096 ∉ stackRange := by
        intro hs
        have := (mem_stackRange.mp hs).1
        rw [stackBottom, basePage] at this
        omega
      rw [permissions_unmapped h (by rw [basePage]; omega) (by omega) hstack] at hp
      cases hp
  · rintro (⟨hk, hx⟩ | hk)
    · refine ⟨hlt, _, permissions_page hb h hk, ?_⟩
      cases hl : lastSection image.sections (image.entryRva / 4096) with
      | none => rfl
      | some t => simpa using hx t hl
    · have hk' : image.entryRva / 4096 = imagePages image := hk
      rw [hk']
      exact ⟨hlt, _, permissions_thunks hb h, rfl⟩

end Pe

/-- Neither loader looks at the entry: it is executable where the file's own tables make it so. -/
theorem entry_executable_iff (hb : Boots kernelRoot level data s₀)
    (hrun : exec (next X kernelRoot) s₀ es = some s) :
    ((ElfLoader.loadImage X R cr3 nx bytes name).run s.system = some (.ok loaded, sys') →
      (Executable loaded.addressSpace sys'.bytes loaded.entry ↔ ElfEntry nx bytes)) ∧
    ((Mirage.loadImage X cr3 nx bytes name).run s.system = some (.ok loaded, sys') →
      (Executable loaded.addressSpace sys'.bytes loaded.entry ↔ PeEntry nx bytes)) := by
  obtain ⟨place, I⟩ := hb.run hrun
  constructor
  · intro h
    obtain ⟨-, hholds, hentry⟩ := ElfLoader.loadImage_ok I.nodup h
    have hiff := elf_executable_iff hholds
    rw [hentry]
    exact hiff
  · intro h
    obtain ⟨image, hi, hholds, hentry⟩ := Mirage.loadImage_ok I.nodup h
    have hiff := pe_executable_iff hi hholds
    rw [hentry]
    exact hiff

section Example

/-- A page of code, and an entry in no page at all. -/
def lostEntry : List UInt8 := ElfLoader.encode 0 [⟨1, 5, 120, 0x400000, 3, 3⟩] [0xCD, 0x80, 0xC3]

/-- What the loader reads of the file. -/
theorem lostEntry_read : ElfLoader.WellFormed lostEntry ∧ lostEntry.length = 123 ∧
    (ElfLoader.headerOf lostEntry).phnum = 1 ∧ (ElfLoader.headerOf lostEntry).entry = 0 ∧
    ElfLoader.programHeader lostEntry 0 = ⟨1, 5, 120, 0x400000, 3, 3⟩ := by decide +kernel

theorem lostEntry_pages {i q : ℕ} (h : ElfLoader.Covers lostEntry i q) : i = 0 ∧ q = 0x400 := by
  obtain ⟨-, -, hnum, -, hheader⟩ := lostEntry_read
  have hi := h.1.1
  have hp := ElfLoader.mem_pages.mp h.2
  rw [hnum] at hi
  obtain rfl : i = 0 := by omega
  rw [hheader, ElfLoader.ProgramHeader.startPage, ElfLoader.ProgramHeader.endPage] at hp
  simp only at hp
  omega

theorem lostEntry_loads : ∃ loaded sys',
    (ElfLoader.loadImage .walker .stepping 1#40 true lostEntry "lost").run (bootWith 0x40000).system =
      some (.ok loaded, sys') := by
  obtain ⟨hwell, hlen, hnum, -, hheader⟩ := lostEntry_read
  have haccepted : ∃ flags, ElfLoader.Accepted true lostEntry
      (ElfLoader.programHeader lostEntry 0) flags := by
    rw [hheader]
    refine ⟨.present ||| .userAccessible, by rfl, by decide, ?_, ?_, ?_, ?_⟩
    all_goals simp only [hlen]
    all_goals decide
  refine ElfLoader.loadImage_returns_of (by decide) hwell (fun i hi => ?_)
    (fun i q hq hs => ?_) (fun pages hnd hcov => ?_) 
    (show 4 * 1 + 20 ≤ (0x40000 - 0x3000) / 4096 by decide)
  · obtain rfl : i = 0 := by omega
    refine Or.inr ⟨haccepted, fun q hq => ⟨?_, fun k hk => absurd hk (Nat.not_lt_zero k)⟩⟩
    rw [(lostEntry_pages hq).2]
    decide
  · have hlow := (mem_stackRange.mp hs).1
    rw [(lostEntry_pages hq).2, stackBottom] at hlow
    omega
  · have hsub : pages ⊆ [0x400] := fun q hq => by
      obtain ⟨i, -, hc⟩ := hcov q hq
      exact List.mem_singleton.mpr (lostEntry_pages hc).2
    exact (hnd.subperm hsub).length_le

theorem entry_executable_iff_lost :
    (∃ loaded sys', (ElfLoader.loadImage .walker .stepping 1#40 true lostEntry "lost").run
        (bootWith 0x40000).system = some (.ok loaded, sys') ∧
      (Executable loaded.addressSpace sys'.bytes loaded.entry ↔ ElfEntry true lostEntry)) ∧
    ∃ loaded sys', (Mirage.loadImage .walker 1#40 true Mirage.plainImage "plain.exe").run
        (bootWith 0x40000).system = some (.ok loaded, sys') ∧
      (Executable loaded.addressSpace sys'.bytes loaded.entry ↔ PeEntry true Mirage.plainImage) := by
  have hboots : Boots 1#40 bootLevel (fun _ => False) (bootWith 0x40000) :=
    bootWith_boots (by decide)
  constructor
  · obtain ⟨loaded, sys', h⟩ := lostEntry_loads
    exact ⟨loaded, sys', h, (entry_executable_iff hboots (exec_nil _ _)).1 h⟩
  · obtain ⟨loaded, sys', h⟩ := Mirage.plainImage_loads
    exact ⟨loaded, sys', h, (entry_executable_iff (R := .stepping) hboots (exec_nil _ _)).2 h⟩

theorem lostEntry_not_executable : ∃ loaded sys',
    (ElfLoader.loadImage .walker .stepping 1#40 true lostEntry "lost").run
      (bootWith 0x40000).system = some (.ok loaded, sys') ∧
    ¬ Executable loaded.addressSpace sys'.bytes loaded.entry := by
  obtain ⟨loaded, sys', h⟩ := lostEntry_loads
  have hboots : Boots 1#40 bootLevel (fun _ => False) (bootWith 0x40000) :=
    bootWith_boots (by decide)
  obtain ⟨place, I⟩ := hboots.run (X := .walker) (exec_nil _ _)
  obtain ⟨-, hholds, hentry⟩ := ElfLoader.loadImage_ok I.nodup h
  have hiff := elf_executable_iff hholds
  refine ⟨loaded, sys', h, fun hx => ?_⟩
  rw [hentry] at hx
  obtain ⟨-, -, -, hzero, -⟩ := lostEntry_read
  rcases hiff.mp hx with ⟨i, hc, -⟩ | ⟨hs, -⟩
  · have hpage := (lostEntry_pages hc).2
    rw [hzero] at hpage
    omega
  · have hlow := (mem_stackRange.mp hs).1
    rw [hzero, stackBottom] at hlow
    omega

end Example

end EntryPoints
