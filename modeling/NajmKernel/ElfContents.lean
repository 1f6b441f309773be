import NajmKernel.ElfImages

/-! What a completed load of an ELF image leaves in the lower half: the pages of its segments with
their permissions and their bytes, the stack, and nothing else. -/
namespace ElfLoader

open LittleEndian PhysicalMemory PageTables PhysicalFrames AddressSpaces Attempts Attempt
  SpaceBuilding

/-- A `PT_LOAD` header with something to load. -/
def Loads (bytes : List UInt8) (i : ℕ) : Prop :=
  i < (headerOf bytes).phnum ∧ (programHeader bytes i).pType = ptLoad ∧
    (programHeader bytes i).pMemsz ≠ 0

instance (bytes : List UInt8) (i : ℕ) : Decidable (Loads bytes i) :=
  inferInstanceAs (Decidable (_ ∧ _ ∧ _))

def Covers (bytes : List UInt8) (i page : ℕ) : Prop :=
  Loads bytes i ∧ page ∈ (programHeader bytes i).pages

/-- The byte a segment has at an address: from the file, or zero behind and around it. -/
def ProgramHeader.content (h : ProgramHeader) (bytes : List UInt8) (addr : ℕ) : UInt8 :=
  if h.pVaddr ≤ addr ∧ addr < h.pVaddr + h.pFilesz then
    bytes[h.pOffset + (addr - h.pVaddr)]?.getD 0
  else 0

variable {X : Mapper} {R : PageRange} {bytes : List UInt8} {nx : Bool} {h : ProgramHeader}
  {flags : PageTableFlags} {seg : Segment} {b b' : Building} {mappedPages mappedPages' : List ℕ}
  {i page addr pFlags : ℕ}

theorem mem_pages : page ∈ h.pages ↔ h.startPage ≤ page ∧ page ≤ h.endPage := by
  rw [ProgramHeader.pages, List.mem_range'_1]
  omega

theorem segmentFlags_spec (h : segmentFlags pFlags nx = .ok flags) :
    flags.contains .present = true ∧ flags.contains .userAccessible = true ∧
      flags.contains .writable = decide (pFlags &&& pfW ≠ 0) ∧
      flags.contains .noExecute = (!decide (pFlags &&& pfX ≠ 0) && nx) ∧
      ¬ (pFlags &&& pfW ≠ 0 ∧ pFlags &&& pfX ≠ 0) := by
  have hboth : ¬ (pFlags &&& pfW ≠ 0 ∧ pFlags &&& pfX ≠ 0) ↔
      (decide (pFlags &&& pfW ≠ 0) && decide (pFlags &&& pfX ≠ 0)) = false := by simp
  rw [hboth]
  unfold segmentFlags at h
  revert h
  generalize decide (pFlags &&& pfR ≠ 0) = readable
  generalize decide (pFlags &&& pfW ≠ 0) = writable
  generalize decide (pFlags &&& pfX ≠ 0) = executable
  intro h
  cases readable <;> cases writable <;> cases executable <;> cases nx <;> simp at h <;>
    · subst h
      decide

/-- The pages of a segment once it is in place. -/
structure Placed (b b' : Building) (bytes : List UInt8) (h : ProgramHeader)
    (flags : PageTableFlags) : Prop where
  user : ∀ q ∈ h.pages, isUserAddress (4096 * q) = true
  before : ∀ q ∈ h.pages, b.flagsAt q = none
  flagsAt : ∀ q, b'.flagsAt q = if q ∈ h.pages then some flags else b.flagsAt q
  byteAt : ∀ a, b'.byteAt a = if a / 4096 ∈ h.pages then some (h.content bytes a) else b.byteAt a

theorem run_nextPage_bind {α : Type} {y : Attempt Building LoadError α} :
    (do nextPage R page; y : Attempt Building LoadError α).run b =
      if R.advance page = none then none else y.run b := by
  rw [run_bind, nextPage, run_of]
  cases R.advance page <;> simp

theorem mapSegmentPages_ok {pages : List ℕ} (hb : Sound b)
    (hrun : (pages.foldlM (mapSegmentPage X R seg) mappedPages).run b =
      some (.ok mappedPages', b')) :
    Sound b' ∧ MappedAll b b' pages loadFlags ∧ mappedPages' = mappedPages ++ pages ∧
      ∀ q ∈ pages, q ∉ mappedPages := by
  obtain ⟨hp, hw, -, -⟩ := loadFlags_spec
  have hall := run_foldlM_ok (I := fun done all c => Sound c ∧ MappedAll b c done loadFlags ∧
    all = mappedPages ++ done ∧ ∀ q ∈ done, q ∉ mappedPages) (d := []) ?_ hrun
    ⟨hb, MappedAll.refl b _, by simp, by simp⟩
  · exact hall
  · rintro done q - all c all' c' - ⟨hc, hm, rfl, hnew⟩ hstep
    rw [mapSegmentPage, run_nextPage_bind] at hstep
    split at hstep
    case isTrue => cases hstep
    case isFalse =>
      rw [run_ensure_bind] at hstep
      split at hstep
      case isFalse => simp at hstep
      case isTrue hnot =>
        obtain ⟨_, u, hu, hpure⟩ := run_bind_ok.mp hstep
        rw [run_pure, Option.some.injEq, Prod.mk.injEq, Except.ok.injEq] at hpure
        obtain ⟨rfl, rfl⟩ := hpure
        obtain ⟨hs, hone⟩ := mapped_of_ok hc hw hp hu
        refine ⟨hs, hm.snoc hone, by rw [List.append_assoc], fun r hr => ?_⟩
        rcases List.mem_append.mp hr with hr | hr
        · exact hnew r hr
        · obtain rfl := List.mem_singleton.mp hr
          exact fun hin => hnot (List.mem_append_left _ hin)

theorem protectSegmentPages_ok (hb : Sound b) (hp : flags.contains .present = true)
    {pages : List ℕ} (hrun : (pages.foldlM (fun _ page => do
      nextPage R page
      protectPage .mapping X page flags) ()).run b = some (.ok (), b')) :
    Sound b' ∧ ProtectedAll b b' pages flags := by
  refine run_foldlM_ok (I := fun done _ c => Sound c ∧ ProtectedAll b c done flags)
    (d := []) ?_ hrun ⟨hb, ProtectedAll.refl b _⟩
  rintro done q - _ c _ c' - ⟨hc, hall⟩ hstep
  rw [run_nextPage_bind] at hstep
  split at hstep
  case isTrue => cases hstep
  case isFalse =>
    obtain ⟨hs, -, hm, hf, hbytes⟩ := protected_of_ok hc hp hstep
    exact ⟨hs, hall.snoc hm hf hbytes⟩

theorem placeSegment_ok (hb : Sound b) (ha : Accepted nx bytes seg.header seg.finalFlags)
    (hz : seg.header.pMemsz ≠ 0)
    (hrun : (placeSegment X R bytes seg mappedPages).run b = some (.ok mappedPages', b')) :
    Sound b' ∧ Placed b b' bytes seg.header seg.finalFlags ∧
      mappedPages' = mappedPages ++ seg.header.pages ∧
      ∀ q ∈ seg.header.pages, q ∉ mappedPages := by
  obtain ⟨h, flags, hseg⟩ : ∃ h flags, seg.header = h ∧ seg.finalFlags = flags := ⟨_, _, rfl, rfl⟩
  obtain ⟨rfl, rfl⟩ := hseg
  have hflags := ha.flags
  rw [placeSegment, virtAddr, run_demand_bind] at hrun
  split at hrun
  case isFalse => cases hrun
  case isTrue =>
    rw [virtAddr, run_demand_bind] at hrun
    split at hrun
    case isFalse => cases hrun
    case isTrue =>
      obtain ⟨all, b₁, hmap, hrun⟩ := run_bind_ok.mp hrun
      obtain ⟨_, b₂, hzero, hrun⟩ := run_bind_ok.mp hrun
      rw [run_slice_bind ⟨by omega, ha.file⟩, Nat.add_sub_cancel_left] at hrun
      obtain ⟨_, b₃, hwrite, hrun⟩ := run_bind_ok.mp hrun
      obtain ⟨_, b₄, hprotect, hrun⟩ := run_bind_ok.mp hrun
      rw [run_pure, Option.some.injEq, Prod.mk.injEq, Except.ok.injEq] at hrun
      obtain ⟨rfl, rfl⟩ := hrun
      obtain ⟨hs₁, hall, hpages, hnew⟩ := mapSegmentPages_ok hb hmap
      have hle : seg.header.startPage ≤ seg.header.endPage := by
        rw [ProgramHeader.startPage, ProgramHeader.endPage]
        omega
      have hend := page_lt (hall.user _ (mem_pages.mpr ⟨hle, le_rfl⟩))
      have hlast : seg.header.pVaddr + seg.header.pFilesz ≤ 4096 * (seg.header.endPage + 1) := by
        have := ha.sizes
        rw [ProgramHeader.endPage]
        omega
      obtain ⟨hs₂, hzeroed⟩ := zeroed_of_ok hs₁ (by omega) hzero
      have hlen : ((bytes.drop seg.header.pOffset).take seg.header.pFilesz).length =
          seg.header.pFilesz := by
        have := ha.file
        rw [List.length_take, List.length_drop]
        omega
      obtain ⟨hs₃, hwritten⟩ := written_of_ok hs₂ (by rw [hlen]; omega) hwrite
      rw [hlen] at hwritten
      obtain ⟨hs₄, hprot⟩ := protectSegmentPages_ok hs₃ (segmentFlags_spec hflags).1 hprotect
      refine ⟨hs₄, ⟨hall.user, hall.before, fun q => ?_, fun a => ?_⟩, hpages, hnew⟩
      · rw [hprot.flagsAt]
        by_cases hq : q ∈ seg.header.pages
        · rw [if_pos hq, if_pos hq]
        · rw [if_neg hq, if_neg hq, hwritten.flagsAt, hzeroed.flagsAt, hall.flagsAt, if_neg hq]
      · rw [hprot.byteAt, hwritten.byteAt, hzeroed.byteAt, ProgramHeader.content]
        have hstart : 4096 * seg.header.startPage ≤ seg.header.pVaddr := by
          rw [ProgramHeader.startPage]
          omega
        have hmem : a / 4096 ∈ seg.header.pages ↔ _ := mem_pages
        by_cases hfile : seg.header.pVaddr ≤ a ∧ a < seg.header.pVaddr + seg.header.pFilesz
        · have hq : a / 4096 ∈ seg.header.pages := by
            rw [hmem]
            omega
          rw [if_pos hfile, if_pos hq, if_pos hfile, List.getElem?_take_of_lt (by omega),
            List.getElem?_drop]
        · rw [if_neg hfile, if_neg hfile]
          by_cases hq : a / 4096 ∈ seg.header.pages
          · have hq' := hmem.mp hq
            rw [if_pos (by omega), if_pos hq]
          · have hq' := mt hmem.mpr hq
            rw [if_neg (by omega), if_neg hq, hall.byteAt a hq]

/-- The space once the headers listed have been gone through. -/
structure Loaded (nx : Bool) (bytes : List UInt8) (done mappedPages : List ℕ) (b : Building) :
    Prop where
  sound : Sound b
  user : ∀ {i q}, i ∈ done → Covers bytes i q → isUserAddress (4096 * q) = true
  mapped : ∀ {q}, q ∈ mappedPages ↔ ∃ i ∈ done, Covers bytes i q
  once : ∀ {i j q}, i ∈ done → j ∈ done → Covers bytes i q → Covers bytes j q → i = j
  flags : ∀ {i q}, i ∈ done → Covers bytes i q →
    ∃ flags, segmentFlags (programHeader bytes i).pFlags nx = .ok flags ∧
      b.flagsAt q = some flags
  unmapped : ∀ {q}, (∀ i ∈ done, ¬ Covers bytes i q) → b.flagsAt q = none
  contents : ∀ {i a}, i ∈ done → Covers bytes i (a / 4096) →
    b.byteAt a = some ((programHeader bytes i).content bytes a)

theorem Loaded.start (hs : Sound b) (hf : ∀ q, b.flagsAt q = none) :
    Loaded nx bytes [] [] b where
  sound := hs
  user hi := by simp at hi
  mapped := by simp
  once hi := by simp at hi
  flags hi := by simp at hi
  unmapped _ := hf _
  contents hi := by simp at hi

theorem Loaded.skip {done : List ℕ} (h : Loaded nx bytes done mappedPages b)
    (hi : ¬ Loads bytes i) : Loaded nx bytes (done ++ [i]) mappedPages b := by
  have hold : ∀ {j q}, j ∈ done ++ [i] → Covers bytes j q → j ∈ done := by
    intro j q hj hc
    rcases List.mem_append.mp hj with hj | hj
    · exact hj
    · exact absurd (List.mem_singleton.mp hj ▸ hc.1) hi
  constructor
  · exact h.sound
  · exact fun hj hc => h.user (hold hj hc) hc
  · intro q
    rw [h.mapped]
    constructor
    · rintro ⟨j, hj, hc⟩
      exact ⟨j, List.mem_append_left _ hj, hc⟩
    · rintro ⟨j, hj, hc⟩
      exact ⟨j, hold hj hc, hc⟩
  · exact fun hj hk hc hd => h.once (hold hj hc) (hold hk hd) hc hd
  · exact fun hj hc => h.flags (hold hj hc) hc
  · exact fun hn => h.unmapped fun j hj => hn j (List.mem_append_left _ hj)
  · exact fun hj hc => h.contents (hold hj hc) hc

theorem Loaded.place {done : List ℕ} (h : Loaded nx bytes done mappedPages b)
    (hi : Loads bytes i) (hs : Sound b')
    (hf : segmentFlags (programHeader bytes i).pFlags nx = .ok flags)
    (hp : Placed b b' bytes (programHeader bytes i) flags)
    (hnew : ∀ q ∈ (programHeader bytes i).pages, q ∉ mappedPages) :
    Loaded nx bytes (done ++ [i]) (mappedPages ++ (programHeader bytes i).pages) b' := by
  have hcases : ∀ {j}, j ∈ done ++ [i] → j ∈ done ∨ j = i := by
    intro j hj
    rcases List.mem_append.mp hj with hj | hj
    · exact Or.inl hj
    · exact Or.inr (List.mem_singleton.mp hj)
  have hapart : ∀ {j q}, j ∈ done → Covers bytes j q → q ∉ (programHeader bytes i).pages :=
    fun hj hc hq => hnew _ hq (h.mapped.mpr ⟨_, hj, hc⟩)
  constructor
  · exact hs
  · intro j q hj hc
    rcases hcases hj with hj | rfl
    · exact h.user hj hc
    · exact hp.user q hc.2
  · intro q
    rw [List.mem_append, h.mapped]
    constructor
    · rintro (⟨j, hj, hc⟩ | hq)
      · exact ⟨j, List.mem_append_left _ hj, hc⟩
      · exact ⟨i, by simp, hi, hq⟩
    · rintro ⟨j, hj, hc⟩
      rcases hcases hj with hj | rfl
      · exact Or.inl ⟨j, hj, hc⟩
      · exact Or.inr hc.2
  · intro j k q hj hk hc hd
    rcases hcases hj with hj' | rfl <;> rcases hcases hk with hk' | rfl
    · exact h.once hj' hk' hc hd
    · exact absurd hd.2 (hapart hj' hc)
    · exact absurd hc.2 (hapart hk' hd)
    · rfl
  · intro j q hj hc
    rw [hp.flagsAt]
    rcases hcases hj with hj | rfl
    · rw [if_neg (hapart hj hc)]
      exact h.flags hj hc
    · exact ⟨flags, hf, if_pos hc.2⟩
  · intro q hn
    rw [hp.flagsAt, if_neg fun hq => hn i (by simp) ⟨hi, hq⟩]
    exact h.unmapped fun j hj => hn j (List.mem_append_left _ hj)
  · intro j a hj hc
    rw [hp.byteAt]
    rcases hcases hj with hj | rfl
    · rw [if_neg (hapart hj hc)]
      exact h.contents hj hc
    · rw [if_pos hc.2]

variable (X R nx) in
/-- A header is passed over, placed or refused. -/
theorem loadSegment_cases (hw : WellFormed bytes) (hi : i < (headerOf bytes).phnum) :
    (¬ Loads bytes i ∧ ((programHeader bytes i).pType ≠ ptLoad ∨
        ∃ flags, Accepted nx bytes (programHeader bytes i) flags) ∧
      ∀ mappedPages b, (loadSegment X R nx bytes (headerOf bytes) mappedPages i).run b =
        some (.ok mappedPages, b)) ∨
    (∃ flags, Loads bytes i ∧ Accepted nx bytes (programHeader bytes i) flags ∧
      ∀ mappedPages b, (loadSegment X R nx bytes (headerOf bytes) mappedPages i).run b =
        (placeSegment X R bytes ⟨i, programHeader bytes i, flags⟩ mappedPages).run b) ∨
    ((programHeader bytes i).pType = ptLoad ∧
      (¬ ∃ flags, Accepted nx bytes (programHeader bytes i) flags) ∧
      ∀ mappedPages b, ∃ e, (loadSegment X R nx bytes (headerOf bytes) mappedPages i).run b =
        some (.error e, b)) := by
  have hskip : (∀ b : Building, (readSegment nx bytes (headerOf bytes) i).run b =
      some (.ok none, b)) → ∀ mappedPages b,
        (loadSegment X R nx bytes (headerOf bytes) mappedPages i).run b =
          some (.ok mappedPages, b) := by
    intro hr mappedPages b
    rw [loadSegment, run_bind_of_ok (hr b), run_pure]
  by_cases ht : (programHeader bytes i).pType = ptLoad
  · by_cases ha : ∃ flags, Accepted nx bytes (programHeader bytes i) flags
    · obtain ⟨flags, ha⟩ := ha
      by_cases hz : (programHeader bytes i).pMemsz = 0
      · refine Or.inl ⟨fun hl => hl.2.2 hz, Or.inr ⟨flags, ha⟩, hskip fun b => ?_⟩
        rw [readSegment_accepted hw hi ht ha, if_pos hz]
      · refine Or.inr (Or.inl ⟨flags, ⟨hi, ht, hz⟩, ha, fun mappedPages b => ?_⟩)
        have hr := readSegment_accepted (s := b) hw hi ht ha
        rw [if_neg hz] at hr
        rw [loadSegment, run_bind_of_ok hr]
    · refine Or.inr (Or.inr ⟨ht, ha, fun mappedPages b => ?_⟩)
      obtain ⟨e, he⟩ := readSegment_refused (s := b) hw hi ht ha
      exact ⟨e, by rw [loadSegment, run_bind, he]⟩
  · exact Or.inl ⟨fun hl => ht hl.2.1, Or.inl ht, hskip fun b => readSegment_skip hw hi ht⟩

theorem Loaded.step {done : List ℕ} (h : Loaded nx bytes done mappedPages b)
    (hw : WellFormed bytes) (hi : i < (headerOf bytes).phnum)
    (hrun : (loadSegment X R nx bytes (headerOf bytes) mappedPages i).run b =
      some (.ok mappedPages', b')) : Loaded nx bytes (done ++ [i]) mappedPages' b' := by
  rcases loadSegment_cases X R nx hw hi with
    ⟨hl, -, hskip⟩ | ⟨flags, hl, ha, hplace⟩ | ⟨-, -, herr⟩
  · rw [hskip, Option.some.injEq, Prod.mk.injEq, Except.ok.injEq] at hrun
    obtain ⟨rfl, rfl⟩ := hrun
    exact h.skip hl
  · rw [hplace] at hrun
    obtain ⟨hs, hp, rfl, hnew⟩ := placeSegment_ok h.sound ha hl.2.2 hrun
    exact h.place hl hs ha.flags hp hnew
  · obtain ⟨e, he⟩ := herr mappedPages b
    rw [he] at hrun
    simp at hrun

/-- A space that holds an image: its segments as loaded, and the stack. -/
structure HoldsImage (nx : Bool) (bytes : List UInt8) (b : Building) : Prop where
  sound : Sound b
  user : ∀ {i q}, Covers bytes i q → isUserAddress (4096 * q) = true
  once : ∀ {i j q}, Covers bytes i q → Covers bytes j q → i = j
  apart : ∀ {i q}, Covers bytes i q → q ∉ stackRange
  segments : ∀ {i q}, Covers bytes i q →
    ∃ flags, segmentFlags (programHeader bytes i).pFlags nx = .ok flags ∧
      b.flagsAt q = some flags
  stack : ∀ {q}, q ∈ stackRange → b.flagsAt q = some (stackFlags nx)
  unmapped : ∀ {q}, (∀ i, ¬ Covers bytes i q) → q ∉ stackRange → b.flagsAt q = none
  contents : ∀ {i a}, Covers bytes i (a / 4096) →
    b.byteAt a = some ((programHeader bytes i).content bytes a)
  stackContents : ∀ {a}, a / 4096 ∈ stackRange → b.byteAt a = some 0

theorem buildImage_ok (hw : WellFormed bytes) (hs : Sound b) (hf : ∀ q, b.flagsAt q = none)
    (hrun : (buildImage X R nx bytes (headerOf bytes)).run b = some (.ok (), b')) :
    HoldsImage nx bytes b' := by
  rw [buildImage] at hrun
  obtain ⟨mappedPages, b₁, hloop, hstack⟩ := run_bind_ok.mp hrun
  have hL : Loaded nx bytes (List.range (headerOf bytes).phnum) mappedPages b₁ :=
    run_foldlM_ok (l := List.range (headerOf bytes).phnum) (I := Loaded nx bytes) (d := [])
      (fun before i after _ _ _ _ hl h hstep =>
        h.step hw (List.mem_range.mp (by rw [hl]; simp)) hstep) hloop
      (Loaded.start hs hf)
  have hin : ∀ {i q}, Covers bytes i q → i ∈ List.range (headerOf bytes).phnum :=
    fun hc => List.mem_range.mpr hc.1.1
  obtain ⟨hs', hbefore, hflags, hbytes⟩ := stack_of_ok hL.sound hstack
  have hapart : ∀ {i q}, Covers bytes i q → q ∉ stackRange := by
    intro i q hc hq
    obtain ⟨flags, -, hfl⟩ := hL.flags (hin hc) hc
    rw [hbefore q hq] at hfl
    cases hfl
  constructor
  · exact hs'
  · exact fun hc => hL.user (hin hc) hc
  · exact fun hc hd => hL.once (hin hc) (hin hd) hc hd
  · exact hapart
  · intro i q hc
    rw [hflags, if_neg (hapart hc)]
    exact hL.flags (hin hc) hc
  · intro q hq
    rw [hflags, if_pos hq]
  · intro q hn hq
    rw [hflags, if_neg hq]
    exact hL.unmapped fun i _ => hn i
  · intro i a hc
    rw [hbytes, if_neg (hapart hc)]
    exact hL.contents (hin hc) hc
  · intro a ha
    rw [hbytes, if_pos ha]

end ElfLoader
