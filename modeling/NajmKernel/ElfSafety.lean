import NajmKernel.BootStates
import NajmKernel.BuildingProgress
import NajmKernel.ElfContents

/-! Which ELF images make the loader panic: those with a segment, reached after segments that load,
whose pages run past the end of user space. -/
namespace ElfLoader

open LittleEndian PhysicalMemory PageTables PhysicalFrames AddressSpaces Attempts Attempt
  SpaceBuilding TransitionSystem SpaceRuns

/-- The last page of the lower half, which is no user page. -/
def lastPage : ℕ := 0x7ffffffff

/-- A header that is passed over, or loaded where there are frames enough. -/
def Completes (nx : Bool) (bytes : List UInt8) (i : ℕ) : Prop :=
  (programHeader bytes i).pType ≠ ptLoad ∨
    (∃ flags, Accepted nx bytes (programHeader bytes i) flags) ∧
      ∀ q, Covers bytes i q → isUserAddress (4096 * q) = true ∧ ∀ k < i, ¬ Covers bytes k q

/-- No segment that the loop reaches and accepts ends at an address that is not canonical, or makes
it step off the last page of the lower half before it meets a page of an earlier segment. -/
def Contained (R : PageRange) (nx : Bool) (bytes : List UInt8) : Prop :=
  WellFormed bytes → ∀ i, Loads bytes i →
    (∃ flags, Accepted nx bytes (programHeader bytes i) flags) →
    (∀ j < i, Completes nx bytes j) →
      isCanonical ((programHeader bytes i).pVaddr + (programHeader bytes i).pMemsz - 1) = true ∧
      (R.advance lastPage = none → lastPage ∈ (programHeader bytes i).pages →
        ∃ q ∈ (programHeader bytes i).pages, ∃ k < i, Covers bytes k q)

/-- In no state that address-space operations lead to does the loader panic on the image. -/
def PanicFree (R : PageRange) (nx : Bool) (bytes : List UInt8) : Prop :=
  ∀ (X : Mapper) (kernelRoot : Frame) (level : Frame → Option ℕ) (data : Frame → Prop)
    (s₀ s : State) (es : List Event) (current : Option ℕ) (cr3 : Frame) (name : String),
    Boots kernelRoot level data s₀ → 0 < AddressSpace.kernelEntries s₀.system.bytes kernelRoot →
    exec (next X kernelRoot) s₀ es = some s → s.cr3 kernelRoot current = some cr3 →
    (loadImage X R cr3 nx bytes name).run s.system ≠ none

variable {X : Mapper} {R : PageRange} {nx : Bool} {bytes : List UInt8} {b b' : Building}
  {h : ProgramHeader} {seg : Segment} {i q : ℕ} {mappedPages mappedPages' : List ℕ}
  {kernelRoot cr3 : Frame} {level : Frame → Option ℕ} {data : Frame → Prop} {s₀ s : State}
  {place : ℕ → PageTables.Placement} {current : Option ℕ}

theorem user_iff : isUserAddress (4096 * q) = true ↔ q < lastPage := by
  rw [isUserAddress, decide_eq_true_eq, userSpaceEnd, lastPage]
  omega

theorem advance_of_lt (h : q < lastPage) : R.advance q = some () := by
  apply R.advance_canonical
  apply decide_eq_true
  left
  rw [lastPage] at h
  omega

/-- A page that the loop cannot step off is the last one, or lies behind it. -/
theorem mapSegmentPage_none (h : (mapSegmentPage X R seg mappedPages q).run b = none) :
    R.advance q = none := by
  rw [mapSegmentPage, run_nextPage_bind] at h
  split at h
  case isTrue hn => exact hn
  case isFalse =>
    rw [run_ensure_bind] at h
    split at h
    case isFalse => cases h
    case isTrue =>
      rcases run_bind_none.mp h with h | ⟨_, u, -, h⟩
      · exact absurd h (run_mapPage_ne_none loadFlags_fillable)
      · cases h

section NoPanic

theorem mapSegmentPages_ne_none (hb : Sound b) (huser : isUserAddress h.pVaddr = true)
    (hlast : R.advance lastPage = none → lastPage ∈ h.pages →
      ∃ q ∈ h.pages, q < lastPage ∧ q ∈ mappedPages) :
    (h.pages.foldlM (mapSegmentPage X R seg) mappedPages).run b ≠ none := by
  intro hnone
  obtain ⟨before, q, after, all, c, hl, hrun, hq⟩ := run_foldlM_none.mp hnone
  obtain ⟨hbefore, hstart, -⟩ := range'_split hl
  obtain ⟨-, hall, -, hnew⟩ := mapSegmentPages_ok hb hrun
  have hadv := mapSegmentPage_none hq
  have hge : lastPage ≤ q := by
    by_contra hlt
    rw [advance_of_lt (by omega)] at hadv
    cases hadv
  have hmem : ∀ r, r ∈ before ↔ h.startPage ≤ r ∧ r < q := by
    intro r
    rw [hbefore, List.mem_range'_1]
    omega
  have hpage : h.startPage < lastPage := by
    have := of_decide_eq_true huser
    rw [userSpaceEnd] at this
    rw [ProgramHeader.startPage, lastPage]
    omega
  -- the last page itself cannot have been mapped
  obtain rfl : q = lastPage := by
    by_contra hne
    have := user_iff.mp (hall.user lastPage ((hmem _).mpr ⟨by omega, by omega⟩))
    omega
  have hin : lastPage ∈ h.pages := by
    rw [hl]
    simp
  obtain ⟨r, hr, hlt, hmapped⟩ := hlast hadv hin
  exact hnew r ((hmem r).mpr ⟨(mem_pages.mp hr).1, hlt⟩) hmapped

theorem placeSegment_ne_none (hb : Sound b) {flags : PageTableFlags}
    (ha : Accepted nx bytes h flags) (hz : h.pMemsz ≠ 0)
    (hcan : isCanonical (h.pVaddr + h.pMemsz - 1) = true)
    (hlast : R.advance lastPage = none → lastPage ∈ h.pages →
      ∃ q ∈ h.pages, q < lastPage ∧ q ∈ mappedPages) :
    (placeSegment X R bytes ⟨i, h, flags⟩ mappedPages).run b ≠ none := by
  have huser := of_decide_eq_true ha.user
  rw [userSpaceEnd] at huser
  have hvaddr : isCanonical h.pVaddr = true := decide_eq_true (Or.inl (by omega))
  intro hnone
  rw [placeSegment] at hnone
  dsimp only at hnone
  rw [virtAddr, run_demand_bind, if_pos hvaddr, virtAddr, run_demand_bind, if_pos hcan] at hnone
  rcases run_bind_none.mp hnone with hnone | ⟨all, b₁, hmap, hnone⟩
  · exact mapSegmentPages_ne_none hb ha.user hlast hnone
  obtain ⟨hs₁, hall, -, -⟩ := mapSegmentPages_ok hb hmap
  have hle : h.startPage ≤ h.endPage := by
    rw [ProgramHeader.startPage, ProgramHeader.endPage]
    omega
  have hend := user_iff.mp (hall.user _ (mem_pages.mpr ⟨hle, le_rfl⟩))
  rw [lastPage] at hend
  have hfile : h.pVaddr + h.pFilesz ≤ 4096 * (h.endPage + 1) := by
    have := ha.sizes
    rw [ProgramHeader.endPage]
    omega
  rcases run_bind_none.mp hnone with hnone | ⟨_, b₂, -, hnone⟩
  · exact run_zeroAt_ne_none (by omega) hnone
  rw [run_slice_bind ⟨by omega, ha.file⟩] at hnone
  rcases run_bind_none.mp hnone with hnone | ⟨_, b₃, -, hnone⟩
  · refine run_writeAt_ne_none ?_ hnone
    rw [List.length_take]
    omega
  rcases run_bind_none.mp hnone with hnone | ⟨_, b₄, -, hnone⟩
  · obtain ⟨before, q, after, _, c, hl, -, hq⟩ := run_foldlM_none.mp hnone
    have hin : q ∈ h.pages := by
      rw [hl]
      simp
    have := mem_pages.mp hin
    rw [run_nextPage_bind, advance_of_lt (by rw [lastPage]; omega)] at hq
    exact run_protectPage_ne_none hq
  · cases hnone

/-- Headers the loop has gone through. -/
theorem completes_of_ok (hw : WellFormed bytes) (hi : i < (headerOf bytes).phnum)
    (hL : Loaded nx bytes (List.range i) mappedPages b)
    (hrun : (loadSegment X R nx bytes (headerOf bytes) mappedPages i).run b =
      some (.ok mappedPages', b')) : Completes nx bytes i := by
  have hL' := hL.step hw hi hrun
  rcases loadSegment_cases X R nx hw hi with
    ⟨hl, hpass, -⟩ | ⟨flags, hl, ha, -⟩ | ⟨-, -, herr⟩
  · rcases hpass with hp | ha
    · exact Or.inl hp
    · exact Or.inr ⟨ha, fun q hc => absurd hc.1 hl⟩
  · refine Or.inr ⟨⟨flags, ha⟩, fun q hc => ⟨hL'.user (by simp) hc, fun k hk hk' => ?_⟩⟩
    have := hL'.once (i := i) (j := k) (by simp) (by simp [hk]) hc hk'
    omega
  · obtain ⟨e, he⟩ := herr mappedPages b
    rw [he] at hrun
    simp at hrun

theorem buildImage_ne_none (hc : Contained R nx bytes) (hw : WellFormed bytes) (hs : Sound b)
    (hf : ∀ q, b.flagsAt q = none) :
    (buildImage X R nx bytes (headerOf bytes)).run b ≠ none := by
  rw [buildImage]
  intro hnone
  rcases run_bind_none.mp hnone with hnone | ⟨_, _, -, hnone⟩
  · obtain ⟨before, i, after, mappedPages, c, hl, hrun, hi⟩ := run_foldlM_none.mp hnone
    obtain ⟨rfl, hlt⟩ := range_split hl
    obtain ⟨hL, hreached⟩ : Loaded nx bytes (List.range i) mappedPages c ∧
        ∀ j < i, Completes nx bytes j := by
      have := run_foldlM_ok (l := List.range i) (I := fun done mappedPages c =>
        Loaded nx bytes done mappedPages c ∧ ∀ j ∈ done, Completes nx bytes j) (d := []) ?_ hrun
        ⟨Loaded.start hs hf, by simp⟩
      · exact ⟨this.1, fun j hj => this.2 j (by simpa using hj)⟩
      · rintro before j after _ _ _ _ hsplit ⟨hL, hd⟩ hstep
        obtain ⟨rfl, hj⟩ := range_split hsplit
        have hj' : j < (headerOf bytes).phnum := by omega
        refine ⟨hL.step hw hj' hstep, fun k hk => ?_⟩
        rcases List.mem_append.mp hk with hk | hk
        · exact hd k hk
        · obtain rfl := List.mem_singleton.mp hk
          exact completes_of_ok hw hj' hL hstep
    rcases loadSegment_cases X R nx hw hlt with
      ⟨-, -, hskip⟩ | ⟨flags, hloads, ha, hplace⟩ | ⟨-, -, herr⟩
    · rw [hskip] at hi
      cases hi
    · rw [hplace] at hi
      obtain ⟨hcan, hlast⟩ := hc hw i hloads ⟨flags, ha⟩ hreached
      refine placeSegment_ne_none hL.sound ha hloads.2.2 hcan (fun hadv hin => ?_) hi
      obtain ⟨q, hq, k, hk, hcov⟩ := hlast hadv hin
      have hk' : k ∈ List.range i := List.mem_range.mpr hk
      exact ⟨q, hq, user_iff.mp (hL.user hk' hcov), hL.mapped.mpr ⟨k, hk', hcov⟩⟩
    · obtain ⟨e, he⟩ := herr mappedPages c
      rw [he] at hi
      cases hi
  · exact mapStack_ne_none hnone

/-- Every root that CR3 may hold has the kernel's entries. -/
theorem kernelEntries_eq (I : Isolated kernelRoot level data s₀ s place)
    (hcr3 : s.cr3 kernelRoot current = some cr3) :
    AddressSpace.kernelEntries s.system.bytes cr3 =
      AddressSpace.kernelEntries s₀.system.bytes kernelRoot := by
  have hword : ∀ i, 256 ≤ i → i < 512 →
      s.system.bytes.word cr3 i = s₀.system.bytes.word kernelRoot i := by
    intro i h1 h2
    cases current with
    | none =>
      obtain rfl := Option.some.inj hcr3
      exact Memory.word_of_frame_eq (I.kernel (by simp [I.start.kernel.root]))
    | some a =>
      obtain ⟨space, hs, rfl⟩ := Option.map_eq_some_iff.mp hcr3
      exact I.upper hs i h1 h2
  apply List.countP_congr
  intro i hi
  rw [List.mem_range'_1] at hi
  rw [entry, entry, hword i hi.1 (by omega)]

theorem panicFree_of_contained (hc : Contained R nx bytes) : PanicFree R nx bytes := by
  intro X kernelRoot level data s₀ s es current cr3 name hb hk hrun hcr3 hnone
  obtain ⟨place, I⟩ := hb.run hrun
  rw [loadImage] at hnone
  by_cases hw : WellFormed bytes
  · rw [run_bind_of_ok (parseHeader_ok hw)] at hnone
    rcases run_bind_none.mp hnone with hnone | ⟨space, u, hnew, hnone⟩
    · exact newSpace_ne_none (by rw [kernelEntries_eq I hcr3]; exact hk) hnone
    · obtain ⟨hs, hf, -⟩ := run_newSpace_ok I.nodup hnew
      rcases run_bind_none.mp hnone with hnone | ⟨_, _, -, hnone⟩
      · exact buildImage_ne_none hc hw hs hf (run_building_none.mp hnone)
      · cases hnone
  · obtain ⟨e, he⟩ := parseHeader_error (s := s.system) hw
    rw [run_bind, he] at hnone
    cases hnone

end NoPanic

section Panic

theorem length_le_of_user {l : List ℕ} (hn : l.Nodup) (hl : ∀ q ∈ l, q < lastPage) :
    l.length ≤ lastPage := by
  have := (hn.subperm fun q hq => List.mem_range.mpr (hl q hq)).length_le
  rwa [List.length_range] at this

variable (X R seg) in
theorem mapSegmentPages_returns {pages : List ℕ} (hb : Sound b) (hn : pages.Nodup)
    (huser : ∀ q ∈ pages, q < lastPage) (hnew : ∀ q ∈ pages, q ∉ mappedPages)
    (hfree : ∀ q ∈ pages, b.flagsAt q = none) (hfr : 4 * pages.length ≤ b.frames) :
    ∃ b', (pages.foldlM (mapSegmentPage X R seg) mappedPages).run b =
        some (.ok (mappedPages ++ pages), b') ∧ Sound b' ∧ MappedAll b b' pages loadFlags ∧
      b.frames ≤ b'.frames + 4 * pages.length := by
  obtain ⟨hp, hw, hu, -⟩ := loadFlags_spec
  obtain ⟨_, b', hrun, hs, hall, rfl, hleft⟩ := run_foldlM_returns (l := pages)
    (g := mapSegmentPage X R seg) (I := fun done all c => Sound c ∧
      MappedAll b c done loadFlags ∧ all = mappedPages ++ done ∧
      b.frames ≤ c.frames + 4 * done.length) (d := []) (b := mappedPages) (s := b) (by
    rintro before q after _ c hl ⟨hc, hall, rfl, hleft⟩
    rw [List.nil_append] at hall hleft
    have hq : q ∈ pages := by
      rw [hl]
      simp
    have hlen : before.length + 1 ≤ pages.length := by
      rw [hl, List.length_append, List.length_cons]
      omega
    have hbefore : q ∉ before := by
      intro hin
      rw [hl] at hn
      exact (List.nodup_append.mp hn).2.2 q hin q List.mem_cons_self rfl
    have hnone : c.flagsAt q = none := by
      rw [hall.flagsAt, if_neg hbefore, hfree q hq]
    have hthree := c.missing_le q
    obtain ⟨c', hrun, hframes⟩ := mapPage_returns LoadError.mapping X hc
      loadFlags_fillable (user_iff.mpr (huser q hq)) hnone (by omega)
    obtain ⟨hs, hm⟩ := mapped_of_ok hc hw hp hrun
    refine ⟨mappedPages ++ before ++ [q], c', ?_, hs, ?_, by simp, ?_⟩
    · rw [mapSegmentPage, run_nextPage_bind, advance_of_lt (huser q hq), if_neg (by simp),
        run_ensure_bind, if_pos, run_bind_of_ok hrun, run_pure, List.nil_append]
      rw [List.nil_append, List.mem_append, not_or]
      exact ⟨hnew q hq, hbefore⟩
    · exact hall.snoc hm
    · rw [List.nil_append, List.length_append, List.length_singleton]
      omega) ⟨hb, MappedAll.refl b _, by simp, by simp⟩
  exact ⟨b', hrun, hs, hall, hleft⟩

theorem placeSegment_returns (hb : Sound b) {flags : PageTableFlags}
    (ha : Accepted nx bytes h flags) (hz : h.pMemsz ≠ 0)
    (huser : ∀ q ∈ h.pages, q < lastPage) (hnew : ∀ q ∈ h.pages, q ∉ mappedPages)
    (hfree : ∀ q ∈ h.pages, b.flagsAt q = none) (hfr : 4 * h.pages.length ≤ b.frames) :
    ∃ b', (placeSegment X R bytes ⟨i, h, flags⟩ mappedPages).run b =
        some (.ok (mappedPages ++ h.pages), b') ∧
      b.frames ≤ b'.frames + 4 * h.pages.length := by
  have hn : h.pages.Nodup := List.nodup_range'
  obtain ⟨b₁, hrun₁, hs₁, hall, hleft⟩ := mapSegmentPages_returns X R ⟨i, h, flags⟩
    hb hn huser hnew hfree hfr
  have hstart := of_decide_eq_true ha.user
  rw [userSpaceEnd] at hstart
  have hle : h.startPage ≤ h.endPage := by
    rw [ProgramHeader.startPage, ProgramHeader.endPage]
    omega
  have hend := huser _ (mem_pages.mpr ⟨hle, le_rfl⟩)
  rw [lastPage] at hend
  have hlow : 4096 * h.startPage ≤ h.pVaddr := by
    rw [ProgramHeader.startPage]
    omega
  have hfile : h.pVaddr + h.pFilesz ≤ 4096 * (h.endPage + 1) := by
    have := ha.sizes
    rw [ProgramHeader.endPage]
    omega
  have hlast : h.pVaddr + h.pMemsz - 1 < 4096 * (h.endPage + 1) := by
    rw [ProgramHeader.endPage]
    omega
  have hmapped : ∀ a, 4096 * h.startPage ≤ a → a < 4096 * (h.endPage + 1) →
      (b₁.flagsAt (a / 4096)).isSome = true := by
    intro a h1 h2
    rw [hall.flagsAt, if_pos (mem_pages.mpr ⟨by omega, by omega⟩)]
    rfl
  obtain ⟨b₂, hrun₂, hf₂⟩ := zeroAt_returns LoadError.mapping
    (4096 * h.startPage) (4096 * h.endPage + 4096 - 4096 * h.startPage) hs₁
    (by omega) fun a h1 h2 => hmapped a h1 (by omega)
  obtain ⟨hs₂, hzero⟩ := zeroed_of_ok hs₁ (by omega) hrun₂
  have hlen : ((bytes.drop h.pOffset).take h.pFilesz).length ≤ h.pFilesz := by
    rw [List.length_take]
    omega
  obtain ⟨b₃, hrun₃, hf₃⟩ := writeAt_returns LoadError.mapping h.pVaddr
    ((bytes.drop h.pOffset).take h.pFilesz) hs₂ (by omega) fun a h1 h2 => by
      rw [hzero.flagsAt]
      exact hmapped a (by omega) (by omega)
  obtain ⟨hs₃, hwritten⟩ := written_of_ok hs₂ (by omega) hrun₃
  obtain ⟨_, b₄, hrun₄, -, -, hf₄⟩ := run_foldlM_returns (l := h.pages)
    (g := fun _ page => do
      nextPage R page
      protectPage .mapping X page flags)
    (I := fun done _ c => Sound c ∧ ProtectedAll b₃ c done flags ∧ c.frames = b₃.frames)
    (d := []) (b := ()) (s := b₃) (by
    rintro before q after _ c hl ⟨hc, hprot, hframes⟩
    have hq : q ∈ h.pages := by
      rw [hl]
      simp
    have hm : (c.flagsAt q).isSome = true := by
      rw [hprot.flagsAt]
      split
      · rfl
      · rw [hwritten.flagsAt, hzero.flagsAt, hall.flagsAt, if_pos hq]
        rfl
    obtain ⟨c', hrun, hf⟩ := protectPage_returns LoadError.mapping X flags
      hc (user_iff.mpr (huser q hq)) hm
    obtain ⟨hs, -, -, hflags, hbytes⟩ := protected_of_ok hc (segmentFlags_spec ha.flags).1 hrun
    refine ⟨(), c', ?_, hs, hprot.snoc hm hflags hbytes, hf.trans hframes⟩
    rw [run_nextPage_bind, advance_of_lt (huser q hq), if_neg (by simp), hrun])
    ⟨hs₃, ProtectedAll.refl b₃ _, rfl⟩
  have hv1 : isCanonical h.pVaddr = true := decide_eq_true (Or.inl (by omega))
  have hv2 : isCanonical (h.pVaddr + h.pMemsz - 1) = true := decide_eq_true (Or.inl (by omega))
  refine ⟨b₄, ?_, by omega⟩
  rw [placeSegment]
  dsimp only
  rw [virtAddr, run_demand_bind, if_pos hv1, virtAddr, run_demand_bind, if_pos hv2,
    run_bind_of_ok hrun₁, run_bind_of_ok hrun₂, run_slice_bind ⟨by omega, ha.file⟩,
    Nat.add_sub_cancel_left, run_bind_of_ok hrun₃, run_bind_of_ok hrun₄, run_pure]

/-- The first headers cover no more pages than this. -/
def CoverAtMost (bytes : List UInt8) (n total : ℕ) : Prop :=
  ∀ pages : List ℕ, pages.Nodup → (∀ q ∈ pages, ∃ i < n, Covers bytes i q) → pages.length ≤ total

theorem coverAtMost_lastPage {n : ℕ} (hreached : ∀ j < n, Completes nx bytes j) :
    CoverAtMost bytes n lastPage := by
  refine fun pages hnd hcov => length_le_of_user hnd fun q hq => ?_
  obtain ⟨i, hi, hc⟩ := hcov q hq
  exact user_iff.mp (((hreached i hi).resolve_left (not_not.mpr hc.1.2.1)).2 q hc).1

/-- With four frames for every page that they cover, headers that complete are gone through. -/
theorem loadSegments_returns (hw : WellFormed bytes) (hs : Sound b) (hf : ∀ q, b.flagsAt q = none)
    {n total : ℕ} (htotal : CoverAtMost bytes n total) (hfr : 4 * total ≤ b.frames)
    (hn : n ≤ (headerOf bytes).phnum) (hreached : ∀ j < n, Completes nx bytes j) :
    ∃ mappedPages b', ((List.range n).foldlM (loadSegment X R nx bytes (headerOf bytes)) []).run b =
        some (.ok mappedPages, b') ∧ Loaded nx bytes (List.range n) mappedPages b' ∧
      mappedPages.Nodup ∧ b.frames ≤ b'.frames + 4 * mappedPages.length := by
  refine run_foldlM_returns (l := List.range n) (d := []) (I := fun done mappedPages c =>
    Loaded nx bytes done mappedPages c ∧ mappedPages.Nodup ∧
      b.frames ≤ c.frames + 4 * mappedPages.length) ?_ ⟨Loaded.start hs hf, by simp, by simp⟩
  rintro before i after mappedPages c hl ⟨hL, hnd, hleft⟩
  obtain ⟨rfl, hi⟩ := range_split hl
  rw [List.nil_append] at hL
  have hi' : i < (headerOf bytes).phnum := by omega
  rcases loadSegment_cases X R nx hw hi' with
    ⟨hno, -, hskip⟩ | ⟨flags, hload, ha, hplace⟩ | ⟨ht, hno, -⟩
  · exact ⟨mappedPages, c, hskip _ _, hL.skip hno, hnd, hleft⟩
  · obtain ⟨-, hok⟩ := (hreached i hi).resolve_left (not_not.mpr hload.2.1)
    have huser : ∀ q ∈ (programHeader bytes i).pages, q < lastPage :=
      fun q hq => user_iff.mp (hok q ⟨hload, hq⟩).1
    have hcov : ∀ q ∈ (programHeader bytes i).pages, ∀ k ∈ List.range i, ¬ Covers bytes k q :=
      fun q hq k hk => (hok q ⟨hload, hq⟩).2 k (List.mem_range.mp hk)
    have hnew : ∀ q ∈ (programHeader bytes i).pages, q ∉ mappedPages := by
      intro q hq hin
      obtain ⟨k, hk, hc⟩ := hL.mapped.mp hin
      exact hcov q hq k hk hc
    have hnd' : (mappedPages ++ (programHeader bytes i).pages).Nodup := by
      refine List.nodup_append.mpr ⟨hnd, List.nodup_range', ?_⟩
      rintro q hq _ hr rfl
      exact hnew q hr hq
    have hlen : (mappedPages ++ (programHeader bytes i).pages).length ≤ total := by
      apply htotal _ hnd'
      intro q hq
      rcases List.mem_append.mp hq with hq | hq
      · obtain ⟨k, hk, hc⟩ := hL.mapped.mp hq
        exact ⟨k, lt_trans (List.mem_range.mp hk) hi, hc⟩
      · exact ⟨i, hi, hload, hq⟩
    rw [List.length_append] at hlen
    obtain ⟨c', hrun, hleft'⟩ := placeSegment_returns (X := X) (R := R) (i := i) hL.sound ha
      hload.2.2 huser hnew (fun q hq => hL.unmapped (hcov q hq)) (by omega)
    refine ⟨mappedPages ++ (programHeader bytes i).pages, c', by rw [hplace, hrun], ?_, hnd', ?_⟩
    · rw [List.nil_append]
      exact hL.step hw hi' (by rw [hplace, hrun])
    · rw [List.length_append]
      omega
  · exact absurd ((hreached i hi).resolve_left (not_not.mpr ht)).1 hno

theorem contained_of_panicFree (hfree : PanicFree R nx bytes) : Contained R nx bytes := by
  intro hw i hload hacc hreached
  by_contra hno
  refine hfree Mapper.walker 1#40 bootLevel (fun _ => False) (bootWith (2 ^ 52))
    (bootWith (2 ^ 52)) [] none 1#40 "" (bootWith_boots le_rfl) (bootWith_kernelEntries _) rfl rfl ?_
  have hframes := bootWith_frames (2 ^ 52)
  obtain ⟨space, u, hnew, hlen⟩ := newSpace_returns 1#40 LoadError.outOfMemory
    (bootWith_kernelEntries (2 ^ 52)) (by
      intro h
      rw [h] at hframes
      simp at hframes)
  obtain ⟨hs, hf, -⟩ := run_newSpace_ok (bootWith_boots le_rfl).isolated.nodup hnew
  have hfr : 4 * lastPage ≤ (Building.mk space u).frames := by
    rw [lastPage, Building.frames]
    simp only
    omega
  obtain ⟨mappedPages, c, hrun, hL, hnd, hleft⟩ := loadSegments_returns (X := Mapper.walker)
    (R := R) hw hs hf (coverAtMost_lastPage hreached) hfr hload.1.le hreached
  have hat : (loadSegment Mapper.walker R nx bytes (headerOf bytes) mappedPages i).run c = none := by
    rcases loadSegment_cases Mapper.walker R nx hw hload.1 with
      ⟨hnot, -⟩ | ⟨flags, -, ha, hplace⟩ | ⟨-, hnot, -⟩
    · exact absurd hload hnot
    · rw [hplace, placeSegment]
      dsimp only
      have huser := of_decide_eq_true ha.user
      rw [userSpaceEnd] at huser
      have hv : isCanonical (programHeader bytes i).pVaddr = true :=
        decide_eq_true (Or.inl (by omega))
      rw [virtAddr, run_demand_bind, if_pos hv, virtAddr, run_demand_bind]
      split
      case isFalse => rfl
      case isTrue hcan =>
        -- the pages before the last one map, and the loop cannot step off that
        rw [not_and] at hno
        have hlast := hno hcan
        simp only [Classical.not_imp] at hlast
        obtain ⟨hadv, hin, hcov⟩ := hlast
        have hbounds := mem_pages.mp hin
        have hcov' : ∀ q ∈ (programHeader bytes i).pages, ∀ k ∈ List.range i,
            ¬ Covers bytes k q := by
          intro q hq k hk hc
          exact hcov ⟨q, hq, k, List.mem_range.mp hk, hc⟩
        obtain ⟨before, after, hsplit⟩ := List.append_of_mem hin
        obtain ⟨hbefore, -, -⟩ := range'_split hsplit
        have hmem : ∀ q ∈ before, q < lastPage ∧ q ∈ (programHeader bytes i).pages := by
          intro q hq
          refine ⟨?_, by rw [hsplit]; exact List.mem_append_left _ hq⟩
          rw [hbefore, List.mem_range'_1] at hq
          omega
        have hnew' : ∀ q ∈ before, q ∉ mappedPages := by
          intro q hq hin
          obtain ⟨k, hk, hc⟩ := hL.mapped.mp hin
          exact hcov' q (hmem q hq).2 k hk hc
        have hnb : before.Nodup := by
          rw [hbefore]
          exact List.nodup_range'
        have hnd' : (mappedPages ++ before).Nodup := by
          refine List.nodup_append.mpr ⟨hnd, hnb, ?_⟩
          rintro q hq _ hr rfl
          exact hnew' q hr hq
        have hlen' : (mappedPages ++ before).length ≤ lastPage := by
          apply length_le_of_user hnd'
          intro q hq
          rcases List.mem_append.mp hq with hq | hq
          · obtain ⟨k, hk, hc⟩ := hL.mapped.mp hq
            exact user_iff.mp (hL.user hk hc)
          · exact (hmem q hq).1
        rw [List.length_append] at hlen'
        obtain ⟨c', hpages, -⟩ := mapSegmentPages_returns Mapper.walker R
          ⟨i, programHeader bytes i, flags⟩ hL.sound hnb (fun q hq => (hmem q hq).1)
          hnew' (fun q hq => hL.unmapped (hcov' q (hmem q hq).2)) (by omega)
        refine run_bind_none.mpr (Or.inl (run_foldlM_none.mpr
          ⟨before, lastPage, after, _, c', hsplit, hpages, ?_⟩))
        rw [mapSegmentPage, run_nextPage_bind, if_pos hadv]
    · exact absurd hacc hnot
  obtain ⟨before, after, hsplit⟩ := List.append_of_mem (List.mem_range.mpr hload.1)
  obtain ⟨rfl, -⟩ := range_split hsplit
  rw [loadImage, run_bind_of_ok (parseHeader_ok hw), run_bind_of_ok hnew]
  refine run_bind_none.mpr (Or.inl (run_building_none.mpr ?_))
  rw [buildImage]
  exact run_bind_none.mpr (Or.inl (run_foldlM_none.mpr
    ⟨_, i, after, mappedPages, c, hsplit, hrun, hat⟩))

end Panic

theorem load_panic_free_iff (R : PageRange) (nx : Bool) (bytes : List UInt8) :
    PanicFree R nx bytes ↔ Contained R nx bytes :=
  ⟨contained_of_panicFree, panicFree_of_contained⟩

section Example

/-- One segment of 128 TiB. -/
def vastImage : List UInt8 := encode 0x400000 [⟨1, 5, 0, 0x400000, 0, 2 ^ 47⟩] []

theorem vastImage_panics : ¬ PanicFree .stepping true vastImage := by
  intro h
  have hw : WellFormed vastImage := by
    constructor <;> decide +kernel
  have hload : Loads vastImage 0 := by decide +kernel
  have ha : Accepted true vastImage (programHeader vastImage 0) (.present ||| .userAccessible) := by
    constructor
    · rfl
    all_goals decide +kernel
  have hcan := (contained_of_panicFree h hw 0 hload ⟨_, ha⟩ (by simp)).1
  revert hcan
  decide +kernel

end Example

end ElfLoader
