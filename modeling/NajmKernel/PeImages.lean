import NajmKernel.PeParser

/-! What the bytes of a PE image say in its headers and its section table, and where its RVAs lead
in the file. -/
namespace PeParser

open LittleEndian AddressSpaces Attempts Attempt

def peOffset (bytes : List UInt8) : ℕ := field bytes 0x3C 4

def optionalHeader (bytes : List UInt8) : ℕ := peOffset bytes + 24

def optionalHeaderSize (bytes : List UInt8) : ℕ := field bytes (peOffset bytes + 20) 2

def headersOf (bytes : List UInt8) : Headers where
  sectionCount := field bytes (peOffset bytes + 6) 2
  sectionTable := optionalHeader bytes + optionalHeaderSize bytes
  entryRva := field bytes (optionalHeader bytes + 16) 4
  preferredBase := field bytes (optionalHeader bytes + 24) 8
  imageSize := field bytes (optionalHeader bytes + 56) 4
  headersSize := field bytes (optionalHeader bytes + 60) 4
  directoryCount := field bytes (optionalHeader bytes + 108) 4
  directories := optionalHeader bytes + 112

structure HeadersOk (bytes : List UInt8) : Prop where
  size : 64 ≤ bytes.length
  dos : field bytes 0 2 = dosMagic
  peInside : peOffset bytes + 24 ≤ bytes.length
  pe : field bytes (peOffset bytes) 4 = peMagic
  machine : field bytes (peOffset bytes + 4) 2 = machineAmd64
  sections : (headersOf bytes).sectionCount ≤ maxSections
  optionalInside : optionalHeader bytes + optionalHeaderSize bytes ≤ bytes.length
  magic : field bytes (optionalHeader bytes) 2 = pe32PlusMagic
  fieldsInside : optionalHeader bytes + 112 ≤ bytes.length
  image : ¬ ((headersOf bytes).imageSize = 0 ∨ (headersOf bytes).imageSize > 512 * 1024 * 1024)
  headers : (headersOf bytes).headersSize ≤ bytes.length

/-- Where the entry of a section begins in the section table. -/
def sectionEntry (bytes : List UInt8) (i : ℕ) : ℕ := (headersOf bytes).sectionTable + i * 40

def sectionAt (bytes : List UInt8) (i : ℕ) : Section where
  virtualAddress := field bytes (sectionEntry bytes i + 12) 4
  virtualSize := field bytes (sectionEntry bytes i + 8) 4
  rawOffset := field bytes (sectionEntry bytes i + 20) 4
  rawSize := field bytes (sectionEntry bytes i + 16) 4
  executable := decide (field bytes (sectionEntry bytes i + 36) 4 &&& imageScnMemExecute ≠ 0)
  writable := decide (field bytes (sectionEntry bytes i + 36) 4 &&& imageScnMemWrite ≠ 0)
  readable := decide (field bytes (sectionEntry bytes i + 36) 4 &&& imageScnMemRead ≠ 0)

structure SectionOk (bytes : List UInt8) (i : ℕ) : Prop where
  inside : sectionEntry bytes i + 40 ≤ bytes.length
  file : (sectionAt bytes i).rawSize = 0 ∨
    (sectionAt bytes i).rawOffset + (sectionAt bytes i).rawSize ≤ bytes.length
  memory : (sectionAt bytes i).virtualAddress + max (sectionAt bytes i).virtualSize 1 ≤
    (headersOf bytes).imageSize

def sectionsOf (bytes : List UInt8) : List Section :=
  (List.range (headersOf bytes).sectionCount).map (sectionAt bytes)

structure LayoutOk (bytes : List UInt8) : Prop where
  headers : HeadersOk bytes
  sections : ∀ i < (headersOf bytes).sectionCount, SectionOk bytes i

variable {σ α : Type} {bytes : List UInt8} {s : σ} {i offset width rva : ℕ}

theorem run_uintAt_bind {f : ℕ → Attempt σ MirageError α} (h64 : offset + width < 2 ^ 64) :
    (uintAt width bytes offset >>= f).run s =
      if offset + width ≤ bytes.length then (f (field bytes offset width)).run s
      else some (.error (.malformed "read past the end of the image"), s) := by
  rw [run_bind, uintAt, run_sum_bind h64, run_ensure_bind]
  by_cases h : offset + width ≤ bytes.length
  · rw [if_pos h, if_pos h, run_pure]
  · rw [if_neg h, if_neg h]

theorem run_uintAt_bind_of_le {f : ℕ → Attempt σ MirageError α} (h64 : offset + width < 2 ^ 64)
    (h : offset + width ≤ bytes.length) :
    (uintAt width bytes offset >>= f).run s = (f (field bytes offset width)).run s := by
  rw [run_uintAt_bind h64, if_pos h]

theorem uintAt_bind_passes {f : ℕ → Attempt σ MirageError α} (h64 : offset + width < 2 ^ 64)
    (h : ∀ e', (uintAt width bytes offset >>= f).run s ≠ some (.error e', s)) :
    offset + width ≤ bytes.length ∧
      ∀ e', (f (field bytes offset width)).run s ≠ some (.error e', s) := by
  simp only [run_uintAt_bind h64] at h
  by_cases hle : offset + width ≤ bytes.length
  · simp only [if_pos hle] at h
    exact ⟨hle, h⟩
  · simp only [if_neg hle] at h
    exact absurd rfl (h _)

variable (bytes) in
theorem peOffset_lt : peOffset bytes < 2 ^ 32 := field_lt _ _ _

variable (bytes) in
theorem optionalHeaderSize_lt : optionalHeaderSize bytes < 2 ^ 16 := field_lt _ _ _

theorem readHeaders_ok (h : HeadersOk bytes) :
    (readHeaders bytes).run s = some (.ok (headersOf bytes), s) := by
  obtain ⟨hsize, hdos, hpe, hmagic, hmachine, hsections, hoptional, hplus, hinside, himage,
    hheaders⟩ := h
  have h1 : field bytes 60 4 < 2 ^ 32 := field_lt _ _ _
  have h2 : field bytes (field bytes 60 4 + 20) 2 < 2 ^ 16 := field_lt _ _ _
  change field bytes 60 4 + 24 ≤ bytes.length at hpe
  change field bytes 60 4 + 24 + field bytes (field bytes 60 4 + 20) 2 ≤ bytes.length at hoptional
  change field bytes 60 4 + 24 + 112 ≤ bytes.length at hinside
  change field bytes (field bytes 60 4) 4 = peMagic at hmagic
  change field bytes (field bytes 60 4 + 4) 2 = machineAmd64 at hmachine
  change field bytes (field bytes 60 4 + 6) 2 ≤ maxSections at hsections
  change field bytes (field bytes 60 4 + 24) 2 = pe32PlusMagic at hplus
  change ¬ (field bytes (field bytes 60 4 + 24 + 56) 4 = 0 ∨
    field bytes (field bytes 60 4 + 24 + 56) 4 > 512 * 1024 * 1024) at himage
  change field bytes (field bytes 60 4 + 24 + 60) 4 ≤ bytes.length at hheaders
  rw [readHeaders, run_ensure_bind, if_pos hsize, run_uintAt_bind_of_le (by decide) (by omega),
    run_ensure_bind, if_pos hdos, run_uintAt_bind_of_le (by decide) (by omega),
    run_sum_bind (by omega), run_ensure_bind, if_pos hpe,
    run_uintAt_bind_of_le (by omega) (by omega), run_ensure_bind, if_pos hmagic,
    run_uintAt_bind_of_le (by omega) (by omega), run_ensure_bind, if_pos hmachine,
    run_uintAt_bind_of_le (by omega) (by omega), run_uintAt_bind_of_le (by omega) (by omega)]
  dsimp only
  rw [run_ensure_bind, if_pos hsections, run_sum_bind (by omega), run_ensure_bind,
    if_pos hoptional, run_uintAt_bind_of_le (by omega) (by omega), run_ensure_bind, if_pos hplus,
    run_uintAt_bind_of_le (by omega) (by omega), run_uintAt_bind_of_le (by omega) (by omega),
    run_uintAt_bind_of_le (by omega) (by omega), run_uintAt_bind_of_le (by omega) (by omega),
    run_uintAt_bind_of_le (by omega) (by omega), run_ensure_bind, if_pos himage, run_ensure_bind,
    if_pos hheaders]
  rfl

theorem readHeaders_error (h : ¬ HeadersOk bytes) :
    ∃ e, (readHeaders bytes).run s = some (.error e, s) := by
  by_contra hno
  rw [not_exists] at hno
  apply h
  have h1 : field bytes 60 4 < 2 ^ 32 := field_lt _ _ _
  have h2 : field bytes (field bytes 60 4 + 20) 2 < 2 ^ 16 := field_lt _ _ _
  obtain ⟨hsize, hno⟩ := ensure_bind_passes hno
  obtain ⟨-, hno⟩ := uintAt_bind_passes (by decide) hno
  obtain ⟨hdos, hno⟩ := ensure_bind_passes hno
  obtain ⟨-, hno⟩ := uintAt_bind_passes (by decide) hno
  rw [run_sum_bind (by omega)] at hno
  obtain ⟨hpe, hno⟩ := ensure_bind_passes hno
  obtain ⟨-, hno⟩ := uintAt_bind_passes (by omega) hno
  obtain ⟨hmagic, hno⟩ := ensure_bind_passes hno
  obtain ⟨-, hno⟩ := uintAt_bind_passes (by omega) hno
  obtain ⟨hmachine, hno⟩ := ensure_bind_passes hno
  obtain ⟨-, hno⟩ := uintAt_bind_passes (by omega) hno
  obtain ⟨-, hno⟩ := uintAt_bind_passes (by omega) hno
  obtain ⟨hsections, hno⟩ := ensure_bind_passes hno
  rw [run_sum_bind (by omega)] at hno
  obtain ⟨hoptional, hno⟩ := ensure_bind_passes hno
  obtain ⟨-, hno⟩ := uintAt_bind_passes (by omega) hno
  obtain ⟨hplus, hno⟩ := ensure_bind_passes hno
  obtain ⟨-, hno⟩ := uintAt_bind_passes (by omega) hno
  obtain ⟨-, hno⟩ := uintAt_bind_passes (by omega) hno
  obtain ⟨-, hno⟩ := uintAt_bind_passes (by omega) hno
  obtain ⟨-, hno⟩ := uintAt_bind_passes (by omega) hno
  obtain ⟨hinside, hno⟩ := uintAt_bind_passes (by omega) hno
  obtain ⟨himage, hno⟩ := ensure_bind_passes hno
  obtain ⟨hheaders, -⟩ := ensure_bind_passes hno
  exact ⟨hsize, hdos, hpe, hmagic, hmachine, hsections, hoptional, hplus, hinside, himage,
    hheaders⟩

section Sections

theorem sectionEntry_lt (h : HeadersOk bytes) (hi : i < (headersOf bytes).sectionCount) :
    sectionEntry bytes i + 40 < 2 ^ 64 := by
  have h1 := peOffset_lt bytes
  have h2 := optionalHeaderSize_lt bytes
  have h3 := h.sections
  have h4 : sectionEntry bytes i = peOffset bytes + 24 + optionalHeaderSize bytes + i * 40 := rfl
  rw [maxSections] at h3
  omega

variable (h : HeadersOk bytes) (hi : i < (headersOf bytes).sectionCount) {sections : List Section}
include h hi

theorem readSection_ok (hs : SectionOk bytes i) :
    (readSection bytes (headersOf bytes) sections i).run s =
      some (.ok (sections ++ [sectionAt bytes i]), s) := by
  have h64 := sectionEntry_lt h hi
  obtain ⟨hin, hfile, hmem⟩ := hs
  have h1 : (sectionAt bytes i).rawOffset < 2 ^ 32 := field_lt _ _ _
  have h2 : (sectionAt bytes i).rawSize < 2 ^ 32 := field_lt _ _ _
  have h3 : (headersOf bytes).imageSize < 2 ^ 32 := field_lt _ _ _
  have hfile64 : (sectionAt bytes i).rawSize = 0 ∨
      (sectionAt bytes i).rawOffset + (sectionAt bytes i).rawSize < 2 ^ 64 := Or.inr (by omega)
  have hmem64 : (sectionAt bytes i).virtualAddress + max (sectionAt bytes i).virtualSize 1 <
      2 ^ 64 := by omega
  rw [sectionEntry] at h64 hin
  simp only [sectionAt, sectionEntry] at hfile hmem hfile64 hmem64
  rw [readSection, run_sum_bind h64, run_ensure_bind, if_pos hin,
    run_uintAt_bind_of_le (by omega) (by omega), run_uintAt_bind_of_le (by omega) (by omega),
    run_uintAt_bind_of_le (by omega) (by omega), run_uintAt_bind_of_le (by omega) (by omega),
    run_uintAt_bind_of_le (by omega) (by omega), run_ensure_bind, if_pos hfile64, run_ensure_bind,
    if_pos hfile, run_ensure_bind, if_pos hmem64, run_ensure_bind, if_pos hmem]
  rfl

variable (sections) in
theorem readSection_error (hs : ¬ SectionOk bytes i) :
    ∃ e, (readSection bytes (headersOf bytes) sections i).run s = some (.error e, s) := by
  by_contra hno
  rw [not_exists] at hno
  apply hs
  have h64 := sectionEntry_lt h hi
  rw [sectionEntry] at h64
  rw [readSection, run_sum_bind h64] at hno
  obtain ⟨hin, hno⟩ := ensure_bind_passes hno
  obtain ⟨-, hno⟩ := uintAt_bind_passes (by omega) hno
  obtain ⟨-, hno⟩ := uintAt_bind_passes (by omega) hno
  obtain ⟨-, hno⟩ := uintAt_bind_passes (by omega) hno
  obtain ⟨-, hno⟩ := uintAt_bind_passes (by omega) hno
  obtain ⟨-, hno⟩ := uintAt_bind_passes (by omega) hno
  obtain ⟨-, hno⟩ := ensure_bind_passes hno
  obtain ⟨hfile, hno⟩ := ensure_bind_passes hno
  obtain ⟨-, hno⟩ := ensure_bind_passes hno
  obtain ⟨hmem, -⟩ := ensure_bind_passes hno
  exact ⟨hin, hfile, hmem⟩

end Sections

theorem readSections_ok (h : LayoutOk bytes) :
    ((List.range (headersOf bytes).sectionCount).foldlM (readSection bytes (headersOf bytes)) []).run
      s = some (.ok (sectionsOf bytes), s) := by
  obtain ⟨sections, s', hrun, rfl, rfl⟩ := run_foldlM_returns
    (l := List.range (headersOf bytes).sectionCount) (g := readSection bytes (headersOf bytes))
    (I := fun done sections u => sections = done.map (sectionAt bytes) ∧ u = s) (d := [])
    (b := []) (s := s) (by
      rintro before i after sections u hl ⟨rfl, rfl⟩
      obtain ⟨-, hi⟩ := range_split hl
      exact ⟨_, _, readSection_ok h.headers hi (h.sections i hi), by simp, rfl⟩) ⟨rfl, rfl⟩
  exact hrun

/-- A section table that is refused is refused with an error. -/
theorem readSections_error (h : HeadersOk bytes)
    (hs : ¬ ∀ i < (headersOf bytes).sectionCount, SectionOk bytes i) :
    ∃ e, ((List.range (headersOf bytes).sectionCount).foldlM
      (readSection bytes (headersOf bytes)) []).run s = some (.error e, s) := by
  have key : ∀ (l : List ℕ) (sections : List Section),
      (∀ i ∈ l, i < (headersOf bytes).sectionCount) → (∃ i ∈ l, ¬ SectionOk bytes i) →
      ∃ e, (l.foldlM (readSection bytes (headersOf bytes)) sections).run s =
        some (.error e, s) := by
    intro l
    induction l with
    | nil => simp
    | cons i l ih =>
      intro sections hl hbad
      rw [List.foldlM_cons]
      by_cases hi : SectionOk bytes i
      · rw [run_bind_of_ok (readSection_ok h (hl i List.mem_cons_self) hi)]
        apply ih _ fun j hj => hl j (List.mem_cons_of_mem _ hj)
        obtain ⟨j, hj, hbad⟩ := hbad
        rcases List.mem_cons.mp hj with rfl | hj
        · exact absurd hi hbad
        · exact ⟨j, hj, hbad⟩
      · obtain ⟨e, he⟩ := readSection_error (s := s) h
          (hl i List.mem_cons_self) sections hi
        exact ⟨e, by rw [run_bind, he]⟩
  refine key _ _ (fun i hi => List.mem_range.mp hi) ?_
  simpa using hs

section Offsets

/-- The end of a section in memory, as the sum that `rva_to_offset` forms. -/
def Section.stop (t : Section) : ℕ := t.virtualAddress + max t.virtualSize (t.rawSize % 2 ^ 32)

def Section.Contains (t : Section) (rva : ℕ) : Prop := t.virtualAddress ≤ rva ∧ rva < t.stop

instance (t : Section) (rva : ℕ) : Decidable (t.Contains rva) :=
  inferInstanceAs (Decidable (_ ∧ _))

def offsetIn (rva : ℕ) : List Section → Option ℕ
  | [] => none
  | t :: rest =>
    if t.Contains rva then
      if t.rawSize ≤ rva - t.virtualAddress then none
      else some (t.rawOffset + (rva - t.virtualAddress))
    else offsetIn rva rest

def fileOffset (bytes : List UInt8) (rva : ℕ) : Option ℕ :=
  if rva < (headersOf bytes).headersSize then some rva else offsetIn rva (sectionsOf bytes)

/-- A section whose end does not fit 32 bits, before the one that contains the RVA. -/
inductive Overlong (rva : ℕ) : List Section → Prop
  | here {t : Section} {rest : List Section} (long : 2 ^ 32 ≤ t.stop) : Overlong rva (t :: rest)
  | later {t : Section} {rest : List Section} (outside : ¬ t.Contains rva)
      (later : Overlong rva rest) : Overlong rva (t :: rest)

/-- The RVA lies behind the headers, and the search for it comes upon such a section. -/
def Untranslatable (bytes : List UInt8) (rva : ℕ) : Prop :=
  (headersOf bytes).headersSize ≤ rva ∧ Overlong rva (sectionsOf bytes)

theorem sectionOffset_none {sections : List Section} (h : Overlong rva sections) :
    (sectionOffset rva sections : Attempt σ MirageError _).run s = none := by
  induction h with
  | here long =>
    rw [sectionOffset, run_sum_bind_none]
    exact not_lt.mpr long
  | @later t rest outside _ ih =>
    rw [sectionOffset]
    by_cases hsum : t.virtualAddress + max t.virtualSize (t.rawSize % 2 ^ 32) < 2 ^ 32
    · rw [run_sum_bind hsum]
      have : ¬ (t.virtualAddress ≤ rva ∧
          rva < t.virtualAddress + max t.virtualSize (t.rawSize % 2 ^ 32)) := outside
      rw [if_neg this, ih]
    · rw [run_sum_bind_none hsum]

theorem sectionOffset_ok {sections : List Section} (h : ¬ Overlong rva sections)
    (hfit : ∀ t ∈ sections, t.rawOffset < 2 ^ 32 ∧ t.rawSize < 2 ^ 32) :
    (sectionOffset rva sections : Attempt σ MirageError _).run s =
      some (.ok (offsetIn rva sections), s) := by
  induction sections with
  | nil => rfl
  | cons t rest ih =>
    have hsum : t.virtualAddress + max t.virtualSize (t.rawSize % 2 ^ 32) < 2 ^ 32 := by
      by_contra hlong
      exact h (.here (not_lt.mp hlong))
    rw [sectionOffset, run_sum_bind hsum, offsetIn]
    by_cases hin : t.Contains rva
    · rw [if_pos hin]
      have hin' : t.virtualAddress ≤ rva ∧
          rva < t.virtualAddress + max t.virtualSize (t.rawSize % 2 ^ 32) := hin
      rw [if_pos hin']
      by_cases hraw : t.rawSize ≤ rva - t.virtualAddress
      · rw [if_pos hraw, if_pos hraw, run_pure]
      · obtain ⟨h1, h2⟩ := hfit t List.mem_cons_self
        rw [if_neg hraw, if_neg hraw, run_sum_bind (by omega), run_pure]
    · have hin' : ¬ (t.virtualAddress ≤ rva ∧
          rva < t.virtualAddress + max t.virtualSize (t.rawSize % 2 ^ 32)) := hin
      rw [if_neg hin, if_neg hin']
      exact ih (fun hl => h (.later hin hl)) fun t ht => hfit t (List.mem_cons_of_mem _ ht)

theorem sections_fit : ∀ t ∈ sectionsOf bytes, t.rawOffset < 2 ^ 32 ∧ t.rawSize < 2 ^ 32 := by
  intro t ht
  obtain ⟨i, -, rfl⟩ := List.mem_map.mp ht
  exact ⟨field_lt _ _ _, field_lt _ _ _⟩

theorem rvaToOffset_none (h : Untranslatable bytes rva) :
    (rvaToOffset (headersOf bytes).headersSize (sectionsOf bytes) rva :
      Attempt σ MirageError _).run s = none := by
  rw [rvaToOffset, if_neg (not_lt.mpr h.1), sectionOffset_none h.2]

theorem rvaToOffset_ok (h : ¬ Untranslatable bytes rva) :
    (rvaToOffset (headersOf bytes).headersSize (sectionsOf bytes) rva :
      Attempt σ MirageError _).run s = some (.ok (fileOffset bytes rva), s) := by
  rw [rvaToOffset, fileOffset]
  by_cases hh : rva < (headersOf bytes).headersSize
  · rw [if_pos hh, if_pos hh, run_pure]
  · rw [if_neg hh, if_neg hh]
    exact sectionOffset_ok (fun hl => h ⟨not_lt.mp hh, hl⟩) sections_fit

theorem fileOffset_lt (h : fileOffset bytes rva = some offset) : offset < 2 ^ 33 := by
  have hin : ∀ sections : List Section,
      (∀ t ∈ sections, t.rawOffset < 2 ^ 32 ∧ t.rawSize < 2 ^ 32) →
      offsetIn rva sections = some offset → offset < 2 ^ 33 := by
    intro sections
    induction sections with
    | nil => simp [offsetIn]
    | cons t rest ih =>
      intro hfit hoff
      obtain ⟨h1, h2⟩ := hfit t List.mem_cons_self
      rw [offsetIn] at hoff
      split at hoff
      case isTrue =>
        split at hoff
        case isTrue => cases hoff
        case isFalse hraw =>
          rw [← Option.some.inj hoff]
          omega
      case isFalse => exact ih (fun t ht => hfit t (List.mem_cons_of_mem _ ht)) hoff
  rw [fileOffset] at h
  split at h
  case isTrue hlt =>
    have : (headersOf bytes).headersSize < 2 ^ 32 := field_lt _ _ _
    rw [← Option.some.inj h]
    omega
  case isFalse => exact hin _ sections_fit h

end Offsets

/-- The bytes of an image with these fields, its section table and its contents after it. -/
def encode (entryRva imageSize headersSize : ℕ) (directories : List (ℕ × ℕ)) (sections : List Section)
    (contents : List UInt8) : List UInt8 :=
  toBytes 2 dosMagic ++ List.replicate 58 0 ++ toBytes 4 64 ++
    toBytes 4 peMagic ++ toBytes 2 machineAmd64 ++ toBytes 2 sections.length ++ List.replicate 12 0 ++
    toBytes 2 (112 + 8 * directories.length) ++ List.replicate 2 0 ++
    toBytes 2 pe32PlusMagic ++ List.replicate 14 0 ++ toBytes 4 entryRva ++ List.replicate 36 0 ++
    toBytes 4 imageSize ++ toBytes 4 headersSize ++ List.replicate 44 0 ++
    toBytes 4 directories.length ++
    directories.flatMap (fun d => toBytes 4 d.1 ++ toBytes 4 d.2) ++
    sections.flatMap (fun t => List.replicate 8 0 ++ toBytes 4 t.virtualSize ++
      toBytes 4 t.virtualAddress ++ toBytes 4 t.rawSize ++ toBytes 4 t.rawOffset ++
      List.replicate 12 0 ++ toBytes 4 ((if t.executable then imageScnMemExecute else 0) |||
        (if t.writable then imageScnMemWrite else 0) |||
        (if t.readable then imageScnMemRead else 0))) ++ contents

end PeParser
