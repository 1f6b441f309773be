import NajmKernel.MountSafety
import NajmKernel.Syscalls

/-! How many spellings a path has: what programs name and what archives hold are both read as
UTF-8 with a U+FFFD in place of what is none, and a path in which one stands has others that read
the same. -/
namespace FileSystem

open Attempts Attempt LittleEndian UserMemory Utf8

section Paths

variable {p q : List UInt8} {cs : List Char}

theorem lossy_eq_iff (h : '\uFFFD' ∉ cs) : lossy p = cs ↔ p = cs.flatMap String.utf8EncodeChar := by
  constructor
  · rintro rfl
    exact (encode_lossy h).symm
  · rintro rfl
    exact lossy_flatMap cs

theorem slash_char : Char.ofNat slash.toNat = '/' := rfl

/-- The components of a path are read each by itself. -/
theorem lossy_splitOn (p : List UInt8) : (lossy p).splitOn '/' = (p.splitOn slash).map lossy := by
  induction hlen : p.length using Nat.strong_induction_on generalizing p with
  | _ n ih =>
    by_cases h : slash ∈ p
    · obtain ⟨l, r, rfl⟩ := List.append_of_mem h
      rw [List.length_append, List.length_cons] at hlen
      rw [lossy_append_ascii (by decide), slash_char, List.splitOn_append_cons_self,
        List.splitOn_append_cons_self, List.map_append, ih l.length (by omega) l rfl,
        ih r.length (by omega) r rfl]
    · rw [List.splitOn_eq_singleton h, List.splitOn_eq_singleton]
      · rfl
      · exact fun hmem => h ((mem_lossy_ascii (a := slash) (by decide)).mp hmem)

/-- The checks of a path but the one of its length, on the text that it is read as. -/
def TextIsValid (cs : List Char) : Prop :=
  cs.head? = some '/' ∧ '\x00' ∉ cs ∧
    (cs = ['/'] ∨ ∀ c ∈ (cs.splitOn '/').tail, c ≠ [] ∧ c ≠ ['.'] ∧ c ≠ ['.', '.'])

theorem lossy_head (p : List UInt8) : (lossy p).head? = some '/' ↔ p.head? = some slash := by
  cases p with
  | nil => simp
  | cons b rest =>
    constructor
    · intro h
      obtain ⟨c, piece, left, hsplit, hne, hlossy, hpiece⟩ := lossy_front b rest
      rw [hlossy, List.head?_cons, Option.some.injEq] at h
      rw [hsplit]
      rcases hpiece with hpiece | hpiece
      · rw [← hpiece, h]
        rfl
      · exact absurd (h.symm.trans hpiece) (by decide)
    · intro h
      rw [List.head?_cons, Option.some.injEq] at h
      rw [h, lossy_ascii (by decide)]
      rfl

theorem pathIsValid_iff : pathIsValid p = true ↔ p.length ≤ maxPath ∧ TextIsValid (lossy p) := by
  have hnul : '\x00' ∈ lossy p ↔ (0 : UInt8) ∈ p := mem_lossy_ascii (a := 0) (by decide)
  have hroot : lossy p = ['/'] ↔ p = [slash] := lossy_eq_iff (by decide)
  have hcomponents : (∀ c ∈ ((lossy p).splitOn '/').tail, c ≠ [] ∧ c ≠ ['.'] ∧ c ≠ ['.', '.']) ↔
      ∀ c ∈ (p.splitOn slash).tail, c ≠ [] ∧ c ≠ [0x2E] ∧ c ≠ [0x2E, 0x2E] := by
    rw [lossy_splitOn, ← List.map_tail, List.forall_mem_map]
    refine forall₂_congr fun c _ => ?_
    exact and_congr (not_congr (lossy_eq_iff (by decide)))
      (and_congr (not_congr (lossy_eq_iff (by decide))) (not_congr (lossy_eq_iff (by decide))))
  rw [TextIsValid, lossy_head, hnul, hroot, hcomponents, pathIsValid]
  by_cases hlen : p = [] ∨ p.length > maxPath
  · rw [if_pos hlen]
    refine ⟨nofun, fun h => ?_⟩
    rcases hlen with rfl | hlen
    · exact nomatch h.2.1
    · exact absurd h.1 (Nat.not_le.mpr hlen)
  have hshort : p.length ≤ maxPath := Nat.not_lt.mp (not_or.mp hlen).2
  rw [if_neg hlen]
  by_cases hhead : p.head? = some slash
  swap
  · rw [if_pos hhead]
    exact ⟨nofun, fun h => absurd h.2.1 hhead⟩
  rw [if_neg (not_not.mpr hhead)]
  by_cases hzero : p.contains 0 = true
  · rw [if_pos hzero]
    exact ⟨nofun, fun h => absurd (List.contains_iff_mem.mp hzero) h.2.2.1⟩
  have hzero' : (0 : UInt8) ∉ p := fun h => hzero (List.contains_iff_mem.mpr h)
  rw [if_neg hzero]
  by_cases hslash : p = [slash]
  · rw [if_pos hslash]
    exact ⟨fun _ => ⟨hshort, hhead, hzero', Or.inl hslash⟩, fun _ => rfl⟩
  · rw [if_neg hslash, List.all_eq_true]
    simp only [Bool.and_eq_true, bne_iff_ne]
    constructor
    · intro h
      exact ⟨hshort, hhead, hzero', Or.inr fun c hc => ⟨(h c hc).1.1, (h c hc).1.2, (h c hc).2⟩⟩
    · intro h c hc
      obtain ⟨hne, hdot, hdots⟩ := h.2.2.2.resolve_left hslash c hc
      exact ⟨⟨hne, hdot⟩, hdots⟩

end Paths

section Spellings

variable {p q : List UInt8} {text : String}

/-- Bytes of a program that `read_user_path` accepts, and the path that it makes of them. -/
def Spells (p : List UInt8) (text : String) : Prop :=
  ∃ space ptr len, copyFromUser space ptr len = some p ∧
    Syscalls.readUserPath space ptr len = .ok text

/-- A program that holds some bytes at its second page. -/
def holding (p : List UInt8) : UserSpace :=
  ⟨fun _ => true, fun _ => true, fun a => p.getD (a - 4096) 0⟩

theorem copyFromUser_holding (hne : p ≠ []) (hshort : p.length ≤ maxPath) :
    copyFromUser (holding p) 4096 p.length = some p := by
  have hmax : maxPath = 120 := rfl
  have hpos := List.length_pos_iff.mpr hne
  have huser : ∀ a < 4096 + 120, AddressSpaces.isUserAddress a = true := by
    intro a ha
    rw [AddressSpaces.isUserAddress, decide_eq_true_iff]
    exact ha.trans (by decide)
  have hrange : rangeIsUser (holding p) 4096 p.length false = true := by
    rw [rangeIsUser, if_neg (by omega)]
    simp only
    rw [if_neg (by omega), huser _ (by omega), huser _ (by omega), Bool.true_and, Bool.true_and,
      List.all_eq_true]
    exact fun _ _ => rfl
  have hread : (holding p).read 4096 p.length = p := by
    apply List.ext_getElem
    · rw [UserSpace.read, List.length_map, List.length_range]
    · intro i _ hi
      simp only [UserSpace.read, holding, List.getElem_map, List.getElem_range,
        Nat.add_sub_cancel_left, List.getD_eq_getElem?_getD, List.getElem?_eq_getElem hi,
        Option.getD_some]
  rw [copyFromUser, if_neg (by rw [maxUserTransfer]; omega), if_pos hrange, hread]

theorem copyFromUser_length {space : UserSpace} {ptr len : ℕ}
    (h : copyFromUser space ptr len = some p) : p.length = len := by
  unfold copyFromUser at h
  split at h
  · nomatch h
  split at h
  · rw [← Option.some.inj h, UserSpace.read, List.length_map, List.length_range]
  · nomatch h

theorem spells_iff : Spells p text ↔ pathIsValid p = true ∧ PeParser.fromUtf8Lossy p = text := by
  constructor
  · rintro ⟨space, ptr, len, hcopy, hpath⟩
    unfold Syscalls.readUserPath at hpath
    split at hpath
    · nomatch hpath
    rw [hcopy] at hpath
    simp only at hpath
    split at hpath
    next hvalid => exact ⟨hvalid, Except.ok.inj hpath⟩
    · nomatch hpath
  · rintro ⟨hvalid, rfl⟩
    have hshort := (pathIsValid_iff.mp hvalid).1
    have hne : p ≠ [] := by
      rintro rfl
      nomatch hvalid
    have hpos := List.length_pos_iff.mpr hne
    have hcopy := copyFromUser_holding hne hshort
    refine ⟨holding p, 4096, p.length, hcopy, ?_⟩
    rw [Syscalls.readUserPath, if_neg (by omega), hcopy]
    simp only
    rw [if_pos hvalid]

theorem fromUtf8Lossy_eq_iff :
    PeParser.fromUtf8Lossy p = PeParser.fromUtf8Lossy q ↔ lossy p = lossy q := String.ofList_inj

/-- What is read without a U+FFFD is read so from nothing else. -/
theorem eq_of_lossy_eq (h : lossy p = lossy q) (hclear : '\uFFFD' ∉ lossy q) : p = q :=
  ((lossy_eq_iff hclear).mp h).trans ((lossy_eq_iff hclear).mp rfl).symm

theorem other_spelling (hvalid : pathIsValid p = true) (h : '\uFFFD' ∈ lossy p) :
    ∃ q, q ≠ p ∧ Spells q (PeParser.fromUtf8Lossy p) := by
  obtain ⟨q, hother, hsame, hshort⟩ := respell h
  obtain ⟨hlen, htext⟩ := pathIsValid_iff.mp hvalid
  refine ⟨q, hother, spells_iff.mpr ⟨?_, fromUtf8Lossy_eq_iff.mpr hsame⟩⟩
  exact pathIsValid_iff.mpr ⟨hshort.trans hlen, hsame.symm ▸ htext⟩

end Spellings

section Archives

variable {bytes : List UInt8} {s s' : Option Mounted} {fs : Mounted} {n i : ℕ} {text : String}

/-- A found path has one spelling, which is the root's or an entry's, and only equal paths are
refused as duplicates. -/
structure OneSpelling (bytes : List UInt8) : Prop where
  named : ∀ {s n fs p text}, (mount bytes).run s = some (.ok n, some fs) → Spells p text →
    lookup (some fs) text ≠ none →
    p = [slash] ∨ ∃ i < entryCount bytes, (entryAt bytes i).path = p
  single : ∀ {s n fs p q text}, (mount bytes).run s = some (.ok n, some fs) → Spells p text →
    Spells q text → lookup (some fs) text ≠ none → p = q
  refused : ∀ {s s' i}, (mount bytes).run s = some (.error (.duplicatePath i), s') →
    ∃ j k, j < k ∧ k < entryCount bytes ∧ (entryAt bytes j).path = (entryAt bytes k).path

/-- Two entries have the same raw path. -/
def Repeats (bytes : List UInt8) : Prop :=
  ∃ j k, j < k ∧ k < entryCount bytes ∧ (entryAt bytes j).path = (entryAt bytes k).path

/-- No entry's path is read with a U+FFFD. -/
def Clear (bytes : List UInt8) : Prop :=
  ∀ i < entryCount bytes, '\uFFFD' ∉ lossy (entryAt bytes i).path

/-- The archives that are mounted, or refused for a path that they hold twice. -/
def Decided (bytes : List UInt8) : Prop :=
  ∃ s s', (∃ n, (mount bytes).run s = some (.ok n, s')) ∨
    ∃ i, (mount bytes).run s = some (.error (.duplicatePath i), s')

theorem lookup_ne_none (h : lookup (some fs) text ≠ none) : text ∈ fs.nodes.map Prod.fst := by
  obtain ⟨node, hnode⟩ := Option.ne_none_iff_exists'.mp h
  obtain ⟨found, hfound, -⟩ := Option.bind_eq_some_iff.mp hnode
  have hname := List.find?_some hfound
  exact List.mem_map.mpr ⟨found, List.mem_of_find?_eq_some hfound, beq_iff_eq.mp hname⟩

theorem lookup_of_mem (h : text ∈ fs.nodes.map Prod.fst) : lookup (some fs) text ≠ none := by
  obtain ⟨node, hnode, hname⟩ := List.mem_map.mp h
  have hfound : (fs.nodes.find? fun n => n.1 == text).isSome = true :=
    List.find?_isSome.mpr ⟨node, hnode, beq_iff_eq.mpr hname⟩
  obtain ⟨found, hfound⟩ := Option.isSome_iff_exists.mp hfound
  rw [lookup]
  change Option.bind (some fs) _ ≠ none
  rw [Option.bind_some, hfound]
  exact nofun

/-- The paths of a mounted archive are those of its entries, all different, and the root. -/
theorem mounted_path (h : (mount bytes).run s = some (.ok n, some fs))
    (hfound : lookup (some fs) text ≠ none) :
    text = "/" ∨ ∃ i < entryCount bytes, (entryAt bytes i).name = text := by
  obtain ⟨fs', hsome, hwell⟩ := mount_well h
  obtain rfl := Option.some.inj hsome
  obtain ⟨node, hnode, rfl⟩ := List.mem_map.mp (lookup_ne_none hfound)
  rcases hwell.nodes node hnode with rfl | ⟨i, hi, rfl⟩
  · exact Or.inl rfl
  · exact Or.inr ⟨i, hi, rfl⟩

theorem mounted_entry (h : (mount bytes).run s = some (.ok n, some fs)) (hi : i < entryCount bytes) :
    pathIsValid (entryAt bytes i).path = true ∧ lookup (some fs) (entryAt bytes i).name ≠ none := by
  obtain ⟨-, hsound, -, -, hfs⟩ := mount_ok.mp h
  obtain rfl := Option.some.inj hfs
  have hentry : entryAt bytes i ∈ entries bytes (entryCount bytes) :=
    List.mem_map.mpr ⟨i, List.mem_range.mpr hi, rfl⟩
  have hnode := mem_withRoot_of_mem (mem_insertEntries.mpr ⟨_, hentry, rfl⟩)
  exact ⟨(hsound _ hentry).valid, lookup_of_mem (List.mem_map.mpr ⟨_, hnode, rfl⟩)⟩

theorem not_repeats (h : (mount bytes).run s = some (.ok n, some fs)) : ¬ Repeats bytes := by
  obtain ⟨-, -, hnodup, -⟩ := mount_ok.mp h
  rintro ⟨j, k, hjk, hk, hpath⟩
  rw [entries, List.map_map] at hnodup
  have hname : (entryAt bytes j).name = (entryAt bytes k).name := by
    rw [Entry.name, Entry.name, hpath]
  exact Nat.ne_of_lt hjk ((List.inj_on_of_nodup_map hnodup) (List.mem_range.mpr (hjk.trans hk))
    (List.mem_range.mpr hk) hname)

/-- Exactly the archives whose paths are read without a U+FFFD give each path one spelling. -/
theorem one_spelling_iff (bytes : List UInt8) :
    OneSpelling bytes ↔ (Decided bytes → Clear bytes ∨ Repeats bytes) := by
  constructor
  · rintro hone ⟨s, s', ⟨n, hmount⟩ | ⟨i, hmount⟩⟩
    · obtain ⟨fs, rfl, -⟩ := mount_well hmount
      refine Or.inl fun i hi hmem => ?_
      obtain ⟨hvalid, hfound⟩ := mounted_entry hmount hi
      obtain ⟨q, hother, hq⟩ := other_spelling hvalid hmem
      exact hother (hone.single hmount hq (spells_iff.mpr ⟨hvalid, rfl⟩) hfound)
    · exact Or.inr (hone.refused hmount)
  · intro hclear
    have hpaths : ∀ {s n fs p text}, (mount bytes).run s = some (.ok n, some fs) →
        Spells p text → lookup (some fs) text ≠ none → '\uFFFD' ∉ lossy p ∧
          (p = [slash] ∨ ∃ i < entryCount bytes, (entryAt bytes i).path = p) := by
      intro s n fs p text hmount hspells hfound
      have hclear : Clear bytes :=
        (hclear ⟨s, some fs, Or.inl ⟨n, hmount⟩⟩).resolve_right (not_repeats hmount)
      obtain ⟨-, rfl⟩ := spells_iff.mp hspells
      rcases mounted_path hmount hfound with hroot | ⟨i, hi, hname⟩
      · have hlossy : lossy p = ['/'] := String.ofList_inj.mp hroot
        exact ⟨by rw [hlossy]; decide, Or.inl ((lossy_eq_iff (by decide)).mp hlossy)⟩
      · have hlossy := fromUtf8Lossy_eq_iff.mp hname
        exact ⟨hlossy ▸ hclear i hi, Or.inr ⟨i, hi, (eq_of_lossy_eq hlossy.symm (hclear i hi)).symm⟩⟩
    refine ⟨fun hmount hp hfound => (hpaths hmount hp hfound).2, ?_, ?_⟩
    · intro s n fs p q text hmount hp hq hfound
      obtain ⟨-, hptext⟩ := spells_iff.mp hp
      obtain ⟨-, hqtext⟩ := spells_iff.mp hq
      have hlossy := fromUtf8Lossy_eq_iff.mp (hptext.trans hqtext.symm)
      exact eq_of_lossy_eq hlossy (hpaths hmount hq hfound).1
    · intro s s' i hmount
      rcases hclear ⟨s, s', Or.inr ⟨i, hmount⟩⟩ with hclear | hrepeats
      · obtain ⟨hi, j, hj, hname⟩ := mount_duplicate hmount
        exact ⟨j, i, hj, hi, eq_of_lossy_eq (fromUtf8Lossy_eq_iff.mp hname) (hclear i hi)⟩
      · exact hrepeats

/-- An archive of one directory, whose name is a byte that no UTF-8 has. -/
def strayArchive : List UInt8 :=
  archiveMagic ++ toBytes 4 archiveVersion ++ toBytes 4 1 ++ toBytes 8 168 ++
    (toBytes 8 0 ++ toBytes 8 0 ++ toBytes 4 flagDirectory ++ toBytes 4 2 ++ [slash, 0xFE] ++
      List.replicate 118 0)

/-- Another such byte names the same directory. -/
theorem stray_byte_respelled : ¬ OneSpelling strayArchive := by
  intro hone
  have hlen : strayArchive.length = 168 := rfl
  have hcount : entryCount strayArchive = 1 := by decide
  have hpath : (entryAt strayArchive 0).path = [slash, 0xFE] := by decide
  have hmount : ∃ n fs, (mount strayArchive).run none = some (.ok n, some fs) := by
    have hheaded : Headed strayArchive := by
      refine ⟨?_, by decide, by decide, ?_⟩
      · rw [hlen]
        decide
      · rw [hlen, hcount]
        decide
    refine ⟨_, _, mount_ok.mpr ⟨hheaded, ?_, ?_, rfl, rfl⟩⟩
    · rw [hcount]
      intro e he
      obtain rfl : e = entryAt strayArchive 0 := List.mem_singleton.mp he
      exact ⟨by decide, by decide, by decide⟩
    · rw [hcount]
      exact List.nodup_singleton _
  obtain ⟨n, fs, hmount⟩ := hmount
  obtain ⟨hvalid, hfound⟩ := mounted_entry (i := 0) hmount (by rw [hcount]; exact Nat.zero_lt_one)
  have hother : Spells [slash, 0xFF] (entryAt strayArchive 0).name := by
    refine spells_iff.mpr ⟨by decide, ?_⟩
    rw [Entry.name, hpath]
    decide
  have hsame := hone.single hmount hother (spells_iff.mpr ⟨hvalid, rfl⟩) hfound
  rw [hpath] at hsame
  exact absurd hsame (by decide)

end Archives

end FileSystem
