import Mathlib.Logic.Relation
import NajmKernel.PathSpellings

/-! The tree that paths form: the parent of each, its ancestors, and the children that a directory
lists. -/
namespace Utf8

open PeParser

/-- The bytes that a text is decoded from are the text's. -/
theorem encode_strictChars {turns : ℕ} {bytes : List UInt8} {cs : List Char}
    (hturns : bytes.length ≤ turns) (h : strictChars turns bytes = some cs) :
    cs.flatMap String.utf8EncodeChar = bytes := by
  induction turns using Nat.strong_induction_on generalizing bytes cs with
  | _ turns ih =>
    cases turns with
    | zero =>
      rw [List.eq_nil_of_length_eq_zero (Nat.le_zero.mp hturns), ← Option.some.inj h]
      rfl
    | succ turns =>
      cases bytes with
      | nil =>
        rw [← Option.some.inj h]
        rfl
      | cons b rest =>
        rw [List.length_cons] at hturns
        rw [strictChars] at h
        by_cases hb : b < 0x80
        · rw [if_pos hb, Option.map_eq_map, Option.map_eq_some_iff] at h
          obtain ⟨cs, hcs, rfl⟩ := h
          have hsmall : b.toNat < 0x80 := UInt8.lt_iff_toNat_lt.mp hb
          rw [List.flatMap_cons, ih turns (Nat.lt_succ_self _) (by omega) hcs,
            encode_of (Or.inl (by omega)), if_pos (by omega), UInt8.ofNat_toNat,
            List.singleton_append]
        · rw [if_neg hb] at h
          cases hs : sequence b with
          | none =>
            rw [hs] at h
            nomatch h
          | some found =>
            obtain ⟨len, lo, hi⟩ := found
            rw [hs] at h
            dsimp only at h
            obtain ⟨hcount, h⟩ := Option.ite_none_right_eq_some.mp h
            rw [Option.map_eq_map, Option.map_eq_some_iff] at h
            obtain ⟨cs, hcs, rfl⟩ := h
            have hshort : (rest.drop (following b rest)).length ≤ turns := by
              rw [List.length_drop]
              omega
            rw [List.flatMap_cons, ih turns (Nat.lt_succ_self _) hshort hcs,
              (encode_scalar (completes_of_following hs hcount)).2, List.cons_append,
              List.take_append_drop]

theorem encode_fromUtf8 {bytes : List UInt8} {cs : List Char} (h : fromUtf8 bytes = some cs) :
    cs.flatMap String.utf8EncodeChar = bytes := encode_strictChars (Nat.le_refl _) h

end Utf8

namespace FileSystem

open Utf8

section Texts

variable {s t : String} {cs ds : List Char}

theorem utf8_eq (s : String) : utf8 s = s.toList.flatMap String.utf8EncodeChar := by
  rw [utf8, String.toUTF8, ← String.utf8Encode_toList, List.utf8Encode]
  simp

theorem utf8_ofList (cs : List Char) :
    utf8 (String.ofList cs) = cs.flatMap String.utf8EncodeChar := by
  rw [utf8_eq, String.toList_ofList]

theorem lossy_utf8 (s : String) : lossy (utf8 s) = s.toList := by rw [utf8_eq, lossy_flatMap]

theorem fromUtf8Lossy_utf8 (s : String) : PeParser.fromUtf8Lossy (utf8 s) = s := by
  have h : PeParser.fromUtf8Lossy (utf8 s) = String.ofList (lossy (utf8 s)) := rfl
  rw [h, lossy_utf8, String.ofList_toList]

theorem utf8_inj (h : utf8 s = utf8 t) : s = t := by
  rw [← fromUtf8Lossy_utf8 s, h, fromUtf8Lossy_utf8]

theorem encode_slash : String.utf8EncodeChar '/' = [slash] := rfl

theorem slash_mem_encode : slash ∈ cs.flatMap String.utf8EncodeChar ↔ '/' ∈ cs := by
  rw [← mem_lossy_ascii (a := slash) (by decide), lossy_flatMap]
  rfl

theorem encode_eq_nil : cs.flatMap String.utf8EncodeChar = [] ↔ cs = [] := by
  constructor
  · intro h
    rw [← lossy_flatMap cs, h, lossy_nil]
  · rintro rfl
    rfl

/-- The last slash of a text. -/
theorem exists_last_slash (h : '/' ∈ cs) : ∃ l r, cs = l ++ '/' :: r ∧ '/' ∉ r := by
  obtain ⟨r, l, hcs, hr⟩ := List.eq_append_cons_of_mem (List.mem_reverse.mpr h)
  refine ⟨l.reverse, r.reverse, ?_, by simpa using hr⟩
  rw [← List.reverse_reverse cs, hcs]
  simp

end Texts

section Parents

variable {p q a b : List UInt8} {l r : List Char} {c d : String}

theorem basename_append (hb : slash ∉ b) : basename (a ++ slash :: b) = b := by
  have hall : ∀ x ∈ b.reverse, (x != slash) = true := by
    intro x hx
    rw [bne_iff_ne]
    rintro rfl
    exact hb (List.mem_reverse.mp hx)
  rw [basename, List.reverse_append, List.reverse_cons, List.append_assoc, List.singleton_append,
    List.takeWhile_append_of_pos hall, List.takeWhile_cons_of_neg (by simp), List.append_nil,
    List.reverse_reverse]

theorem parentOf_append (hb : slash ∉ b) (hne : a ≠ [] ∨ b ≠ []) :
    parentOf (a ++ slash :: b) = some (if a = [] then [slash] else a) := by
  have hroot : ¬ (a ++ slash :: b = [slash] ∨ a ++ slash :: b = []) := by
    rintro (h | h)
    · cases a with
      | nil => simp at h hne; exact hne h
      | cons x a => simp at h
    · simp at h
  have hcut : (a ++ slash :: b).length - b.length - 1 = a.length := by
    rw [List.length_append, List.length_cons]
    omega
  rw [parentOf, if_neg hroot, if_pos (by simp), basename_append hb]
  simp only [hcut, List.length_eq_zero_iff, List.take_left']

/-- The parent of a text is the text before its last slash, or the root. -/
theorem parentOf_encode (hr : '/' ∉ r) (hne : l ≠ [] ∨ r ≠ []) :
    parentOf ((l ++ '/' :: r).flatMap String.utf8EncodeChar) =
      some ((if l = [] then ['/'] else l).flatMap String.utf8EncodeChar) := by
  rw [List.flatMap_append, List.flatMap_cons, encode_slash, List.singleton_append,
    parentOf_append (fun h => hr (slash_mem_encode.mp h))
      (hne.imp (fun h he => h (encode_eq_nil.mp he)) fun h he => h (encode_eq_nil.mp he))]
  by_cases hl : l = []
  · simp [hl, encode_slash]
  · rw [if_neg hl, if_neg fun h => hl (encode_eq_nil.mp h)]

def IsParent (d c : String) : Prop := parentOf (utf8 c) = some (utf8 d)

/-- The directories above a path. -/
def IsAncestor : String → String → Prop := Relation.TransGen IsParent

theorem slash_of_parentOf (h : parentOf p = some q) : slash ∈ p ∧ p ≠ [slash] := by
  rw [parentOf] at h
  split at h
  · nomatch h
  next hroot =>
    split at h
    next hslash =>
      exact ⟨by simpa using hslash, fun he => hroot (Or.inl he)⟩
    · nomatch h

theorem exists_split (h : parentOf (utf8 c) = some q) : ∃ l r, c.toList = l ++ '/' :: r ∧
    '/' ∉ r ∧ (l ≠ [] ∨ r ≠ []) ∧
      q = (if l = [] then ['/'] else l).flatMap String.utf8EncodeChar := by
  obtain ⟨hslash, hroot⟩ := slash_of_parentOf h
  rw [utf8_eq, slash_mem_encode] at hslash
  obtain ⟨l, r, hsplit, hr⟩ := exists_last_slash hslash
  have hne : l ≠ [] ∨ r ≠ [] := by
    by_contra hno
    simp only [not_or, not_not] at hno
    rw [hno.1, hno.2] at hsplit
    rw [utf8_eq, hsplit] at hroot
    exact hroot rfl
  rw [utf8_eq, hsplit, parentOf_encode hr hne] at h
  exact ⟨l, r, hsplit, hr, hne, (Option.some.inj h).symm⟩

/-- What a path's parent is, by its text. -/
theorem isParent_iff : IsParent d c ↔ ∃ l r, c.toList = l ++ '/' :: r ∧ '/' ∉ r ∧
    (l ≠ [] ∨ r ≠ []) ∧ d.toList = if l = [] then ['/'] else l := by
  constructor
  · intro h
    obtain ⟨l, r, hsplit, hr, hne, hd⟩ := exists_split h
    refine ⟨l, r, hsplit, hr, hne, ?_⟩
    rw [← lossy_utf8 d, hd, lossy_flatMap]
  · rintro ⟨l, r, hsplit, hr, hne, hd⟩
    rw [IsParent, utf8_eq, utf8_eq, hsplit, hd, parentOf_encode hr hne]

/-- The parent of a text's bytes is a text's bytes. -/
theorem exists_parent (h : parentOf (utf8 c) = some q) : ∃ d, q = utf8 d := by
  obtain ⟨l, r, -, -, -, rfl⟩ := exists_split h
  exact ⟨_, (utf8_ofList _).symm⟩

theorem isParent_unique {e : String} (h : IsParent d c) (h' : IsParent e c) : d = e :=
  utf8_inj (Option.some.inj (h.symm.trans h'))

theorem isParent_shorter (h : IsParent d c) : (utf8 d).length < (utf8 c).length := by
  obtain ⟨l, r, hsplit, -, hne, hd⟩ := isParent_iff.mp h
  rw [utf8_eq c, hsplit, utf8_eq d, hd, List.flatMap_append, List.flatMap_cons, encode_slash,
    List.length_append, List.length_append, List.length_singleton]
  by_cases hl : l = []
  · have hr : 0 < (r.flatMap String.utf8EncodeChar).length := by
      rw [List.length_pos_iff, Ne, encode_eq_nil]
      exact hne.resolve_left (not_not.mpr hl)
    rw [if_pos hl, List.flatMap_cons, encode_slash, List.flatMap_nil, List.append_nil,
      List.length_singleton]
    omega
  · rw [if_neg hl]
    omega

theorem not_isParent_root : ¬ IsParent d "/" := fun h => (slash_of_parentOf h).2 rfl

end Parents

section Validity

variable {l r : List Char} {c d : String}

/-- A path that is accepted. -/
def ValidPath (c : String) : Prop := pathIsValid (utf8 c) = true

theorem validPath_iff : ValidPath c ↔ (utf8 c).length ≤ maxPath ∧ TextIsValid c.toList := by
  rw [ValidPath, pathIsValid_iff, lossy_utf8]

theorem validPath_root : ValidPath "/" := rfl

/-- In a valid path nothing ends in a slash, and none follows the first. -/
theorem split_of_valid (hc : TextIsValid c.toList) (hroot : c ≠ "/")
    (hsplit : c.toList = l ++ '/' :: r) (hr : '/' ∉ r) :
    r ≠ [] ∧ (l = [] ∨ TextIsValid l ∧ l ≠ ['/']) := by
  obtain ⟨hhead, hnul, hcomponents⟩ := hc
  have hcs : c.toList ≠ ['/'] := fun h => hroot (String.toList_inj.mp h)
  have hall := hcomponents.resolve_left hcs
  have hcut : c.toList.splitOn '/' = l.splitOn '/' ++ [r] := by
    rw [hsplit, List.splitOn_append_cons_self, List.splitOn_eq_singleton hr]
  have hnonempty : l.splitOn '/' ≠ [] := List.splitOn_ne_nil _ _
  have htail : (c.toList.splitOn '/').tail = (l.splitOn '/').tail ++ [r] := by
    rw [hcut, List.tail_append_of_ne_nil hnonempty]
  rw [htail] at hall
  refine ⟨(hall r (by simp)).1, ?_⟩
  by_cases hl : l = []
  · exact Or.inl hl
  have hslash : l ≠ ['/'] := by
    rintro rfl
    exact (hall [] (List.mem_append_left _ (by decide))).1 rfl
  refine Or.inr ⟨⟨?_, ?_, Or.inr fun x hx => hall x (List.mem_append_left _ hx)⟩, hslash⟩
  · rw [hsplit] at hhead
    cases l with
    | nil => exact absurd rfl hl
    | cons x l => exact hhead
  · intro hmem
    rw [hsplit] at hnul
    exact hnul (List.mem_append_left _ hmem)

/-- The parent of a valid path is valid. -/
theorem validPath_parent (hc : ValidPath c) (h : IsParent d c) : ValidPath d := by
  have hroot : c ≠ "/" := by
    rintro rfl
    exact not_isParent_root h
  obtain ⟨l, r, hsplit, hr, -, hd⟩ := isParent_iff.mp h
  obtain ⟨-, hl | ⟨hvalid, -⟩⟩ := split_of_valid (validPath_iff.mp hc).2 hroot hsplit hr
  · rw [if_pos hl] at hd
    have : d = "/" := String.toList_inj.mp hd
    rw [this]
    exact validPath_root
  · have hne : l ≠ [] := by
      rintro rfl
      exact absurd hvalid.1 (by simp)
    rw [if_neg hne] at hd
    refine validPath_iff.mpr ⟨?_, hd ▸ hvalid⟩
    have hsize := (validPath_iff.mp hc).1
    rw [utf8_eq, hsplit, List.flatMap_append, List.length_append] at hsize
    rw [utf8_eq, hd]
    omega

/-- Every valid path but the root has a parent. -/
theorem exists_isParent (hc : ValidPath c) (hroot : c ≠ "/") : ∃ d, IsParent d c := by
  have htext := (validPath_iff.mp hc).2
  have hslash : '/' ∈ c.toList := List.mem_of_mem_head? htext.1
  obtain ⟨l, r, hsplit, hr⟩ := exists_last_slash hslash
  have hne := (split_of_valid htext hroot hsplit hr).1
  exact ⟨String.ofList (if l = [] then ['/'] else l),
    isParent_iff.mpr ⟨l, r, hsplit, hr, Or.inr hne, String.toList_ofList⟩⟩

end Validity

section Children

variable {c d lead : String} {rest : List Char}

theorem stripPrefix_eq : stripPrefix lead c = some rest ↔ c.toList = lead.toList ++ rest := by
  rw [stripPrefix, ← String.length_toList]
  constructor
  · intro h
    obtain ⟨hlead, hrest⟩ := Option.ite_none_right_eq_some.mp h
    obtain ⟨tail, htail⟩ := List.isPrefixOf_iff_prefix.mp hlead
    rw [← htail, List.drop_left' rfl, Option.some.injEq] at hrest
    rw [← htail, hrest]
  · intro h
    rw [if_pos (List.isPrefixOf_iff_prefix.mpr ⟨rest, h.symm⟩), h, List.drop_left' rfl]

/-- What `read_dir` asks of a path to list it. -/
def listed (d c : String) : Bool := c != d &&
  match stripPrefix (if d = "/" then "/" else d.push '/') c with
  | none => false
  | some rest => rest != [] && !rest.contains '/'

theorem listed_iff_split : listed d c = true ↔ c ≠ d ∧ ∃ rest,
    c.toList = (if d = "/" then [] else d.toList) ++ '/' :: rest ∧ rest ≠ [] ∧ '/' ∉ rest := by
  have hlead (rest : List Char) :
      c.toList = (if d = "/" then [] else d.toList) ++ '/' :: rest ↔
        stripPrefix (if d = "/" then "/" else d.push '/') c = some rest := by
    rw [stripPrefix_eq]
    by_cases hd : d = "/"
    · rw [if_pos hd, if_pos hd]
      exact Iff.rfl
    · rw [if_neg hd, if_neg hd, String.toList_push, List.append_assoc, List.singleton_append]
  simp only [hlead]
  rw [listed, Bool.and_eq_true, bne_iff_ne]
  refine and_congr_right fun _ => ?_
  cases stripPrefix (if d = "/" then "/" else d.push '/') c with
  | none => simp
  | some rest =>
    simp only [Bool.and_eq_true, bne_iff_ne, Bool.not_eq_true', List.contains_eq_mem,
      decide_eq_false_iff_not, Option.some.injEq, exists_eq_left']

/-- A directory lists the paths whose parent it is. -/
theorem listed_iff (hdir : TextIsValid d.toList) (hc : TextIsValid c.toList) :
    listed d c = true ↔ IsParent d c := by
  rw [listed_iff_split]
  constructor
  · rintro ⟨-, rest, hsplit, hne, hrest⟩
    refine isParent_iff.mpr ⟨_, rest, hsplit, hrest, Or.inr hne, ?_⟩
    by_cases hd : d = "/"
    · rw [hd]
      rfl
    · rw [if_neg hd]
      split
      next hempty =>
        have hhead := hdir.1
        rw [hempty] at hhead
        nomatch hhead
      · rfl
  · intro h
    have hroot : c ≠ "/" := by
      rintro rfl
      exact not_isParent_root h
    refine ⟨fun heq => absurd (isParent_shorter h) (by rw [heq]; exact Nat.lt_irrefl _), ?_⟩
    obtain ⟨l, r, hsplit, hr, -, hd⟩ := isParent_iff.mp h
    obtain ⟨hne, hl⟩ := split_of_valid hc hroot hsplit hr
    refine ⟨r, ?_, hne, hr⟩
    by_cases hempty : l = []
    · rw [if_pos hempty] at hd
      rw [if_pos (String.toList_inj.mp hd : d = "/"), hsplit, hempty]
    · rw [if_neg hempty] at hd
      have hslash : d ≠ "/" := by
        rintro rfl
        exact (hl.resolve_left hempty).2 hd.symm
      rw [if_neg hslash, hsplit, hd]

end Children

end FileSystem
