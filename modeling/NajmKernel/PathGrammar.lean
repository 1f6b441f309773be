import NajmKernel.PathTrees

/-! The grammar of paths: the recogniser accepts the sequences of components, and the parent and
the base name of a path are its components but the last, and the last. -/
namespace FileSystem

section Components

variable {α : Type} {sep : α} {l c : List α} {cs : List (List α)}

theorem not_mem_of_mem_splitOn [DecidableEq α] (h : c ∈ l.splitOn sep) : sep ∉ c := by
  induction hn : l.length using Nat.strong_induction_on generalizing l with
  | _ n ih =>
    by_cases hsep : sep ∈ l
    · obtain ⟨a, b, rfl⟩ := List.append_of_mem hsep
      rw [List.length_append, List.length_cons] at hn
      rw [List.splitOn_append_cons_self, List.mem_append] at h
      rcases h with h | h
      · exact ih a.length (by omega) h rfl
      · exact ih b.length (by omega) h rfl
    · rw [List.splitOn_eq_singleton hsep, List.mem_singleton] at h
      exact h ▸ hsep

/-- The components behind a separator each. -/
def joined (sep : α) (cs : List (List α)) : List α := cs.flatMap fun c => sep :: c

theorem joined_concat (cs : List (List α)) (c : List α) :
    joined sep (cs ++ [c]) = joined sep cs ++ sep :: c := by
  rw [joined, List.flatMap_append, List.flatMap_singleton]
  rfl

theorem joined_eq_cons (h : cs ≠ []) : joined sep cs = sep :: [sep].intercalate cs := by
  induction cs with
  | nil => exact absurd rfl h
  | cons c cs ih =>
    cases cs with
    | nil => simp [joined, List.intercalate]
    | cons d cs =>
      have hrest := ih (List.cons_ne_nil d cs)
      have hcut : joined sep (c :: d :: cs) = sep :: (c ++ joined sep (d :: cs)) := rfl
      rw [hcut, hrest]
      simp [List.intercalate]

/-- Cutting at the separators finds the components again. -/
theorem splitOn_joined [DecidableEq α] (hne : cs ≠ []) (h : ∀ c ∈ cs, sep ∉ c) :
    (joined sep cs).splitOn sep = [] :: cs := by
  rw [joined_eq_cons hne, ← List.nil_append (sep :: _), List.splitOn_append_cons_self,
    List.splitOn_intercalate sep h hne]
  rfl

theorem joined_splitOn [DecidableEq α] (h : l.head? = some sep) :
    joined sep (l.splitOn sep).tail = l ∧ (l.splitOn sep).tail ≠ [] := by
  obtain ⟨r, rfl⟩ := List.head?_eq_some_iff.mp h
  have hcut : (sep :: r).splitOn sep = [] :: r.splitOn sep := by
    rw [← List.nil_append (sep :: r), List.splitOn_append_cons_self]
    rfl
  have hne : r.splitOn sep ≠ [] := List.splitOn_ne_nil _ _
  rw [hcut, List.tail_cons, joined_eq_cons hne, List.intercalate_splitOn]
  exact ⟨rfl, hne⟩

end Components

section Grammar

variable {p q c : List UInt8} {cs : List (List UInt8)}

/-- A component of a path: neither empty nor one of the two dotted ones. -/
structure IsComponent (c : List UInt8) : Prop where
  nonempty : c ≠ []
  notDot : c ≠ [0x2E]
  notDots : c ≠ [0x2E, 0x2E]
  noSlash : slash ∉ c

/-- The paths: the root, or components behind a slash each. -/
structure IsPath (p : List UInt8) : Prop where
  nonempty : 1 ≤ p.length
  short : p.length ≤ 120
  noNul : 0 ∉ p
  shape : p = [slash] ∨ ∃ cs, cs ≠ [] ∧ (∀ c ∈ cs, IsComponent c) ∧ p = joined slash cs

theorem components_of_split (h : ((p.splitOn slash).tail.all fun c =>
    c != [] && c != [0x2E] && c != [0x2E, 0x2E]) = true) :
    ∀ c ∈ (p.splitOn slash).tail, IsComponent c := by
  intro c hc
  have hall := List.all_eq_true.mp h c hc
  simp only [Bool.and_eq_true, bne_iff_ne] at hall
  exact ⟨hall.1.1, hall.1.2, hall.2, not_mem_of_mem_splitOn (List.mem_of_mem_tail hc)⟩

theorem all_of_components (h : ∀ c ∈ cs, IsComponent c) :
    (cs.all fun c => c != [] && c != [0x2E] && c != [0x2E, 0x2E]) = true := by
  rw [List.all_eq_true]
  intro c hc
  have hcomponent := h c hc
  simp only [Bool.and_eq_true, bne_iff_ne]
  exact ⟨⟨hcomponent.nonempty, hcomponent.notDot⟩, hcomponent.notDots⟩

theorem pathIsValid_iff_isPath : pathIsValid p = true ↔ IsPath p := by
  unfold pathIsValid
  constructor
  · intro h
    split at h
    · nomatch h
    next hsize =>
    split at h
    · nomatch h
    next hhead =>
    split at h
    · nomatch h
    next hnul =>
    rw [not_or] at hsize
    have hpos := List.length_pos_iff.mpr hsize.1
    have hnul : 0 ∉ p := by simpa using hnul
    refine ⟨hpos, not_lt.mp hsize.2, hnul, ?_⟩
    split at h
    next hroot => exact Or.inl hroot
    · obtain ⟨hjoin, hne⟩ := joined_splitOn (not_not.mp hhead)
      exact Or.inr ⟨_, hne, components_of_split h, hjoin.symm⟩
  · rintro ⟨hpos, hshort, hnul, hshape⟩
    have hsize : ¬ (p = [] ∨ p.length > maxPath) :=
      not_or.mpr ⟨List.length_pos_iff.mp hpos, not_lt.mpr hshort⟩
    have hclear : ¬ p.contains 0 = true := by simpa using hnul
    rw [if_neg hsize]
    rcases hshape with rfl | ⟨cs, hne, hall, rfl⟩
    · rfl
    · have hhead : (joined slash cs).head? = some slash := by
        rw [joined_eq_cons hne]
        rfl
      rw [if_neg (not_not.mpr hhead), if_neg hclear]
      split
      · rfl
      · rw [splitOn_joined hne fun c hc => (hall c hc).noSlash]
        exact all_of_components hall

/-- A path's parent and its base name. -/
structure Cut (p q : List UInt8) : Prop where
  parent : parentOf p = some q
  valid : pathIsValid q = true
  shorter : q.length < p.length
  whole : p = (if q = [slash] then [] else q) ++ slash :: basename p
  single : q ≠ [slash] → q.getLast? ≠ some slash
  noSlash : slash ∉ basename p

theorem cut_of_components (hp : IsPath (joined slash (cs ++ [c])))
    (hall : ∀ d ∈ cs ++ [c], IsComponent d) :
    Cut (joined slash (cs ++ [c])) (if cs = [] then [slash] else joined slash cs) := by
  obtain ⟨hne, -, -, hslash⟩ := hall c (by simp)
  have hempty : joined slash cs = [] ↔ cs = [] := by
    constructor
    · intro h
      by_contra hcs
      rw [joined_eq_cons hcs] at h
      nomatch h
    · rintro rfl
      rfl
  have hparent : parentOf (joined slash (cs ++ [c])) =
      some (if cs = [] then [slash] else joined slash cs) := by
    rw [joined_concat, parentOf_append hslash (Or.inr hne)]
    simp only [hempty]
  have hbase : basename (joined slash (cs ++ [c])) = c := by
    rw [joined_concat, basename_append hslash]
  have hroot (h : cs ≠ []) : joined slash cs ≠ [slash] := by
    intro heq
    have hcut := splitOn_joined h fun d hd => (hall d (List.mem_append_left _ hd)).noSlash
    rw [heq] at hcut
    have hcs : cs = [[]] := (List.cons.inj hcut).2.symm
    exact (hall [] (by simp [hcs])).nonempty rfl
  have hlength : (joined slash (cs ++ [c])).length = (joined slash cs).length + 1 + c.length := by
    rw [joined_concat, List.length_append, List.length_cons]
    omega
  have hlong := List.length_pos_iff.mpr hne
  refine ⟨hparent, ?_, ?_, ?_, ?_, by rwa [hbase]⟩
  · by_cases hcs : cs = []
    · rw [if_pos hcs]
      rfl
    · rw [if_neg hcs, pathIsValid_iff_isPath]
      have hshort := hp.short
      refine ⟨?_, by omega, ?_, Or.inr ⟨cs, hcs, fun d hd => hall d (by simp [hd]), rfl⟩⟩
      · rw [joined_eq_cons hcs]
        exact Nat.succ_pos _
      · have hnul := hp.noNul
        rw [joined_concat] at hnul
        exact fun h => hnul (List.mem_append_left _ h)
  · by_cases hcs : cs = []
    · rw [if_pos hcs, List.length_singleton]
      omega
    · rw [if_neg hcs]
      omega
  · rw [hbase, joined_concat]
    by_cases hcs : cs = []
    · rw [if_pos hcs, if_pos rfl, hcs]
      rfl
    · rw [if_neg hcs, if_neg (hroot hcs)]
  · intro hq
    by_cases hcs : cs = []
    · rw [if_pos hcs] at hq
      exact absurd rfl hq
    · rw [if_neg hcs]
      obtain ⟨ds, d, rfl⟩ := (List.eq_nil_or_concat' cs).resolve_left hcs
      obtain ⟨hd, -, -, hds⟩ := hall d (by simp)
      rw [joined_concat, List.getLast?_append_of_ne_nil _ (List.cons_ne_nil _ _),
        List.getLast?_cons_of_ne_nil hd]
      exact fun h => hds (List.mem_of_getLast? h)

/-- The directories above a path, up to the root, where they end. -/
def parents (n : ℕ) (p : List UInt8) : Option (List UInt8) :=
  (fun x => x.bind parentOf)^[n] (some p)

theorem parents_succ (hq : parentOf p = some q) (n : ℕ) : parents (n + 1) p = parents n q := by
  rw [parents, Function.iterate_succ_apply, Option.bind_some, hq]
  rfl

theorem parents_reach (hall : ∀ c ∈ cs, IsComponent c) (hne : cs ≠ [])
    (hp : IsPath (joined slash cs)) : parents cs.length (joined slash cs) = some [slash] := by
  induction cs using List.reverseRecOn with
  | nil => exact absurd rfl hne
  | append_singleton cs c ih =>
    have hcut := cut_of_components hp hall
    rw [List.length_append, List.length_singleton, parents_succ hcut.parent]
    by_cases hcs : cs = []
    · rw [if_pos hcs, hcs]
      rfl
    · have hvalid := hcut.valid
      rw [if_neg hcs] at hvalid ⊢
      exact ih (fun d hd => hall d (List.mem_append_left _ hd)) hcs
        (pathIsValid_iff_isPath.mp hvalid)

/-- The paths that are accepted are those of the grammar. Each but the root is its parent and its
base name with a slash between, and from parent to parent the root is reached, which has none. -/
theorem path_grammar (p : List UInt8) :
    (pathIsValid p = true ↔ IsPath p) ∧
      (pathIsValid p = true → p ≠ [slash] → ∃ q, Cut p q) ∧
      (pathIsValid p = true → ∃ n, parents n p = some [slash] ∧ parents (n + 1) p = none) := by
  have hlast {n : ℕ} (h : parents n p = some [slash]) : parents (n + 1) p = none := by
    rw [parents, Function.iterate_succ_apply']
    exact (congrArg (fun x => x.bind parentOf) h).trans rfl
  refine ⟨pathIsValid_iff_isPath, fun hvalid hroot => ?_, fun hvalid => ?_⟩
  · have hp := pathIsValid_iff_isPath.mp hvalid
    obtain ⟨cs, hne, hall, rfl⟩ := hp.shape.resolve_left hroot
    obtain ⟨ds, d, rfl⟩ := (List.eq_nil_or_concat' cs).resolve_left hne
    exact ⟨_, cut_of_components hp hall⟩
  · have hp := pathIsValid_iff_isPath.mp hvalid
    rcases hp.shape with rfl | ⟨cs, hne, hall, rfl⟩
    · exact ⟨0, rfl, rfl⟩
    · have hreach := parents_reach hall hne hp
      exact ⟨cs.length, hreach, hlast hreach⟩

theorem path_grammar_nested : ∃ q, Cut (utf8 "/bin/sh") q :=
  (path_grammar (utf8 "/bin/sh")).2.1 (by decide) (by decide)

end Grammar

end FileSystem
