import NajmKernel.PageTables

/-! The tree of tables below the lower half of one root: every frame in it stands at one level and
under one number, so that no frame is reached in two ways. What a mapper does keeps the tree. -/
namespace PageTables

open PhysicalMemory

/-- The level a frame stands at in a tree, and the number of the region it covers there. Frames
that back pages stand at level 0 under the number of their page. -/
abbrev Placement := Frame → Option (ℕ × ℕ)

/-- An entry of a table that the tree reaches through; in the root only the lower half is. -/
def Slot (place : Placement) (f : Frame) (l n i : ℕ) : Prop :=
  place f = some (l + 1, n) ∧ i < 512 ∧ (l = 3 → i < 256)

/-- What a parent entry grants; `w` says whether every table is reached writable. -/
structure Grants (w : Bool) (flags : PageTableFlags) : Prop where
  present : flags.contains .present = true
  huge : flags.contains .hugePage = false
  noExecute : flags.contains .noExecute = false
  userAccessible : flags.contains .userAccessible = true
  writable : w = true → flags.contains .writable = true

structure TableTree (m : Memory) (root : Frame) (place : Placement) (w : Bool) : Prop where
  atRoot : place root = some (4, 0)
  top : ∀ {f n}, place f = some (4, n) → f = root
  level_le : ∀ {f l n}, place f = some (l, n) → l ≤ 4
  injective : ∀ {f g l n}, place f = some (l + 1, n) → place g = some (l + 1, n) → f = g
  child : ∀ {f l n i}, Slot place f l n i → ¬ isUnused m f i →
    place (entry m f i).frame = some (l, 512 * n + i)
  parent : ∀ {f l n i}, Slot place f (l + 1) n i → ¬ isUnused m f i →
    Grants w (entry m f i).flags
  linked : ∀ {g l n}, place g = some (l + 1, n) → l < 3 →
    ∃ f, Slot place f (l + 1) (n / 512) (n % 512) ∧ ¬ isUnused m f (n % 512) ∧
      (entry m f (n % 512)).frame = g

variable {m m' : Memory} {root t f g next frame : Frame} {place : Placement} {w : Bool}
  {l n i j page : ℕ} {e : Entry} {flags added : PageTableFlags}

theorem used_of_flags (h : (entry m f i).flags ≠ ⟨0, 0⟩) : ¬ isUnused m f i := by
  intro hu
  have he : entry m f i = Entry.ofWord 0 := congrArg Entry.ofWord hu
  rw [he] at h
  exact h rfl

theorem used_of_present (h : (entry m f i).flags.contains .present = true) : ¬ isUnused m f i := by
  apply used_of_flags
  intro hz
  rw [hz, PageTableFlags.contains_present] at h
  simp at h

theorem used_of_userAccessible (h : (entry m f i).flags.contains .userAccessible = true) :
    ¬ isUnused m f i := by
  apply used_of_flags
  intro hz
  rw [hz, PageTableFlags.contains_userAccessible] at h
  simp at h

theorem Grants.of_parent (hp : ParentFlags flags added)
    (hu : flags.contains .userAccessible = true)
    (hw : w = true → flags.contains .writable = true) : Grants w added :=
  ⟨hp.present, hp.huge, hp.noExecute, hp.userAccessible hu, fun h => hp.writable (hw h)⟩

theorem Grants.or (h : Grants w flags) (hp : ParentFlags flags' added) :
    Grants w (flags ||| added) where
  present := PageTableFlags.contains_or (Or.inl h.present)
  huge := by rw [PageTableFlags.huge_or, h.huge, hp.huge, Bool.or_false]
  noExecute := by rw [PageTableFlags.noExecute_or, h.noExecute, hp.noExecute, Bool.or_false]
  userAccessible := PageTableFlags.contains_or (Or.inl h.userAccessible)
  writable hw := PageTableFlags.contains_or (Or.inl (h.writable hw))

namespace TableTree

variable (T : TableTree m root place w)
include T

/-- A table stays a part of the tree where only frames outside the tables change. -/
theorem congr (h : ∀ f l n, place f = some (l + 1, n) → m' f = m f) : TableTree m' root place w where
  atRoot := T.atRoot
  top := T.top
  level_le := T.level_le
  injective := T.injective
  child {f l n i} hs hu := by
    have hm := h f l n hs.1
    rw [entry_congr hm]
    exact T.child hs (fun hz => hu ((isUnused_congr hm).mpr hz))
  parent {f l n i} hs hu := by
    have hm := h f (l + 1) n hs.1
    rw [entry_congr hm]
    exact T.parent hs (fun hz => hu ((isUnused_congr hm).mpr hz))
  linked {g l n} hg hl := by
    obtain ⟨f, hs, hu, he⟩ := T.linked hg hl
    have hm := h f (l + 1) _ hs.1
    refine ⟨f, hs, fun hz => hu ((isUnused_congr hm).mp hz), ?_⟩
    rw [entry_congr hm, he]

/-- An unused entry gets a frame from outside the tree, as an empty table or as a leaf. -/
theorem attach (hs : Slot place t l n i) (hunused : isUnused m t i) (hnext : place next = none)
    (hframe : (entry m' t i).frame = next)
    (hsame : ∀ g j, place g ≠ none → g ≠ t ∨ j ≠ i →
      entry m' g j = entry m g j ∧ (isUnused m' g j ↔ isUnused m g j))
    (hzero : l ≠ 0 → ∀ j, isUnused m' next j)
    (hflags : l ≠ 0 → Grants w (entry m' t i).flags) :
    TableTree m' root (Function.update place next (some (l, 512 * n + i))) w := by
  have hle : l + 1 ≤ 4 := T.level_le hs.1
  have hne : ∀ {f x}, place f = some x → f ≠ next := by
    rintro f x hf rfl
    rw [hnext] at hf
    cases hf
  have hold : ∀ {f}, f ≠ next →
      Function.update place next (some (l, 512 * n + i)) f = place f :=
    fun h => Function.update_of_ne h _ _
  have hsome : ∀ {f x}, place f = some x → place f ≠ none := by
    intro f x hf hn
    rw [hn] at hf
    cases hf
  -- an entry in use of the new tree is the new one or one of the old tree
  have hcell : ∀ {f l' n' j}, Slot (Function.update place next (some (l, 512 * n + i))) f l' n' j →
      ¬ isUnused m' f j → (f = t ∧ j = i ∧ l' = l ∧ n' = n) ∨
        (Slot place f l' n' j ∧ ¬ isUnused m f j ∧ entry m' f j = entry m f j) := by
    intro f l' n' j hs' hu
    by_cases hf : f = next
    · subst hf
      have hx := hs'.1
      rw [Function.update_self] at hx
      simp only [Option.some.injEq, Prod.mk.injEq] at hx
      exact absurd (hzero (by omega) j) hu
    · have hp : Slot place f l' n' j := ⟨by rw [← hold hf]; exact hs'.1, hs'.2⟩
      by_cases hc : f = t ∧ j = i
      · obtain ⟨rfl, rfl⟩ := hc
        have hx := hs.1.symm.trans hp.1
        simp only [Option.some.injEq, Prod.mk.injEq] at hx
        exact Or.inl ⟨rfl, rfl, (Nat.succ.inj hx.1).symm, hx.2.symm⟩
      · obtain ⟨he, hi⟩ := hsame f j (hsome hp.1) (not_and_or.mp hc)
        exact Or.inr ⟨hp, fun hz => hu (hi.mpr hz), he⟩
  constructor
  · rw [hold (hne T.atRoot)]
    exact T.atRoot
  · intro f n' hf
    by_cases hx : f = next
    · subst hx
      rw [Function.update_self] at hf
      simp only [Option.some.injEq, Prod.mk.injEq] at hf
      omega
    · rw [hold hx] at hf
      exact T.top hf
  · intro f l' n' hf
    by_cases hx : f = next
    · subst hx
      rw [Function.update_self] at hf
      simp only [Option.some.injEq, Prod.mk.injEq] at hf
      omega
    · rw [hold hx] at hf
      exact T.level_le hf
  · -- a table already at the new place would be linked from the unused entry
    have hfree : ∀ {g}, l ≠ 0 → place g ≠ some (l, 512 * n + i) := by
      intro g hl hg
      obtain ⟨k, rfl⟩ := Nat.exists_eq_succ_of_ne_zero hl
      obtain ⟨f, hp, hu, -⟩ := T.linked hg (by omega)
      have hi := hs.2.1
      have hdiv : (512 * n + i) / 512 = n := by omega
      have hmod : (512 * n + i) % 512 = i := by omega
      rw [hdiv, hmod] at hp
      rw [hmod] at hu
      exact hu (T.injective hp.1 hs.1 ▸ hunused)
    intro f g l' n' hf hg
    by_cases hx : f = next <;> by_cases hy : g = next
    · rw [hx, hy]
    · rw [hx, Function.update_self] at hf
      rw [hold hy] at hg
      simp only [Option.some.injEq, Prod.mk.injEq] at hf
      obtain ⟨rfl, rfl⟩ := hf
      exact absurd hg (hfree (by omega))
    · rw [hy, Function.update_self] at hg
      rw [hold hx] at hf
      simp only [Option.some.injEq, Prod.mk.injEq] at hg
      obtain ⟨rfl, rfl⟩ := hg
      exact absurd hf (hfree (by omega))
    · rw [hold hx] at hf
      rw [hold hy] at hg
      exact T.injective hf hg
  · intro f l' n' j hs' hu
    rcases hcell hs' hu with ⟨rfl, rfl, rfl, rfl⟩ | ⟨hp, hu', he⟩
    · rw [hframe, Function.update_self]
    · have hc := T.child hp hu'
      rw [he, hold (hne hc), hc]
  · intro f l' n' j hs' hu
    rcases hcell hs' hu with ⟨rfl, rfl, rfl, rfl⟩ | ⟨hp, hu', he⟩
    · exact hflags (by omega)
    · rw [he]
      exact T.parent hp hu'
  · intro g l' n' hg hl
    by_cases hx : g = next
    · subst hx
      rw [Function.update_self] at hg
      simp only [Option.some.injEq, Prod.mk.injEq] at hg
      obtain ⟨rfl, rfl⟩ := hg
      have hdiv : (512 * n + i) / 512 = n := by have := hs.2.1; omega
      have hmod : (512 * n + i) % 512 = i := by have := hs.2.1; omega
      rw [hdiv, hmod]
      refine ⟨t, ⟨?_, hs.2⟩, used_of_present (hflags (by omega)).present, hframe⟩
      rw [hold (hne hs.1)]
      exact hs.1
    · rw [hold hx] at hg
      obtain ⟨f, hp, hu, he⟩ := T.linked hg hl
      have hc : ¬ (f = t ∧ n' % 512 = i) := by
        rintro ⟨rfl, rfl⟩
        exact hu hunused
      obtain ⟨he', hi⟩ := hsame f (n' % 512) (hsome hp.1) (not_and_or.mp hc)
      refine ⟨f, ⟨?_, hp.2⟩, fun hz => hu (hi.mp hz), by rw [he', he]⟩
      rw [hold (hne hp.1)]
      exact hp.1

/-- An entry in use keeps its frame and changes its flags. -/
theorem reflag (hs : Slot place t l n i) (hused : ¬ isUnused m t i)
    (hframe : (entry m' t i).frame = (entry m t i).frame)
    (hsame : ∀ g j, place g ≠ none → g ≠ t ∨ j ≠ i →
      entry m' g j = entry m g j ∧ (isUnused m' g j ↔ isUnused m g j))
    (hflags : l ≠ 0 → Grants w (entry m' t i).flags) : TableTree m' root place w := by
  have hsome : ∀ {f x}, place f = some x → place f ≠ none := by
    intro f x hf hn
    rw [hn] at hf
    cases hf
  refine ⟨T.atRoot, T.top, T.level_le, T.injective, ?_, ?_, ?_⟩
  · intro f l' n' j hs' hu
    by_cases hc : f = t ∧ j = i
    · obtain ⟨rfl, rfl⟩ := hc
      rw [hframe]
      exact T.child hs' hused
    · obtain ⟨he, hi⟩ := hsame f j (hsome hs'.1) (not_and_or.mp hc)
      rw [he]
      exact T.child hs' (fun hz => hu (hi.mpr hz))
  · intro f l' n' j hs' hu
    by_cases hc : f = t ∧ j = i
    · obtain ⟨rfl, rfl⟩ := hc
      have hx := hs.1.symm.trans hs'.1
      simp only [Option.some.injEq, Prod.mk.injEq] at hx
      exact hflags (by omega)
    · obtain ⟨he, hi⟩ := hsame f j (hsome hs'.1) (not_and_or.mp hc)
      rw [he]
      exact T.parent hs' (fun hz => hu (hi.mpr hz))
  · intro g l' n' hg hl
    obtain ⟨f, hs', hu, he⟩ := T.linked hg hl
    by_cases hc : f = t ∧ n' % 512 = i
    · obtain ⟨rfl, hi⟩ := hc
      have hx := hs.1.symm.trans hs'.1
      simp only [Option.some.injEq, Prod.mk.injEq] at hx
      refine ⟨f, hs', ?_, ?_⟩
      · rw [hi]
        exact used_of_present (hflags (by omega)).present
      · rw [hi, hframe, ← hi]
        exact he
    · obtain ⟨he', hi⟩ := hsame f (n' % 512) (hsome hs'.1) (not_and_or.mp hc)
      exact ⟨f, hs', fun hz => hu (hi.mp hz), by rw [he', he]⟩

/-- Above every table of the tree stands one at each level. -/
theorem climb (k : ℕ) (hg : place g = some (l + 1, n)) (hk : l + k ≤ 3) :
    ∃ f, place f = some (l + k + 1, n / 512 ^ k) := by
  induction k with
  | zero => exact ⟨g, by simpa using hg⟩
  | succ k ih =>
    obtain ⟨f, hf⟩ := ih (by omega)
    obtain ⟨f', hs, -⟩ := T.linked hf (by omega)
    refine ⟨f', ?_⟩
    rw [pow_succ, ← Nat.div_div_eq_div_mul, ← Nat.add_assoc]
    exact hs.1

omit T in
theorem slot_of_page (hp : page < 2 ^ 35) (ht : place t = some (l + 1, page / 512 ^ (l + 1))) :
    Slot place t l (page / 512 ^ (l + 1)) (index (l + 1) page) := by
  refine ⟨ht, Nat.mod_lt _ (by decide), ?_⟩
  rintro rfl
  have : page / 512 ^ 3 < 256 := by omega
  rw [index, Nat.add_sub_cancel]
  exact lt_of_le_of_lt (Nat.mod_le _ _) this

omit T in
theorem number_below (l page : ℕ) :
    512 * (page / 512 ^ (l + 1)) + index (l + 1) page = page / 512 ^ l := by
  rw [index, Nat.add_sub_cancel, pow_succ, ← Nat.div_div_eq_div_mul, Nat.div_add_mod]

theorem child_of_page (hp : page < 2 ^ 35) (ht : place t = some (l + 1, page / 512 ^ (l + 1)))
    (hu : ¬ isUnused m t (index (l + 1) page)) :
    place (entry m t (index (l + 1) page)).frame = some (l, page / 512 ^ l) := by
  rw [T.child (slot_of_page hp ht) hu, number_below]

/-- A parent entry of the tree may gain flags for its tables. -/
theorem follow (hp : page < 2 ^ 35) (ht : place t = some (l + 2, page / 512 ^ (l + 2)))
    (hu : ¬ isUnused m t (index (l + 2) page)) (added_ok : ParentFlags flags added) :
    TableTree (setEntry m t (index (l + 2) page) ⟨(entry m t (index (l + 2) page)).frame,
      (entry m t (index (l + 2) page)).flags ||| added⟩) root place w := by
  have hs := slot_of_page hp ht
  have hgrants : Grants w (entry m t (index (l + 2) page)).flags := T.parent hs hu
  apply T.reflag hs hu
  · rw [entry_setEntry_same]
  · exact fun g j _ hc => ⟨entry_setEntry_ne hc, isUnused_setEntry_ne hc⟩
  · intro _
    rw [entry_setEntry_same]
    exact hgrants.or added_ok

/-- Walking down finds the one level 1 entry that stands for the page. -/
theorem walk_eq_some (hp : page < 2 ^ 35) (ht : place t = some (l + 1, page / 512 ^ (l + 1))) :
    walk m (l + 1) t page = some e ↔ ∃ g, place g = some (1, page / 512) ∧
      ¬ isUnused m g (page % 512) ∧ e = entry m g (page % 512) := by
  have hle := T.level_le ht
  induction l generalizing t with
  | zero =>
    have hi : index 1 page = page % 512 := by simp [index]
    rw [walk, hi]
    constructor
    · intro h
      by_cases hu : isUnused m t (page % 512)
      · rw [if_pos hu] at h
        cases h
      · rw [if_neg hu] at h
        exact ⟨t, by simpa using ht, hu, (Option.some.inj h).symm⟩
    · rintro ⟨g, hg, hu, rfl⟩
      obtain rfl : t = g := T.injective (by simpa using ht) hg
      rw [if_neg hu]
  | succ l ih =>
    rw [walk]
    by_cases hu : isUnused m t (index (l + 2) page)
    · rw [if_pos hu]
      constructor
      · intro h
        cases h
      rintro ⟨g, hg, -⟩
      obtain ⟨f, hf⟩ := T.climb l hg (by omega)
      have hn : page / 512 / 512 ^ l = page / 512 ^ (l + 1) := by
        rw [Nat.div_div_eq_div_mul, pow_succ']
      rw [hn, Nat.zero_add] at hf
      obtain ⟨f', hs, hu', -⟩ := T.linked hf (by omega)
      have hn' : page / 512 ^ (l + 1) / 512 = page / 512 ^ (l + 2) := by
        rw [Nat.div_div_eq_div_mul, ← pow_succ]
      rw [hn'] at hs
      obtain rfl : f' = t := T.injective hs.1 ht
      exact absurd hu hu'
    · rw [if_neg hu]
      exact ih (T.child_of_page hp ht hu) (by omega)

theorem walk_root (hp : page < 2 ^ 35) :
    walk m 4 root page = some e ↔ ∃ g, place g = some (1, page / 512) ∧
      ¬ isUnused m g (page % 512) ∧ e = entry m g (page % 512) := by
  apply T.walk_eq_some hp
  rw [T.atRoot, Nat.div_eq_of_lt (lt_trans hp (by norm_num))]

end TableTree

end PageTables
