import NajmKernel.TableTrees

/-! What `map_to` does to a tree of tables: it grows by the frames taken from the allocator and,
where it succeeds, by one leaf; every other page keeps its entry. -/
namespace PageTables

open PhysicalMemory

/-- The allocator hands out the frames of a list, the first one first. -/
structure Supplies {A : Type} (allocate : A → Option Frame × A) (supply : A → List Frame) :
    Prop where
  first : ∀ a, (allocate a).1 = (supply a).head?
  rest : ∀ a, supply (allocate a).2 = (supply a).tail

/-- The tree of `m'` is that of `m` with the frames of `taken` as tables and, on success, `frame`
as the leaf of `page`. -/
structure Grown (m m' : Memory) (root : Frame) (place place' : Placement) (page : ℕ)
    (taken : List Frame) (frame : Frame) (flags : PageTableFlags)
    (r : Except MapToError Unit) : Prop where
  old : ∀ {g x}, place g = some x → place' g = some x
  none_iff : ∀ {g}, place' g = none ↔ place g = none ∧ g ∉ taken ∧ (r = .ok () → g ≠ frame)
  tables : ∀ g ∈ taken, ∃ l < 3, place' g = some (l + 1, page / 512 ^ (l + 1))
  outside : ∀ {g}, place g = none → g ∉ taken → m' g = m g
  leaves : ∀ {g n}, place g = some (0, n) → m' g = m g
  upper : ∀ {i}, 256 ≤ i → m'.word root i = m.word root i
  others : ∀ {g n j}, place' g = some (1, n) → j < 512 → (512 * n + j = page → r ≠ .ok ()) →
    (place g = some (1, n) ∧ entry m' g j = entry m g j ∧ (isUnused m' g j ↔ isUnused m g j)) ∨
      (place g = none ∧ isUnused m' g j)
  wasUnused : r = .ok () → ∀ {g}, place g = some (1, page / 512) → isUnused m g (page % 512)
  leaf : r = .ok () → place' frame = some (0, page) ∧
    ∃ g, place' g = some (1, page / 512) ∧ entry m' g (page % 512) = ⟨frame, flags⟩

variable {m m₁ m' : Memory} {root t f g next frame : Frame} {place place₁ place' : Placement}
  {w : Bool} {l n i j page : ℕ} {e : Entry} {flags added : PageTableFlags}
  {r : Except MapToError Unit} {taken : List Frame} {A : Type}
  {allocate : A → Option Frame × A} {supply : A → List Frame} {a a' : A}

/-- One level further up: a table `t` that is followed, or gets the tables of `before` below it. -/
theorem Grown.above (before : List Frame) (h : Grown m₁ m' root place₁ place' page taken frame flags r)
    (hold : ∀ {g x}, place g = some x → place₁ g = some x)
    (hnone : ∀ {g}, place₁ g = none ↔ place g = none ∧ g ∉ before)
    (htables : ∀ g ∈ before, place g = none ∧ (∀ j, isUnused m₁ g j) ∧
      ∃ l < 3, place₁ g = some (l + 1, page / 512 ^ (l + 1)))
    (ht : place t = some (l + 2, n)) (hmem : ∀ {g}, g ∉ before → g ≠ t → m₁ g = m g)
    (hupper : ∀ {i}, 256 ≤ i → m₁.word root i = m.word root i) :
    Grown m m' root place place' page (before ++ taken) frame flags r := by
  have hnot : ∀ {g x}, place g = some x → g ∉ before := by
    intro g x hg hb
    rw [(htables g hb).1] at hg
    cases hg
  have hsame : ∀ {g k n'}, place g = some (k, n') → k < 2 → m₁ g = m g := by
    intro g k n' hg hk
    apply hmem (hnot hg)
    rintro rfl
    rw [ht] at hg
    simp only [Option.some.injEq, Prod.mk.injEq] at hg
    omega
  constructor
  · exact fun hg => h.old (hold hg)
  · intro g
    rw [h.none_iff, hnone, List.mem_append, not_or]
    tauto
  · intro g hg
    rcases List.mem_append.mp hg with hg | hg
    · obtain ⟨-, -, k, hk, hp⟩ := htables g hg
      exact ⟨k, hk, h.old hp⟩
    · exact h.tables g hg
  · intro g hg ha
    rw [List.mem_append, not_or] at ha
    rw [h.outside (hnone.mpr ⟨hg, ha.1⟩) ha.2]
    apply hmem ha.1
    rintro rfl
    rw [ht] at hg
    cases hg
  · intro g n' hg
    rw [h.leaves (hold hg), hsame hg (by omega)]
  · intro i hi
    rw [h.upper hi, hupper hi]
  · intro g n' j hg hj hr
    rcases h.others hg hj hr with ⟨hp, he, hu⟩ | ⟨hp, hu⟩
    · by_cases hb : g ∈ before
      · exact Or.inr ⟨(htables g hb).1, hu.mpr ((htables g hb).2.1 j)⟩
      · have hg' : place g = some (1, n') := by
          rcases hx : place g with _ | x
          · rw [hnone.mpr ⟨hx, hb⟩] at hp
            cases hp
          · rw [← hp, hold hx]
        have hm := hsame hg' (by omega)
        exact Or.inl ⟨hg', he.trans (entry_congr hm), hu.trans (isUnused_congr hm)⟩
    · exact Or.inr ⟨(hnone.mp hp).1, hu⟩
  · intro hr g hg
    exact (isUnused_congr (hsame hg (by omega))).mp (h.wasUnused hr (hold hg))
  · exact h.leaf

/-- A call that fails at once changes nothing. -/
theorem Grown.refl (hr : r ≠ .ok ()) : Grown m m root place place page [] frame flags r where
  old := id
  none_iff := by simp [hr]
  tables := by simp
  outside _ _ := rfl
  leaves _ := rfl
  upper _ := rfl
  others hg _ _ := Or.inl ⟨hg, rfl, Iff.rfl⟩
  wasUnused h := absurd h hr
  leaf h := absurd h hr

theorem Grown.mapped (ht : place t = some (1, page / 512))
    (hunused : isUnused m t (page % 512)) (hframe : place frame = none)
    (T : TableTree m root place w) :
    Grown m (setEntry m t (page % 512) ⟨frame, flags⟩) root place
      (Function.update place frame (some (0, page))) page [] frame flags (.ok ()) := by
  have hne : ∀ {g x}, place g = some x → g ≠ frame := by
    rintro g x hg rfl
    rw [hframe] at hg
    cases hg
  have hroot : root ≠ t := by
    rintro rfl
    rw [T.atRoot] at ht
    simp at ht
  constructor
  · intro g x hg
    rw [Function.update_of_ne (hne hg), hg]
  · intro g
    by_cases hg : g = frame
    · simp [hg]
    · simp [hg]
  · simp
  · intro g hg _
    apply setEntry_frame_ne
    rintro rfl
    rw [ht] at hg
    cases hg
  · intro g n' hg
    apply setEntry_frame_ne
    rintro rfl
    rw [ht] at hg
    simp at hg
  · intro i _
    rw [setEntry, Memory.word_setWord_frame_ne hroot]
  · intro g n' j hg hj hx
    have hgf : g ≠ frame := by
      rintro rfl
      rw [Function.update_self] at hg
      simp at hg
    rw [Function.update_of_ne hgf] at hg
    have hcell : g ≠ t ∨ j ≠ page % 512 := by
      by_contra hc
      simp only [ne_eq, not_or, not_not] at hc
      obtain ⟨rfl, rfl⟩ := hc
      rw [ht] at hg
      simp only [Option.some.injEq, Prod.mk.injEq, true_and] at hg
      exact hx (by omega) rfl
    exact Or.inl ⟨hg, entry_setEntry_ne hcell, isUnused_setEntry_ne hcell⟩
  · intro _ g hg
    obtain rfl := T.injective hg ht
    exact hunused
  · intro _
    refine ⟨Function.update_self .., t, ?_, entry_setEntry_same⟩
    rw [Function.update_of_ne (hne ht), ht]

theorem Supplies.some (hs : Supplies allocate supply) (h : allocate a = (some next, a')) :
    supply a = next :: supply a' := by
  have h1 := hs.first a
  have h2 := hs.rest a
  rw [h] at h1 h2
  cases hl : supply a with
  | nil => rw [hl] at h1; cases h1
  | cons x xs =>
    rw [hl] at h1 h2
    cases h1
    rw [h2, List.tail_cons]

theorem Supplies.none (hs : Supplies allocate supply) (h : allocate a = (none, a')) :
    supply a = [] ∧ supply a' = [] := by
  have h1 := hs.first a
  have h2 := hs.rest a
  rw [h] at h1 h2
  cases hl : supply a with
  | nil =>
    rw [hl] at h2
    exact ⟨rfl, h2⟩
  | cons x xs =>
    rw [hl] at h1
    cases h1

theorem MapTo.grows (hm : MapTo allocate page frame flags l t m a r m' a')
    (hs : Supplies allocate supply) (hp : page < 2 ^ 35)
    (hu : flags.contains .userAccessible = true)
    (hw : w = true → flags.contains .writable = true) (hframe : frame ∉ supply a)
    (hnodup : (supply a).Nodup) (T : TableTree m root place w)
    (ht : place t = some (l, page / 512 ^ l)) (hfresh : ∀ f ∈ supply a, place f = none)
    (hfree : place frame = none) :
    ∃ taken place', supply a = taken ++ supply a' ∧ TableTree m' root place' w ∧
      Grown m m' root place place' page taken frame flags r := by
  induction hm generalizing place with
  | @mapped t m a unused =>
    have hi : index 1 page = page % 512 := by simp [index]
    have hslot := TableTree.slot_of_page hp ht
    have hn := TableTree.number_below 0 page
    rw [hi] at unused hslot hn
    simp only [Nat.zero_add, pow_one, pow_zero, Nat.div_one] at hn ht hslot
    have hsame : ∀ g j, place g ≠ none → g ≠ t ∨ j ≠ page % 512 →
        entry (setEntry m t (page % 512) ⟨frame, flags⟩) g j = entry m g j ∧
          (isUnused (setEntry m t (page % 512) ⟨frame, flags⟩) g j ↔ isUnused m g j) :=
      fun g j _ hc => ⟨entry_setEntry_ne hc, isUnused_setEntry_ne hc⟩
    have hT := T.attach hslot unused hfree (by rw [entry_setEntry_same]) hsame
      (fun h => absurd rfl h) (fun h => absurd rfl h)
    rw [hn] at hT
    rw [hi]
    exact ⟨[], _, rfl, hT, Grown.mapped ht unused hfree T⟩
  | alreadyMapped used => exact ⟨[], place, rfl, T, Grown.refl (by simp)⟩
  | @created l t next m m' a a₁ a' added r unused got parent below ih =>
    have hsupply := hs.some got
    rw [hsupply] at hfresh hframe hnodup
    have hnext : place next = none := hfresh next List.mem_cons_self
    have hslot := TableTree.slot_of_page hp ht
    have hidx : 256 ≤ index (l + 2) page → t ≠ root := by
      rintro hi rfl
      have hx := T.atRoot.symm.trans ht
      simp only [Option.some.injEq, Prod.mk.injEq] at hx
      have : index (l + 2) page < 256 := hslot.2.2 (by omega)
      omega
    have htn : t ≠ next := by
      rintro rfl
      rw [ht] at hnext
      cases hnext
    have hother : ∀ {g}, g ≠ next → g ≠ t →
        (setEntry m t (index (l + 2) page) ⟨next, added⟩).zeroFrame next g = m g :=
      fun h1 h2 => (Memory.zeroFrame_frame_ne h1).trans (setEntry_frame_ne h2)
    have hset : entry ((setEntry m t (index (l + 2) page) ⟨next, added⟩).zeroFrame next) t
        (index (l + 2) page) = ⟨next, added⟩ := by
      rw [entry_congr (Memory.zeroFrame_frame_ne htn), entry_setEntry_same]
    have hsame : ∀ g j, place g ≠ none → g ≠ t ∨ j ≠ index (l + 2) page →
        entry ((setEntry m t (index (l + 2) page) ⟨next, added⟩).zeroFrame next) g j =
            entry m g j ∧
          (isUnused ((setEntry m t (index (l + 2) page) ⟨next, added⟩).zeroFrame next) g j ↔
            isUnused m g j) := by
      intro g j hg hc
      have hgn : g ≠ next := by
        rintro rfl
        exact hg hnext
      rw [entry_congr (Memory.zeroFrame_frame_ne hgn),
        isUnused_congr (Memory.zeroFrame_frame_ne hgn)]
      exact ⟨entry_setEntry_ne hc, isUnused_setEntry_ne hc⟩
    have hT := T.attach hslot unused hnext (by rw [hset]) hsame
      (fun _ j => isUnused_zeroFrame) (fun _ => by rw [hset]; exact Grants.of_parent parent hu hw)
    rw [TableTree.number_below] at hT
    have hplace : ∀ {g}, g ≠ next →
        Function.update place next (some (l + 1, page / 512 ^ (l + 1))) g = place g :=
      fun h => Function.update_of_ne h _ _
    have hnf : ∀ {f}, f ∈ supply a₁ → f ≠ next := by
      rintro f hf rfl
      exact (List.nodup_cons.mp hnodup).1 hf
    obtain ⟨taken, place', hsup, hT', hG⟩ := ih
      (fun h => hframe (List.mem_cons_of_mem _ h)) (List.nodup_cons.mp hnodup).2 hT
      (Function.update_self ..)
      (fun f hf => (hplace (hnf hf)).trans (hfresh f (List.mem_cons_of_mem _ hf)))
      ((hplace fun h => hframe (h ▸ List.mem_cons_self)).trans hfree)
    refine ⟨next :: taken, place', by rw [hsupply, hsup, List.cons_append], hT', ?_⟩
    refine Grown.above [next] hG ?_ ?_ ?_ ht ?_ ?_
    · intro g x hg
      rw [hplace, hg]
      rintro rfl
      rw [hnext] at hg
      cases hg
    · intro g
      by_cases hg : g = next
      · simp [hg]
      · simp [hg]
    · intro g hg
      obtain rfl := List.mem_singleton.mp hg
      refine ⟨hnext, fun j => isUnused_zeroFrame, l, ?_, Function.update_self ..⟩
      have := T.level_le ht
      omega
    · intro g hg hgt
      exact hother (fun h => hg (List.mem_singleton.mpr h)) hgt
    · intro i hi
      have hrn : root ≠ next := by
        rintro rfl
        rw [T.atRoot] at hnext
        cases hnext
      rw [Memory.word_zeroFrame_ne hrn, setEntry]
      by_cases hrt : root = t
      · apply Memory.word_setWord_index_ne
        rintro rfl
        exact hidx hi hrt.symm
      · exact Memory.word_setWord_frame_ne hrt
  | exhausted unused none =>
    obtain ⟨h1, h2⟩ := hs.none none
    exact ⟨[], place, by rw [h1, h2, List.nil_append], T, Grown.refl (by simp)⟩
  | @followed l t m m' a a' added r used small parent below ih =>
    have hslot := TableTree.slot_of_page hp ht
    have hle := T.level_le ht
    have hchild := T.child_of_page hp ht used
    have hT := T.follow hp ht used parent
    obtain ⟨taken, place', hsup, hT', hG⟩ := ih hframe hnodup hT hchild hfresh hfree
    refine ⟨taken, place', hsup, hT', ?_⟩
    refine Grown.above [] hG id ?_ ?_ ht ?_ ?_
    · simp
    · simp
    · exact fun _ hgt => setEntry_frame_ne hgt
    · intro i hi
      by_cases hrt : root = t
      · apply Memory.word_setWord_index_ne
        rintro rfl
        have hx := T.atRoot.symm.trans (hrt ▸ ht)
        simp only [Option.some.injEq, Prod.mk.injEq] at hx
        have : index (l + 2) page < 256 := hslot.2.2 (by omega)
        omega
      · exact Memory.word_setWord_frame_ne hrt
  | huge used huge =>
    have hslot := TableTree.slot_of_page hp ht
    have := (T.parent hslot used).huge
    rw [huge] at this
    cases this

/-- Every page but the one asked for keeps its leaf entry, and that one too after an error. -/
theorem Grown.walk_other (h : Grown m m' root place place' page taken frame flags r)
    (T : TableTree m root place w) (T' : TableTree m' root place' w) {q : ℕ} (hq : q < 2 ^ 35)
    (hne : q = page → r ≠ .ok ()) : walk m' 4 root q = walk m 4 root q := by
  have hcell : 512 * (q / 512) + q % 512 = page → r ≠ .ok () := by
    rw [Nat.div_add_mod]
    exact hne
  apply Option.ext
  intro e
  rw [T.walk_root hq, T'.walk_root hq]
  constructor
  · rintro ⟨g, hg, hu, rfl⟩
    rcases h.others hg (Nat.mod_lt _ (by decide)) hcell with ⟨hp, he, hi⟩ | ⟨-, hi⟩
    · exact ⟨g, hp, fun hz => hu (hi.mpr hz), he⟩
    · exact absurd hi hu
  · rintro ⟨g, hg, hu, rfl⟩
    rcases h.others (h.old hg) (Nat.mod_lt _ (by decide)) hcell with ⟨-, he, hi⟩ | ⟨hp, -⟩
    · exact ⟨g, h.old hg, fun hz => hu (hi.mp hz), he.symm⟩
    · rw [hg] at hp
      cases hp

theorem Grown.walk_before (h : Grown m m' root place place' page taken frame flags (.ok ()))
    (T : TableTree m root place w) (hp : page < 2 ^ 35) : walk m 4 root page = none := by
  rw [Option.eq_none_iff_forall_ne_some]
  intro e he
  obtain ⟨g, hg, hu, -⟩ := (T.walk_root hp).mp he
  exact hu (h.wasUnused rfl hg)

theorem Grown.walk_after (h : Grown m m' root place place' page taken frame flags (.ok ()))
    (T' : TableTree m' root place' w) (hp : page < 2 ^ 35)
    (hu : flags.contains .userAccessible = true) : walk m' 4 root page = some ⟨frame, flags⟩ := by
  obtain ⟨-, g, hg, he⟩ := h.leaf rfl
  refine (T'.walk_root hp).mpr ⟨g, hg, ?_, he.symm⟩
  apply used_of_userAccessible
  rw [he]
  exact hu

/-- What the tables below level `l` hold decides the walk from a table of that level. -/
theorem TableTree.below_congr (T : TableTree m root place w) (hp : page < 2 ^ 35)
    (ht : place t = some (l + 1, page / 512 ^ (l + 1)))
    (hsame : ∀ f k n, place f = some (k + 1, n) → k ≤ l → m' f = m f) :
    walk m' (l + 1) t page = walk m (l + 1) t page ∧
      missing m' (l + 1) t page = missing m (l + 1) t page := by
  induction l generalizing t with
  | zero =>
    have hm := hsame t _ _ ht le_rfl
    refine ⟨?_, rfl⟩
    simp only [walk, entry_congr hm, isUnused_congr hm]
  | succ l ih =>
    have hm := hsame t _ _ ht le_rfl
    by_cases hu : isUnused m t (index (l + 2) page)
    · have hu' := (isUnused_congr hm).mpr hu
      simp only [walk, missing, if_pos hu, if_pos hu', and_self]
    · have hu' : ¬ isUnused m' t (index (l + 2) page) := fun h => hu ((isUnused_congr hm).mp h)
      simp only [walk, missing, if_neg hu, if_neg hu', entry_congr hm]
      exact ih (T.child_of_page hp ht hu) fun f k n hf hk => hsame f k n hf (by omega)

/-- What every call of the allocator keeps, `map_to` keeps. -/
theorem MapTo.keeps {P : A → Prop} (hm : MapTo allocate page frame flags l t m a r m' a')
    (hstep : ∀ b b' x, allocate b = (x, b') → P b → P b') (h : P a) : P a' := by
  induction hm with
  | mapped unused => exact h
  | alreadyMapped used => exact h
  | created unused got parent below ih => exact ih (hstep _ _ _ got h)
  | exhausted unused got => exact hstep _ _ _ got h
  | followed used small parent below ih => exact ih h
  | huge used huge => exact h

/-- `map_to` takes at most a table for each level below the root's. -/
theorem MapTo.takes (hm : MapTo allocate page frame flags l t m a r m' a')
    (hs : Supplies allocate supply) : (supply a).length ≤ (supply a').length + (l - 1) := by
  induction hm with
  | mapped unused => simp
  | alreadyMapped used => simp
  | @created l t next m m' a a₁ a' added r unused got parent below ih =>
    rw [hs.some got, List.length_cons]
    omega
  | exhausted unused got => simp [(hs.none got).1]
  | followed used small parent below ih => omega
  | huge used huge => simp

theorem missing_le : missing m (l + 1) t page ≤ l := by
  induction l generalizing t with
  | zero => simp [missing]
  | succ l ih =>
    rw [missing]
    split
    · exact le_rfl
    · exact le_trans ih (Nat.le_succ l)

/-- Below an empty table `map_to` only needs frames. -/
theorem MapTo.ok_of_empty (hm : MapTo allocate page frame flags l t m a r m' a')
    (hs : Supplies allocate supply) (h : ∀ j, isUnused m t j) :
    r = .ok () ↔ l - 1 ≤ (supply a).length := by
  induction hm with
  | mapped unused => simp
  | alreadyMapped used => exact absurd (h _) used
  | created unused got parent below ih =>
    rw [ih fun j => isUnused_zeroFrame, hs.some got]
    simp
  | exhausted unused none => simp [(hs.none none).1]
  | followed used small parent below ih => exact absurd (h _) used
  | huge used huge => exact absurd (h _) used

/-- What `map_to` adds to the flags of a parent decides nothing below it. -/
theorem TableTree.below_follow {added : PageTableFlags} (T : TableTree m root place w)
    (hp : page < 2 ^ 35) (ht : place t = some (l + 2, page / 512 ^ (l + 2)))
    (hused : ¬ isUnused m t (index (l + 2) page)) :
    let child := (entry m t (index (l + 2) page)).frame
    let m₁ := setEntry m t (index (l + 2) page)
      ⟨child, (entry m t (index (l + 2) page)).flags ||| added⟩
    walk m₁ (l + 1) child page = walk m (l + 1) child page ∧
      missing m₁ (l + 1) child page = missing m (l + 1) child page := by
  refine T.below_congr hp (T.child_of_page hp ht hused) fun f k n hf hk => ?_
  apply setEntry_frame_ne
  rintro rfl
  rw [ht] at hf
  simp only [Option.some.injEq, Prod.mk.injEq] at hf
  omega

/-- `map_to` succeeds where the page has no entry and the missing tables can be had. -/
theorem MapTo.ok_iff (hm : MapTo allocate page frame flags l t m a r m' a')
    (hs : Supplies allocate supply) (hp : page < 2 ^ 35) (T : TableTree m root place w)
    (ht : place t = some (l, page / 512 ^ l)) :
    r = .ok () ↔ walk m l t page = none ∧ missing m l t page ≤ (supply a).length := by
  induction hm with
  | mapped unused => simp [walk, missing, unused]
  | alreadyMapped used => simp [walk, used]
  | created unused got parent below ih =>
    rw [MapTo.ok_of_empty below hs fun j => isUnused_zeroFrame]
    simp [walk, missing, unused, hs.some got]
  | exhausted unused none => simp [walk, missing, unused, (hs.none none).1]
  | followed used small parent below ih =>
    have hchild := T.child_of_page hp ht used
    obtain ⟨hwalk, hmissing⟩ := T.below_follow hp ht used
    rw [ih (T.follow hp ht used parent) hchild, hwalk, hmissing]
    simp only [walk, missing, if_neg used]
  | huge used huge =>
    have := (T.parent (TableTree.slot_of_page hp ht) used).huge
    rw [huge] at this
    cases this

/-- `map_to` takes no more frames than the page lacks tables. -/
theorem MapTo.takes_missing (hm : MapTo allocate page frame flags l t m a r m' a')
    (hs : Supplies allocate supply) (hp : page < 2 ^ 35) (T : TableTree m root place w)
    (ht : place t = some (l, page / 512 ^ l)) :
    (supply a).length ≤ (supply a').length + missing m l t page := by
  induction hm with
  | mapped unused => exact Nat.le_add_right _ _
  | alreadyMapped used => exact Nat.le_add_right _ _
  | created unused got parent below ih =>
    have hbelow := below.takes hs
    rw [hs.some got, List.length_cons, missing, if_pos unused]
    omega
  | exhausted unused got => simp [(hs.none got).1]
  | followed used small parent below ih =>
    have hchild := T.child_of_page hp ht used
    have hbelow := ih (T.follow hp ht used parent) hchild
    rw [(T.below_follow hp ht used).2] at hbelow
    rwa [missing, if_neg used]
  | huge used huge => exact Nat.le_add_right _ _

/-- A page lacks no table where another that goes through the same ones is mapped. -/
theorem missing_of_walk {page' : ℕ} (h : walk m (l + 1) t page ≠ none)
    (hsame : page' / 512 = page / 512) : missing m (l + 1) t page' = 0 := by
  induction l generalizing t with
  | zero => rfl
  | succ l ih =>
    have hindex : index (l + 2) page' = index (l + 2) page := by
      have hpow : 512 ^ (l + 1) = 512 * 512 ^ l := by rw [Nat.pow_succ, Nat.mul_comm]
      rw [index, index, Nat.add_succ_sub_one, hpow, ← Nat.div_div_eq_div_mul,
        ← Nat.div_div_eq_div_mul, hsame]
    rw [walk] at h
    rw [missing, hindex]
    split at h
    · exact absurd rfl h
    · next hused =>
      rw [if_neg hused]
      exact ih h

/-- `update_flags` changes the flags of the one leaf entry of the page, or nothing. -/
theorem UpdateFlags.leaf {r : Except FlagUpdateError Unit}
    (hm : UpdateFlags page flags l t m r m') (hp : page < 2 ^ 35) (T : TableTree m root place w)
    (ht : place t = some (l, page / 512 ^ l)) :
    (∃ g, r = .ok () ∧ place g = some (1, page / 512) ∧ ¬ isUnused m g (page % 512) ∧
      m' = setEntry m g (page % 512) ⟨(entry m g (page % 512)).frame, flags⟩) ∨
    (r ≠ .ok () ∧ m' = m ∧ ∀ g, place g = some (1, page / 512) → isUnused m g (page % 512)) := by
  have hi : index 1 page = page % 512 := by simp [index]
  induction hm with
  | @updated t m used =>
    rw [hi] at used ⊢
    exact Or.inl ⟨t, rfl, by simpa using ht, used, rfl⟩
  | @unmapped t m unused =>
    rw [hi] at unused
    refine Or.inr ⟨by simp, rfl, fun g hg => ?_⟩
    obtain rfl : t = g := T.injective (by simpa using ht) hg
    exact unused
  | followed used present small below ih => exact ih T (T.child_of_page hp ht used)
  | @missing l t m missing =>
    have hunused : isUnused m t (index (l + 2) page) := by
      by_contra hu
      have := (T.parent (TableTree.slot_of_page hp ht) hu).present
      simp [hu, this] at missing
    refine Or.inr ⟨by simp, rfl, fun g hg => ?_⟩
    by_contra hu
    have hw := (T.walk_eq_some hp ht).mpr ⟨g, hg, hu, rfl⟩
    rw [walk, if_pos hunused] at hw
    cases hw
  | @huge l t m huge =>
    by_cases hu : isUnused m t (index (l + 2) page)
    · refine Or.inr ⟨by simp, rfl, fun g hg => ?_⟩
      by_contra hg'
      have hw := (T.walk_eq_some hp ht).mpr ⟨g, hg, hg', rfl⟩
      rw [walk, if_pos hu] at hw
      cases hw
    · have := (T.parent (TableTree.slot_of_page hp ht) hu).huge
      rw [huge] at this
      cases this

end PageTables
