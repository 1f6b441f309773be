import NajmKernel.Attempts

/-! What a computation that leaves the state alone comes to (a panic, a value, an error), and how
the outcome of a sequence or of a bounded loop follows from the outcomes of its parts. -/
namespace Attempts

namespace Attempt

variable {σ ε α β : Type}

/-- At most `n` turns of a body that says whether it goes on. -/
def turns (body : β → Attempt σ ε (ForInStep β)) : ℕ → β → Attempt σ ε β
  | 0, b => pure b
  | n + 1, b => do
    match ← body b with
    | .yield b => turns body n b
    | .done b => pure b

/-- It panics under `P`, returns what `R` says, and otherwise fails. -/
structure Outcome (x : Attempt σ ε α) (P : Prop) (R : α → Prop) : Prop where
  panics : P → ∀ s, x.run s = none
  returns : ∀ a, R a → ∀ s, x.run s = some (.ok a, s)
  fails : ¬ P → (∀ a, ¬ R a) → ∀ s, ∃ e, x.run s = some (.error e, s)

namespace Outcome

variable {x : Attempt σ ε α} {f : α → Attempt σ ε β} {P P' : Prop} {R R' : α → Prop}
  {Q : α → Prop} {T : α → β → Prop} {c : Prop} [Decidable c] {e : ε} {s s' : σ} {a : α}

theorem run_none (h : Outcome x P R) : x.run s = none ↔ P := by
  constructor
  · intro hrun
    by_contra hp
    by_cases hr : ∃ a, R a
    · obtain ⟨a, ha⟩ := hr
      rw [h.returns a ha] at hrun
      cases hrun
    · obtain ⟨e, he⟩ := h.fails hp (not_exists.mp hr) s
      rw [he] at hrun
      cases hrun
  · intro hp
    exact h.panics hp s

theorem run_ok (h : Outcome x P R) : x.run s = some (.ok a, s') ↔ R a ∧ s' = s := by
  constructor
  · intro hrun
    have hp : ¬ P := fun hp => by
      rw [h.panics hp] at hrun
      cases hrun
    by_cases hr : ∃ a, R a
    · obtain ⟨b, hb⟩ := hr
      rw [h.returns b hb, Option.some.injEq, Prod.mk.injEq, Except.ok.injEq] at hrun
      obtain ⟨rfl, rfl⟩ := hrun
      exact ⟨hb, rfl⟩
    · obtain ⟨e, he⟩ := h.fails hp (not_exists.mp hr) s
      rw [he] at hrun
      cases hrun
  · rintro ⟨ha, rfl⟩
    exact h.returns a ha s'

theorem congr (h : Outcome x P R) (hP : P ↔ P') (hR : ∀ a, R a ↔ R' a) : Outcome x P' R' := by
  constructor
  · intro hp
    exact h.panics (hP.mpr hp)
  · intro a ha
    exact h.returns a ((hR a).mpr ha)
  · intro hp hr
    exact h.fails (fun hq => hp (hP.mp hq)) fun a ha => hr a ((hR a).mp ha)

theorem pure (a : α) : Outcome (pure a : Attempt σ ε α) False (· = a) := by
  constructor
  · exact False.elim
  · rintro b rfl s
    rfl
  · intro _ h
    exact absurd rfl (h a)

theorem throw : Outcome (throw e : Attempt σ ε α) False (fun _ => False) :=
  ⟨False.elim, fun _ => False.elim, fun _ _ _ => ⟨e, rfl⟩⟩

/-- Both parts count: where the first returns, what the second does with its value. -/
theorem bind (hx : Outcome x P R) (hf : ∀ a, R a → Outcome (f a) (Q a) (T a)) :
    Outcome (x >>= f) (P ∨ ∃ a, R a ∧ Q a) (fun b => ∃ a, R a ∧ T a b) := by
  constructor
  · rintro (hp | ⟨a, ha, hq⟩) s
    · rw [run_bind, hx.panics hp]
    · rw [run_bind_of_ok (hx.returns a ha s), (hf a ha).panics hq]
  · rintro b ⟨a, ha, hb⟩ s
    rw [run_bind_of_ok (hx.returns a ha s), (hf a ha).returns b hb]
  · intro hp hr s
    rw [not_or, not_exists] at hp
    by_cases hex : ∃ a, R a
    · obtain ⟨a, ha⟩ := hex
      obtain ⟨e, he⟩ := (hf a ha).fails (fun hq => hp.2 a ⟨ha, hq⟩)
        (fun b hb => hr b ⟨a, ha, hb⟩) s
      exact ⟨e, by rw [run_bind_of_ok (hx.returns a ha s), he]⟩
    · obtain ⟨e, he⟩ := hx.fails hp.1 (not_exists.mp hex) s
      exact ⟨e, by rw [run_bind, he]⟩

omit [Decidable c] in
/-- A first part that has one value to return. -/
theorem bind_value {v : α} {P' : Prop} {T : β → Prop} (hx : Outcome x P (fun a => c ∧ a = v))
    (hf : c → Outcome (f v) P' T) :
    Outcome (x >>= f) (P ∨ c ∧ P') (fun b => c ∧ T b) := by
  have h := hx.bind (f := f) (Q := fun _ => P') (T := fun _ => T) (by
    rintro a ⟨hc, rfl⟩
    exact hf hc)
  exact h.congr (by simp) fun b => by simp

theorem of_run {y : Attempt σ ε α} (hy : Outcome y P R) (h : ∀ s, x.run s = y.run s) :
    Outcome x P R := by
  constructor
  · intro hp s
    rw [h, hy.panics hp]
  · intro a ha s
    rw [h, hy.returns a ha]
  · intro hp hr s
    rw [h]
    exact hy.fails hp hr s

theorem of_panic (h : ∀ s, x.run s = none) : Outcome x True (fun _ => False) :=
  ⟨fun _ => h, fun _ => False.elim, fun hp => absurd trivial hp⟩

theorem of_error (h : ∀ s, ∃ e, x.run s = some (.error e, s)) :
    Outcome x False (fun _ => False) :=
  ⟨False.elim, fun _ => False.elim, fun _ _ => h⟩

/-- A check before the rest. -/
theorem ensure {y : Attempt σ ε α} (hy : c → Outcome y P R) :
    Outcome (do Attempt.ensure c e; y) (c ∧ P) (fun a => c ∧ R a) := by
  by_cases h : c
  · have hrun := (hy h).of_run (x := do Attempt.ensure c e; y) fun s => by
      rw [run_ensure_bind, if_pos h]
    exact hrun.congr (by simp [h]) fun a => by simp [h]
  · have hrun := of_error (x := do Attempt.ensure c e; y) fun s => ⟨e, by
      rw [run_ensure_bind, if_neg h]⟩
    exact hrun.congr (by simp [h]) fun a => by simp [h]

theorem sum {bits m n : ℕ} {g : ℕ → Attempt σ ε α}
    (hg : m + n < 2 ^ bits → Outcome (g (m + n)) P R) :
    Outcome (Attempt.sum bits m n >>= g) (2 ^ bits ≤ m + n ∨ P)
      (fun a => m + n < 2 ^ bits ∧ R a) := by
  by_cases h : m + n < 2 ^ bits
  · have hrun := (hg h).of_run (x := Attempt.sum bits m n >>= g) fun s => run_sum_bind h
    exact hrun.congr (by simp only [Nat.not_le.mpr h, false_or]) fun a => by
      simp only [h, true_and]
  · have hrun := of_panic (x := Attempt.sum bits m n >>= g) fun s => run_sum_bind_none h
    exact hrun.congr (by simp only [Nat.not_lt.mp h, true_or]) fun a => by
      simp only [h, false_and]

theorem slice {γ : Type} {l : List γ} {i j : ℕ} {g : List γ → Attempt σ ε α}
    (hg : i ≤ j ∧ j ≤ l.length → Outcome (g ((l.drop i).take (j - i))) P R) :
    Outcome (Attempt.slice l i j >>= g) (¬ (i ≤ j ∧ j ≤ l.length) ∨ P)
      (fun a => (i ≤ j ∧ j ≤ l.length) ∧ R a) := by
  by_cases h : i ≤ j ∧ j ≤ l.length
  · have hrun := (hg h).of_run (x := Attempt.slice l i j >>= g) fun s =>
      run_bind_of_ok (run_slice h)
    exact hrun.congr (by simp [h]) fun a => by simp [h]
  · have hrun := of_panic (x := Attempt.slice l i j >>= g) fun s => by
      rw [run_bind, Attempt.slice, run_demand_bind, if_neg h]
    exact hrun.congr (by simp only [h, not_false_iff, true_or]) fun a => by
      simp only [h, false_and]

theorem ite {y z : Attempt σ ε α} (hy : c → Outcome y P R) (hz : ¬ c → Outcome z P' R') :
    Outcome (if c then y else z) (c ∧ P ∨ ¬ c ∧ P') (fun a => c ∧ R a ∨ ¬ c ∧ R' a) := by
  by_cases h : c
  · rw [if_pos h]
    exact (hy h).congr (by simp [h]) fun a => by simp [h]
  · rw [if_neg h]
    exact (hz h).congr (by simp [h]) fun a => by simp [h]

end Outcome

section Turns

/-- What one turn may do: go on with a value, or end the loop with one. -/
def Turn (Yields Done : β → β → Prop) (b : β) : ForInStep β → Prop
  | .yield b' => Yields b b'
  | .done b' => Done b b'

/-- Within `n` turns the loop comes to one that panics. -/
inductive Faults (Yields : β → β → Prop) (Panics : β → Prop) : ℕ → β → Prop
  | here {n b} (panics : Panics b) : Faults Yields Panics (n + 1) b
  | later {n b c} (yields : Yields b c) (later : Faults Yields Panics n c) :
      Faults Yields Panics (n + 1) b

/-- The loop ends, by itself or after `n` turns. -/
inductive Ends (Yields Done : β → β → Prop) : ℕ → β → β → Prop
  | out {b} : Ends Yields Done 0 b b
  | done {n b c} (done : Done b c) : Ends Yields Done (n + 1) b c
  | later {n b c d} (yields : Yields b c) (later : Ends Yields Done n c d) :
      Ends Yields Done (n + 1) b d

variable {body : β → Attempt σ ε (ForInStep β)} {Yields Done : β → β → Prop} {Panics : β → Prop}
  {I : ℕ → β → Prop} {n : ℕ} {b b' : β}

theorem Ends.keeps {I : β → Prop} (hyields : ∀ b c, I b → Yields b c → I c)
    (hdone : ∀ b c, I b → Done b c → I c) (hb : I b) (h : Ends Yields Done n b b') : I b' := by
  induction h with
  | out => exact hb
  | done hd => exact hdone _ _ hb hd
  | later hy _ ih => exact ih (hyields _ _ hb hy)

/-- `I n` holds of what a turn starts from when `n` turns are left. -/
theorem Outcome.turns (hkeep : ∀ n b b', I (n + 1) b → Yields b b' → I n b')
    (hbody : ∀ n b, I (n + 1) b → Outcome (body b) (Panics b) (Turn Yields Done b))
    (hb : I n b) :
    Outcome (turns body n b) (Faults Yields Panics n b) (Ends Yields Done n b) := by
  induction n generalizing b with
  | zero =>
    refine (Outcome.pure b).congr ?_ fun b' => ?_
    · exact ⟨False.elim, nofun⟩
    · constructor
      · rintro rfl
        exact .out
      · rintro ⟨⟩
        rfl
  | succ n ih =>
    have hstep := (hbody n b hb).bind (f := fun r : ForInStep β => match r with
        | .yield b => Attempt.turns body n b
        | .done b => (Pure.pure b : Attempt σ ε β))
      (Q := fun r => match r with
        | .yield b => Faults Yields Panics n b
        | .done _ => False)
      (T := fun r b' => match r with
        | .yield b => Ends Yields Done n b b'
        | .done b => b' = b) (by
        rintro (b' | b') hr
        · exact Outcome.pure b'
        · exact ih (hkeep n b b' hb hr))
    refine hstep.congr ?_ fun b' => ?_
    · constructor
      · rintro (hp | ⟨b' | b', hr, hf⟩)
        · exact .here hp
        · exact hf.elim
        · exact .later hr hf
      · rintro (hp | ⟨hr, hf⟩)
        · exact Or.inl hp
        · exact Or.inr ⟨.yield _, hr, hf⟩
    · constructor
      · rintro ⟨c | c, hr, hc⟩
        · subst hc
          exact .done hr
        · exact .later hr hc
      · rintro (_ | hd | ⟨hr, he⟩)
        · exact ⟨.done b', hd, rfl⟩
        · exact ⟨.yield _, hr, he⟩

end Turns

end Attempt

end Attempts
