import Mathlib.Order.Defs.Unbundled
import NajmKernel.Outcomes

/-! The states that a computation may end in, by a relation to the state it starts in: the rules by
which a preorder goes through a sequence. And the rules by which a computation returns at all. -/
namespace Attempts

namespace Attempt

variable {σ ε α β : Type} {R : σ → σ → Prop}

/-- Whatever a run from this state ends in, the relation leads to it. -/
def Leads (R : σ → σ → Prop) (x : Attempt σ ε α) (s : σ) : Prop :=
  ∀ r s', x.run s = some (r, s') → R s s'

theorem run_discard {x : Attempt σ ε α} {s : σ} : (discard x).run s =
    match x.run s with
    | none => none
    | some (.ok _, s') => some (.ok (), s')
    | some (.error e, s') => some (.error e, s') := by
  have h : (discard x : Attempt σ ε Unit).run s = (x.run s).bind fun r => match r with
      | (.ok _, s') => some (.ok (), s')
      | (.error e, s') => some (.error e, s') := by
    change (x.run s).bind _ = _
    congr 1
    funext ⟨r, s'⟩
    cases r <;> rfl
  rw [h]
  rcases x.run s with _ | ⟨e | a, s'⟩ <;> rfl

namespace Leads

variable {x : Attempt σ ε α} {f : α → Attempt σ ε β} {s : σ} {c : Prop} [Decidable c]

theorem of_run {a : Except ε α} {s' : σ} (h : x.run s = some (a, s')) (hR : R s s') :
    Leads R x s := by
  intro r u hu
  rw [h, Option.some.injEq, Prod.mk.injEq] at hu
  exact hu.2 ▸ hR

theorem of_none (h : x.run s = none) : Leads R x s := by
  intro r u hu
  rw [h] at hu
  exact absurd hu nofun

theorem bind_of_ok {a : α} {s' : σ} (h : x.run s = some (.ok a, s'))
    (hf : ∀ r u, (f a).run s' = some (r, u) → R s u) : Leads R (x >>= f) s := by
  intro r u hu
  rw [run_bind_of_ok h] at hu
  exact hf r u hu

theorem demand_bind {y : Attempt σ ε α} (hy : c → Leads R y s) :
    Leads R (do demand c; y) s := by
  intro r u hu
  rw [run_demand_bind] at hu
  by_cases hc : c
  · rw [if_pos hc] at hu
    exact hy hc r u hu
  · rw [if_neg hc] at hu
    exact absurd hu nofun

theorem sum_bind {bits m n : ℕ} {f : ℕ → Attempt σ ε β} (hf : Leads R (f (m + n)) s) :
    Leads R (Attempt.sum bits m n >>= f) s := by
  by_cases h : m + n < 2 ^ bits
  · intro r u hu
    rw [run_sum_bind h] at hu
    exact hf r u hu
  · exact of_none (run_sum_bind_none h)

theorem discard (hx : Leads R x s) : Leads R (discard x) s := by
  intro r u hu
  rw [run_discard] at hu
  rcases hrun : x.run s with _ | ⟨e | a, s'⟩
  · rw [hrun] at hu
    exact absurd hu nofun
  · rw [hrun, Option.some.injEq, Prod.mk.injEq] at hu
    exact hu.2 ▸ hx _ _ hrun
  · rw [hrun, Option.some.injEq, Prod.mk.injEq] at hu
    exact hu.2 ▸ hx _ _ hrun

theorem ite {y z : Attempt σ ε α} (hy : c → Leads R y s) (hz : ¬ c → Leads R z s) :
    Leads R (if c then y else z) s := by
  by_cases h : c
  · rw [if_pos h]
    exact hy h
  · rw [if_neg h]
    exact hz h

/-- Both ways through a sequence, for a relation that need not compose. -/
theorem bind_cases (herror : ∀ e s', x.run s = some (.error e, s') → R s s')
    (hok : ∀ a s', x.run s = some (.ok a, s') → Leads (fun _ u => R s u) (f a) s') :
    Leads R (x >>= f) s := by
  intro r u hu
  rw [run_bind] at hu
  rcases hrun : x.run s with _ | ⟨e | a, s'⟩
  · simp [hrun] at hu
  · rw [hrun, Option.some.injEq, Prod.mk.injEq] at hu
    exact herror e u (hrun.trans (by rw [hu.2]))
  · rw [hrun] at hu
    exact hok a s' hrun r u hu

section Preorders

variable [IsPreorder σ R]

theorem pure (a : α) : Leads R (pure a : Attempt σ ε α) s := of_run run_pure (refl_of R s)

theorem throw (e : ε) : Leads R (throw e : Attempt σ ε α) s := of_run run_throw (refl_of R s)

theorem bind (hx : Leads R x s)
    (hf : ∀ a s', x.run s = some (.ok a, s') → Leads R (f a) s') : Leads R (x >>= f) s := by
  intro r u hu
  rw [run_bind] at hu
  rcases hrun : x.run s with _ | ⟨e | a, s'⟩
  · rw [hrun] at hu
    exact absurd hu nofun
  · rw [hrun, Option.some.injEq, Prod.mk.injEq] at hu
    exact hx _ _ (hrun.trans (by rw [hu.2]))
  · rw [hrun] at hu
    exact trans_of R (hx _ _ hrun) (hf a s' hrun r u hu)

theorem turns {body : β → Attempt σ ε (ForInStep β)} (hbody : ∀ b s, Leads R (body b) s) (n : ℕ)
    (b : β) (s : σ) : Leads R (Attempt.turns body n b) s := by
  induction n generalizing b s with
  | zero => exact pure b
  | succ n ih =>
    refine bind (hbody b s) fun r s' _ => ?_
    cases r with
    | done b => exact pure b
    | yield b => exact ih b s'

end Preorders

end Leads

section Returning

/-- The run from this state has a value: it neither fails nor panics. -/
def Returns (x : Attempt σ ε α) (s : σ) : Prop := ∃ a s', x.run s = some (.ok a, s')

namespace Returns

variable {x : Attempt σ ε α} {f : α → Attempt σ ε β} {s : σ} {c : Prop} [Decidable c]

theorem of_run {a : α} {u : σ} (h : x.run s = some (.ok a, u)) : Returns x s := ⟨a, u, h⟩

theorem pure (a : α) : Returns (pure a : Attempt σ ε α) s := of_run run_pure

theorem bind_of_ok {a : α} {u : σ} (h : x.run s = some (.ok a, u)) (hf : Returns (f a) u) :
    Returns (x >>= f) s := by
  obtain ⟨b, v, hv⟩ := hf
  exact of_run ((run_bind_of_ok h).trans hv)

theorem bind (hx : Returns x s)
    (hf : ∀ a s', x.run s = some (.ok a, s') → Returns (f a) s') : Returns (x >>= f) s := by
  obtain ⟨a, s', hrun⟩ := hx
  exact bind_of_ok hrun (hf a s' hrun)

theorem demand_bind {y : Attempt σ ε α} (hc : c) (hy : Returns y s) :
    Returns (do demand c; y) s := by
  obtain ⟨a, u, hu⟩ := hy
  refine of_run (a := a) (u := u) ?_
  rw [run_demand_bind, if_pos hc, hu]

theorem sum_bind {bits m n : ℕ} {f : ℕ → Attempt σ ε β} (h : m + n < 2 ^ bits)
    (hf : Returns (f (m + n)) s) : Returns (Attempt.sum bits m n >>= f) s := by
  obtain ⟨b, u, hu⟩ := hf
  exact of_run ((run_sum_bind h).trans hu)

theorem ite {y z : Attempt σ ε α} (hy : c → Returns y s) (hz : ¬ c → Returns z s) :
    Returns (if c then y else z) s := by
  split
  · next h => exact hy h
  · next h => exact hz h

end Returns

/-- Where the run from this state has a value, it is such a value. -/
def Gives (Q : α → Prop) (x : Attempt σ ε α) (s : σ) : Prop :=
  ∀ a s', x.run s = some (.ok a, s') → Q a

namespace Gives

variable {Q : α → Prop} {P : β → Prop} {x : Attempt σ ε α} {f : α → Attempt σ ε β} {s : σ}
  {c : Prop} [Decidable c]

theorem of_run {a : α} {u : σ} (h : x.run s = some (.ok a, u)) (ha : Q a) : Gives Q x s := by
  intro b u' hu
  rw [h, Option.some.injEq, Prod.mk.injEq] at hu
  exact Except.ok.inj hu.1 ▸ ha

theorem pure {a : α} (h : Q a) : Gives Q (pure a : Attempt σ ε α) s := of_run run_pure h

theorem throw (e : ε) : Gives Q (throw e : Attempt σ ε α) s := by
  intro a u hu
  simp at hu

theorem bind (hf : ∀ a u, x.run s = some (.ok a, u) → Gives P (f a) u) :
    Gives P (x >>= f) s := by
  intro b u hu
  obtain ⟨a, s', hx, hb⟩ := run_bind_ok.mp hu
  exact hf a s' hx b u hb

theorem demand_bind {y : Attempt σ ε α} (hy : c → Gives Q y s) :
    Gives Q (do demand c; y) s := by
  intro a u hu
  rw [run_demand_bind] at hu
  obtain ⟨hc, hu⟩ := Option.ite_none_right_eq_some.mp hu
  exact hy hc a u hu

theorem ite {y z : Attempt σ ε α} (hy : c → Gives Q y s) (hz : ¬ c → Gives Q z s) :
    Gives Q (if c then y else z) s := by
  split
  · next h => exact hy h
  · next h => exact hz h

end Gives

/-- No run fails: it returns or panics. -/
def Unfailing (x : Attempt σ ε α) : Prop := ∀ s e s', x.run s ≠ some (.error e, s')

namespace Unfailing

variable {x : Attempt σ ε α} {f : α → Attempt σ ε β} {c : Prop} [Decidable c]

theorem of {g : σ → Option (Except ε α × σ)} (h : ∀ s e s', g s ≠ some (.error e, s')) :
    Unfailing (Attempt.of g) := h

theorem pure (a : α) : Unfailing (pure a : Attempt σ ε α) := by
  intro s e s' h
  simp at h

theorem bind (hx : Unfailing x) (hf : ∀ a, Unfailing (f a)) : Unfailing (x >>= f) := by
  intro s e s' h
  rw [run_bind] at h
  rcases hrun : x.run s with _ | ⟨e' | a, u⟩
  · simp [hrun] at h
  · exact hx s e' u hrun
  · rw [hrun] at h
    exact hf a u e s' h

theorem demand : Unfailing (demand c : Attempt σ ε Unit) := by
  intro s e s' h
  simp [run_demand] at h

theorem sum (bits m n : ℕ) : Unfailing (Attempt.sum bits m n : Attempt σ ε ℕ) :=
  bind demand fun _ => pure _

theorem ite {y z : Attempt σ ε α} (hy : Unfailing y) (hz : Unfailing z) :
    Unfailing (if c then y else z) := by
  split
  · exact hy
  · exact hz

end Unfailing

end Returning

end Attempt

end Attempts
