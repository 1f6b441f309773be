import Mathlib.Algebra.Group.Nat.Defs
import Mathlib.Data.List.Basic

/-! Computations over a state that return, fail with an error, or panic: what a run of a sequence
or a loop of them means, and the rules that carry an invariant through it. -/
namespace Attempts

/-- A failure keeps the state it was reached in. -/
abbrev Attempt (σ ε : Type) := ExceptT ε (StateT σ Option)

namespace Attempt

variable {σ ε α β : Type}

/-- `none` is a panic. -/
def run (x : Attempt σ ε α) (s : σ) : Option (Except ε α × σ) := (ExceptT.run x).run s

def of (f : σ → Option (Except ε α × σ)) : Attempt σ ε α := ExceptT.mk f

def abort : Attempt σ ε α := of fun _ => none

/-- Fails unless the condition holds. -/
def ensure (c : Prop) [Decidable c] (e : ε) : Attempt σ ε Unit := if c then pure () else throw e

/-- Panics unless the condition holds. -/
def demand (c : Prop) [Decidable c] : Attempt σ ε Unit := if c then pure () else abort

/-- A sum that panics where it does not fit. -/
def sum (bits a b : ℕ) : Attempt σ ε ℕ := do
  demand (a + b < 2 ^ bits)
  pure (a + b)

/-- The elements from one index up to another; a range past the end panics. -/
def slice {γ : Type} (l : List γ) (start stop : ℕ) : Attempt σ ε (List γ) := do
  demand (start ≤ stop ∧ stop ≤ l.length)
  pure ((l.drop start).take (stop - start))

variable {x : Attempt σ ε α} {f : α → Attempt σ ε β} {s s' : σ} {a : α} {b : β} {e : ε}
  {c : Prop} [Decidable c]

@[simp] theorem run_of (g : σ → Option (Except ε α × σ)) : (of g).run s = g s := rfl

@[simp] theorem run_pure : (pure a : Attempt σ ε α).run s = some (.ok a, s) := rfl

@[simp] theorem run_throw : (throw e : Attempt σ ε α).run s = some (.error e, s) := rfl

@[simp] theorem run_abort : (abort : Attempt σ ε α).run s = none := rfl

theorem run_bind : (x >>= f).run s =
    match x.run s with
    | none => none
    | some (.ok a, s') => (f a).run s'
    | some (.error e, s') => some (.error e, s') := by
  change (x.run s).bind (fun r => (ExceptT.bindCont f r.1).run r.2) = _
  rcases x.run s with _ | ⟨e | a, s'⟩ <;> rfl

theorem run_bind_of_ok (h : x.run s = some (.ok a, s')) : (x >>= f).run s = (f a).run s' := by
  rw [run_bind, h]

theorem run_bind_ok : (x >>= f).run s = some (.ok b, s') ↔
    ∃ a u, x.run s = some (.ok a, u) ∧ (f a).run u = some (.ok b, s') := by
  rw [run_bind]
  rcases x.run s with _ | ⟨e | a, u⟩
  · simp
  · simp
  · simp

theorem run_bind_none : (x >>= f).run s = none ↔
    x.run s = none ∨ ∃ a u, x.run s = some (.ok a, u) ∧ (f a).run u = none := by
  rw [run_bind]
  rcases x.run s with _ | ⟨e | a, u⟩
  · simp
  · simp
  · simp

theorem run_ensure : (ensure c e : Attempt σ ε Unit).run s =
    if c then some (.ok (), s) else some (.error e, s) := by
  unfold ensure
  split <;> rfl

theorem run_ensure_ok : (ensure c e : Attempt σ ε Unit).run s = some (.ok (), s') ↔
    c ∧ s' = s := by
  rw [run_ensure]
  by_cases h : c
  · simp [h, eq_comm]
  · simp [h]

theorem run_ensure_bind {y : Attempt σ ε β} : (do ensure c e; y : Attempt σ ε β).run s =
    if c then y.run s else some (.error e, s) := by
  rw [run_bind, run_ensure]
  by_cases h : c
  · simp [h]
  · simp [h]

/-- What does not fail in the state it starts in has passed its check. -/
theorem ensure_bind_passes {y : Attempt σ ε β}
    (h : ∀ e', (do ensure c e; y : Attempt σ ε β).run s ≠ some (.error e', s)) :
    c ∧ ∀ e', y.run s ≠ some (.error e', s) := by
  simp only [run_ensure_bind] at h
  by_cases hc : c
  · simp only [if_pos hc] at h
    exact ⟨hc, h⟩
  · simp only [if_neg hc] at h
    exact absurd rfl (h e)

theorem run_demand : (demand c : Attempt σ ε Unit).run s = if c then some (.ok (), s) else none := by
  unfold demand
  split <;> rfl

theorem run_demand_bind {y : Attempt σ ε β} : (do demand c; y : Attempt σ ε β).run s =
    if c then y.run s else none := by
  rw [run_bind, run_demand]
  by_cases h : c
  · simp [h]
  · simp [h]

theorem run_slice {γ : Type} {l : List γ} {start stop : ℕ} (h : start ≤ stop ∧ stop ≤ l.length) :
    (slice l start stop : Attempt σ ε (List γ)).run s =
      some (.ok ((l.drop start).take (stop - start)), s) := by
  rw [slice, run_demand_bind, if_pos h, run_pure]

theorem run_sum_bind {bits m n : ℕ} {f : ℕ → Attempt σ ε β} (h : m + n < 2 ^ bits) :
    (sum bits m n >>= f).run s = (f (m + n)).run s := by
  apply run_bind_of_ok
  rw [sum, run_demand_bind, if_pos h, run_pure]

theorem run_sum_bind_none {bits m n : ℕ} {f : ℕ → Attempt σ ε β} (h : ¬ m + n < 2 ^ bits) :
    (sum bits m n >>= f).run s = none := by
  rw [run_bind, sum, run_demand_bind, if_neg h]

theorem run_sum_bind_ok {bits m n : ℕ} {f : ℕ → Attempt σ ε β} :
    (sum bits m n >>= f).run s = some (.ok b, s') ↔
      m + n < 2 ^ bits ∧ (f (m + n)).run s = some (.ok b, s') := by
  by_cases h : m + n < 2 ^ bits
  · rw [run_sum_bind h]
    simp only [h, true_and]
  · rw [run_sum_bind_none h]
    simp [h]

theorem run_slice_bind_ok {γ : Type} {l : List γ} {start stop : ℕ} {f : List γ → Attempt σ ε β} :
    (slice l start stop >>= f).run s = some (.ok b, s') ↔ (start ≤ stop ∧ stop ≤ l.length) ∧
      (f ((l.drop start).take (stop - start))).run s = some (.ok b, s') := by
  by_cases h : start ≤ stop ∧ stop ≤ l.length
  · rw [run_bind_of_ok (run_slice h)]
    simp only [h, and_self, true_and]
  · have hnone : (slice l start stop : Attempt σ ε (List γ)).run s = none := by
      rw [slice, run_demand_bind, if_neg h]
    rw [run_bind, hnone]
    simp only [h, false_and, reduceCtorEq]

section Loops

variable {g : β → α → Attempt σ ε β} {l d : List α} {b' : β} {I : List α → β → σ → Prop}

/-- What every turn of a loop keeps, a loop that ends keeps. -/
theorem run_foldlM_ok (hstep : ∀ before a after b s b' s', l = before ++ a :: after →
      I (d ++ before) b s → (g b a).run s = some (.ok b', s') →
      I (d ++ before ++ [a]) b' s')
    (h : (l.foldlM g b).run s = some (.ok b', s')) (hs : I d b s) : I (d ++ l) b' s' := by
  induction l generalizing d b s with
  | nil =>
    rw [List.foldlM_nil, run_pure, Option.some.injEq, Prod.mk.injEq, Except.ok.injEq] at h
    obtain ⟨rfl, rfl⟩ := h
    rwa [List.append_nil]
  | cons a l ih =>
    rw [List.foldlM_cons] at h
    obtain ⟨c, u, hu, h⟩ := run_bind_ok.mp h
    have hc := hstep [] a l b s c u rfl (by rwa [List.append_nil]) hu
    rw [List.append_nil] at hc
    have hend := ih (d := d ++ [a]) (fun before x after b s b' s' hl hi hx => by
      have := hstep (a :: before) x after b s b' s' (by rw [hl, List.cons_append])
      simp only [List.append_assoc, List.cons_append, List.nil_append] at this hi ⊢
      exact this hi hx) h hc
    simpa using hend

/-- A loop panics in some turn, after turns that returned. -/
theorem run_foldlM_none : (l.foldlM g b).run s = none ↔
    ∃ before a after b' s', l = before ++ a :: after ∧
      (before.foldlM g b).run s = some (.ok b', s') ∧ (g b' a).run s' = none := by
  induction l generalizing b s with
  | nil => simp
  | cons a l ih =>
    rw [List.foldlM_cons, run_bind_none]
    constructor
    · rintro (h | ⟨c, u, hu, h⟩)
      · exact ⟨[], a, l, b, s, rfl, by simp, h⟩
      · obtain ⟨before, x, after, b', s', rfl, hrun, hx⟩ := ih.mp h
        refine ⟨a :: before, x, after, b', s', rfl, ?_, hx⟩
        rw [List.foldlM_cons]
        exact run_bind_ok.mpr ⟨c, u, hu, hrun⟩
    · rintro ⟨before, x, after, b', s', hl, hrun, hx⟩
      cases before with
      | nil =>
        obtain ⟨rfl, rfl⟩ := List.cons.inj hl
        rw [List.foldlM_nil, run_pure, Option.some.injEq, Prod.mk.injEq, Except.ok.injEq] at hrun
        obtain ⟨rfl, rfl⟩ := hrun
        exact Or.inl hx
      | cons y before =>
        obtain ⟨rfl, rfl⟩ := List.cons.inj hl
        rw [List.foldlM_cons] at hrun
        obtain ⟨c, u, hu, hrun⟩ := run_bind_ok.mp hrun
        exact Or.inr ⟨c, u, hu, ih.mpr ⟨before, x, after, b', s', rfl, hrun, hx⟩⟩

/-- Where every turn returns, the loop does. -/
theorem run_foldlM_returns (hstep : ∀ before a after b s, l = before ++ a :: after →
      I (d ++ before) b s →
      ∃ b' s', (g b a).run s = some (.ok b', s') ∧ I (d ++ before ++ [a]) b' s')
    (hs : I d b s) :
    ∃ b' s', (l.foldlM g b).run s = some (.ok b', s') ∧ I (d ++ l) b' s' := by
  induction l generalizing d b s with
  | nil => exact ⟨b, s, rfl, by rwa [List.append_nil]⟩
  | cons a l ih =>
    obtain ⟨c, u, hu, hc⟩ := hstep [] a l b s rfl (by rwa [List.append_nil])
    rw [List.append_nil] at hc
    obtain ⟨b', s', hrun, hend⟩ := ih (d := d ++ [a]) (fun before x after b s hl hi => by
      have := hstep (a :: before) x after b s (by rw [hl, List.cons_append])
      simp only [List.append_assoc, List.cons_append] at this hi ⊢
      exact this hi) hc
    refine ⟨b', s', ?_, by simpa using hend⟩
    rw [List.foldlM_cons]
    exact run_bind_ok.mpr ⟨c, u, hu, hrun⟩

end Loops

end Attempt

section Ranges

variable {before after : List ℕ} {n start a : ℕ}

/-- The turns before one of a counting loop. -/
theorem range'_split (h : List.range' start n = before ++ a :: after) :
    before = List.range' start (a - start) ∧ start ≤ a ∧ a < start + n := by
  have hlen := congrArg List.length h
  rw [List.length_range', List.length_append, List.length_cons] at hlen
  have ha : (List.range' start n)[before.length]? = some a := by
    rw [h]
    simp
  rw [List.getElem?_range' (by omega), Option.some.injEq] at ha
  refine ⟨?_, by omega, by omega⟩
  apply List.ext_getElem?
  intro k
  by_cases hk : k < before.length
  · have hs := congrArg (fun l => l[k]?) h
    simp only [List.getElem?_append_left hk] at hs
    rw [← hs, List.getElem?_range' (by omega), List.getElem?_range' (by omega)]
  · rw [List.getElem?_eq_none (by omega), List.getElem?_eq_none]
    rw [List.length_range']
    omega

theorem range_split (h : List.range n = before ++ a :: after) :
    before = List.range a ∧ a < n := by
  rw [List.range_eq_range'] at h
  obtain ⟨h1, -, h2⟩ := range'_split h
  rw [Nat.sub_zero, ← List.range_eq_range'] at h1
  exact ⟨h1, by omega⟩

end Ranges

end Attempts
