import NajmKernel.Attempts

/-! Pictures in layers, and computations that paint one over what is there. -/
namespace Layers

open Attempts Attempt

section Pictures

variable {π χ γ : Type}

/-- What is shown, at the places where something is. -/
abbrev Layer (π χ : Type) := π → Option χ

def above (top bottom : Layer π χ) : Layer π χ := fun p => (top p).or (bottom p)

/-- The later in the list, the higher. -/
def stack : List (Layer π χ) → Layer π χ
  | [] => fun _ => none
  | layer :: rest => above (stack rest) layer

/-- One colour, at the places of the shape. -/
def plain (shape : π → Prop) [DecidablePred shape] (c : χ) : Layer π χ :=
  fun p => if shape p then some c else none

variable {l : List γ} {f : γ → Layer π χ} {p : π}

theorem plain_congr {shape shape' : π → Prop} [DecidablePred shape] [DecidablePred shape'] {c : χ}
    (h : shape p ↔ shape' p) : plain shape c p = plain shape' c p := by
  rw [plain, plain]
  exact if_congr h rfl rfl

theorem above_plain {shape shape' : π → Prop} [DecidablePred shape] [DecidablePred shape'] {c : χ} :
    above (plain shape c) (plain shape' c) = plain (fun p => shape p ∨ shape' p) c := by
  funext p
  rw [above, plain, plain, plain]
  by_cases h : shape p
  · rw [if_pos h, if_pos (Or.inl h), Option.some_or]
  · rw [if_neg h, Option.none_or]
    exact if_congr (or_iff_right h).symm rfl rfl

theorem above_assoc (top middle bottom : Layer π χ) :
    above (above top middle) bottom = above top (above middle bottom) :=
  funext fun _ => Option.or_assoc

theorem stack_append (l l' : List (Layer π χ)) : stack (l ++ l') = above (stack l') (stack l) := by
  induction l with
  | nil => exact funext fun _ => Option.or_none.symm
  | cons layer l ih => rw [List.cons_append, stack, ih, above_assoc, stack]

/-- Something is shown where one of the layers shows something. -/
theorem stack_covers {layers : List (Layer π χ)} {layer : Layer π χ} (h : layer ∈ layers)
    (hp : (layer p).isSome = true) : (stack layers p).isSome = true := by
  induction layers with
  | nil => cases h
  | cons first layers ih =>
    rw [stack, above, Option.isSome_or]
    rcases List.mem_cons.mp h with rfl | h
    · rw [hp, Bool.or_true]
    · rw [ih h, Bool.true_or]

theorem stack_blank {layers : List (Layer π χ)} (h : ∀ layer ∈ layers, layer p = none) :
    stack layers p = none := by
  induction layers with
  | nil => rfl
  | cons layer layers ih =>
    obtain ⟨hlayer, hlayers⟩ := List.forall_mem_cons.mp h
    rw [stack, above, ih hlayers, hlayer]
    rfl

/-- A layer is seen where none of the higher ones shows anything. -/
theorem stack_seen {layers layers' : List (Layer π χ)} {layer : Layer π χ} {c : χ}
    (h : layer p = some c) (hhigher : ∀ layer ∈ layers', layer p = none) :
    stack (layers ++ layer :: layers') p = some c := by
  rw [stack_append, above, stack, above, stack_blank hhigher, h]
  rfl

theorem stack_none (h : ∀ a ∈ l, f a p = none) : stack (l.map f) p = none :=
  stack_blank (List.forall_mem_map.mpr h)

/-- Where the layers agree, it does not matter which is the higher. -/
theorem stack_some {c : χ} (hall : ∀ a ∈ l, f a p = none ∨ f a p = some c)
    (hsome : ∃ a ∈ l, f a p = some c) : stack (l.map f) p = some c := by
  induction l with
  | nil =>
    obtain ⟨a, ha, -⟩ := hsome
    cases ha
  | cons a l ih =>
    obtain ⟨ha, hl⟩ := List.forall_mem_cons.mp hall
    rw [List.map_cons, stack, above]
    by_cases hrest : ∃ b ∈ l, f b p = some c
    · rw [ih hl hrest]
      rfl
    · have hnone : ∀ b ∈ l, f b p = none := by
        intro b hb
        exact (hl b hb).resolve_right fun h => hrest ⟨b, hb, h⟩
      rw [stack_none hnone, Option.none_or]
      obtain ⟨b, hb, hc⟩ := hsome
      rcases List.mem_cons.mp hb with rfl | hb
      · exact hc
      · exact absurd ⟨b, hb, hc⟩ hrest

theorem stack_stack_none {δ : Type} {k : γ → List δ} {g : γ → δ → Layer π χ}
    (h : ∀ a ∈ l, ∀ b ∈ k a, g a b p = none) :
    stack (l.map fun a => stack ((k a).map (g a))) p = none :=
  stack_none fun a ha => stack_none (h a ha)

theorem stack_stack_some {δ : Type} {k : γ → List δ} {g : γ → δ → Layer π χ} {c : χ}
    (hall : ∀ a ∈ l, ∀ b ∈ k a, g a b p = none ∨ g a b p = some c)
    (hsome : ∃ a ∈ l, ∃ b ∈ k a, g a b p = some c) :
    stack (l.map fun a => stack ((k a).map (g a))) p = some c := by
  refine stack_some (fun a ha => ?_) ?_
  · by_cases hrow : ∃ b ∈ k a, g a b p = some c
    · exact Or.inr (stack_some (hall a ha) hrow)
    · refine Or.inl (stack_none fun b hb => ?_)
      exact (hall a ha b hb).resolve_right fun h => hrow ⟨b, hb, h⟩
  · obtain ⟨a, ha, hrow⟩ := hsome
    exact ⟨a, ha, stack_some (hall a ha) hrow⟩

theorem stack_plain {shape : γ → π → Prop} [∀ a, DecidablePred (shape a)] {c : χ} :
    stack (l.map fun a => plain (shape a) c) p = plain (fun p => ∃ a ∈ l, shape a p) c p := by
  by_cases h : ∃ a ∈ l, shape a p
  · rw [plain, if_pos h]
    refine stack_some (fun a _ => ?_) ?_
    · by_cases ha : shape a p
      · exact Or.inr (if_pos ha)
      · exact Or.inl (if_neg ha)
    · obtain ⟨a, ha, hshape⟩ := h
      exact ⟨a, ha, if_pos hshape⟩
  · rw [plain, if_neg h]
    exact stack_none fun a ha => if_neg fun hshape => h ⟨a, ha, hshape⟩

end Pictures

section Painting

variable {σ ε α β γ π χ ψ : Type}

/-- How the places of a state are seen. -/
structure Canvas (σ π χ ψ : Type) where
  On : π → Prop
  view : σ → π → ψ
  shown : χ → ψ

/-- The computation returns, from any state, and the layer is seen over what was seen before. -/
def Paints (v : Canvas σ π χ ψ) (x : Attempt σ ε α) (a : α) (layer : Layer π χ) : Prop :=
  ∀ s, ∃ s', x.run s = some (.ok a, s') ∧
    ∀ p, v.On p → v.view s' p = ((layer p).map v.shown).getD (v.view s p)

variable {v : Canvas σ π χ ψ} {x : Attempt σ ε α} {a : α} {b : β} {layer layer' : Layer π χ}

namespace Paints

theorem congr (h : Paints v x a layer) (heq : ∀ p, v.On p → layer p = layer' p) :
    Paints v x a layer' := by
  intro s
  obtain ⟨s', hrun, hview⟩ := h s
  exact ⟨s', hrun, fun p hp => (heq p hp) ▸ hview p hp⟩

theorem pure (a : α) : Paints v (pure a : Attempt σ ε α) a fun _ => none :=
  fun s => ⟨s, rfl, fun _ _ => rfl⟩

theorem bind {f : α → Attempt σ ε β} (hx : Paints v x a layer) (hf : Paints v (f a) b layer') :
    Paints v (x >>= f) b (above layer' layer) := by
  intro s
  obtain ⟨u, hu, hview⟩ := hx s
  obtain ⟨s', hrun, hview'⟩ := hf u
  refine ⟨s', (run_bind_of_ok hu).trans hrun, fun p hp => ?_⟩
  rw [hview' p hp, hview p hp, above]
  cases layer' p with
  | none => rfl
  | some c => rfl

theorem bind_blank {f : α → Attempt σ ε β} (hx : Paints v x a layer)
    (hf : Paints v (f a) b fun _ => none) : Paints v (x >>= f) b layer :=
  (hx.bind hf).congr fun _ _ => Option.none_or

theorem demand_bind {c : Prop} [Decidable c] (hc : c) (hx : Paints v x a layer) :
    Paints v (do demand c; x) a layer := by
  intro s
  obtain ⟨s', hrun, hview⟩ := hx s
  exact ⟨s', by rw [run_demand_bind, if_pos hc, hrun], hview⟩

theorem sum_bind {bits m n : ℕ} {f : ℕ → Attempt σ ε α} (hsum : m + n < 2 ^ bits)
    (hf : Paints v (f (m + n)) a layer) : Paints v (sum bits m n >>= f) a layer := by
  intro s
  obtain ⟨s', hrun, hview⟩ := hf s
  exact ⟨s', (run_sum_bind hsum).trans hrun, hview⟩

theorem sum {bits m n : ℕ} (hsum : m + n < 2 ^ bits) :
    Paints v (Attempt.sum bits m n : Attempt σ ε ℕ) (m + n) fun _ => none :=
  demand_bind hsum (pure _)

theorem forM {l : List γ} {f : γ → Attempt σ ε Unit} {g : γ → Layer π χ}
    (h : ∀ c ∈ l, Paints v (f c) () (g c)) : Paints v (l.forM f) () (stack (l.map g)) := by
  induction l with
  | nil => exact pure ()
  | cons c l ih =>
    obtain ⟨hc, hl⟩ := List.forall_mem_cons.mp h
    exact bind hc (ih hl)

/-- The turns of a loop, by their number and by what they start from. -/
theorem foldlM {l : List γ} {f : β → γ → Attempt σ ε β} {m : ℕ → β} {g : γ → ℕ → Layer π χ}
    (h : ∀ c i, l[i]? = some c → Paints v (f (m i) c) (m (i + 1)) (g c i)) :
    Paints v (l.foldlM f (m 0)) (m l.length) (stack (l.zipIdx.map fun c => g c.1 c.2)) := by
  have hfrom : ∀ (k : List γ) (i : ℕ), (∀ c j, k[j]? = some c → l[i + j]? = some c) →
      Paints v (k.foldlM f (m i)) (m (i + k.length))
        (stack ((k.zipIdx i).map fun c => g c.1 c.2)) := by
    intro k
    induction k with
    | nil => exact fun i _ => pure _
    | cons c k ih =>
      intro i hk
      have hrest := ih (i + 1) fun d j hj => by
        rw [Nat.add_assoc, Nat.add_comm 1]
        exact hk d (j + 1) hj
      rw [List.foldlM_cons, List.zipIdx_cons, List.map_cons, List.length_cons,
        ← Nat.add_assoc, Nat.add_right_comm]
      exact bind (h c i (hk c 0 rfl)) hrest
  have hwhole := hfrom l 0 fun c j hj => (Nat.zero_add j).symm ▸ hj
  rwa [Nat.zero_add] at hwhole

end Paints

end Painting

end Layers
