import NajmKernel.Attempts

/-! Two runs side by side: computations that take related states to related states wherever both
return, and what a loop leaves behind of one of its turns. -/
namespace Attempts

namespace Attempt

variable {σ τ ε α β γ : Type}

/-- From states related by `P`, where both return, the values agree and `Q` relates the states. -/
def Coupled (P Q : σ → τ → Prop) (x : Attempt σ ε α) (y : Attempt τ ε α) : Prop :=
  ∀ s t a b s' t', P s t → x.run s = some (.ok a, s') → y.run t = some (.ok b, t') →
    a = b ∧ Q s' t'

namespace Coupled

variable {P Q R : σ → τ → Prop} {x : Attempt σ ε α} {y : Attempt τ ε α}
  {f : α → Attempt σ ε β} {g : α → Attempt τ ε β}

theorem pure (a : α) : Coupled P P (pure a : Attempt σ ε α) (pure a : Attempt τ ε α) := by
  intro s t b c s' t' h hx hy
  obtain ⟨hb, rfl⟩ := Prod.mk.inj (Option.some.inj hx)
  obtain ⟨hc, rfl⟩ := Prod.mk.inj (Option.some.inj hy)
  exact ⟨(Except.ok.inj hb).symm.trans (Except.ok.inj hc), h⟩

theorem bind (hx : Coupled P Q x y) (hf : ∀ a, Coupled Q R (f a) (g a)) :
    Coupled P R (x >>= f) (y >>= g) := by
  intro s t b c s' t' h hs ht
  obtain ⟨a, u, hu, hs⟩ := run_bind_ok.mp hs
  obtain ⟨a', v, hv, ht⟩ := run_bind_ok.mp ht
  obtain ⟨rfl, huv⟩ := hx s t a a' u v h hu hv
  exact hf a u v b c s' t' huv hs ht

theorem demand_bind {c : Prop} [Decidable c] (h : c → Coupled P Q x y) :
    Coupled P Q (do demand c; x) (do demand c; y) := by
  intro s t a b s' t' hst hx hy
  rw [run_demand_bind] at hx hy
  by_cases hc : c
  · rw [if_pos hc] at hx hy
    exact h hc s t a b s' t' hst hx hy
  · rw [if_neg hc] at hx
    exact absurd hx nofun

theorem sum (bits m n : ℕ) : Coupled P P (Attempt.sum bits m n : Attempt σ ε ℕ)
    (Attempt.sum bits m n : Attempt τ ε ℕ) :=
  demand_bind fun _ => pure _

theorem ite {c : Prop} [Decidable c] {x' : Attempt σ ε α} {y' : Attempt τ ε α}
    (hx : c → Coupled P Q x y) (hx' : ¬ c → Coupled P Q x' y') :
    Coupled P Q (if c then x else x') (if c then y else y') := by
  by_cases h : c
  · rw [if_pos h, if_pos h]
    exact hx h
  · rw [if_neg h, if_neg h]
    exact hx' h

theorem forM {l : List γ} {f : γ → Attempt σ ε Unit} {g : γ → Attempt τ ε Unit}
    (h : ∀ a ∈ l, Coupled P P (f a) (g a)) : Coupled P P (l.forM f) (l.forM g) := by
  induction l with
  | nil => exact pure ()
  | cons a l ih =>
    exact bind (h a List.mem_cons_self) fun _ => ih fun b hb => h b (List.mem_cons_of_mem a hb)

theorem foldlM {l : List γ} {f : β → γ → Attempt σ ε β} {g : β → γ → Attempt τ ε β}
    (h : ∀ b, ∀ a ∈ l, Coupled P P (f b a) (g b a)) (b : β) :
    Coupled P P (l.foldlM f b) (l.foldlM g b) := by
  induction l generalizing b with
  | nil => exact pure b
  | cons a l ih =>
    rw [List.foldlM_cons, List.foldlM_cons]
    exact bind (h b a List.mem_cons_self) fun c =>
      ih (fun b d hd => h b d (List.mem_cons_of_mem a hd)) c

end Coupled

section Loops

variable {P : σ → Prop} {l : List γ} {f : γ → Attempt σ ε Unit} {s s' : σ} {a : γ}

theorem forM_keeps (hkeep : ∀ a ∈ l, ∀ s s', P s → (f a).run s = some (.ok (), s') → P s')
    (h : (l.forM f).run s = some (.ok (), s')) (hs : P s) : P s' := by
  induction l generalizing s with
  | nil =>
    obtain ⟨-, rfl⟩ := Prod.mk.inj (Option.some.inj h)
    exact hs
  | cons b l ih =>
    obtain ⟨⟨⟩, u, hu, hrest⟩ := run_bind_ok.mp h
    exact ih (fun c hc => hkeep c (List.mem_cons_of_mem b hc)) hrest
      (hkeep b List.mem_cons_self s u hs hu)

/-- What one turn establishes and every other keeps, the loop establishes. -/
theorem forM_establishes (ha : a ∈ l)
    (hkeep : ∀ a ∈ l, ∀ s s', P s → (f a).run s = some (.ok (), s') → P s')
    (hest : ∀ s s', (f a).run s = some (.ok (), s') → P s')
    (h : (l.forM f).run s = some (.ok (), s')) : P s' := by
  induction l generalizing s with
  | nil => exact absurd ha List.not_mem_nil
  | cons b l ih =>
    obtain ⟨⟨⟩, u, hu, hrest⟩ := run_bind_ok.mp h
    have hkeep' : ∀ a ∈ l, ∀ s s', P s → (f a).run s = some (.ok (), s') → P s' :=
      fun c hc => hkeep c (List.mem_cons_of_mem b hc)
    rcases List.mem_cons.mp ha with rfl | ha
    · exact forM_keeps hkeep' hrest (hest s u hu)
    · exact ih ha hkeep' hrest

end Loops

end Attempt

end Attempts
