import Mathlib.Data.List.Basic

/-! A queue of bounded capacity that drops its oldest item for a new one: the account of every item,
and the rule by which another machine is shown to answer as the queue does. -/
namespace DropOldest

variable {α σ τ : Type*} {capacity : ℕ}

inductive Op (α : Type*) where
  | push (x : α)
  | poll (count : ℕ)

structure Queue (α : Type*) where
  items : List α
  dropped : ℕ

def Queue.push (capacity : ℕ) (q : Queue α) (x : α) : Queue α :=
  if q.items.length = capacity then ⟨q.items.tail ++ [x], q.dropped + 1⟩
  else ⟨q.items ++ [x], q.dropped⟩

/-- What an operation returns, and the queue after it. -/
def step (capacity : ℕ) (q : Queue α) : Op α → List α × Queue α
  | .push x => ([], q.push capacity x)
  | .poll count => (q.items.take count, ⟨q.items.drop count, q.dropped⟩)

/-- What each operation returns, and the state after all of them. -/
def answers (step : σ → Op α → List α × σ) : σ → List (Op α) → List (List α) × σ
  | s, [] => ([], s)
  | s, op :: ops =>
    let rest := answers step (step s op).2 ops
    ((step s op).1 :: rest.1, rest.2)

/-- The items that the operations push, in their order. -/
def pushed : List (Op α) → List α
  | [] => []
  | .push x :: ops => x :: pushed ops
  | .poll _ :: ops => pushed ops

section Simulations

variable {stepS : σ → Op α → List α × σ} {stepT : τ → Op α → List α × τ} {R : σ → τ → Prop}

/-- Machines that answer alike at each step, and stay related, answer alike. -/
theorem answers_of_simulates (h : ∀ s t op, R s t → (stepS s op).1 = (stepT t op).1 ∧
    R (stepS s op).2 (stepT t op).2) {s : σ} {t : τ} (hst : R s t) (ops : List (Op α)) :
    (answers stepS s ops).1 = (answers stepT t ops).1 ∧
      R (answers stepS s ops).2 (answers stepT t ops).2 := by
  induction ops generalizing s t with
  | nil => exact ⟨rfl, hst⟩
  | cons op ops ih =>
    obtain ⟨hanswer, hnext⟩ := h s t op hst
    obtain ⟨hrest, hlast⟩ := ih hnext
    exact ⟨congrArg₂ List.cons hanswer hrest, hlast⟩

end Simulations

section Accounts

variable {q : Queue α}

/-- Every item is pushed, returned, kept or dropped. -/
theorem step_account (hcapacity : 0 < capacity) (q : Queue α) (op : Op α) :
    q.items.length + q.dropped + (pushed [op]).length = (step capacity q op).1.length +
      (step capacity q op).2.items.length + (step capacity q op).2.dropped := by
  cases op with
  | push x =>
    simp only [step, Queue.push, pushed]
    split
    · next hfull =>
      simp only [List.length_append, List.length_tail, List.length_singleton, List.length_nil]
      omega
    · simp only [List.length_append, List.length_singleton, List.length_nil]
      omega
  | poll count =>
    have hparts := congrArg List.length (List.take_append_drop count q.items)
    rw [List.length_append] at hparts
    simp only [step, pushed, List.length_nil]
    omega

/-- What is returned and what is kept stand in the order in which they came. -/
theorem step_in_order (capacity : ℕ) (q : Queue α) (op : Op α) :
    ((step capacity q op).1 ++ (step capacity q op).2.items).Sublist (q.items ++ pushed [op]) := by
  cases op with
  | push x =>
    simp only [step, Queue.push, pushed]
    split
    · exact (List.tail_sublist _).append_right [x]
    · exact List.Sublist.refl _
  | poll count =>
    simp only [step, pushed, List.take_append_drop, List.append_nil]
    exact List.Sublist.refl _

theorem pushed_cons (op : Op α) (ops : List (Op α)) :
    pushed (op :: ops) = pushed [op] ++ pushed ops := by
  cases op <;> rfl

theorem answers_account (hcapacity : 0 < capacity) (q : Queue α) (ops : List (Op α)) :
    q.items.length + q.dropped + (pushed ops).length =
      (answers (step capacity) q ops).1.flatten.length +
        (answers (step capacity) q ops).2.items.length +
          (answers (step capacity) q ops).2.dropped := by
  induction ops generalizing q with
  | nil => simp only [answers, pushed, List.flatten_nil, List.length_nil, Nat.add_zero, Nat.zero_add]
  | cons op ops ih =>
    have hstep := step_account hcapacity q op
    have hrest := ih (step capacity q op).2
    rw [pushed_cons, List.length_append]
    simp only [answers, List.flatten_cons, List.length_append]
    omega

theorem answers_in_order (capacity : ℕ) (q : Queue α) (ops : List (Op α)) :
    ((answers (step capacity) q ops).1.flatten ++
      (answers (step capacity) q ops).2.items).Sublist (q.items ++ pushed ops) := by
  induction ops generalizing q with
  | nil =>
    simp only [answers, pushed, List.flatten_nil, List.nil_append, List.append_nil]
    exact List.Sublist.refl _
  | cons op ops ih =>
    rw [pushed_cons, ← List.append_assoc]
    simp only [answers, List.flatten_cons, List.append_assoc]
    refine ((ih (step capacity q op).2).append_left _).trans ?_
    rw [← List.append_assoc, ← List.append_assoc]
    exact (step_in_order capacity q op).append_right _

end Accounts

end DropOldest
