import Mathlib.Data.List.Induction
import Mathlib.Tactic.Common

/-! Pieces of data put into one address space one after the other: when all of them are still there
in the end. -/
namespace Overwrites

/-- Data for the addresses from `addr` on. -/
structure Patch (β : Type) where
  addr : ℕ
  data : List β

variable {β : Type} {f : ℕ → Option β} {p q : Patch β} {ps : List (Patch β)}

def Patch.apply (p : Patch β) (f : ℕ → Option β) (a : ℕ) : Option β :=
  if p.addr ≤ a ∧ a < p.addr + p.data.length then p.data[a - p.addr]? else f a

def applyAll (ps : List (Patch β)) (f : ℕ → Option β) : ℕ → Option β :=
  ps.foldl (fun g p => p.apply g) f

def Patch.Holds (p : Patch β) (f : ℕ → Option β) : Prop :=
  ∀ k < p.data.length, f (p.addr + k) = p.data[k]?

/-- The two have the same data wherever both have some. -/
def Patch.Agrees (p q : Patch β) : Prop :=
  ∀ i < p.data.length, ∀ j < q.data.length, p.addr + i = q.addr + j → p.data[i]? = q.data[j]?

theorem applyAll_append {qs : List (Patch β)} :
    applyAll (ps ++ qs) f = applyAll qs (applyAll ps f) := List.foldl_append

theorem applyAll_snoc : applyAll (ps ++ [p]) f = p.apply (applyAll ps f) := applyAll_append

theorem Patch.holds_apply : p.Holds (p.apply f) := by
  intro k hk
  rw [Patch.apply, if_pos ⟨by omega, by omega⟩, Nat.add_sub_cancel_left]

theorem Patch.Holds.apply (hp : p.Holds f) (ha : p.Agrees q) : p.Holds (q.apply f) := by
  intro k hk
  rw [Patch.apply]
  split
  case isTrue hin =>
    exact (ha k hk _ (by omega) (by omega)).symm
  case isFalse => exact hp k hk

theorem Patch.Holds.agrees (hp : p.Holds f) (hq : q.Holds f) : p.Agrees q := by
  intro i hi j hj he
  rw [← hp i hi, ← hq j hj, he]

theorem Patch.Agrees.eq (h : p.Agrees q) (ha : p.addr = q.addr)
    (hl : p.data.length = q.data.length) : p = q := by
  have hdata : p.data = q.data := by
    apply List.ext_getElem?
    intro k
    by_cases hk : k < p.data.length
    · exact h k hk k (hl ▸ hk) (by rw [ha])
    · rw [List.getElem?_eq_none (by omega), List.getElem?_eq_none (by omega)]
  cases p
  cases q
  dsimp only at ha hdata
  rw [ha, hdata]

/-- All are there in the end exactly if no two of them differ anywhere. -/
theorem all_hold_iff : (∀ p ∈ ps, p.Holds (applyAll ps f)) ↔ ∀ p ∈ ps, ∀ q ∈ ps, p.Agrees q := by
  constructor
  · intro h p hp q hq
    exact (h p hp).agrees (h q hq)
  · intro h
    induction ps using List.reverseRecOn with
    | nil => simp
    | append_singleton ps q ih =>
      intro p hp
      rw [applyAll_snoc]
      rcases List.mem_append.mp hp with hin | hin
      · have hall := ih fun p hp q hq => h p (by simp [hp]) q (by simp [hq])
        exact (hall p hin).apply (h p (by simp [hin]) q (by simp))
      · obtain rfl := List.mem_singleton.mp hin
        exact Patch.holds_apply

end Overwrites
