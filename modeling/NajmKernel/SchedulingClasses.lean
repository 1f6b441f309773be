import Mathlib.Order.Lattice
import Mathlib.Order.Nat
import Mathlib.Tactic.Common

/-! The scheduling classes: their order, their quanta and the two constants of the
anti-starvation rule. Time is counted in timer ticks. -/
namespace SchedulingClasses

/-- The declaration order is the priority order, lowest first. -/
inductive SchedClass where
  | background
  | normal
  | realtime
  deriving DecidableEq, Repr

/-- The discriminant, which indexes `ready_queues` and `stats`. -/
def SchedClass.index : SchedClass → ℕ
  | .background => 0
  | .normal => 1
  | .realtime => 2

theorem index_injective : Function.Injective SchedClass.index := by
  intro c d h
  cases c <;> cases d <;> simp_all [SchedClass.index]

instance : LinearOrder SchedClass := LinearOrder.lift' SchedClass.index index_injective

theorem lt_iff_index {c d : SchedClass} : c < d ↔ c.index < d.index := Iff.rfl

/-- All queues, in the order `for class in 0..self.ready_queues.len()` visits them. -/
def SchedClass.ascending : List SchedClass := [.background, .normal, .realtime]

def SchedClass.descending : List SchedClass := [.realtime, .normal, .background]

@[simp] theorem mem_ascending (c : SchedClass) : c ∈ SchedClass.ascending := by
  cases c <;> simp [SchedClass.ascending]

@[simp] theorem mem_descending (c : SchedClass) : c ∈ SchedClass.descending := by
  cases c <;> simp [SchedClass.descending]

/-- The slice `ready_queues[class + 1..]`. -/
def SchedClass.higher (c : SchedClass) : List SchedClass :=
  SchedClass.ascending.drop (c.index + 1)

@[simp] theorem mem_higher {c d : SchedClass} : d ∈ c.higher ↔ c < d := by
  cases c <;> cases d <;> decide

theorem not_lt_background {c : SchedClass} : ¬ c < .background := by
  cases c <;> decide

theorem not_realtime_lt {c : SchedClass} : ¬ SchedClass.realtime < c := by
  cases c <;> decide

def SchedClass.quantumTicks : SchedClass → ℕ
  | .realtime => 1
  | .normal => 3
  | .background => 6

theorem quantumTicks_pos (c : SchedClass) : 0 < c.quantumTicks := by
  cases c <;> decide

def starvationLimitTicks : ℕ := 50

def promotionIntervalTicks : ℕ := 5

structure ClassStats where
  dispatches : ℕ
  maxWaitTicks : ℕ
  promotions : ℕ
  deriving DecidableEq, Repr

end SchedulingClasses
