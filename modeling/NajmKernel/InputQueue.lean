import Mathlib.Data.List.Basic
import Mathlib.Logic.Function.Basic

/-! The ring of input events: full, it drops the oldest. -/
namespace InputQueue

def queueCapacity : ℕ := 256

structure InputEvent where
  kind : ℕ
  code : ℕ
  x : ℕ
  y : ℕ
  deriving DecidableEq, Repr, Inhabited

structure EventQueue where
  events : ℕ → InputEvent
  head : ℕ
  len : ℕ
  dropped : ℕ

def empty : EventQueue := ⟨fun _ => ⟨0, 0, 0, 0⟩, 0, 0, 0⟩

def push (q : EventQueue) (e : InputEvent) : EventQueue :=
  let q := if q.len = queueCapacity then
      { q with head := (q.head + 1) % queueCapacity, len := q.len - 1, dropped := q.dropped + 1 }
    else q
  { q with events := Function.update q.events ((q.head + q.len) % queueCapacity) e, len := q.len + 1 }

/-- Removes up to `count` events, the oldest first. -/
def poll : ℕ → EventQueue → List InputEvent × EventQueue
  | 0, q => ([], q)
  | count + 1, q =>
    if q.len = 0 then ([], q)
    else
      let rest := poll count { q with head := (q.head + 1) % queueCapacity, len := q.len - 1 }
      (q.events q.head :: rest.1, rest.2)

end InputQueue
