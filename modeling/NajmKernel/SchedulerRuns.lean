import NajmKernel.TaskScheduler
import NajmKernel.TransitionSystem
import Mathlib.Tactic.Common

/-! Runs of the scheduler alone: every operation that touches its state, one event each, with
the timer tick as the only event that moves time. An operation that would panic has no
successor. -/
namespace SchedulerRuns

open SchedulingClasses TaskScheduler TransitionSystem

structure State where
  scheduler : Scheduler
  now : ℕ

/-- `stamp` is the tick count a spawner read before it queued the task. -/
inductive Event where
  | spawn (task : Task) (stamp : ℕ)
  | yieldNow
  | yieldFromSyscall
  | tick
  | exitTask
  | setCurrentClass (c : SchedClass)
  | runUntilIdle
  | reapZombie
  deriving DecidableEq

def settle (now : ℕ) : Plan → Option State
  | .stay s => some ⟨s, now⟩
  | .switch s _ => some ⟨s, now⟩
  | .panic => none

/-- `run_until_idle` belongs to the boot context, which runs only while no task is current. -/
def next (s : State) : Event → Option State
  | .spawn task stamp =>
    if stamp ≤ s.now then some { s with scheduler := s.scheduler.enqueue task stamp } else none
  | .yieldNow => settle s.now (s.scheduler.planSwitch .voluntary s.now)
  | .yieldFromSyscall => settle s.now (s.scheduler.planSwitch .voluntaryFromUser s.now)
  | .tick => settle (s.now + 1) (s.scheduler.preempt (s.now + 1))
  | .exitTask => (s.scheduler.exitTask s.now 0).map fun out => { s with scheduler := out.1 }
  | .setCurrentClass c => some { s with scheduler := s.scheduler.setCurrentClass c }
  | .runUntilIdle =>
    if s.scheduler.current.isSome then none
    else match s.scheduler.startFirst s.now with
      | none => some s
      | some out => some { s with scheduler := out.1 }
  | .reapZombie => some { s with scheduler := { s.scheduler with zombie := none } }

def initial : State := ⟨.new, 0⟩

/-- All that one event can do to the queues, the current task and the promotion clock. -/
inductive Move (now : ℕ) : Scheduler → Scheduler → Prop where
  | stay {s : Scheduler} : Move now s s
  | spawn {s : Scheduler} {t : Task} {stamp : ℕ} (h : stamp ≤ now) :
      Move now s (s.enqueue t stamp)
  | handOver {s s₁ : Scheduler} {current next : Task} {p : Bool}
      (hc : s.current = some current) (pick : Pick s now next p s₁) :
      Move now s (s₁.handOver current next p now)
  | putBack {s s₁ : Scheduler} {next : Task} {p : Bool} (hc : s.current = none)
      (pick : Pick s now next p s₁) : Move now s (s₁.putBack next)
  | replace {s s₁ : Scheduler} {dying next : Task} {p : Bool} (hc : s.current = some dying)
      (pick : Pick { s with current := none, zombie := some dying } now next p s₁) :
      Move now s (s₁.dispatch next p now)
  | last {s : Scheduler} {dying : Task} (hc : s.current = some dying)
      (hq : ∀ c, s.readyQueues c = []) :
      Move now s { s with current := none, zombie := some dying }
  | start {s s₁ : Scheduler} {next : Task} {p : Bool} (hc : s.current = none)
      (pick : Pick s now next p s₁) : Move now s (s₁.dispatch next p now)
  | reclass {s : Scheduler} {c : SchedClass} : Move now s (s.setCurrentClass c)
  | reap {s : Scheduler} : Move now s { s with zombie := none }

theorem planSwitch_move {s : Scheduler} {kind : SwitchKind} {now : ℕ} {u : State}
    (h : settle now (s.planSwitch kind now) = some u) : u.now = now ∧ Move now s u.scheduler := by
  cases hp : s.planSwitch kind now with
  | stay s' =>
    obtain rfl : ⟨s', now⟩ = u := by simpa [hp, settle] using h
    refine ⟨rfl, ?_⟩
    rcases planSwitch_stay hp with ⟨rfl, _⟩ | ⟨hc, _, next, p, s₁, pick, rfl⟩
    · exact .stay
    · exact .putBack hc pick
  | switch s' sw =>
    obtain rfl : ⟨s', now⟩ = u := by simpa [hp, settle] using h
    obtain ⟨current, next, p, s₁, pick, hc, rfl, _⟩ := planSwitch_switch hp
    exact ⟨rfl, .handOver hc pick⟩
  | panic => simp [hp, settle] at h

theorem preempt_move {s : Scheduler} {now : ℕ} {u : State}
    (h : settle now (s.preempt now) = some u) :
    u.now = now ∧ Move now s.chargeTick u.scheduler := by
  unfold Scheduler.preempt at h
  by_cases hs : s.chargeTick.shouldSwitch now = true
  · exact planSwitch_move (by simpa [hs] using h)
  · obtain rfl : ⟨s.chargeTick, now⟩ = u := by simpa [hs, settle] using h
    exact ⟨rfl, .stay⟩

/-- Only a tick moves time, and it charges the running task first. -/
theorem next_cases {s u : State} {e : Event} (h : next s e = some u) :
    (e = .tick ∧ u.now = s.now + 1 ∧ Move u.now s.scheduler.chargeTick u.scheduler) ∨
      (e ≠ .tick ∧ u.now = s.now ∧ Move u.now s.scheduler u.scheduler) := by
  cases e with
  | tick =>
    obtain ⟨hn, hm⟩ := preempt_move h
    exact Or.inl ⟨rfl, hn, hn ▸ hm⟩
  | spawn task stamp =>
    right
    simp only [next, Option.ite_none_right_eq_some, Option.some.injEq] at h
    obtain ⟨hle, rfl⟩ := h
    exact ⟨by simp, rfl, .spawn hle⟩
  | yieldNow =>
    obtain ⟨hn, hm⟩ := planSwitch_move h
    exact Or.inr ⟨by simp, hn, hn ▸ hm⟩
  | yieldFromSyscall =>
    obtain ⟨hn, hm⟩ := planSwitch_move h
    exact Or.inr ⟨by simp, hn, hn ▸ hm⟩
  | exitTask =>
    right
    simp only [next, Option.map_eq_some_iff] at h
    obtain ⟨⟨s', reaped, sw⟩, he, rfl⟩ := h
    refine ⟨by simp, rfl, ?_⟩
    obtain ⟨dying, hc, _, ⟨next, p, s₁, pick, rfl, _⟩ | ⟨hq, rfl, _⟩⟩ := exitTask_cases he
    · exact .replace hc pick
    · exact .last hc hq
  | setCurrentClass c =>
    obtain rfl : _ = u := Option.some.inj h
    exact Or.inr ⟨by simp, rfl, .reclass⟩
  | runUntilIdle =>
    right
    cases hc : s.scheduler.current with
    | some t => simp [next, hc] at h
    | none =>
      simp only [next, hc, Option.isSome_none, Bool.false_eq_true, if_false] at h
      cases hs : s.scheduler.startFirst s.now with
      | none =>
        obtain rfl : s = u := by simpa [hs] using h
        exact ⟨by simp, rfl, .stay⟩
      | some out =>
        obtain ⟨s', sp⟩ := out
        obtain rfl : _ = u := by simpa [hs] using h
        obtain ⟨next, p, s₁, pick, rfl, _⟩ := startFirst_cases hs
        exact ⟨by simp, rfl, .start hc pick⟩
  | reapZombie =>
    obtain rfl : _ = u := Option.some.inj h
    exact Or.inr ⟨by simp, rfl, .reap⟩

/-- What a tick does to a running task: nothing but the charge, when the task may go on or
nobody waits; otherwise a switch. -/
theorem tick_cases {s u : State} {t : Task} (h : next s .tick = some u)
    (ht : s.scheduler.chargeTick.current = some t) :
    u.now = s.now + 1 ∧
      (((s.scheduler.chargeTick.shouldPreempt t.schedClass t.ticksUsed t.promoted (s.now + 1) = true →
            ∀ c, s.scheduler.readyQueues c = []) ∧ u.scheduler = s.scheduler.chargeTick) ∨
        s.scheduler.chargeTick.shouldPreempt t.schedClass t.ticksUsed t.promoted (s.now + 1) = true ∧
          ∃ v p s₁, Pick s.scheduler.chargeTick (s.now + 1) v p s₁ ∧
            u.scheduler = s₁.handOver t v p (s.now + 1)) := by
  simp only [next, Scheduler.preempt, Scheduler.shouldSwitch, ht] at h
  cases hs : s.scheduler.chargeTick.shouldPreempt t.schedClass t.ticksUsed t.promoted (s.now + 1) with
  | false =>
    obtain rfl : ⟨s.scheduler.chargeTick, s.now + 1⟩ = u := by simpa [hs, settle] using h
    exact ⟨rfl, Or.inl ⟨by simp, rfl⟩⟩
  | true =>
    simp only [hs, if_true] at h
    cases hp : s.scheduler.chargeTick.planSwitch .preemptive (s.now + 1) with
    | panic => simp [hp, settle] at h
    | stay s' =>
      obtain rfl : ⟨s', s.now + 1⟩ = u := by simpa [hp, settle] using h
      rcases planSwitch_stay hp with ⟨rfl, hempty⟩ | ⟨hc, _⟩
      · exact ⟨rfl, Or.inl ⟨fun _ => hempty, rfl⟩⟩
      · simp [hc] at ht
    | switch s' sw =>
      obtain rfl : ⟨s', s.now + 1⟩ = u := by simpa [hp, settle] using h
      obtain ⟨current, v, p, s₁, pick, hc, rfl, _⟩ := planSwitch_switch hp
      obtain rfl : current = t := Option.some.inj (hc.symm.trans ht)
      exact ⟨rfl, Or.inr ⟨rfl, v, p, s₁, pick, rfl⟩⟩

theorem tick_enabled (s : State) : ∃ u, next s .tick = some u := by
  simp only [next, Scheduler.preempt]
  split
  · cases hp : s.scheduler.chargeTick.planSwitch .preemptive (s.now + 1) with
    | stay s' => exact ⟨_, rfl⟩
    | switch s' sw => exact ⟨_, rfl⟩
    | panic =>
      unfold Scheduler.planSwitch at hp
      split at hp
      · simp at hp
      · split at hp <;> simp at hp
  · exact ⟨_, rfl⟩

/-- What holds between any two events. -/
structure Invariant (s : State) : Prop where
  queue_class : ∀ c, ∀ t ∈ s.scheduler.readyQueues c, t.schedClass = c
  ready_le : ∀ c, ∀ t ∈ s.scheduler.readyQueues c, t.readySince ≤ s.now
  promotion_le : s.scheduler.lastPromotionTick ≤ s.now

theorem initial_invariant : Invariant initial := by
  constructor <;> simp [initial, Scheduler.new]

/-- The invariant speaks of the queues and the promotion clock only. -/
private theorem Invariant.congr {s u : Scheduler} {now : ℕ} (h : Invariant ⟨s, now⟩)
    (hq : u.readyQueues = s.readyQueues) (hp : u.lastPromotionTick = s.lastPromotionTick) :
    Invariant ⟨u, now⟩ :=
  ⟨fun c x hx => h.queue_class c x (hq ▸ hx), fun c x hx => h.ready_le c x (hq ▸ hx),
    hp.symm ▸ h.promotion_le⟩

private theorem Invariant.later {s : Scheduler} {now : ℕ} (h : Invariant ⟨s, now⟩) :
    Invariant ⟨s, now + 1⟩ :=
  ⟨h.queue_class, fun c x hx => Nat.le_succ_of_le (h.ready_le c x hx),
    Nat.le_succ_of_le h.promotion_le⟩

private theorem Invariant.enqueue {s : Scheduler} {now stamp : ℕ} (h : Invariant ⟨s, now⟩)
    (t : Task) (hs : stamp ≤ now) : Invariant ⟨s.enqueue t stamp, now⟩ := by
  rcases h with ⟨hc, hr, hp⟩
  refine ⟨?_, ?_, hp⟩
  · intro c x hx
    rcases mem_enqueue.mp hx with hx | ⟨rfl, rfl⟩
    · exact hc c x hx
    · rfl
  · intro c x hx
    rcases mem_enqueue.mp hx with hx | ⟨_, rfl⟩
    · exact hr c x hx
    · exact hs

private theorem Invariant.pick {s s₁ : Scheduler} {now : ℕ} {t : Task} {p : Bool}
    (h : Invariant ⟨s, now⟩) (pick : Pick s now t p s₁) : Invariant ⟨s₁, now⟩ := by
  rcases h with ⟨hc, hr, hp⟩
  exact ⟨fun c x hx => hc c x (pick.mem hx), fun c x hx => hr c x (pick.mem hx),
    pick.promotion_le hp⟩

theorem Move.invariant {s u : Scheduler} {now : ℕ} (h : Invariant ⟨s, now⟩)
    (hm : Move now s u) : Invariant ⟨u, now⟩ := by
  cases hm with
  | stay => exact h
  | spawn hs => exact h.enqueue _ hs
  | handOver hc pick => exact ((h.pick pick).enqueue _ (le_refl now)).congr rfl rfl
  | putBack hc pick =>
    have hq := pick.putBack_readyQueues h.queue_class
    exact ⟨fun c x hx => h.queue_class c x (hq ▸ hx), fun c x hx => h.ready_le c x (hq ▸ hx),
      (h.pick pick).promotion_le⟩
  | replace hc pick =>
    refine (Invariant.pick ?_ pick).congr rfl rfl
    exact h.congr rfl rfl
  | last hc hq => exact h.congr rfl rfl
  | start hc pick => exact (h.pick pick).congr rfl rfl
  | reclass => exact h.congr rfl rfl
  | reap => exact h.congr rfl rfl

/-- Charging the running task as time moves on. -/
theorem charged_invariant {s : State} (h : Invariant s) :
    Invariant ⟨s.scheduler.chargeTick, s.now + 1⟩ :=
  h.later.congr rfl rfl

theorem step_preserves_invariant : Preserves next Any Invariant := by
  intro s e u hi _ hn
  rcases next_cases hn with ⟨_, hnow, hm⟩ | ⟨_, hnow, hm⟩
  · rw [hnow] at hm
    have hu := hm.invariant (charged_invariant hi)
    rwa [← hnow] at hu
  · rw [hnow] at hm
    have hu := hm.invariant hi
    rwa [← hnow] at hu

theorem reachable_invariant {s : State} (h : Reachable next (· = initial) s) : Invariant s :=
  h.invariant (fun _ h => h ▸ initial_invariant) step_preserves_invariant

end SchedulerRuns
