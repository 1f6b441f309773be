import NajmKernel.StarvationBound

/-! What `pick_next` takes out of the ready queues, and when the fronts of the queues tell whether
any ready task starves. -/
namespace ReadyQueues

open SchedulingClasses TaskScheduler TransitionSystem SchedulerRuns StarvationBound

section Policy

variable {s s' : Scheduler} {c : SchedClass} {t : Task} {p : Bool} {now : ℕ} {rest : List Task}

/-- Every task waits in the queue of its class. -/
def Filed (s : Scheduler) : Prop := ∀ c, ∀ t ∈ s.readyQueues c, t.schedClass = c

/-- Of a queue its front is taken, and nothing else changes but the promotion clock: either no
higher class waits, or one does and the front has starved, with its rescue due. -/
structure Policy (s : Scheduler) (now : ℕ) (t : Task) (p : Bool) (s' : Scheduler)
    (c : SchedClass) (rest : List Task) : Prop where
  front : s.readyQueues c = t :: rest
  remaining : s' = { s with
    readyQueues := Function.update s.readyQueues c rest
    lastPromotionTick := if p then now else s.lastPromotionTick }
  highest : p = false → ∀ d, c < d → s.readyQueues d = []
  promoted : p = true → t.readySince + starvationLimitTicks ≤ now ∧
    (∃ d, c < d ∧ s.readyQueues d ≠ []) ∧ s.lastPromotionTick + promotionIntervalTicks ≤ now
  filed : Filed s → t.schedClass = c
  oldest : Fifo s → ∀ u ∈ s.readyQueues c, t.readySince ≤ u.readySince

theorem Pick.policy (pick : Pick s now t p s') : ∃ c rest, Policy s now t p s' c rest := by
  have hfiled {c : SchedClass} {rest : List Task} (hq : s.readyQueues c = t :: rest) :
      Filed s → t.schedClass = c := fun hf => hf c t (hq ▸ List.mem_cons_self)
  have holdest {c : SchedClass} {rest : List Task} (hq : s.readyQueues c = t :: rest) :
      Fifo s → ∀ u ∈ s.readyQueues c, t.readySince ≤ u.readySince := by
    intro hfifo u hu
    have hsorted := hfifo c
    rw [hq] at hsorted hu
    rcases List.mem_cons.mp hu with rfl | hu
    · exact le_refl _
    · exact List.rel_of_pairwise_cons hsorted hu
  cases pick with
  | @promotion c _ rest hq allowed starving outranked _ =>
    exact ⟨c, rest, hq, rfl, nofun, fun _ => ⟨starving_iff.mp starving, outranked, allowed⟩,
      hfiled hq, holdest hq⟩
  | @highest c _ rest hq higher _ =>
    exact ⟨c, rest, hq, rfl, fun _ => higher, nofun, hfiled hq, holdest hq⟩

theorem pickNext_eq_none : s.pickNext now = none ↔ ∀ c, s.readyQueues c = [] := by
  constructor
  · exact pickNext_none
  · intro hempty
    rw [Option.eq_none_iff_forall_ne_some]
    rintro ⟨t, p, s'⟩ h
    obtain ⟨c, rest, hq, -⟩ := (pickNext_cases h).queue
    rw [hempty c] at hq
    nomatch hq

/-- The whole policy of `pick_next`, for any population of the queues and any clock. -/
theorem pick_next_policy (s : Scheduler) (now : ℕ) :
    (s.pickNext now = none ↔ ∀ c, s.readyQueues c = []) ∧
      ∀ t p s', s.pickNext now = some (t, p, s') → ∃ c rest, Policy s now t p s' c rest :=
  ⟨pickNext_eq_none, fun _ _ _ h => Pick.policy (pickNext_cases h)⟩

/-- A background task that has waited long enough is promoted past a realtime one. -/
theorem pick_next_policy_rescue :
    let s := (Scheduler.new.enqueue (.new 1 (.ofSlot 0) none 0 .background) 0).enqueue
      (.new 2 (.ofSlot 1) none 0 .realtime) 40
    ∃ t s' c rest, Policy s 60 t true s' c rest := by
  intro s
  obtain ⟨c, rest, hpolicy⟩ := (pick_next_policy s 60).2 _ true _ rfl
  exact ⟨_, _, c, rest, hpolicy⟩

end Policy

section Order

variable {s u : Scheduler} {now : ℕ} {t : Task} {stamp : ℕ} {e : Event} {v w : State}

/-- The queues are in the order their tasks became ready, so that their fronts alone tell whether
any ready task starves. -/
structure FrontsTell (s : State) : Prop where
  fifo : Fifo s.scheduler
  exact : ∀ now, s.scheduler.anyStarving now = true ↔
    ∃ c, ∃ t ∈ s.scheduler.readyQueues c, t.readySince + starvationLimitTicks ≤ now

/-- A spawned task is not stamped before the last task of its queue. -/
def Timely (s : State) : Event → Prop
  | .spawn task stamp => ∀ t ∈ s.scheduler.readyQueues task.schedClass, t.readySince ≤ stamp
  | _ => True

instance decidableTimely (s : State) : ∀ e, Decidable (Timely s e)
  | .spawn task stamp =>
    inferInstanceAs
      (Decidable (∀ t ∈ s.scheduler.readyQueues task.schedClass, t.readySince ≤ stamp))
  | .yieldNow => isTrue trivial
  | .yieldFromSyscall => isTrue trivial
  | .tick => isTrue trivial
  | .exitTask => isTrue trivial
  | .setCurrentClass _ => isTrue trivial
  | .runUntilIdle => isTrue trivial
  | .reapZombie => isTrue trivial

theorem frontsTell_iff : FrontsTell v ↔ Fifo v.scheduler := by
  refine ⟨FrontsTell.fifo, fun hfifo => ⟨hfifo, fun now => ?_⟩⟩
  rw [anyStarving_iff]
  constructor
  · rintro ⟨c, hfront⟩
    cases hq : v.scheduler.readyQueues c with
    | nil =>
      rw [hq] at hfront
      nomatch hfront
    | cons t rest =>
      rw [hq, frontStarving_cons, starving_iff] at hfront
      exact ⟨c, t, hq ▸ List.mem_cons_self, hfront⟩
  · rintro ⟨c, t, hm, ht⟩
    exact ⟨c, frontStarving_of_mem hfifo hm ht⟩

/-- A task at the end of its queue keeps the order just when it is not stamped before the others. -/
theorem enqueue_fifo_iff (hfifo : Fifo s) : Fifo (s.enqueue t stamp) ↔
    ∀ x ∈ s.readyQueues t.schedClass, x.readySince ≤ stamp := by
  constructor
  · intro h x hx
    have hsorted := h t.schedClass
    rw [enqueue_queue, Function.update_self, List.pairwise_append] at hsorted
    exact hsorted.2.2 x hx _ (List.mem_singleton_self _)
  · intro hle c
    by_cases hc : c = t.schedClass
    · subst hc
      rw [enqueue_queue, Function.update_self, List.pairwise_append]
      refine ⟨hfifo _, List.pairwise_singleton _ _, fun x hx y hy => ?_⟩
      rw [List.mem_singleton.mp hy]
      exact hle x hx
    · rw [enqueue_queue, Function.update_of_ne hc]
      exact hfifo c

theorem planSwitch_fifo {kind : SwitchKind} (hi : Invariant ⟨s, now⟩) (hfifo : Fifo s)
    (h : settle now (s.planSwitch kind now) = some w) : Fifo w.scheduler := by
  cases hp : s.planSwitch kind now with
  | stay s' =>
    obtain rfl : ⟨s', now⟩ = w := by simpa [hp, settle] using h
    rcases planSwitch_stay hp with ⟨rfl, -⟩ | ⟨-, -, next, p, s₁, pick, rfl⟩
    · exact hfifo
    · have hq := pick.putBack_readyQueues hi.queue_class
      intro c
      rw [hq]
      exact hfifo c
  | switch s' sw =>
    obtain rfl : ⟨s', now⟩ = w := by simpa [hp, settle] using h
    obtain ⟨current, next, p, s₁, pick, -, rfl, -⟩ := planSwitch_switch hp
    exact (Fifo.pick hfifo pick).enqueue fun c y hy => hi.ready_le c y (pick.mem hy)
  | panic => simp [hp, settle] at h

theorem tick_fifo (hi : Invariant v) (hfifo : Fifo v.scheduler) (h : next v .tick = some w) :
    Fifo w.scheduler := by
  simp only [next, Scheduler.preempt] at h
  by_cases hs : v.scheduler.chargeTick.shouldSwitch (v.now + 1) = true
  · rw [if_pos hs] at h
    exact planSwitch_fifo (charged_invariant hi) hfifo h
  · rw [if_neg hs] at h
    obtain rfl : _ = w := Option.some.inj h
    exact hfifo

/-- Only a spawn can break the order. -/
theorem next_fifo (hi : Invariant v) (hfifo : Fifo v.scheduler) (ht : Timely v e)
    (h : next v e = some w) : Fifo w.scheduler := by
  cases e with
  | spawn task stamp =>
    obtain ⟨-, hw⟩ := Option.ite_none_right_eq_some.mp h
    obtain rfl := Option.some.inj hw
    exact (enqueue_fifo_iff hfifo).mpr ht
  | yieldNow => exact planSwitch_fifo hi hfifo h
  | yieldFromSyscall => exact planSwitch_fifo hi hfifo h
  | tick => exact tick_fifo hi hfifo h
  | exitTask =>
    obtain ⟨⟨s', reaped, sw⟩, he, rfl⟩ := Option.map_eq_some_iff.mp h
    obtain ⟨dying, -, -, ⟨next, p, s₁, pick, rfl, -⟩ | ⟨-, rfl, -⟩⟩ := exitTask_cases he
    · have hstart : Fifo { v.scheduler with current := none, zombie := some dying } := hfifo
      have hpicked := Fifo.pick hstart pick
      exact hpicked
    · exact hfifo
  | setCurrentClass c =>
    obtain rfl := Option.some.inj h
    exact hfifo
  | runUntilIdle =>
    simp only [next] at h
    obtain ⟨-, h⟩ := Option.ite_none_left_eq_some.mp h
    cases hs : v.scheduler.startFirst v.now with
    | none =>
      rw [hs] at h
      obtain rfl := Option.some.inj h
      exact hfifo
    | some out =>
      rw [hs] at h
      obtain rfl := Option.some.inj h
      obtain ⟨next, p, s₁, pick, hout, -⟩ := startFirst_cases hs
      have hpicked := Fifo.pick hfifo pick
      rw [show out.1 = _ from hout]
      exact hpicked
  | reapZombie =>
    obtain rfl := Option.some.inj h
    exact hfifo

/-- A spawner that is preempted by a realtime task once it has read the clock: a task of its class
is queued before it runs again and queues its own. -/
def staleSpawn : List Event :=
  [Event.spawn (.new 1 (.ofSlot 0) none 0 .normal) 0, .runUntilIdle,
    .spawn (.new 2 (.ofSlot 1) none 0 .realtime) 0] ++ List.replicate 40 Event.tick ++
  [Event.spawn (.new 3 (.ofSlot 2) none 0 .normal) 40] ++ List.replicate 11 Event.tick ++
  [Event.spawn (.new 4 (.ofSlot 3) none 0 .normal) 0]

/-- Looking at the fronts is enough in just the runs in which no task is queued with a stamp from
before the last one of its class. -/
theorem fronts_tell_iff {es : List Event} (h : exec next initial es = some w) :
    Always next FrontsTell initial es ↔ Meets next Timely initial es := by
  have hstart : Invariant initial ∧ Fifo initial.scheduler :=
    ⟨initial_invariant, fun c => List.Pairwise.nil⟩
  constructor
  · intro halways
    have hall : Always next (fun v => Fifo v.scheduler) initial es :=
      always_iff.mpr fun es₁ es₂ u hes hu => (always_iff.mp halways es₁ es₂ u hes hu).fifo
    rw [meets_iff]
    intro es₁ e es₂ v hes hv
    have hfifo := always_iff.mp hall es₁ _ v hes hv
    cases e with
    | spawn task stamp =>
      rw [hes, exec_append] at h
      obtain ⟨v', hv', hrest⟩ := h
      obtain rfl := Option.some.inj (hv.symm.trans hv')
      obtain ⟨u, hu, -⟩ := exec_cons.mp hrest
      have hafter := always_iff.mp hall (es₁ ++ [.spawn task stamp]) es₂ u (by simp [hes])
        (exec_snoc.mpr ⟨v, hv, hu⟩)
      obtain ⟨-, hu⟩ := Option.ite_none_right_eq_some.mp hu
      obtain rfl := Option.some.inj hu
      exact (enqueue_fifo_iff hfifo).mp hafter
    | yieldNow => trivial
    | yieldFromSyscall => trivial
    | tick => trivial
    | exitTask => trivial
    | setCurrentClass c => trivial
    | runUntilIdle => trivial
    | reapZombie => trivial
  · intro hm
    have hstep : Preserves next Timely fun v => Invariant v ∧ Fifo v.scheduler := by
      intro v e u ⟨hi, hfifo⟩ ht hu
      exact ⟨step_preserves_invariant v e u hi trivial hu, next_fifo hi hfifo ht hu⟩
    exact hm.always hstep (fun v hv => frontsTell_iff.mpr hv.2) hstart

theorem fronts_tell_iff_prompt :
    Always next FrontsTell initial
      (staleSpawn.dropLast ++ [Event.spawn (.new 4 (.ofSlot 3) none 0 .normal) 51]) := by
  have hruns : (exec next initial (staleSpawn.dropLast ++
      [Event.spawn (.new 4 (.ofSlot 3) none 0 .normal) 51])).isSome = true := by decide
  obtain ⟨w, hw⟩ := Option.isSome_iff_exists.mp hruns
  exact (fronts_tell_iff hw).mpr (by decide)

/-- Nothing seems to starve, with a task in a queue that has waited past the limit. -/
theorem stale_task_unseen : ¬ Always next FrontsTell initial staleSpawn := by
  intro h
  have hend : ((exec next initial staleSpawn).map fun s => (s.scheduler.anyStarving 51,
      (s.scheduler.readyQueues .normal).map Task.readySince)) = some (false, [40, 0]) := by decide
  obtain ⟨s, hs, hsame⟩ := Option.map_eq_some_iff.mp hend
  obtain ⟨hunseen, hqueue⟩ := Prod.mk.inj hsame
  have htell := (always_iff.mp h staleSpawn [] s (List.append_nil _).symm hs).exact 51
  have hzero : 0 ∈ (s.scheduler.readyQueues .normal).map Task.readySince := by
    rw [hqueue]
    decide
  obtain ⟨t, ht, hsince⟩ := List.mem_map.mp hzero
  have hstarves := htell.mpr ⟨.normal, t, ht, by rw [hsince]; decide⟩
  rw [hunseen] at hstarves
  nomatch hstarves

end Order

end ReadyQueues
