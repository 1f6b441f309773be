import NajmKernel.StarvationBound

/-! With six live tasks or more the bound fails. New tasks enter, become background tasks and
hold the CPU up to the tick before they may be preempted, so that a whole slot of ten ticks goes
by for every background task that is rescued. -/
namespace StarvationBound

open SchedulingClasses TaskScheduler TransitionSystem SchedulerRuns

def bystander (handle : ℕ) (c : SchedClass) : Task := .new handle (.ofSlot handle) none 0 c

/-- The running task exits in favour of one that has just entered. -/
def relay (handle now : ℕ) : List Event :=
  [.spawn (bystander handle .normal) now, .exitTask, .setCurrentClass .background]

/-- A task enters just before the running one has used up its quantum, so that the rescue of
the next background task counts as a promotion. The rescued task exits at once, and no other is
rescued when its successor is relieved within the promotion interval. -/
def stretchedSlot (handle now : ℕ) : List Event :=
  [Event.spawn (bystander handle .normal) now, .tick, .exitTask, .setCurrentClass .background] ++
    List.replicate 4 Event.tick ++ relay (handle + 1) (now + 5) ++ List.replicate 5 Event.tick

def stretchedSlots (handle now : ℕ) : ℕ → List Event
  | 0 => []
  | k + 1 => stretchedSlot handle now ++ stretchedSlots (handle + 2) (now + 10) k

/-- Background tasks queued at boot. -/
def crowd (k : ℕ) : List Event :=
  (List.range k).map fun i => .spawn (bystander (i + 1) .background) 0

def stretchedWait (n : ℕ) : List Event :=
  [Event.spawn (bystander 0 .realtime) 0, .runUntilIdle] ++ crowd (n - 2) ++
    List.replicate 49 Event.tick ++ relay (n - 1) 49 ++ List.replicate 5 Event.tick ++
    stretchedSlots n 54 (n - 3)

section Stretching

variable {s : State} {c : SchedClass} {q : List Task} {t : Task} {n used now last : ℕ}

/-- A task of class `c` has held the CPU for `used` ticks, and only background tasks wait. -/
structure Holding (c : SchedClass) (used : ℕ) (q : List Task) (now last : ℕ) (s : State) :
    Prop where
  time : s.now = now
  promotion : s.scheduler.lastPromotionTick = last
  queues : s.scheduler.readyQueues = Function.update (fun _ => []) .background q
  running : ∃ t, s.scheduler.current = some t ∧ t.schedClass = c ∧ t.promoted = false ∧
    t.ticksUsed = used

theorem Holding.background (h : Holding c used q now last s) :
    s.scheduler.readyQueues .background = q := by
  rw [h.queues, Function.update_self]

theorem Holding.higher (h : Holding c used q now last s) {d : SchedClass} (hd : d ≠ .background) :
    s.scheduler.readyQueues d = [] := by
  rw [h.queues, Function.update_of_ne hd]

theorem Holding.count (h : Holding c used q now last s) : taskCount s.scheduler = q.length + 1 := by
  obtain ⟨t, hc, _⟩ := h.running
  rw [taskCount, ready_length, h.background, h.higher (by decide), h.higher (by decide), hc]
  rfl

/-- The running task goes on within its quantum, or while nothing of its class waits and nothing
starves. -/
theorem Holding.tick (h : Holding c used q now last s)
    (hkeep : used + 1 < c.quantumTicks ∨ c ≠ .background ∧ frontStarving q (now + 1) = false) :
    ∃ u, next s .tick = some u ∧ Holding c (used + 1) q (now + 1) last u := by
  obtain ⟨t, hc, hclass, hp, hused⟩ := h.running
  have hwait : s.scheduler.chargeTick.higherClassWaiting c = false := by
    rw [higherClassWaiting_eq_false]
    intro d hd
    rw [chargeTick_readyQueues]
    apply h.higher
    rintro rfl
    exact not_lt_background hd
  have hgo : s.scheduler.chargeTick.shouldPreempt c (used + 1) false (now + 1) = false := by
    rcases hkeep with hlt | ⟨hne, hfront⟩
    · simp [Scheduler.shouldPreempt, hwait, hlt]
    · have hstarve : s.scheduler.chargeTick.anyStarving (now + 1) = false := by
        simp [Scheduler.anyStarving, SchedClass.ascending, h.background, h.higher, hfront]
      simp [Scheduler.shouldPreempt, hwait, hstarve, h.higher hne]
  have hcur := chargeTick_current hc
  refine ⟨⟨s.scheduler.chargeTick, s.now + 1⟩, ?_, ?_⟩
  · have hstay : s.scheduler.chargeTick.shouldSwitch (s.now + 1) = false := by
      simp only [Scheduler.shouldSwitch, hcur, charged_schedClass, hclass, h.time]
      simpa [Task.charged, hp, hused] using hgo
    simp [next, Scheduler.preempt, hstay, settle]
  · refine ⟨by simp [h.time], h.promotion, h.queues, t.charged, hcur, hclass, hp, ?_⟩
    simp [Task.charged, hused]

theorem Holding.ticks (h : Holding c used q now last s) {k : ℕ}
    (hkeep : used + k < c.quantumTicks ∨
      c ≠ .background ∧ ∀ m ≤ now + k, frontStarving q m = false) :
    Arrives next (Fair n) s (List.replicate k .tick) (Holding c (used + k) q (now + k) last) := by
  induction k generalizing s used now with
  | zero => exact arrives_nil h
  | succ k ih =>
    have hfair : Fair n s .tick := by
      intro hnone
      obtain ⟨t, hc, _⟩ := h.running
      simp [hc] at hnone
    obtain ⟨u, hu, hnext⟩ := h.tick
      (hkeep.imp (by omega) (And.imp_right fun hfront => hfront _ (by omega)))
    refine arrives_cons hfair hu ?_
    have hrest := ih hnext
      (hkeep.imp (by omega) (And.imp_right fun hfront m hm => hfront m (by omega)))
    rwa [Nat.add_assoc, Nat.add_assoc, Nat.add_comm 1 k] at hrest

/-- A task of a higher class waits in front of the background ones. -/
structure Entered (y : Task) (q : List Task) (now last : ℕ) (s : State) : Prop where
  time : s.now = now
  promotion : s.scheduler.lastPromotionTick = last
  queues : s.scheduler.readyQueues =
    Function.update (Function.update (fun _ => []) .background q) .normal [y]
  running : ∃ t, s.scheduler.current = some t

/-- Nothing in the queue may be rescued. -/
def Quiet (q : List Task) (now last : ℕ) : Prop :=
  last + promotionIntervalTicks ≤ now → frontStarving q now = false

/-- Either the new task is picked, or a rescue counts as a promotion. -/
theorem pickNext_beside {s : Scheduler} {y : Task}
    (hs : s.readyQueues =
      Function.update (Function.update (fun _ => []) .background q) .normal [y]) :
    (s.pickNext now = some (y, false, s.setQueue .normal []) ∧ Quiet q now s.lastPromotionTick) ∨
      ∃ b rest, q = b :: rest ∧ ¬ Quiet q now s.lastPromotionTick ∧ s.pickNext now =
        some (b, true, { s.setQueue .background rest with lastPromotionTick := now }) := by
  have hb : s.readyQueues .background = q := by simp [hs]
  have hn : s.readyQueues .normal = [y] := by simp [hs]
  have hr : s.readyQueues .realtime = [] := by simp [hs]
  cases hp : s.pickNext now with
  | none => simp [pickNext_none hp] at hn
  | some out =>
    obtain ⟨t, p, s₁⟩ := out
    cases pickNext_cases hp with
    | @promotion c _ rest hq allowed starving outranked _ =>
      cases c with
      | background =>
        rw [hb] at hq
        subst hq
        refine Or.inr ⟨t, rest, rfl, fun hquiet => ?_, rfl⟩
        have hcalm := hquiet allowed
        rw [frontStarving_cons, starving] at hcalm
        cases hcalm
      | normal =>
        obtain ⟨d, hd, hne⟩ := outranked
        cases d with
        | background => exact absurd hd not_lt_background
        | normal => exact absurd hd (lt_irrefl _)
        | realtime => exact absurd hr hne
      | realtime => simp [hr] at hq
    | @highest c _ rest hq higher fair =>
      cases c with
      | background => simp [higher .normal (by decide)] at hn
      | normal =>
        obtain ⟨rfl, rfl⟩ := List.cons.inj (hq.symm.trans hn)
        refine Or.inl ⟨rfl, fun allowed => ?_⟩
        rw [← hb]
        exact fair (rescueAllowed_iff.mpr allowed) .background (by decide)
      | realtime => simp [hr] at hq

theorem pickNext_entered {s : Scheduler} {y : Task}
    (hs : s.readyQueues = Function.update (Function.update (fun _ => []) .background q) .normal [y])
    (hquiet : Quiet q now s.lastPromotionTick) :
    s.pickNext now = some (y, false, s.setQueue .normal []) := by
  rcases pickNext_beside hs with ⟨hpick, _⟩ | ⟨b, rest, _, hloud, _⟩
  · exact hpick
  · exact absurd hquiet hloud

/-- When the running task exits, the new one takes over and becomes a background task. -/
theorem Entered.relieve {y : Task} (h : Entered y q now last s) (hquiet : Quiet q now last) :
    Arrives next (Fair n) s [.exitTask, .setCurrentClass .background]
      (Holding .background 0 q now last) := by
  obtain ⟨dying, hc⟩ := h.running
  let left : Scheduler := { s.scheduler with current := none, zombie := some dying }
  have hpick : left.pickNext now = some (y, false, left.setQueue .normal []) :=
    pickNext_entered h.queues (h.promotion ▸ hquiet)
  have hexit : next s .exitTask =
      some { s with scheduler := (left.setQueue .normal []).dispatch y false now } := by
    simp only [next, Scheduler.exitTask, hc, h.time]
    simp only [left] at hpick
    simp only [hpick, Option.map_some, left]
  refine arrives_cons trivial hexit (arrives_cons trivial rfl (arrives_nil ?_))
  refine ⟨h.time, h.promotion, ?_, _, rfl, rfl, rfl, rfl⟩
  simp only [Scheduler.setCurrentClass, dispatch_readyQueues, setQueue_readyQueues, left, h.queues]
  rw [Function.update_idem, Function.update_comm (by decide)]
  simp

theorem Holding.enter (h : Holding c used q now last s) {y : Task} (hy : y.schedClass = .normal) :
    Entered { y with readySince := now, promoted := false } q now last
      { s with scheduler := s.scheduler.enqueue y now } := by
  obtain ⟨t, hc, _⟩ := h.running
  refine ⟨h.time, h.promotion, ?_, t, hc⟩
  rw [enqueue_queue, hy, h.higher (by decide), h.queues]
  rfl

theorem Holding.spawn (h : Holding c used q now last s) (hroom : q.length + 1 < n) (y : Task) :
    Fair n s (.spawn y now) ∧
      next s (.spawn y now) = some { s with scheduler := s.scheduler.enqueue y now } := by
  refine ⟨⟨?_, h.time.symm⟩, ?_⟩
  · rwa [h.count]
  · simp [next, h.time]

theorem Holding.relieve (h : Holding c used q now last s) (handle : ℕ) (hroom : q.length + 1 < n)
    (hquiet : Quiet q now last) :
    Arrives next (Fair n) s (relay handle now) (Holding .background 0 q now last) := by
  obtain ⟨hfair, hnext⟩ := h.spawn hroom (bystander handle .normal)
  exact arrives_cons hfair hnext ((h.enter rfl).relieve hquiet)

theorem pickNext_starving {s : Scheduler} {y b : Task} {rest : List Task}
    (hs : s.readyQueues =
      Function.update (Function.update (fun _ => []) .background (b :: rest)) .normal [y])
    (hallowed : s.lastPromotionTick + promotionIntervalTicks ≤ now)
    (hstarving : b.starving now = true) :
    s.pickNext now =
      some (b, true, { s.setQueue .background rest with lastPromotionTick := now }) := by
  rcases pickNext_beside hs with ⟨_, hquiet⟩ | ⟨b', rest', hq, _, hpick⟩
  · have hcalm := hquiet hallowed
    rw [frontStarving_cons, hstarving] at hcalm
    cases hcalm
  · obtain ⟨rfl, rfl⟩ := List.cons.inj hq
    exact hpick

/-- Beside a waiting normal task the rescue of a background task is a promotion. -/
theorem preempt_starving {s : Scheduler} {y b : Task} {rest : List Task}
    (hs : s.readyQueues =
      Function.update (Function.update (fun _ => []) .background (b :: rest)) .normal [y])
    (hc : s.current = some t) (hclass : t.schedClass = .background)
    (hallowed : s.lastPromotionTick + promotionIntervalTicks ≤ now)
    (hstarving : b.starving now = true) :
    ∃ x u, settle now (s.preempt now) = some u ∧ Entered y (rest ++ [x]) now now u := by
  have hcur : s.chargeTick.current = some t.charged := chargeTick_current hc
  have hwait : s.chargeTick.higherClassWaiting .background = true :=
    higherClassWaiting_iff.mpr ⟨.normal, by decide, by simp [hs]⟩
  have hswitch : s.chargeTick.shouldSwitch now = true := by
    simp [Scheduler.shouldSwitch, hcur, hclass, Scheduler.shouldPreempt, hwait]
  let left : Scheduler := { s.chargeTick.setQueue .background rest with lastPromotionTick := now }
  have hpick : s.chargeTick.pickNext now = some (b, true, left) :=
    pickNext_starving hs hallowed hstarving
  refine ⟨{ t.charged.outgoing with readySince := now, promoted := false },
    ⟨left.handOver t.charged b true now, now⟩, ?_, rfl, rfl, ?_, b.dispatched true, rfl⟩
  · simp only [Scheduler.preempt, hswitch, if_true, Scheduler.planSwitch, hpick]
    simp only [left, setQueue_current, hcur, settle]
  · rw [handOver_readyQueues, enqueue_queue, outgoing_schedClass, charged_schedClass, hclass]
    funext c
    cases c <;> simp [left, hs, hclass]

/-- One slot rescues one background task and puts the task that ran behind the others. -/
theorem Holding.slot {b : Task} {rest : List Task}
    (h : Holding .background 5 (b :: rest) now last s) (handle : ℕ) (hroom : rest.length + 2 < n)
    (hallowed : last + promotionIntervalTicks ≤ now + 1) (hstarving : b.starving (now + 1) = true) :
    ∃ x, Arrives next (Fair n) s (stretchedSlot handle now)
      (Holding .background 5 (rest ++ [x]) (now + 10) (now + 1)) := by
  obtain ⟨t, hc, hclass, _⟩ := h.running
  have hin := h.enter (y := bystander handle .normal) rfl
  obtain ⟨hfair, hspawn⟩ := h.spawn hroom (bystander handle .normal)
  obtain ⟨x, u, hu, hin'⟩ := preempt_starving hin.queues hc hclass
    (hin.promotion.symm ▸ hallowed) hstarving
  have htick : next { s with scheduler := s.scheduler.enqueue (bystander handle .normal) now }
      .tick = some u := by
    rw [← hu, ← h.time]
    rfl
  -- Less than a promotion interval passes from the rescue to the relay.
  have hquiet (m : ℕ) (hm : m < now + 6) : Quiet (rest ++ [x]) m (now + 1) := by
    intro hle
    simp only [promotionIntervalTicks] at hle
    omega
  have hbusy : Fair n { s with scheduler := s.scheduler.enqueue (bystander handle .normal) now }
      .tick := by
    simp [Fair, Scheduler.enqueue, hc]
  have hrescue := arrives_cons hfair hspawn
    (arrives_cons hbusy htick (hin'.relieve (hquiet _ (by omega))))
  have hrelay {v : State} (hv : Holding .background 4 (rest ++ [x]) (now + 5) (now + 1) v) :
      Arrives next (Fair n) v (relay (handle + 1) (now + 5))
        (Holding .background 0 (rest ++ [x]) (now + 5) (now + 1)) :=
    hv.relieve (handle + 1) (by simpa using hroom) (hquiet _ (by omega))
  refine ⟨x, ((hrescue.append fun _ hv => hv.ticks ?_).append fun _ hv => hrelay hv).append
    fun _ hv => hv.ticks ?_⟩
  · exact Or.inl (by decide)
  · exact Or.inl (by decide)

/-- Slot after slot the background tasks of the start are rescued one by one, the last of them
only after all the others. -/
theorem Holding.slots {old others : List Task} {k : ℕ}
    (h : Holding .background 5 (old ++ others) now last s) (handle : ℕ) (hk : old.length = k + 1)
    (hold : ∀ t ∈ old, t.readySince = 0) (hroom : (old ++ others).length + 1 < n)
    (hnow : starvationLimitTicks ≤ now) (hallowed : last + promotionIntervalTicks ≤ now) :
    Arrives next (Fair n) s (stretchedSlots handle now k) fun u => ∃ t q last, t.readySince = 0 ∧
      Holding .background 5 (t :: q) (now + 10 * k) last u := by
  induction k generalizing s old others now last handle with
  | zero =>
    obtain ⟨t, rfl⟩ := List.length_eq_one_iff.mp hk
    exact arrives_nil ⟨t, others, last, hold t (by simp), h⟩
  | succ k ih =>
    obtain ⟨b, rest, rfl⟩ := List.exists_cons_of_length_pos (by omega : 0 < old.length)
    have hb : b.starving (now + 1) = true := by
      rw [starving_iff, hold b (by simp)]
      omega
    obtain ⟨x, hslot⟩ := Holding.slot h handle (by simpa using hroom)
      (Nat.le_succ_of_le hallowed) hb
    refine hslot.append fun u hu => ?_
    have hnext : Holding .background 5 (rest ++ (others ++ [x])) (now + 10) (now + 1) u := by
      rw [← List.append_assoc]
      exact hu
    have hrest := ih hnext (handle + 2) (by simpa using hk)
      (fun t ht => hold t (by simp [ht])) (by simpa [Nat.add_assoc] using hroom)
      (by omega) (by simp only [promotionIntervalTicks]; omega)
    have htime : now + 10 + 10 * k = now + 10 * (k + 1) := by omega
    rwa [htime] at hrest

theorem frontStarving_fresh (hq : ∀ t ∈ q, t.readySince = 0) (hnow : now < starvationLimitTicks) :
    frontStarving q now = false := by
  cases q with
  | nil => rfl
  | cons t rest =>
    have ht := hq t (by simp)
    rw [frontStarving_cons, ← Bool.not_eq_true, starving_iff]
    omega

theorem start_holds (hn : 0 < n) : Arrives next (Fair n) initial
    [.spawn (bystander 0 .realtime) 0, .runUntilIdle] (Holding .realtime 0 [] 0 0) := by
  refine arrives_cons ⟨hn, rfl⟩ rfl (arrives_cons trivial rfl (arrives_nil ?_))
  refine ⟨rfl, rfl, ?_, _, rfl, rfl, rfl, rfl⟩
  funext c
  cases c <;> rfl

theorem Holding.crowd (h : Holding .realtime 0 [] 0 0 s) {k : ℕ} (hk : k < n) :
    Arrives next (Fair n) s (crowd k) fun u => ∃ q : List Task, q.length = k ∧
      (∀ t ∈ q, t.readySince = 0) ∧ Holding .realtime 0 q 0 0 u := by
  induction k with
  | zero => exact arrives_nil ⟨[], rfl, by simp, h⟩
  | succ k ih =>
    rw [StarvationBound.crowd, List.range_succ, List.map_append]
    refine (ih (by omega)).append fun u hu => ?_
    obtain ⟨q, hlength, hfresh, hq⟩ := hu
    obtain ⟨hfair, hspawn⟩ := hq.spawn (n := n) (by omega) (bystander (k + 1) .background)
    refine arrives_cons hfair hspawn (arrives_nil ?_)
    refine ⟨q ++ [bystander (k + 1) .background], ?_, ?_, ?_⟩
    · simp [hlength]
    · intro t ht
      rcases List.mem_append.mp ht with ht | ht
      · exact hfresh t ht
      · rw [List.mem_singleton.mp ht]
        rfl
    · refine ⟨hq.time, hq.promotion, ?_, hq.running⟩
      funext c
      cases c <;> simp [enqueue_queue, hq.queues, bystander, Task.new]

theorem stretchedWait_holds (hn : 6 ≤ n) :
    Arrives next (Fair n) initial (stretchedWait n) fun u => ∃ t q last, t.readySince = 0 ∧
      Holding .background 5 (t :: q) (24 + 10 * n) last u := by
  rw [stretchedWait]
  simp only [List.append_assoc]
  refine (start_holds (by omega)).append fun _ hstart => ?_
  refine (hstart.crowd (k := n - 2) (by omega)).append fun _ hcrowd => ?_
  obtain ⟨q, hlength, hfresh, hq⟩ := hcrowd
  -- The realtime task runs on until just before the first task starves.
  refine (hq.ticks (Or.inr ⟨by decide, fun m hm => frontStarving_fresh hfresh ?_⟩)).append
    fun _ hran => ?_
  · simp only [starvationLimitTicks]
    omega
  refine (hran.relieve (n - 1) (by omega) fun _ => frontStarving_fresh hfresh (by decide)).append
    fun _ hrelay => ?_
  refine (hrelay.ticks (Or.inl (by decide))).append fun _ hheld => ?_
  rw [← List.append_nil q] at hheld
  have hslots := hheld.slots (n := n) (k := n - 3) n (by omega) hfresh (by simp; omega) (by decide)
    (by decide)
  have htime : 0 + 49 + 5 + 10 * (n - 3) = 24 + 10 * n := by omega
  rwa [htime] at hslots

/-- The last background task waits `24 + 10 * n` ticks, past the bound of `50 + 5 * n`. -/
theorem stretchedWait_overdue (hn : 6 ≤ n) :
    Meets next (Fair n) initial (stretchedWait n) ∧
      ∃ s, exec next initial (stretchedWait n) = some s ∧
        ∃ t ∈ s.scheduler.readyQueues .background, waitBound n < s.now - t.readySince := by
  obtain ⟨hm, s, hs, t, q, last, hfresh, hq⟩ := stretchedWait_holds hn
  refine ⟨hm, s, hs, t, by simp [hq.background], ?_⟩
  rw [hq.time, hfresh, waitBound, starvationLimitTicks, promotionIntervalTicks]
  omega

end Stretching

/-- The bound holds in all fair runs exactly when at most five tasks may be live. -/
theorem wait_bounded_iff (n : ℕ) :
    n ≤ 5 ↔ ∀ es s c t, Meets next (Fair n) initial es → exec next initial es = some s →
      t ∈ s.scheduler.readyQueues c → s.now - t.readySince ≤ waitBound n := by
  constructor
  · intro hn es s c t hm hs ht
    exact wait_bounded hn hm hs ht
  · intro h
    by_contra hn
    obtain ⟨hm, s, hs, t, ht, hlt⟩ := stretchedWait_overdue (Nat.lt_of_not_le hn)
    exact absurd (h _ s _ t hm hs ht) (Nat.not_le.mpr hlt)

/-- Six live tasks are enough to keep one of them waiting past the bound. -/
theorem wait_not_bounded :
    ¬ ∀ n es s c t, Meets next (Fair n) initial es → exec next initial es = some s →
      t ∈ s.scheduler.readyQueues c → s.now - t.readySince ≤ waitBound n := by
  intro h
  obtain ⟨hm, s, hs, t, ht, hlt⟩ := stretchedWait_overdue (n := 6) (le_refl 6)
  exact absurd (h 6 _ s _ t hm hs ht) (Nat.not_le.mpr hlt)

/-- A realtime task alone beside a waiting one, until just before it is due. -/
theorem wait_bounded_two :
    ∃ s, exec next initial ([Event.spawn (bystander 0 .background) 0,
        .spawn (bystander 1 .realtime) 0, .runUntilIdle] ++ List.replicate 49 Event.tick) = some s ∧
      ∀ c, ∀ t ∈ s.scheduler.readyQueues c, s.now - t.readySince ≤ waitBound 2 := by
  have hm : Meets next (Fair 2) initial ([Event.spawn (bystander 0 .background) 0,
      .spawn (bystander 1 .realtime) 0, .runUntilIdle] ++ List.replicate 49 Event.tick) := by
    decide +kernel
  have hsome : (exec next initial ([Event.spawn (bystander 0 .background) 0,
      .spawn (bystander 1 .realtime) 0, .runUntilIdle] ++
        List.replicate 49 Event.tick)).isSome = true := by
    decide +kernel
  obtain ⟨s, hs⟩ := Option.isSome_iff_exists.mp hsome
  exact ⟨s, hs, fun c t ht => (wait_bounded_iff 2).mp (by decide) _ s c t hm hs ht⟩

end StarvationBound
