import NajmKernel.SchedulerRuns

/-! How often a tick takes the CPU from a task and gives it to a lower class. The rate limit
of `pick_next` bounds these donations exactly when no tick is forced to give way to lower
classes alone: `should_preempt` does not consult the limit, and a running task is in no queue,
so it does not count as outranking the task that replaces it. -/
namespace PromotionRate

open SchedulingClasses TaskScheduler TransitionSystem SchedulerRuns

/-- A tick takes the CPU from a task and dispatches one of a strictly lower class. -/
def Donation (s : State) (e : Event) (u : State) : Prop :=
  ∃ t v, e = .tick ∧ s.scheduler.current = some t ∧ u.scheduler.current = some v ∧
    v.schedClass < t.schedClass

def Promotion (u : State) : Prop :=
  (∃ v, u.scheduler.current = some v ∧ v.promoted = true) ∧
    u.scheduler.lastPromotionTick = u.now

/-- Along the run every donation is a promotion, and donations keep their distance. -/
structure DonationsLimited (es : List Event) : Prop where
  promoted : ∀ es₁ e es₂ s u, es = es₁ ++ e :: es₂ → exec next initial es₁ = some s →
    next s e = some u → Donation s e u → Promotion u
  spaced : ∀ es₁ e₁ es₂ e₂ es₃ s₁ u₁ s₂ u₂, es = es₁ ++ e₁ :: (es₂ ++ e₂ :: es₃) →
    exec next initial es₁ = some s₁ → next s₁ e₁ = some u₁ → exec next u₁ es₂ = some s₂ →
    next s₂ e₂ = some u₂ → Donation s₁ e₁ u₁ → Donation s₂ e₂ u₂ →
    u₁.now + promotionIntervalTicks ≤ u₂.now

/-- The turn of the running task is over, only lower classes wait, and one of them starves. -/
structure GivesWay (s : Scheduler) (t : Task) (now : ℕ) : Prop where
  turn_over : (if t.promoted then 1 else t.schedClass.quantumTicks) ≤ t.ticksUsed
  unrivalled : ∀ d, t.schedClass ≤ d → s.readyQueues d = []
  starving : ∃ c, frontStarving (s.readyQueues c) now = true

/-- A rescue is due, and the task it would rescue is outranked by another waiting one. -/
def RescueDue (s : Scheduler) (now : ℕ) : Prop :=
  s.rescueAllowed now = true ∧ ∃ c, frontStarving (s.readyQueues c) now = true ∧
    (∀ d, d < c → frontStarving (s.readyQueues d) now = false) ∧
    ∃ d, c < d ∧ s.readyQueues d ≠ []

/-- The states in which a tick donates the CPU past the rate limit. -/
def Unlimited (s : State) (e : Event) : Prop :=
  e = .tick ∧ ∃ t, s.scheduler.chargeTick.current = some t ∧
    GivesWay s.scheduler.chargeTick t (s.now + 1) ∧
    ¬ RescueDue s.scheduler.chargeTick (s.now + 1)

theorem frontStarving_ne_nil {q : List Task} {now : ℕ} (h : frontStarving q now = true) :
    q ≠ [] := by
  rintro rfl
  simp at h

/-- With its own and all higher queues empty, a task only gives way to a starving one. -/
theorem givesWay_iff {s : Scheduler} {t : Task} {now : ℕ} :
    GivesWay s t now ↔ s.shouldPreempt t.schedClass t.ticksUsed t.promoted now = true ∧
      ∀ d, t.schedClass ≤ d → s.readyQueues d = [] := by
  have quiet (hempty : ∀ d, t.schedClass ≤ d → s.readyQueues d = []) :
      s.shouldPreempt t.schedClass t.ticksUsed t.promoted now =
        (decide ((if t.promoted then 1 else t.schedClass.quantumTicks) ≤ t.ticksUsed) &&
          s.anyStarving now) := by
    have hhigh : s.higherClassWaiting t.schedClass = false :=
      higherClassWaiting_eq_false.mpr fun d hd => hempty d hd.le
    have hown : s.readyQueues t.schedClass = [] := hempty _ (le_refl _)
    simp only [Scheduler.shouldPreempt, hhigh, hown]
    by_cases hover : (if t.promoted then 1 else t.schedClass.quantumTicks) ≤ t.ticksUsed
    · simp [hover, Nat.not_lt.mpr hover]
    · simp [hover, Nat.lt_of_not_le hover]
  constructor
  · intro ⟨hover, hempty, hst⟩
    refine ⟨?_, hempty⟩
    rw [quiet hempty, Bool.and_eq_true, decide_eq_true_eq]
    exact ⟨hover, anyStarving_iff.mpr hst⟩
  · intro ⟨hp, hempty⟩
    rw [quiet hempty, Bool.and_eq_true, decide_eq_true_eq] at hp
    exact ⟨hp.1, hempty, anyStarving_iff.mp hp.2⟩

theorem RescueDue.promotes {s s₁ : Scheduler} {t : Task} {p : Bool} {now : ℕ}
    (h : RescueDue s now) (pick : Pick s now t p s₁) : p = true := by
  obtain ⟨ha, c, hc, hlow, d, hd, hne⟩ := h
  cases pick with
  | promotion => rfl
  | @highest c' _ _ hq higher fair =>
    rcases lt_trichotomy c c' with hlt | rfl | hgt
    · simp [fair ha c hlt] at hc
    · exact absurd (higher d hd) hne
    · exact absurd (higher c hgt) (frontStarving_ne_nil hc)

theorem pick_rescueDue {s s₁ : Scheduler} {t : Task} {now : ℕ} (pick : Pick s now t true s₁) :
    RescueDue s now := by
  cases pick with
  | @promotion c _ _ hq allowed starving outranked lower =>
    refine ⟨?_, c, by simpa [hq] using starving, lower, outranked⟩
    simp only [Scheduler.rescueAllowed, decide_eq_true_eq]
    omega

/-- An unpromoted task comes from the highest waiting class. -/
theorem pick_class_of_highest {s s₁ : Scheduler} {v : Task} {now : ℕ}
    (hs : Invariant ⟨s, now⟩) (pick : Pick s now v false s₁) :
    ∀ d, v.schedClass < d → s.readyQueues d = [] := by
  cases pick with
  | @highest c _ rest hq higher fair =>
    obtain rfl : v.schedClass = c := hs.queue_class c v (by simp [hq])
    exact higher

theorem donation_promoted {s u : State} {e : Event} (hs : Invariant s) (h : next s e = some u)
    (hd : Donation s e u) (hl : ¬ Unlimited s e) :
    Promotion u ∧ s.scheduler.lastPromotionTick + promotionIntervalTicks ≤ u.now := by
  obtain ⟨t, v, rfl, ht, hv, hlt⟩ := hd
  obtain ⟨hnow, ⟨_, hc⟩ | ⟨hsp, w, p, s₁, pick, hu⟩⟩ := tick_cases h (chargeTick_current ht)
  · rw [hc, chargeTick_current ht] at hv
    obtain rfl := Option.some.inj hv
    exact absurd hlt (lt_irrefl _)
  · obtain rfl : w.dispatched p = v := by simpa [hu] using hv
    have hw : p = true := by
      by_contra hp
      rw [Bool.not_eq_true] at hp
      subst hp
      have hempty := pick_class_of_highest (charged_invariant hs) pick
      exact hl ⟨rfl, _, chargeTick_current ht,
        givesWay_iff.mpr ⟨hsp, fun d hd => hempty d (lt_of_lt_of_le hlt hd)⟩,
        fun hr => Bool.false_ne_true (hr.promotes pick)⟩
    subst hw
    refine ⟨⟨⟨_, by rw [hu]; rfl, rfl⟩, ?_⟩, ?_⟩
    · rw [hu, hnow, handOver_lastPromotionTick, pick.lastPromotionTick]
      rfl
    · cases pick with
      | promotion hq allowed => exact hnow ▸ allowed

theorem unlimited_donates {s u : State} {e : Event} (hs : Invariant s) (h : next s e = some u)
    (hl : Unlimited s e) : Donation s e u ∧ ¬ Promotion u := by
  obtain ⟨rfl, t, ht, hg, hr⟩ := hl
  obtain ⟨t₀, ht₀, rfl⟩ : ∃ t₀, s.scheduler.current = some t₀ ∧ t₀.charged = t := by
    simpa [Scheduler.chargeTick] using ht
  obtain ⟨c, hst⟩ := hg.starving
  obtain ⟨hnow, ⟨hempty, _⟩ | ⟨hsp, w, p, s₁, pick, hu⟩⟩ := tick_cases h ht
  · exact absurd (hempty (givesWay_iff.mp hg).1 c) (frontStarving_ne_nil hst)
  · have hw : p = false := by
      cases p with
      | false => rfl
      | true => exact absurd (pick_rescueDue pick) hr
    subst hw
    have hcur : u.scheduler.current = some (w.dispatched false) := by rw [hu]; rfl
    constructor
    · refine ⟨t₀, _, rfl, ht₀, hcur, ?_⟩
      obtain ⟨d, hd⟩ := pick.picked
      have hdw := (charged_invariant hs).queue_class d w hd
      by_contra hle
      rw [hg.unrivalled d (hdw ▸ not_lt.mp hle)] at hd
      simp at hd
    · rintro ⟨⟨v, hv, hp⟩, _⟩
      obtain rfl := Option.some.inj (hcur.symm.trans hv)
      simp at hp

theorem move_lastPromotionTick_le {s u : Scheduler} {now : ℕ} (h : Move now s u)
    (hs : s.lastPromotionTick ≤ now) : s.lastPromotionTick ≤ u.lastPromotionTick := by
  cases h with
  | handOver hc pick =>
    have hle := pick.lastPromotionTick_le hs
    exact hle
  | putBack hc pick =>
    have hle := pick.lastPromotionTick_le hs
    exact hle
  | replace hc pick =>
    have hle := pick.lastPromotionTick_le hs
    exact hle
  | start hc pick =>
    have hle := pick.lastPromotionTick_le hs
    exact hle
  | _ => exact le_refl _

theorem lastPromotionTick_mono {s v : State} {es : List Event} (hs : Invariant s)
    (h : exec next s es = some v) :
    s.scheduler.lastPromotionTick ≤ v.scheduler.lastPromotionTick := by
  have step : Preserves next Any fun u =>
      Invariant u ∧ s.scheduler.lastPromotionTick ≤ u.scheduler.lastPromotionTick := by
    refine step_preserves_invariant.strengthen ?_
    intro u e w hu hle _ hn
    refine le_trans hle ?_
    rcases next_cases hn with ⟨_, hnow, hm⟩ | ⟨_, hnow, hm⟩
    · have hlater := (charged_invariant hu).promotion_le
      have hle := move_lastPromotionTick_le hm (hnow ▸ hlater)
      exact hle
    · exact move_lastPromotionTick_le hm (hnow ▸ hu.promotion_le)
  exact (exec_invariant step ⟨hs, le_refl _⟩ (meets_any next s es) h).2

theorem exec_keeps_invariant {s : State} {es : List Event} (h : exec next initial es = some s) :
    Invariant s :=
  reachable_invariant ⟨initial, es, rfl, h⟩

/-- The rate limit bounds donations in exactly the runs without a forced one. -/
theorem donations_limited_iff (es : List Event) :
    DonationsLimited es ↔ Meets next (fun s e => ¬ Unlimited s e) initial es := by
  constructor
  · intro hd
    rw [meets_iff]
    intro es₁ e es₂ s hes hs hl
    obtain ⟨rfl, t, ht, _⟩ := hl
    obtain ⟨u, hu⟩ := tick_enabled s
    obtain ⟨hdon, hnot⟩ := unlimited_donates (exec_keeps_invariant hs) hu ⟨rfl, t, ht, ‹_›⟩
    exact hnot (hd.promoted es₁ _ es₂ s u hes hs hu hdon)
  · intro hm
    have limited {es₁ e es₂ s u} (hes : es = es₁ ++ e :: es₂)
        (hs : exec next initial es₁ = some s) (hu : next s e = some u) (hd : Donation s e u) :
        Promotion u ∧ s.scheduler.lastPromotionTick + promotionIntervalTicks ≤ u.now :=
      donation_promoted (exec_keeps_invariant hs) hu hd (meets_iff.mp hm es₁ e es₂ s hes hs)
    constructor
    · intro es₁ e es₂ s u hes hs hu hd
      exact (limited hes hs hu hd).1
    · intro es₁ e₁ es₂ e₂ es₃ s₁ u₁ s₂ u₂ hes hs₁ hu₁ hs₂ hu₂ hd₁ hd₂
      have hpre : exec next initial (es₁ ++ e₁ :: es₂) = some s₂ :=
        exec_append.mpr ⟨s₁, hs₁, exec_cons.mpr ⟨u₁, hu₁, hs₂⟩⟩
      have hfirst := (limited hes hs₁ hu₁ hd₁).1.2
      have hes' : es = (es₁ ++ e₁ :: es₂) ++ e₂ :: es₃ := by simp [hes]
      have hsecond := (limited hes' hpre hu₂ hd₂).2
      have hmono := lastPromotionTick_mono
        (step_preserves_invariant _ _ _ (exec_keeps_invariant hs₁) trivial hu₁) hs₂
      omega

/-- The tick, with the class and the promotion mark of the running task. -/
def running (s : State) : ℕ × Option (SchedClass × Bool) :=
  (s.now, s.scheduler.current.map fun t => (t.schedClass, t.promoted))

/-- A realtime task that never stops and three normal tasks, until just before the normal
tasks have waited too long. -/
def threeWaiting : List Event :=
  [Event.spawn (.new 1 (.ofSlot 0) none 0 .realtime) 0,
    .spawn (.new 2 (.ofSlot 1) none 0 .normal) 0,
    .spawn (.new 3 (.ofSlot 2) none 0 .normal) 0, .spawn (.new 4 (.ofSlot 3) none 0 .normal) 0,
    .runUntilIdle] ++ List.replicate 49 Event.tick

private theorem threeWaiting_running :
    (exec next initial threeWaiting).map running = some (49, some (.realtime, false)) ∧
    (exec next initial (threeWaiting ++ [Event.tick])).map running =
      some (50, some (.normal, false)) ∧
    (exec next initial (threeWaiting ++ Event.tick :: [Event.tick, .tick])).map running =
      some (52, some (.realtime, false)) ∧
    (exec next initial
      (threeWaiting ++ Event.tick :: ([Event.tick, .tick] ++ [Event.tick]))).map running =
      some (53, some (.normal, false)) := by
  decide

private theorem running_donation {s u : State} {m n : ℕ} {c d : SchedClass} {p q : Bool}
    (hs : running s = (m, some (c, p))) (hu : running u = (n, some (d, q))) (hlt : d < c) :
    Donation s .tick u ∧ u.now = n ∧ (Promotion u → q = true) := by
  simp only [running, Prod.mk.injEq, Option.map_eq_some_iff] at hs hu
  obtain ⟨_, t, ht, rfl, _⟩ := hs
  obtain ⟨hn, v, hv, rfl, rfl⟩ := hu
  refine ⟨⟨t, v, rfl, ht, hv, hlt⟩, hn, ?_⟩
  rintro ⟨⟨w, hw, hp⟩, _⟩
  obtain rfl := Option.some.inj (hv.symm.trans hw)
  exact hp

/-- The realtime task is made to give way twice within three ticks, never by a promotion. -/
theorem threeWaiting_donations :
    ∃ s₁ u₁ s₂ u₂, exec next initial threeWaiting = some s₁ ∧ next s₁ .tick = some u₁ ∧
      exec next u₁ [.tick, .tick] = some s₂ ∧ next s₂ .tick = some u₂ ∧
      Donation s₁ .tick u₁ ∧ Donation s₂ .tick u₂ ∧
      ¬ Promotion u₁ ∧ ¬ Promotion u₂ ∧ u₂.now = u₁.now + 3 := by
  obtain ⟨h₁, h₂, h₃, h₄⟩ := threeWaiting_running
  obtain ⟨s₁, hs₁, r₁⟩ := Option.map_eq_some_iff.mp h₁
  obtain ⟨u₁, hu₁, r₂⟩ := Option.map_eq_some_iff.mp h₂
  obtain ⟨s₂, hs₂, r₃⟩ := Option.map_eq_some_iff.mp h₃
  obtain ⟨u₂, hu₂, r₄⟩ := Option.map_eq_some_iff.mp h₄
  simp only [exec_append, exec_cons, hs₁, Option.some.injEq, exists_eq_left', exec_nil,
    exists_eq_right] at hu₁ hs₂ hu₂
  simp only [hu₁, Option.some.injEq, exists_eq_left'] at hs₂ hu₂
  obtain ⟨v, hv, hs₂⟩ := hs₂
  simp only [hv, hs₂, Option.some.injEq, exists_eq_left'] at hu₂
  obtain ⟨d₁, n₁, p₁⟩ := running_donation r₁ r₂ (by decide)
  obtain ⟨d₂, n₂, p₂⟩ := running_donation r₃ r₄ (by decide)
  refine ⟨s₁, u₁, s₂, u₂, hs₁, hu₁, ?_, hu₂, d₁, d₂, fun h => ?_, fun h => ?_, by omega⟩
  · exact exec_cons.mpr ⟨v, hv, exec_cons.mpr ⟨s₂, hs₂, rfl⟩⟩
  · exact absurd (p₁ h) (by decide)
  · exact absurd (p₂ h) (by decide)

theorem not_donationsLimited :
    ¬ DonationsLimited (threeWaiting ++ Event.tick :: ([Event.tick, .tick] ++ [Event.tick])) := by
  intro h
  obtain ⟨s₁, u₁, s₂, u₂, hs₁, hu₁, hs₂, hu₂, d₁, d₂, _, _, hn⟩ := threeWaiting_donations
  have := h.spaced threeWaiting _ _ _ [] s₁ u₁ s₂ u₂ rfl hs₁ hu₁ hs₂ hu₂ d₁ d₂
  simp only [promotionIntervalTicks] at this
  omega

end PromotionRate
