import NajmKernel.SchedulerRuns

/-! How long a ready task can wait. With at most five live tasks nothing waits longer than
the starvation limit plus one promotion interval for each of them. A waiting task's rank counts
the tasks that may still be rescued before it; once it starves, each slot of at most
`promotionIntervalTicks - 1` ticks plus one quantum of its class lowers the rank. -/
namespace StarvationBound

open SchedulingClasses TaskScheduler TransitionSystem SchedulerRuns

/-- `task_count`: the tasks that are queued or running. -/
def taskCount (s : Scheduler) : ℕ := s.ready.length + s.current.toList.length

/-- At most `n` tasks are live, a spawned task is queued in the tick it was stamped with, and
the boot context does not sit through ticks while tasks are ready. -/
def Fair (n : ℕ) (s : State) : Event → Prop
  | .spawn _ stamp => taskCount s.scheduler < n ∧ stamp = s.now
  | .tick => s.scheduler.current = none → s.scheduler.ready = []
  | _ => True

instance (n : ℕ) (s : State) (e : Event) : Decidable (Fair n s e) := by
  cases e <;> simp only [Fair] <;> infer_instance

def waitBound (n : ℕ) : ℕ := starvationLimitTicks + promotionIntervalTicks * n

theorem ready_length (s : Scheduler) :
    s.ready.length = (s.readyQueues .background).length + (s.readyQueues .normal).length +
      (s.readyQueues .realtime).length := by
  rw [ready_append]
  simp [Nat.add_assoc]

section Rank

variable {s s₁ : Scheduler} {c : SchedClass} {t x : Task} {p : Bool} {now since : ℕ}
  {ahead behind : List Task}

/-- Queued tasks that became ready within half a starvation limit of `since`. -/
def contenders (q : List Task) (since : ℕ) : ℕ := q.countP fun x => x.readySince ≤ since + 25

/-- Contenders of lower classes, which the rescue loop reaches first. -/
def lowerContenders (s : Scheduler) (since : ℕ) : SchedClass → ℕ
  | .background => 0
  | .normal => contenders (s.readyQueues .background) since
  | .realtime =>
    contenders (s.readyQueues .background) since + contenders (s.readyQueues .normal) since

/-- A task with `ahead` in front of it in its own queue. -/
def rank (s : Scheduler) (c : SchedClass) (ahead : List Task) (since : ℕ) : ℕ :=
  ahead.length + lowerContenders s since c

theorem contenders_le (q : List Task) (since : ℕ) : contenders q since ≤ q.length :=
  List.countP_le_length

theorem contenders_cons (q : List Task) (x : Task) (since : ℕ) :
    contenders (x :: q) since = contenders q since + if x.readySince ≤ since + 25 then 1 else 0 := by
  simp [contenders, List.countP_cons]

theorem rank_lt_ready (hq : s.readyQueues c = ahead ++ t :: behind) (since : ℕ) :
    rank s c ahead since + 1 ≤ s.ready.length := by
  have hb := contenders_le (s.readyQueues .background) since
  have hn := contenders_le (s.readyQueues .normal) since
  rw [ready_length]
  cases c with
  | background => simp only [rank, lowerContenders, hq, List.length_append, List.length_cons]; omega
  | normal => simp only [rank, lowerContenders, hq, List.length_append, List.length_cons]; omega
  | realtime => simp only [rank, lowerContenders, hq, List.length_append, List.length_cons]; omega

/-- A task queued late is no contender. -/
theorem rank_enqueue (hlate : since + 25 < now) :
    rank (s.enqueue x now) c ahead since = rank s c ahead since := by
  have hcount (e : SchedClass) : contenders ((s.enqueue x now).readyQueues e) since =
      contenders (s.readyQueues e) since := by
    by_cases he : e = x.schedClass
    · subst he
      simp [enqueue_queue, contenders, hlate]
    · simp [enqueue_queue, he]
  cases c <;> simp [rank, lowerContenders, hcount]

theorem split_enqueue (hq : (s.enqueue x now).readyQueues c = ahead ++ t :: behind) :
    (∃ behind', s.readyQueues c = ahead ++ t :: behind') ∨
      (c = x.schedClass ∧ t.readySince = now ∧ ahead = s.readyQueues c) := by
  by_cases hc : c = x.schedClass
  · subst hc
    simp only [enqueue_queue, Function.update_self] at hq
    rcases List.eq_nil_or_concat' behind with rfl | ⟨behind', y, rfl⟩
    · obtain ⟨h₁, h₂⟩ := List.append_inj' hq rfl
      right
      refine ⟨rfl, ?_, h₁.symm⟩
      rw [← (List.cons.inj h₂).1]
    · left
      rw [← List.cons_append, ← List.append_assoc] at hq
      exact ⟨behind', (List.append_inj' hq rfl).1⟩
  · left
    simp only [enqueue_queue, Function.update_of_ne hc] at hq
    exact ⟨behind, hq⟩

/-- Popping a queue moves no task back. -/
theorem split_pick (pick : Pick s now x p s₁) (hq : s₁.readyQueues c = ahead ++ t :: behind) :
    ∃ ahead', s.readyQueues c = ahead' ++ t :: behind ∧
      ∀ since, rank s₁ c ahead since ≤ rank s c ahead' since := by
  obtain ⟨d, rest, hd, hs⟩ := pick.queue
  rw [hs] at hq
  have lower (since : ℕ) : lowerContenders s₁ since c ≤ lowerContenders s since c := by
    have hle (e : SchedClass) :
        contenders (s₁.readyQueues e) since ≤ contenders (s.readyQueues e) since := by
      rw [hs]
      by_cases he : e = d
      · subst he
        rw [Function.update_self, hd, contenders_cons]
        omega
      · rw [Function.update_of_ne he]
    have hb := hle .background
    have hn := hle .normal
    cases c with
    | background => exact le_refl _
    | normal => exact hb
    | realtime => exact Nat.add_le_add hb hn
  by_cases hc : c = d
  · subst hc
    rw [Function.update_self] at hq
    refine ⟨x :: ahead, by rw [hd, hq]; rfl, fun since => ?_⟩
    have := lower since
    simp only [rank, List.length_cons]
    omega
  · rw [Function.update_of_ne hc] at hq
    exact ⟨ahead, hq, fun since => Nat.add_le_add_left (lower since) _⟩

/-- Every queue is in the order its tasks became ready. -/
def Fifo (s : Scheduler) : Prop :=
  ∀ c, (s.readyQueues c).Pairwise fun x y => x.readySince ≤ y.readySince

theorem starving_iff : t.starving now = true ↔ t.readySince + starvationLimitTicks ≤ now := by
  have hpos : 0 < starvationLimitTicks := by decide
  simp only [Task.starving, decide_eq_true_eq]
  omega

theorem rescueAllowed_iff :
    s.rescueAllowed now = true ↔ s.lastPromotionTick + promotionIntervalTicks ≤ now := by
  have hpos : 0 < promotionIntervalTicks := by decide
  simp only [Scheduler.rescueAllowed, decide_eq_true_eq]
  omega

theorem frontStarving_of_mem (hf : Fifo s) (hm : t ∈ s.readyQueues c)
    (ht : t.readySince + starvationLimitTicks ≤ now) :
    frontStarving (s.readyQueues c) now = true := by
  have hsorted := hf c
  cases hq : s.readyQueues c with
  | nil => simp [hq] at hm
  | cons y rest =>
    rw [hq] at hm hsorted
    rw [frontStarving_cons, starving_iff]
    rcases List.mem_cons.mp hm with rfl | hm
    · exact ht
    · have := List.rel_of_pairwise_cons hsorted hm
      omega

/-- While rescues are allowed, the task picked beside a starving one is of the same class, or
starves in a lower class. -/
theorem pick_beside_starving (hf : Fifo s) (pick : Pick s now x p s₁)
    (allowed : s.lastPromotionTick + promotionIntervalTicks ≤ now) (hm : t ∈ s.readyQueues c)
    (ht : t.readySince + starvationLimitTicks ≤ now) :
    ∃ d rest, s.readyQueues d = x :: rest ∧
      s₁.readyQueues = Function.update s.readyQueues d rest ∧
      (d = c ∨ d < c ∧ x.readySince + starvationLimitTicks ≤ now) := by
  have hfront := frontStarving_of_mem hf hm ht
  cases pick with
  | @promotion d _ rest hq _ starving _ lower =>
    refine ⟨d, rest, hq, rfl, ?_⟩
    rcases lt_trichotomy d c with hlt | rfl | hgt
    · exact Or.inr ⟨hlt, starving_iff.mp starving⟩
    · exact Or.inl rfl
    · simp [lower c hgt] at hfront
  | @highest d _ rest hq higher fair =>
    refine ⟨d, rest, hq, rfl, Or.inl ?_⟩
    rcases lt_trichotomy d c with hlt | rfl | hgt
    · simp [higher c hlt] at hm
    · rfl
    · simp [fair (rescueAllowed_iff.mpr allowed) c hgt] at hfront

/-- Each rescue brings a starving task one place closer. -/
theorem rank_progress (hf : Fifo s) (pick : Pick s now x p s₁)
    (allowed : s.lastPromotionTick + promotionIntervalTicks ≤ now)
    (hq : s₁.readyQueues c = ahead ++ t :: behind)
    (ht : t.readySince + starvationLimitTicks ≤ now) (hyoung : now ≤ t.readySince + 75) :
    ∃ ahead', s.readyQueues c = ahead' ++ t :: behind ∧
      rank s₁ c ahead t.readySince + 1 ≤ rank s c ahead' t.readySince := by
  obtain ⟨ahead', hq', hle⟩ := split_pick pick hq
  have hm : t ∈ s.readyQueues c := by simp [hq']
  obtain ⟨d, rest, hd, hs, hcase⟩ := pick_beside_starving hf pick allowed hm ht
  have hsame (e : SchedClass) (he : e ≠ d) : s₁.readyQueues e = s.readyQueues e := by
    rw [hs, Function.update_of_ne he]
  have hpop (since : ℕ) : contenders (s.readyQueues d) since =
      contenders (s₁.readyQueues d) since + if x.readySince ≤ since + 25 then 1 else 0 := by
    rw [hs, Function.update_self, hd, contenders_cons]
  rcases hcase with rfl | ⟨hlt, hx⟩
  · rw [hs, Function.update_self] at hq
    refine ⟨x :: ahead, by rw [hd, hq]; rfl, ?_⟩
    have hlower : lowerContenders s₁ t.readySince d = lowerContenders s t.readySince d := by
      cases d with
      | background => rfl
      | normal => simp [lowerContenders, hsame]
      | realtime => simp [lowerContenders, hsame]
    simp only [rank, List.length_cons, hlower]
    omega
  · rw [hsame c (ne_of_gt hlt)] at hq
    refine ⟨ahead, hq, ?_⟩
    have hcontender : x.readySince ≤ t.readySince + 25 := by
      simp only [starvationLimitTicks] at hx
      omega
    have hone := hpop t.readySince
    rw [if_pos hcontender] at hone
    have hlower : lowerContenders s₁ t.readySince c + 1 ≤ lowerContenders s t.readySince c := by
      cases c with
      | background => exact absurd hlt not_lt_background
      | normal =>
        cases d with
        | background => exact hone.ge
        | normal => exact absurd hlt (lt_irrefl _)
        | realtime => exact absurd hlt not_realtime_lt
      | realtime =>
        cases d with
        | background =>
          simp only [lowerContenders, hsame .normal (by decide)]
          omega
        | normal =>
          simp only [lowerContenders, hsame .background (by decide)]
          omega
        | realtime => exact absurd hlt (lt_irrefl _)
    simp only [rank]
    omega

end Rank

section Slots

variable {s s₁ : Scheduler} {c : SchedClass} {t x : Task} {p : Bool} {now n : ℕ}
  {ahead behind : List Task}

/-- The longest time between two rescues while a task of class `c` starves: the interval up to
its last tick, then one quantum. -/
def slot (c : SchedClass) : ℕ := promotionIntervalTicks - 1 + c.quantumTicks

@[simp] theorem slot_background : slot .background = 10 := rfl

@[simp] theorem slot_normal : slot .normal = 7 := rfl

@[simp] theorem slot_realtime : slot .realtime = 5 := rfl

/-- How many ticks may pass before the next rescue, when the running task has used `used`. -/
def slack (s : Scheduler) (now : ℕ) (c : SchedClass) (used : ℕ) : ℕ :=
  if s.lastPromotionTick + promotionIntervalTicks ≤ now then max 1 (c.quantumTicks - used)
  else slot c + s.lastPromotionTick - now

theorem quantumTicks_le_slot (c : SchedClass) : c.quantumTicks + 4 = slot c := by
  cases c <;> rfl

theorem slack_cases (s : Scheduler) (now : ℕ) (c : SchedClass) (used : ℕ) :
    s.lastPromotionTick + 5 ≤ now ∧ slack s now c used = max 1 (c.quantumTicks - used) ∨
      now < s.lastPromotionTick + 5 ∧ slack s now c used = slot c + s.lastPromotionTick - now := by
  unfold slack
  split
  · exact Or.inl ⟨‹_›, rfl⟩
  · exact Or.inr ⟨Nat.lt_of_not_le ‹_›, rfl⟩

theorem slack_le_slot (hlast : s.lastPromotionTick ≤ now) (c : SchedClass) (used : ℕ) :
    slack s now c used ≤ slot c := by
  have := quantumTicks_le_slot c
  rcases slack_cases s now c used with ⟨_, h⟩ | ⟨_, h⟩ <;> omega

/-- The wait a starving task has left, slot by slot, stays within the bound. -/
def Due (n : ℕ) (s : Scheduler) (now used : ℕ) (c : SchedClass) (ahead : List Task)
    (t : Task) : Prop :=
  now + slack s now c used + slot c * rank s c ahead t.readySince ≤ t.readySince + waitBound n

/-- The same just before a pick: while rescues are allowed nothing is left to wait for. -/
def DueNow (n : ℕ) (s : Scheduler) (now : ℕ) (c : SchedClass) (ahead : List Task)
    (t : Task) : Prop :=
  now + (if s.lastPromotionTick + promotionIntervalTicks ≤ now then 0
      else slot c + s.lastPromotionTick - now) + slot c * rank s c ahead t.readySince ≤
    t.readySince + waitBound n

theorem dueNow_iff : DueNow n s now c ahead t ↔
    (s.lastPromotionTick + 5 ≤ now →
      now + slot c * rank s c ahead t.readySince ≤ t.readySince + waitBound n) ∧
    (now < s.lastPromotionTick + 5 →
      now + (slot c + s.lastPromotionTick - now) + slot c * rank s c ahead t.readySince ≤
        t.readySince + waitBound n) := by
  unfold DueNow
  by_cases h : s.lastPromotionTick + promotionIntervalTicks ≤ now
  · have h' : s.lastPromotionTick + 5 ≤ now := h
    simp [h, h', Nat.not_lt.mpr h']
  · have h' : now < s.lastPromotionTick + 5 := Nat.lt_of_not_le h
    simp [h, h', Nat.not_le.mpr h']

theorem Due.dueNow {used : ℕ} (h : Due n s now used c ahead t) : DueNow n s now c ahead t := by
  unfold Due at h
  rw [dueNow_iff]
  rcases slack_cases s now c used with ⟨_, hs⟩ | ⟨_, hs⟩ <;> constructor <;> omega

theorem due_after_pick (hn : n ≤ 5) (hf : Fifo s) (hlast : s.lastPromotionTick ≤ now)
    (pick : Pick s now x p s₁) (hq : s₁.readyQueues c = ahead ++ t :: behind)
    (ht : t.readySince + starvationLimitTicks ≤ now)
    (hdue : ∀ ahead', s.readyQueues c = ahead' ++ t :: behind → DueNow n s now c ahead' t) :
    Due n s₁ now 0 c ahead t := by
  by_cases ha : s.lastPromotionTick + promotionIntervalTicks ≤ now
  · have hyoung : now ≤ t.readySince + 75 := by
      obtain ⟨ahead', hq', _⟩ := split_pick pick hq
      have := hdue ahead' hq'
      simp only [DueNow, waitBound, starvationLimitTicks, promotionIntervalTicks] at this
      omega
    obtain ⟨ahead', hq', hrank⟩ := rank_progress hf pick ha hq ht hyoung
    have hold := hdue ahead' hq'
    have hmul := Nat.mul_le_mul_left (slot c) hrank
    have hslack := slack_le_slot (pick.promotion_le hlast) c 0
    rw [Nat.mul_succ] at hmul
    simp only [DueNow, if_pos ha] at hold
    unfold Due
    omega
  · obtain ⟨ahead', hq', hrank⟩ := split_pick pick hq
    have hold := hdue ahead' hq'
    have hmul := Nat.mul_le_mul_left (slot c) (hrank t.readySince)
    have hsame := pick.unpromoted ha
    simp only [DueNow, if_neg ha] at hold
    simp only [Due, slack, hsame, if_neg ha]
    omega

end Slots

section Room

variable {s s₁ : Scheduler} {c : SchedClass} {t x : Task} {p : Bool} {now n : ℕ}
  {ahead behind : List Task}

/-- A promotion since a background task became ready leaves it close to the front: the promoted
task, the one that outranked it and the one that ran before are three live tasks beside it. -/
def RoomLow (n : ℕ) (s : Scheduler) : Prop :=
  ∀ ahead t behind, s.readyQueues .background = ahead ++ t :: behind →
    t.readySince < s.lastPromotionTick → ahead.length + 4 ≤ n

/-- For a task of a higher class two live tasks are accounted for. -/
def RoomHigh (n : ℕ) (s : Scheduler) : Prop :=
  ∀ c ahead t behind, c ≠ .background → s.readyQueues c = ahead ++ t :: behind →
    t.readySince + 25 < s.lastPromotionTick → rank s c ahead t.readySince + 3 ≤ n

theorem Fifo.pick (h : Fifo s) (pick : Pick s now x p s₁) : Fifo s₁ := by
  obtain ⟨d, rest, hd, hs⟩ := pick.queue
  intro c
  rw [hs]
  by_cases hc : c = d
  · subst hc
    have hsorted := h c
    rw [hd] at hsorted
    rw [Function.update_self]
    exact hsorted.of_cons
  · rw [Function.update_of_ne hc]
    exact h c

theorem Fifo.enqueue (h : Fifo s) (hle : ∀ c, ∀ y ∈ s.readyQueues c, y.readySince ≤ now) :
    Fifo (s.enqueue x now) := by
  intro c
  by_cases hc : c = x.schedClass
  · subst hc
    rw [enqueue_queue, Function.update_self, List.pairwise_append]
    refine ⟨h _, List.pairwise_singleton _ _, ?_⟩
    intro y hy z hz
    obtain rfl := List.mem_singleton.mp hz
    exact hle _ y hy
  · rw [enqueue_queue, Function.update_of_ne hc]
    exact h c

theorem RoomLow.pick (h : RoomLow n s) (hcount : s.ready.length + 1 ≤ n)
    (pick : Pick s now x p s₁) : RoomLow n s₁ := by
  intro ahead t behind hq ht
  cases pick with
  | highest hd =>
    obtain ⟨ahead', hq', hle⟩ := split_pick (.highest hd ‹_› ‹_›) hq
    have := h ahead' t behind hq' ht
    have := hle t.readySince
    simp only [rank, lowerContenders] at this
    omega
  | @promotion d _ rest hd allowed starving outranked lower =>
    obtain ⟨e, hde, hne⟩ := outranked
    have hpos := List.length_pos_iff.mpr hne
    rw [ready_length] at hcount
    cases d with
    | background =>
      simp only [setQueue_readyQueues, Function.update_self] at hq
      rw [hd, hq] at hcount
      simp only [List.length_cons, List.length_append] at hcount
      cases e with
      | background => exact absurd hde (lt_irrefl _)
      | normal => omega
      | realtime => omega
    | normal =>
      rw [setQueue_readyQueues, Function.update_of_ne (by decide)] at hq
      rw [hd, hq] at hcount
      simp only [List.length_cons, List.length_append] at hcount
      cases e with
      | background => exact absurd hde not_lt_background
      | normal => exact absurd hde (lt_irrefl _)
      | realtime => omega
    | realtime => exact absurd hde not_realtime_lt

theorem RoomHigh.pick (h : RoomHigh n s) (hcount : s.ready.length + 1 ≤ n)
    (pick : Pick s now x p s₁) : RoomHigh n s₁ := by
  intro c ahead t behind hc hq ht
  have hlt := rank_lt_ready hq t.readySince
  have hpop := pick.ready.length_eq
  simp only [List.length_cons] at hpop
  cases p with
  | true => omega
  | false =>
    obtain ⟨ahead', hq', hle⟩ := split_pick pick hq
    rw [pick.lastPromotionTick] at ht
    have := h c ahead' t behind hc hq' ht
    have := hle t.readySince
    omega

theorem RoomLow.enqueue (h : RoomLow n s) (hlast : s.lastPromotionTick ≤ now) :
    RoomLow n (s.enqueue x now) := by
  intro ahead t behind hq ht
  rcases split_enqueue hq with ⟨behind', hq'⟩ | ⟨_, hnow, _⟩
  · exact h ahead t behind' hq' ht
  · have : t.readySince < s.lastPromotionTick := ht
    omega

theorem RoomHigh.enqueue (h : RoomHigh n s) (hlast : s.lastPromotionTick ≤ now) :
    RoomHigh n (s.enqueue x now) := by
  intro c ahead t behind hc hq ht
  have ht' : t.readySince + 25 < s.lastPromotionTick := ht
  rcases split_enqueue hq with ⟨behind', hq'⟩ | ⟨_, hnow, _⟩
  · rw [rank_enqueue (by omega)]
    exact h c ahead t behind' hc hq' ht'
  · omega

end Room

section Starved

variable {s s₁ : Scheduler} {c : SchedClass} {t x : Task} {p : Bool} {now used n : ℕ}
  {ahead behind : List Task}

/-- A background task that was the last of a full house when it began to starve: the one place
where the slots alone would give one tick too many. While the others only wait in its own
queue, the next pick is no promotion. -/
structure Crowded (n : ℕ) (s : Scheduler) (now used : ℕ) (ahead : List Task) (t : Task) :
    Prop where
  place : ahead.length + 3 = n
  full : taskCount s = n
  rested : s.lastPromotionTick + promotionIntervalTicks ≤ now
  age : now ≤ t.readySince + starvationLimitTicks + used
  used_le : used ≤ 5
  alone : 3 ≤ used → s.readyQueues .normal = [] ∧ s.readyQueues .realtime = []

def Starved (n : ℕ) (s : Scheduler) (now used : ℕ) (c : SchedClass) (ahead : List Task)
    (t : Task) : Prop :=
  Due n s now used c ahead t ∨ c = .background ∧ Crowded n s now used ahead t

/-- What a pick needs to know of a starving task. -/
def StarvedNow (n : ℕ) (s : Scheduler) (now : ℕ) (c : SchedClass) (ahead : List Task)
    (t : Task) : Prop :=
  DueNow n s now c ahead t ∨
    c = .background ∧ ahead.length + 3 = n ∧
      s.lastPromotionTick + promotionIntervalTicks ≤ now ∧ now ≤ t.readySince + 56 ∧
      (s.readyQueues .normal = [] ∧ s.readyQueues .realtime = [] ∨ now ≤ t.readySince + 53)

theorem Starved.starvedNow (h : Starved n s now used c ahead t) : StarvedNow n s now c ahead t := by
  rcases h with h | ⟨hc, h⟩
  · exact Or.inl h.dueNow
  · have hage := h.age
    have hused := h.used_le
    simp only [starvationLimitTicks] at hage
    refine Or.inr ⟨hc, h.place, h.rested, by omega, ?_⟩
    by_cases hu : 3 ≤ used
    · exact Or.inl (h.alone hu)
    · exact Or.inr (by omega)

theorem Starved.later (hlast : s.lastPromotionTick ≤ now) (h : Starved n s now used c ahead t) :
    StarvedNow n s (now + 1) c ahead t := by
  rcases h with h | ⟨hc, h⟩
  · left
    have hslot := quantumTicks_le_slot c
    have hpos := quantumTicks_pos c
    unfold Due at h
    rw [dueNow_iff]
    rcases slack_cases s now c used with ⟨_, hs⟩ | ⟨_, hs⟩ <;> constructor <;> omega
  · have hage := h.age
    have hused := h.used_le
    have hrested := h.rested
    simp only [starvationLimitTicks] at hage
    refine Or.inr ⟨hc, h.place, by omega, by omega, ?_⟩
    by_cases hu : 3 ≤ used
    · exact Or.inl (h.alone hu)
    · exact Or.inr (by omega)

/-- A tick that leaves the running task in place costs one tick of the slack. -/
theorem Starved.tick (hlast : s.lastPromotionTick ≤ now) (h : Starved n s now used c ahead t)
    (hused : used + 1 < c.quantumTicks)
    (hhigh : s.readyQueues .normal ≠ [] ∨ s.readyQueues .realtime ≠ [] → used + 1 < 3) :
    Starved n s (now + 1) (used + 1) c ahead t := by
  rcases h with h | ⟨rfl, h⟩
  · left
    have hslot := quantumTicks_le_slot c
    unfold Due at *
    rcases slack_cases s now c used with ⟨_, hs⟩ | ⟨_, hs⟩ <;>
      rcases slack_cases s (now + 1) c (used + 1) with ⟨_, hs'⟩ | ⟨_, hs'⟩ <;> omega
  · right
    have hage := h.age
    have hrested := h.rested
    simp only [SchedClass.quantumTicks] at hused
    refine ⟨rfl, h.place, h.full, by omega, by omega, by omega, fun hu => ?_⟩
    by_contra hne
    rw [not_and_or] at hne
    have := hhigh hne
    omega

theorem split_unique {ahead' : List Task} {q : List Task} (h : q = ahead ++ t :: behind)
    (h' : q = ahead' ++ t :: behind) : ahead = ahead' :=
  List.append_cancel_right (h.symm.trans h')

theorem pick_alone (pick : Pick s now x p s₁)
    (h : s.readyQueues .normal = [] ∧ s.readyQueues .realtime = []) : p = false := by
  cases pick with
  | highest => rfl
  | promotion hq allowed starving outranked lower =>
    obtain ⟨d, hd, hne⟩ := outranked
    cases d with
    | background => exact absurd hd not_lt_background
    | normal => exact absurd h.1 hne
    | realtime => exact absurd h.2 hne

/-- After a pick every starving task is due: the rank went down, or the interval still runs. -/
theorem starved_after_pick (hn : n ≤ 5) (hf : Fifo s) (hlast : s.lastPromotionTick ≤ now)
    (pick : Pick s now x p s₁) (hq : s₁.readyQueues c = ahead ++ t :: behind)
    (ht : t.readySince + starvationLimitTicks ≤ now)
    (hst : ∀ ahead', s.readyQueues c = ahead' ++ t :: behind → StarvedNow n s now c ahead' t) :
    Due n s₁ now 0 c ahead t := by
  obtain ⟨ahead', hq', _⟩ := split_pick pick hq
  rcases hst ahead' hq' with hdue | ⟨rfl, hplace, ha, hage, halone⟩
  · refine due_after_pick hn hf hlast pick hq ht fun ahead'' hq'' => ?_
    exact split_unique hq' hq'' ▸ hdue
  · obtain ⟨ahead'', hq'', hrank⟩ := rank_progress hf pick ha hq ht (by omega)
    obtain rfl := split_unique hq' hq''
    simp only [rank, lowerContenders] at hrank
    have hslack : slack s₁ now .background 0 + now ≤ t.readySince + 63 := by
      rcases halone with halone | hage'
      · have hp := pick_alone pick halone
        have hsame := pick.lastPromotionTick
        rw [hp] at hsame
        simp only [Bool.false_eq_true, if_false] at hsame
        have hs : slack s₁ now .background 0 = 6 := by
          rw [slack, hsame, if_pos ha]
          rfl
        omega
      · have := slack_le_slot (pick.promotion_le hlast) .background 0
        rw [slot_background] at this
        omega
    simp only [Due, rank, lowerContenders, slot_background, waitBound, starvationLimitTicks,
      promotionIntervalTicks]
    omega

/-- A task that begins to starve while the running task keeps the CPU. -/
theorem fresh_due (hn : n ≤ 5) (hcount : s.ready.length + 1 ≤ n)
    (hlow : RoomLow n s) (hhigh : RoomHigh n s) (hlast : s.lastPromotionTick ≤ now)
    (hq : s.readyQueues c = ahead ++ t :: behind)
    (ht : t.readySince + starvationLimitTicks = now) (hused : 1 ≤ used)
    (hroom : c = .background → ahead.length + 2 < n) : Due n s now used c ahead t := by
  have hrank := rank_lt_ready hq t.readySince
  have hslack := slack_le_slot hlast c used
  have hcases := slack_cases s now c used
  simp only [starvationLimitTicks] at ht
  cases c with
  | background =>
    have hplace := hroom rfl
    have hold := hlow ahead t behind hq
    simp only [slot_background] at hslack
    simp only [Due, rank, lowerContenders, slot_background, waitBound, starvationLimitTicks,
      promotionIntervalTicks]
    by_cases hp : t.readySince < s.lastPromotionTick
    · have := hold hp
      omega
    · have hs : slack s now .background used ≤ 5 := by
        simp only [SchedClass.quantumTicks] at hcases
        omega
      omega
  | normal =>
    have hold := hhigh .normal ahead t behind (by decide) hq
    simp only [slot_normal] at hslack
    simp only [Due, slot_normal, waitBound, starvationLimitTicks, promotionIntervalTicks]
    by_cases hp : t.readySince + 25 < s.lastPromotionTick
    · have := hold hp
      omega
    · have hs : slack s now .normal used ≤ 2 := by
        simp only [SchedClass.quantumTicks] at hcases
        omega
      omega
  | realtime =>
    simp only [slot_realtime] at hslack
    simp only [Due, slot_realtime, waitBound, starvationLimitTicks, promotionIntervalTicks]
    omega

/-- A task that begins to starve in the tick of a switch. -/
theorem fresh_after_pick (hn : n ≤ 5) (hf : Fifo s) (hcount : s.ready.length + 1 ≤ n)
    (hlow : RoomLow n s) (hhigh : RoomHigh n s) (hlast : s.lastPromotionTick ≤ now)
    (pick : Pick s now x p s₁) (hq : s₁.readyQueues c = ahead ++ t :: behind)
    (ht : t.readySince + starvationLimitTicks = now) :
    Due n s₁ now 0 c ahead t ∨
      c = .background ∧ ahead.length + 3 = n ∧ s.ready.length + 1 = n ∧
        s₁.lastPromotionTick + promotionIntervalTicks ≤ now := by
  have hslack := slack_le_slot (pick.promotion_le hlast) c 0
  obtain ⟨ahead', hq', hle⟩ := split_pick pick hq
  have hle' := hle t.readySince
  have hrank := rank_lt_ready hq' t.readySince
  have due (hroom : rank s₁ c ahead t.readySince + (if c = .background then 4 else 3) ≤ n) :
      Due n s₁ now 0 c ahead t := by
    simp only [Due, waitBound, starvationLimitTicks, promotionIntervalTicks] at ht ⊢
    cases c with
    | background => simp only [slot_background, if_true] at *; omega
    | normal => simp only [slot_normal, reduceCtorEq, if_false] at *; omega
    | realtime => simp only [slot_realtime, reduceCtorEq, if_false] at *; omega
  by_cases ha : s.lastPromotionTick + promotionIntervalTicks ≤ now
  · obtain ⟨ahead'', hq'', hprog⟩ := rank_progress hf pick ha hq ht.le
      (by simp only [starvationLimitTicks] at ht; omega)
    obtain rfl := split_unique hq' hq''
    by_cases hroom : rank s₁ c ahead t.readySince + (if c = .background then 4 else 3) ≤ n
    · exact Or.inl (due hroom)
    · right
      cases c with
      | background =>
        simp only [rank, lowerContenders, if_true] at hroom hprog hrank
        have hothers : s.readyQueues .normal = [] ∧ s.readyQueues .realtime = [] := by
          rw [ready_length, hq'] at hcount
          simp only [List.length_append, List.length_cons] at hcount
          constructor <;> apply List.eq_nil_of_length_eq_zero <;> omega
        have hsame := pick.lastPromotionTick
        rw [pick_alone pick hothers] at hsame
        simp only [Bool.false_eq_true, if_false] at hsame
        exact ⟨rfl, by omega, by omega, hsame ▸ ha⟩
      | normal => simp only [reduceCtorEq, if_false] at hroom; omega
      | realtime => simp only [reduceCtorEq, if_false] at hroom; omega
  · left
    apply due
    simp only [starvationLimitTicks, promotionIntervalTicks] at ht ha
    cases c with
    | background =>
      have := hlow ahead' t behind hq' (by omega)
      simp only [rank, lowerContenders, if_true] at *
      omega
    | normal =>
      have := hhigh .normal ahead' t behind (by decide) hq' (by omega)
      simp only [reduceCtorEq, if_false]
      omega
    | realtime =>
      have := hhigh .realtime ahead' t behind (by decide) hq' (by omega)
      simp only [reduceCtorEq, if_false]
      omega

end Starved

/-- A background task with all others but one before it has kept them company since it became
ready: the running task has been charged every tick of its wait. -/
def Held (n : ℕ) (s : Scheduler) (now : ℕ) : Prop :=
  ∀ ahead t behind cur, s.readyQueues .background = ahead ++ t :: behind →
    s.current = some cur → n ≤ ahead.length + 2 → now ≤ t.readySince + cur.ticksUsed

def AllStarved (n : ℕ) (s : Scheduler) (now : ℕ) : Prop :=
  ∀ c ahead t behind cur, s.readyQueues c = ahead ++ t :: behind → s.current = some cur →
    t.readySince + starvationLimitTicks ≤ now → Starved n s now cur.ticksUsed c ahead t

structure Calm (n : ℕ) (s : State) : Prop where
  base : Invariant s
  fifo : Fifo s.scheduler
  count : taskCount s.scheduler ≤ n
  idle : s.scheduler.current = none →
    ∀ c, ∀ t ∈ s.scheduler.readyQueues c, t.readySince = s.now
  low : RoomLow n s.scheduler
  high : RoomHigh n s.scheduler
  held : Held n s.scheduler s.now
  starved : AllStarved n s.scheduler s.now

section Steps

variable {s s₁ : Scheduler} {c : SchedClass} {t x cur : Task} {p : Bool} {now n : ℕ}

theorem initial_calm (n : ℕ) : Calm n initial := by
  refine ⟨initial_invariant, fun c => List.Pairwise.nil, Nat.zero_le n, ?_, ?_, ?_, ?_, ?_⟩
  · intro _ c t ht
    simp [initial, Scheduler.new] at ht
  · intro ahead t behind hq
    simp [initial, Scheduler.new] at hq
  · intro c ahead t behind _ hq
    simp [initial, Scheduler.new] at hq
  · intro ahead t behind cur hq
    simp [initial, Scheduler.new] at hq
  · intro c ahead t behind cur hq
    simp [initial, Scheduler.new] at hq

theorem taskCount_current (h : s.current = some cur) : taskCount s = s.ready.length + 1 := by
  simp [taskCount, h]

/-- What a switch starts from: a scheduler with a running task, in which every task that has
waited long enough is either accounted for or begins to starve right now. -/
structure Poised (n : ℕ) (s : Scheduler) (now : ℕ) : Prop where
  base : Invariant ⟨s, now⟩
  fifo : Fifo s
  count : s.ready.length + 1 ≤ n
  low : RoomLow n s
  high : RoomHigh n s
  starved : ∀ c ahead t behind, s.readyQueues c = ahead ++ t :: behind →
    t.readySince + starvationLimitTicks ≤ now →
    StarvedNow n s now c ahead t ∨ t.readySince + starvationLimitTicks = now

theorem Calm.poised (h : Calm n ⟨s, now⟩) (hc : s.current = some cur) : Poised n s now where
  base := h.base
  fifo := h.fifo
  count := taskCount_current hc ▸ h.count
  low := h.low
  high := h.high
  starved c ahead t behind hq ht := Or.inl (h.starved c ahead t behind cur hq hc ht).starvedNow

theorem Calm.poised_later {s : State} (h : Calm n s) (hc : s.scheduler.current = some cur) :
    Poised n s.scheduler.chargeTick (s.now + 1) where
  base := charged_invariant h.base
  fifo := h.fifo
  count := by
    have := h.count
    rw [taskCount_current hc] at this
    exact this
  low := h.low
  high := h.high
  starved c ahead t behind hq ht := by
    by_cases hold : t.readySince + starvationLimitTicks ≤ s.now
    · have hst := (h.starved c ahead t behind cur hq hc hold).later h.base.promotion_le
      exact Or.inl hst
    · exact Or.inr (by omega)

theorem Poised.handOver (hn : n ≤ 5) (h : Poised n s now) (hc : s.current = some cur)
    (pick : Pick s now x p s₁) : Calm n ⟨s₁.handOver cur x p now, now⟩ := by
  have hlast := pick.promotion_le h.base.promotion_le
  have hready := fun c y hy => h.base.ready_le c y (pick.mem (c := c) (x := y) hy)
  have hpop := pick.ready.length_eq
  simp only [List.length_cons] at hpop
  have hpush := (enqueue_ready s₁ cur.outgoing now).length_eq
  simp only [List.length_cons] at hpush
  have hcount : taskCount (s₁.handOver cur x p now) = s.ready.length + 1 := by
    rw [taskCount_current rfl]
    exact (congrArg (· + 1) hpush).trans (by omega)
  refine ⟨(Move.handOver hc pick).invariant h.base, (h.fifo.pick pick).enqueue hready,
    by rw [hcount]; exact h.count, by simp, (h.low.pick h.count pick).enqueue hlast,
    (h.high.pick h.count pick).enqueue hlast, ?_, ?_⟩
  · intro ahead t behind cur' hq _ hplace
    rw [handOver_readyQueues] at hq
    rcases split_enqueue hq with ⟨behind', hq'⟩ | ⟨_, hnow, _⟩
    · have := rank_lt_ready hq' t.readySince
      have := h.count
      simp only [rank, lowerContenders] at *
      omega
    · simp [hnow]
  · intro c ahead t behind cur' hq hcur ht
    obtain rfl : x.dispatched p = cur' := Option.some.inj hcur
    rw [handOver_readyQueues] at hq
    rcases split_enqueue hq with ⟨behind', hq'⟩ | ⟨_, hnow, _⟩
    · obtain ⟨ahead', hold, _⟩ := split_pick pick hq'
      have hlate : t.readySince + 25 < now := by
        simp only [starvationLimitTicks] at ht
        omega
      have lift (hdue : Due n s₁ now 0 c ahead t) :
          Due n (s₁.handOver cur x p now) now 0 c ahead t := by
        have hr : rank (s₁.enqueue cur.outgoing now) c ahead t.readySince =
            rank s₁ c ahead t.readySince := rank_enqueue hlate
        have hr' : rank (s₁.handOver cur x p now) c ahead t.readySince =
            rank s₁ c ahead t.readySince := hr
        unfold Due at *
        rw [hr']
        exact hdue
      rcases h.starved c ahead' t behind' hold ht with hst | hfresh
      · refine Or.inl (lift (starved_after_pick hn h.fifo h.base.promotion_le pick hq' ht ?_))
        intro ahead'' hq''
        exact split_unique hold hq'' ▸ hst
      · rcases fresh_after_pick hn h.fifo h.count h.low h.high h.base.promotion_le pick hq' hfresh
          with hdue | ⟨rfl, hplace, hfull, hrested⟩
        · exact Or.inl (lift hdue)
        · exact Or.inr ⟨rfl, hplace, hcount.trans hfull, hrested, hfresh.ge, by simp, by simp⟩
    · simp only [starvationLimitTicks] at ht
      omega

/-- A dispatch that replaces a dying task. -/
theorem Calm.replace {dying : Task} (hn : n ≤ 5) (h : Calm n ⟨s, now⟩)
    (hc : s.current = some dying)
    (pick : Pick { s with current := none, zombie := some dying } now x p s₁) :
    Calm n ⟨s₁.dispatch x p now, now⟩ := by
  have hcount : s.ready.length + 1 ≤ n := taskCount_current hc ▸ h.count
  have hpop : s.ready.length = s₁.ready.length + 1 := pick.ready.length_eq
  have hold : Fifo { s with current := none, zombie := some dying } := h.fifo
  have hlow : RoomLow n { s with current := none, zombie := some dying } := h.low
  have hhigh : RoomHigh n { s with current := none, zombie := some dying } := h.high
  have hfifo := hold.pick pick
  have hlow' := hlow.pick hcount pick
  have hhigh' := hhigh.pick hcount pick
  refine ⟨(Move.replace hc pick).invariant h.base, hfifo, ?_, by simp, hlow', hhigh', ?_, ?_⟩
  · have hready : (s₁.dispatch x p now).ready = s₁.ready := rfl
    simp only [taskCount, hready, dispatch_current, Option.toList_some, List.length_singleton]
    omega
  · intro ahead t behind cur' hq _ hplace
    have := rank_lt_ready hq t.readySince
    have hready : (s₁.dispatch x p now).ready = s₁.ready := rfl
    simp only [rank, lowerContenders, hready] at this
    omega
  · intro c ahead t behind cur' hq hcur ht
    obtain rfl : x.dispatched p = cur' := Option.some.inj hcur
    have hdue : Due n s₁ now 0 c ahead t := by
      refine starved_after_pick hn hold h.base.promotion_le pick hq ht fun ahead' hq' => ?_
      have hst := (h.starved c ahead' t behind dying hq' hc ht).starvedNow
      exact hst
    exact Or.inl hdue

/-- All queued tasks have just been queued: nothing waits yet. -/
theorem calm_of_fresh {s : State} (base : Invariant s) (fifo : Fifo s.scheduler)
    (count : taskCount s.scheduler ≤ n)
    (fresh : ∀ c, ∀ t ∈ s.scheduler.readyQueues c, t.readySince = s.now) : Calm n s := by
  have hlast := base.promotion_le
  refine ⟨base, fifo, count, fun _ => fresh, ?_, ?_, ?_, ?_⟩
  · intro ahead t behind hq ht
    have := fresh .background t (by simp [hq])
    omega
  · intro c ahead t behind _ hq ht
    have := fresh c t (by simp [hq])
    omega
  · intro ahead t behind cur hq _ _
    have := fresh .background t (by simp [hq])
    omega
  · intro c ahead t behind cur hq _ ht
    have := fresh c t (by simp [hq])
    simp only [starvationLimitTicks] at ht
    omega

theorem Calm.start (h : Calm n ⟨s, now⟩) (hc : s.current = none) (pick : Pick s now x p s₁) :
    Calm n ⟨s₁.dispatch x p now, now⟩ := by
  have hfifo := Fifo.pick h.fifo pick
  refine calm_of_fresh ((Move.start hc pick).invariant h.base) hfifo ?_
    fun c t ht => h.idle hc c t (pick.mem ht)
  have hpop := pick.ready.length_eq
  have hcount := h.count
  have hready : (s₁.dispatch x p now).ready = s₁.ready := rfl
  simp only [taskCount, hc, Option.toList_none, List.length_nil] at hcount
  simp only [List.length_cons] at hpop
  simp only [taskCount, hready, dispatch_current, Option.toList_some, List.length_singleton]
  omega

/-- Before the boot context starts the tasks nothing is rescued. -/
theorem Calm.putBack (h : Calm n ⟨s, now⟩) (hc : s.current = none) (pick : Pick s now x p s₁) :
    s₁.putBack x = s := by
  have hfresh := h.idle hc
  have hclass := h.base.queue_class
  cases pick with
  | @promotion c _ rest hq allowed starving =>
    have hx : x.readySince = now := hfresh c x (by simp [hq])
    rw [starving_iff, hx, starvationLimitTicks] at starving
    omega
  | @highest c _ rest hq =>
    obtain rfl : x.schedClass = c := hclass c x (by simp [hq])
    simp [Scheduler.putBack, Scheduler.setQueue, ← hq]

theorem Calm.spawn (h : Calm n ⟨s, now⟩) (hroom : taskCount s < n) :
    Calm n ⟨s.enqueue x now, now⟩ := by
  have hpush := (enqueue_ready s x now).length_eq
  simp only [List.length_cons] at hpush
  have hcur : (s.enqueue x now).current = s.current := rfl
  refine ⟨(Move.spawn (le_refl now)).invariant h.base, h.fifo.enqueue h.base.ready_le, ?_, ?_,
    h.low.enqueue h.base.promotion_le, h.high.enqueue h.base.promotion_le, ?_, ?_⟩
  · simp only [taskCount] at hroom
    simp only [taskCount, hpush, hcur]
    omega
  · intro hc c t ht
    rcases mem_enqueue.mp ht with ht | ⟨_, rfl⟩
    · exact h.idle hc c t ht
    · rfl
  · intro ahead t behind cur hq hc hplace
    rcases split_enqueue hq with ⟨behind', hq'⟩ | ⟨_, hnow, _⟩
    · exact h.held ahead t behind' cur hq' hc hplace
    · simp only
      omega
  · intro c ahead t behind cur hq hc ht
    simp only [starvationLimitTicks] at ht
    rcases split_enqueue hq with ⟨behind', hq'⟩ | ⟨_, hnow, _⟩
    · rcases h.starved c ahead t behind' cur hq' hc ht with hdue | ⟨_, hcrowd⟩
      · left
        unfold Due at *
        rw [rank_enqueue (by omega)]
        exact hdue
      · have hfull : taskCount s = n := hcrowd.full
        omega
    · omega

theorem quantumTicks_antitone {c d : SchedClass} (h : c ≤ d) : d.quantumTicks ≤ c.quantumTicks := by
  revert h
  cases c <;> cases d <;> decide

theorem shouldPreempt_eq_false {used : ℕ} (h : s.shouldPreempt c used p now = false) :
    (∀ d, c < d → s.readyQueues d = []) ∧
      (s.anyStarving now = true → used < c.quantumTicks) := by
  unfold Scheduler.shouldPreempt at h
  split at h
  · cases h
  · rename_i hw
    refine ⟨higherClassWaiting_eq_false.mp (by simpa using hw), fun hst => ?_⟩
    have hpos := quantumTicks_pos c
    by_contra hge
    have hover : ¬ used < if p then 1 else c.quantumTicks := by
      split <;> omega
    simp [hover, hst] at h

theorem Calm.keep {s : State} (hn : n ≤ 5) (h : Calm n s) (hc : s.scheduler.current = some cur)
    (hp : s.scheduler.chargeTick.shouldPreempt cur.schedClass (cur.ticksUsed + 1) cur.promoted
      (s.now + 1) = true → ∀ c, s.scheduler.readyQueues c = []) :
    Calm n ⟨s.scheduler.chargeTick, s.now + 1⟩ := by
  have hcount := h.count
  rw [taskCount_current hc] at hcount
  have hcur := chargeTick_current hc
  refine ⟨charged_invariant h.base, h.fifo, ?_, by simp [hcur], h.low, h.high, ?_, ?_⟩
  · rw [taskCount_current hcur]
    exact hcount
  · intro ahead t behind cur' hq hcur' hplace
    obtain rfl := Option.some.inj (hcur.symm.trans hcur')
    exact Nat.succ_le_succ (h.held ahead t behind cur hq hc hplace)
  · intro c ahead t behind cur' hq hcur' ht
    obtain rfl := Option.some.inj (hcur.symm.trans hcur')
    have hm : t ∈ s.scheduler.readyQueues c := by
      rw [show s.scheduler.readyQueues c = _ from hq]
      simp
    have hpf : s.scheduler.chargeTick.shouldPreempt cur.schedClass (cur.ticksUsed + 1) cur.promoted
        (s.now + 1) = false := by
      by_contra hne
      rw [Bool.not_eq_false] at hne
      simp [hp hne c] at hm
    obtain ⟨hhigher, hquantum⟩ := shouldPreempt_eq_false hpf
    have hused := hquantum (anyStarving_iff.mpr ⟨c, frontStarving_of_mem h.fifo hm ht⟩)
    have hbeat (d : SchedClass) (hne : s.scheduler.readyQueues d ≠ []) : d ≤ cur.schedClass := by
      by_contra hlt
      exact hne (hhigher d (not_le.mp hlt))
    have hquant := quantumTicks_antitone (hbeat c (List.ne_nil_of_mem hm))
    by_cases hold : t.readySince + starvationLimitTicks ≤ s.now
    · have hst := (h.starved c ahead t behind cur hq hc hold).tick h.base.promotion_le (by omega) ?_
      · rcases hst with hdue | ⟨rfl, hcrowd⟩
        · exact Or.inl hdue
        · refine Or.inr ⟨rfl, hcrowd.place, ?_, hcrowd.rested, hcrowd.age, hcrowd.used_le,
            hcrowd.alone⟩
          rw [taskCount_current hcur]
          exact (taskCount_current hc).symm.trans hcrowd.full
      · have hn3 : SchedClass.quantumTicks .normal = 3 := rfl
        have hr1 : SchedClass.quantumTicks .realtime = 1 := rfl
        rintro (hne | hne)
        · have := quantumTicks_antitone (hbeat .normal hne)
          omega
        · have := quantumTicks_antitone (hbeat .realtime hne)
          omega
    · have ht' : t.readySince + starvationLimitTicks = s.now + 1 :=
        le_antisymm ht (Nat.lt_of_not_le hold)
      have hdue : Due n s.scheduler (s.now + 1) (cur.ticksUsed + 1) c ahead t := by
        refine fresh_due hn hcount h.low h.high ?_ hq ht' (Nat.succ_pos _) ?_
        · exact Nat.le_succ_of_le h.base.promotion_le
        · rintro rfl
          by_contra hplace
          have hheld := h.held ahead t behind cur hq hc (by omega)
          have h6 : SchedClass.quantumTicks .background = 6 := rfl
          simp only [starvationLimitTicks] at ht'
          omega
      exact Or.inl hdue

theorem Calm.reclass (h : Calm n ⟨s, now⟩) : Calm n ⟨s.setCurrentClass c, now⟩ := by
  cases hc : s.current with
  | none =>
    have hs : s.setCurrentClass c = s := by
      cases s
      simp_all [Scheduler.setCurrentClass]
    rw [hs]
    exact h
  | some cur =>
    have hcur : (s.setCurrentClass c).current = some { cur with schedClass := c } := by
      simp [Scheduler.setCurrentClass, hc]
    have hcount : taskCount (s.setCurrentClass c) = taskCount s := by
      rw [taskCount_current hc, taskCount_current hcur]
      rfl
    refine ⟨Move.reclass.invariant h.base, h.fifo, hcount.symm ▸ h.count, by simp [hcur], h.low,
      h.high, ?_, ?_⟩
    · intro ahead t behind cur' hq hcur' hplace
      obtain rfl := Option.some.inj (hcur.symm.trans hcur')
      exact h.held ahead t behind cur hq hc hplace
    · intro d ahead t behind cur' hq hcur' ht
      obtain rfl := Option.some.inj (hcur.symm.trans hcur')
      rcases h.starved d ahead t behind cur hq hc ht with hdue | ⟨hd, hcrowd⟩
      · exact Or.inl hdue
      · exact Or.inr ⟨hd, hcrowd.place, hcount.trans hcrowd.full, hcrowd.rested, hcrowd.age,
          hcrowd.used_le, hcrowd.alone⟩

theorem Calm.reap (h : Calm n ⟨s, now⟩) : Calm n ⟨{ s with zombie := none }, now⟩ := by
  refine ⟨Move.reap.invariant h.base, h.fifo, h.count, h.idle, h.low, h.high, h.held, ?_⟩
  intro c ahead t behind cur hq hc ht
  rcases h.starved c ahead t behind cur hq hc ht with hdue | ⟨hd, hcrowd⟩
  · exact Or.inl hdue
  · exact Or.inr ⟨hd, hcrowd.place, hcrowd.full, hcrowd.rested, hcrowd.age, hcrowd.used_le,
      hcrowd.alone⟩

theorem Calm.planSwitch {kind : SwitchKind} {u : State} (hn : n ≤ 5) (h : Calm n ⟨s, now⟩)
    (hu : settle now (s.planSwitch kind now) = some u) : Calm n u := by
  cases hp : s.planSwitch kind now with
  | panic => simp [hp, settle] at hu
  | stay s' =>
    obtain rfl : ⟨s', now⟩ = u := by simpa [hp, settle] using hu
    rcases planSwitch_stay hp with ⟨rfl, _⟩ | ⟨hc, _, next, p, s₁, pick, rfl⟩
    · exact h
    · rw [h.putBack hc pick]
      exact h
  | switch s' sw =>
    obtain rfl : ⟨s', now⟩ = u := by simpa [hp, settle] using hu
    obtain ⟨current, next, p, s₁, pick, hc, rfl, _⟩ := planSwitch_switch hp
    exact (h.poised hc).handOver hn hc pick

theorem Calm.tick {s u : State} (hn : n ≤ 5) (h : Calm n s)
    (hquiet : s.scheduler.current = none → s.scheduler.ready = [])
    (hu : next s .tick = some u) : Calm n u := by
  cases hc : s.scheduler.current with
  | none =>
    have hempty := ready_eq_nil.mp (hquiet hc)
    have hs : u = ⟨s.scheduler.chargeTick, s.now + 1⟩ := by
      have hpick : s.scheduler.chargeTick.pickNext (s.now + 1) = none := by
        cases hp : s.scheduler.chargeTick.pickNext (s.now + 1) with
        | none => rfl
        | some out =>
          obtain ⟨c, ht⟩ := (pickNext_cases hp).picked
          simp [hempty c] at ht
      simp only [next, Scheduler.preempt, Scheduler.planSwitch, hpick] at hu
      split at hu <;> exact (Option.some.inj hu).symm
    subst hs
    refine calm_of_fresh (charged_invariant h.base) h.fifo ?_ ?_
    · rw [chargeTick_none hc]
      exact h.count
    · intro c t ht
      simp [hempty c] at ht
  | some cur =>
    obtain ⟨hnow, ⟨hkeep, hsched⟩ | ⟨_, v, p, s₁, pick, hsched⟩⟩ :=
      tick_cases hu (chargeTick_current hc)
    · have hu' : u = ⟨s.scheduler.chargeTick, s.now + 1⟩ := by
        cases u
        simp_all
      subst hu'
      exact h.keep hn hc hkeep
    · have hu' : u = ⟨s₁.handOver cur.charged v p (s.now + 1), s.now + 1⟩ := by
        cases u
        simp_all
      subst hu'
      exact (h.poised_later hc).handOver hn (chargeTick_current hc) pick

theorem step_preserves_calm (hn : n ≤ 5) : Preserves next (Fair n) (Calm n) := by
  intro s e u h hfair hu
  cases e with
  | spawn task stamp =>
    obtain ⟨hroom, rfl⟩ := hfair
    simp only [next, le_refl, if_true, Option.some.injEq] at hu
    subst hu
    exact Calm.spawn h hroom
  | yieldNow => exact Calm.planSwitch hn h hu
  | yieldFromSyscall => exact Calm.planSwitch hn h hu
  | tick => exact h.tick hn hfair hu
  | exitTask =>
    simp only [next, Option.map_eq_some_iff] at hu
    obtain ⟨⟨s', reaped, sw⟩, he, rfl⟩ := hu
    obtain ⟨dying, hc, _, ⟨next, p, s₁, pick, rfl, _⟩ | ⟨hq, rfl, _⟩⟩ := exitTask_cases he
    · exact Calm.replace hn h hc pick
    · have hcount := h.count
      rw [taskCount_current hc] at hcount
      refine calm_of_fresh ((Move.last hc hq).invariant h.base) h.fifo ?_ ?_
      · exact (Nat.le_succ _).trans hcount
      · intro c t ht
        simp [hq c] at ht
  | setCurrentClass c =>
    obtain rfl := Option.some.inj hu
    exact Calm.reclass h
  | runUntilIdle =>
    cases hc : s.scheduler.current with
    | some t => simp [next, hc] at hu
    | none =>
      simp only [next, hc, Option.isSome_none, Bool.false_eq_true, if_false] at hu
      cases hs : s.scheduler.startFirst s.now with
      | none =>
        obtain rfl : s = u := by simpa [hs] using hu
        exact h
      | some out =>
        obtain ⟨s', sp⟩ := out
        obtain rfl : _ = u := by simpa [hs] using hu
        obtain ⟨next, p, s₁, pick, rfl, _⟩ := startFirst_cases hs
        exact Calm.start h hc pick
  | reapZombie =>
    obtain rfl := Option.some.inj hu
    exact Calm.reap h

theorem Calm.bounded {s : State} (hn : n ≤ 5) (h : Calm n s)
    (ht : t ∈ s.scheduler.readyQueues c) : s.now - t.readySince ≤ waitBound n := by
  obtain ⟨ahead, behind, hq⟩ := List.append_of_mem ht
  by_cases hst : t.readySince + starvationLimitTicks ≤ s.now
  · cases hc : s.scheduler.current with
    | none =>
      have := h.idle hc c t ht
      omega
    | some cur =>
      rcases h.starved c ahead t behind cur hq hc hst with hdue | ⟨rfl, hcrowd⟩
      · unfold Due at hdue
        omega
      · have hage := hcrowd.age
        have hused := hcrowd.used_le
        have hplace := hcrowd.place
        simp only [waitBound, starvationLimitTicks, promotionIntervalTicks] at *
        omega
  · simp only [waitBound]
    omega

/-- With at most five live tasks the bound holds in every state of every fair run. -/
theorem wait_bounded (hn : n ≤ 5) {es : List Event} {s : State}
    (hm : Meets next (Fair n) initial es) (hs : exec next initial es = some s)
    (ht : t ∈ s.scheduler.readyQueues c) : s.now - t.readySince ≤ waitBound n :=
  (exec_invariant (step_preserves_calm hn) (initial_calm n) hm hs).bounded hn ht

end Steps

end StarvationBound
