import NajmKernel.KernelStacks
import NajmKernel.SchedulingClasses
import Mathlib.Logic.Function.Basic

/-! The scheduler proper: tasks, the three ready queues, and the bookkeeping half of every
switch. A boxed task is identified by its heap address, kept in `handle`. -/
namespace TaskScheduler

open SchedulingClasses KernelStacks

structure Task where
  handle : ℕ
  stackPointer : ℕ
  stack : KernelStack
  addressSpaceRoot : Option ℕ
  supervisorRsp : ℕ
  schedClass : SchedClass
  readySince : ℕ
  promoted : Bool
  ticksUsed : ℕ
  pid : ℕ
  deriving DecidableEq

/-- The value TSS RSP0 must hold while the task is scheduled. -/
def Task.kernelRsp0 (t : Task) : ℕ :=
  if t.supervisorRsp ≠ 0 then t.supervisorRsp - 8 else t.stack.top

/-- A fabricated initial frame is eight words: return address, RFLAGS, six registers. -/
def Task.new (handle : ℕ) (stack : KernelStack) (root : Option ℕ) (pid : ℕ)
    (schedClass : SchedClass) : Task where
  handle := handle
  stackPointer := stack.top - 64
  stack := stack
  addressSpaceRoot := root
  supervisorRsp := 0
  schedClass := schedClass
  readySince := 0
  promoted := false
  ticksUsed := 0
  pid := pid

/-- Whether a waiting task has waited past the starvation limit. -/
def Task.starving (t : Task) (now : ℕ) : Bool :=
  decide (starvationLimitTicks ≤ now - t.readySince)

structure Scheduler where
  readyQueues : SchedClass → List Task
  current : Option Task
  zombie : Option Task
  bootStackPointer : ℕ
  stats : SchedClass → ClassStats
  lastPromotionTick : ℕ

def Scheduler.new : Scheduler where
  readyQueues := fun _ => []
  current := none
  zombie := none
  bootStackPointer := 0
  stats := fun _ => ⟨0, 0, 0⟩
  lastPromotionTick := 0

def Scheduler.setQueue (s : Scheduler) (c : SchedClass) (q : List Task) : Scheduler :=
  { s with readyQueues := Function.update s.readyQueues c q }

def Scheduler.enqueue (s : Scheduler) (task : Task) (now : ℕ) : Scheduler :=
  let task := { task with readySince := now, promoted := false }
  s.setQueue task.schedClass (s.readyQueues task.schedClass ++ [task])

/-- `self.ready_queues[class + 1..].iter().any(|queue| !queue.is_empty())`. -/
def Scheduler.higherClassWaiting (s : Scheduler) (c : SchedClass) : Bool :=
  c.higher.any fun d => !(s.readyQueues d).isEmpty

def frontStarving (q : List Task) (now : ℕ) : Bool :=
  q.head?.any fun task => task.starving now

/-- The first loop of `pick_next`: rescues the front of the lowest class whose front starves. -/
def Scheduler.rescue (s : Scheduler) (now : ℕ) :
    List SchedClass → Option (Task × Bool × Scheduler)
  | [] => none
  | c :: cs =>
    match s.readyQueues c with
    | [] => s.rescue now cs
    | task :: rest =>
      if task.starving now then
        let outranked := s.higherClassWaiting c
        let s := s.setQueue c rest
        some (task, outranked,
          if outranked then { s with lastPromotionTick := now } else s)
      else s.rescue now cs

/-- The second loop of `pick_next`. -/
def Scheduler.popFirst (s : Scheduler) : List SchedClass → Option (Task × Bool × Scheduler)
  | [] => none
  | c :: cs =>
    match s.readyQueues c with
    | [] => s.popFirst cs
    | task :: rest => some (task, false, s.setQueue c rest)

def Scheduler.rescueAllowed (s : Scheduler) (now : ℕ) : Bool :=
  decide (promotionIntervalTicks ≤ now - s.lastPromotionTick)

/-- The chosen task, whether it was promoted past a waiting higher class, and what is left. -/
def Scheduler.pickNext (s : Scheduler) (now : ℕ) : Option (Task × Bool × Scheduler) :=
  if s.rescueAllowed now then
    (s.rescue now SchedClass.ascending).or (s.popFirst SchedClass.descending)
  else s.popFirst SchedClass.descending

def Scheduler.anyStarving (s : Scheduler) (now : ℕ) : Bool :=
  SchedClass.ascending.any fun c => frontStarving (s.readyQueues c) now

def Scheduler.shouldPreempt (s : Scheduler) (c : SchedClass) (ticksUsed : ℕ) (promoted : Bool)
    (now : ℕ) : Bool :=
  if s.higherClassWaiting c then true
  else
    let quantum := if promoted then 1 else c.quantumTicks
    if ticksUsed < quantum then false
    else !(s.readyQueues c).isEmpty || s.anyStarving now

def recordStats (stats : ClassStats) (waited : ℕ) (promoted : Bool) : ClassStats where
  dispatches := stats.dispatches + 1
  maxWaitTicks := max stats.maxWaitTicks waited
  promotions := if promoted then stats.promotions + 1 else stats.promotions

/-- The statistics half of `record_dispatch`. -/
def Scheduler.recordDispatch (s : Scheduler) (task : Task) (now : ℕ) (promoted : Bool) :
    Scheduler :=
  { s with
    stats := Function.update s.stats task.schedClass
      (recordStats (s.stats task.schedClass) (now - task.readySince) promoted) }

/-- The task half of `record_dispatch`. -/
def Task.dispatched (t : Task) (promoted : Bool) : Task :=
  { t with promoted := promoted, ticksUsed := 0 }

inductive SwitchKind where
  | voluntary
  | voluntaryFromUser
  | preemptive
  deriving DecidableEq, Repr

/-- Where a switch stores the outgoing stack pointer: a field of a boxed task, the scheduler's
`boot_stack_pointer`, or a local of `exit_task` that is never read. -/
inductive StackOut where
  | task (handle : ℕ)
  | boot
  | discarded
  deriving DecidableEq, Repr

/-- What `perform_switch` is told: where the outgoing stack pointer goes, then the stack, TSS
RSP0 and the address space, if any, to load. -/
structure Switch where
  currentStackOut : StackOut
  nextStack : ℕ
  nextKernelStackTop : ℕ
  nextAddressSpace : Option ℕ
  deriving DecidableEq, Repr

def Switch.to (out : StackOut) (t : Task) : Switch :=
  ⟨out, t.stackPointer, t.kernelRsp0, t.addressSpaceRoot⟩

/-- The outcome of the bookkeeping: keep running, switch, or panic. -/
inductive Plan where
  | stay (s : Scheduler)
  | switch (s : Scheduler) (sw : Switch)
  | panic

/-- The next task is made current without anyone to take its place in the queues. -/
def Scheduler.dispatch (s : Scheduler) (next : Task) (promoted : Bool) (now : ℕ) : Scheduler :=
  { s.recordDispatch next now promoted with current := some (next.dispatched promoted) }

/-- The outgoing task. Its stack pointer is stored later, by the switch itself. -/
def Task.outgoing (t : Task) : Task := { t with ticksUsed := 0 }

def Scheduler.handOver (s : Scheduler) (current next : Task) (promoted : Bool) (now : ℕ) :
    Scheduler :=
  let s := s.recordDispatch next now promoted
  let s := s.enqueue current.outgoing now
  { s with current := some (next.dispatched promoted) }

/-- What was taken is put back at the front of its queue. -/
def Scheduler.putBack (s : Scheduler) (t : Task) : Scheduler :=
  s.setQueue t.schedClass (t :: s.readyQueues t.schedClass)

def Scheduler.planSwitch (s : Scheduler) (kind : SwitchKind) (now : ℕ) : Plan :=
  match s.pickNext now with
  | none => .stay s
  | some (next, promoted, s) =>
    match s.current with
    | none =>
      match kind with
      | .preemptive => .stay (s.putBack next)
      | .voluntaryFromUser => .stay (s.putBack next)
      | .voluntary => .panic
    | some current => .switch (s.handOver current next promoted now) (.to (.task current.handle) next)

def Task.charged (t : Task) : Task := { t with ticksUsed := t.ticksUsed + 1 }

/-- The current task is charged one tick. -/
def Scheduler.chargeTick (s : Scheduler) : Scheduler :=
  { s with current := s.current.map Task.charged }

/-- The decision `preempt` takes after charging the tick. -/
def Scheduler.shouldSwitch (s : Scheduler) (now : ℕ) : Bool :=
  match s.current with
  | none => true
  | some t => s.shouldPreempt t.schedClass t.ticksUsed t.promoted now

def Scheduler.preempt (s : Scheduler) (now : ℕ) : Plan :=
  let s := s.chargeTick
  if s.shouldSwitch now then s.planSwitch .preemptive now else .stay s

/-- The bookkeeping of `exit_task`: the dying task becomes the zombie, the previous zombie is
handed out to be dropped. With an empty queue the boot context is resumed. -/
def Scheduler.exitTask (s : Scheduler) (now bootPrivilegeStack : ℕ) :
    Option (Scheduler × Option Task × Switch) :=
  match s.current with
  | none => none
  | some dying =>
    let reaped := s.zombie
    let s := { s with current := none, zombie := some dying }
    match s.pickNext now with
    | some (next, promoted, s) =>
      some (s.dispatch next promoted now, reaped, .to .discarded next)
    | none => some (s, reaped, ⟨.discarded, s.bootStackPointer, bootPrivilegeStack, none⟩)

/-- The locked section that opens `run_until_idle`. -/
def Scheduler.startFirst (s : Scheduler) (now : ℕ) : Option (Scheduler × ℕ) :=
  match s.pickNext now with
  | none => none
  | some (next, promoted, s) =>
    some (s.dispatch next promoted now, next.stackPointer)

def Scheduler.setCurrentClass (s : Scheduler) (c : SchedClass) : Scheduler :=
  { s with current := s.current.map fun t => { t with schedClass := c } }

/-- A write through a pointer into a boxed task: it reaches the box wherever it is kept. -/
def Scheduler.modifyTask (s : Scheduler) (handle : ℕ) (f : Task → Task) : Scheduler :=
  let write (t : Task) := if t.handle = handle then f t else t
  { s with
    readyQueues := fun c => (s.readyQueues c).map write
    current := s.current.map write
    zombie := s.zombie.map write }

section Queues

variable {s s' : Scheduler} {c d : SchedClass} {q : List Task} {t : Task} {now : ℕ}

@[simp] theorem setQueue_readyQueues :
    (s.setQueue c q).readyQueues = Function.update s.readyQueues c q := rfl

@[simp] theorem setQueue_current : (s.setQueue c q).current = s.current := rfl

@[simp] theorem setQueue_zombie : (s.setQueue c q).zombie = s.zombie := rfl

@[simp] theorem setQueue_bootStackPointer :
    (s.setQueue c q).bootStackPointer = s.bootStackPointer := rfl

@[simp] theorem setQueue_lastPromotionTick :
    (s.setQueue c q).lastPromotionTick = s.lastPromotionTick := rfl

/-- Every ready task, lowest class first. -/
def Scheduler.ready (s : Scheduler) : List Task := SchedClass.ascending.flatMap s.readyQueues

theorem mem_ready : t ∈ s.ready ↔ ∃ c, t ∈ s.readyQueues c := by
  simp [Scheduler.ready]

theorem ready_congr (h : s.readyQueues = s'.readyQueues) : s.ready = s'.ready := by
  simp [Scheduler.ready, h]

theorem ready_eq_nil : s.ready = [] ↔ ∀ c, s.readyQueues c = [] := by
  simp [Scheduler.ready]

theorem ready_append (s : Scheduler) :
    s.ready = s.readyQueues .background ++ (s.readyQueues .normal ++ s.readyQueues .realtime) := by
  simp [Scheduler.ready, SchedClass.ascending]

theorem ready_cons (s : Scheduler) (c : SchedClass) (t : Task) (q : List Task) :
    (s.setQueue c (t :: q)).ready.Perm (t :: (s.setQueue c q).ready) := by
  rw [ready_append, ready_append]
  cases c with
  | background => simp
  | normal => simp [List.perm_middle]
  | realtime =>
    simp only [setQueue_readyQueues, Function.update_self, ne_eq, reduceCtorEq,
      not_false_eq_true, Function.update_of_ne]
    rw [← List.append_assoc, ← List.append_assoc]
    exact List.perm_middle

theorem ready_pop {rest : List Task} (h : s.readyQueues c = t :: rest) :
    s.ready.Perm (t :: (s.setQueue c rest).ready) := by
  have hs : s.ready = (s.setQueue c (t :: rest)).ready := by
    apply ready_congr
    simp [← h]
  rw [hs]
  exact ready_cons s c t rest

theorem ready_push (s : Scheduler) (c : SchedClass) (t : Task) (q : List Task) :
    (s.setQueue c (q ++ [t])).ready.Perm (t :: (s.setQueue c q).ready) := by
  refine List.Perm.trans ?_ (ready_cons s c t q)
  rw [ready_append, ready_append]
  have hq : (q ++ [t]).Perm (t :: q) := List.perm_append_singleton t q
  cases c with
  | background => simp
  | normal => simpa using (hq.append_right (s.readyQueues .realtime)).append_left _
  | realtime => simpa using (hq.append_left (s.readyQueues .normal)).append_left _

theorem enqueue_ready (s : Scheduler) (t : Task) (now : ℕ) :
    (s.enqueue t now).ready.Perm ({ t with readySince := now, promoted := false } :: s.ready) := by
  have h := ready_push s t.schedClass { t with readySince := now, promoted := false }
    (s.readyQueues t.schedClass)
  have hs : (s.setQueue t.schedClass (s.readyQueues t.schedClass)).ready = s.ready :=
    ready_congr (by simp)
  rw [hs] at h
  exact h

end Queues

/-- What `pick_next` may hand out, and what it leaves behind. -/
inductive Pick (s : Scheduler) (now : ℕ) : Task → Bool → Scheduler → Prop where
  | promotion {c : SchedClass} {t : Task} {rest : List Task} (hq : s.readyQueues c = t :: rest)
      (allowed : s.lastPromotionTick + promotionIntervalTicks ≤ now)
      (starving : t.starving now = true) (outranked : ∃ d, c < d ∧ s.readyQueues d ≠ [])
      (lower : ∀ d, d < c → frontStarving (s.readyQueues d) now = false) :
      Pick s now t true { s.setQueue c rest with lastPromotionTick := now }
  | highest {c : SchedClass} {t : Task} {rest : List Task} (hq : s.readyQueues c = t :: rest)
      (higher : ∀ d, c < d → s.readyQueues d = [])
      (fair : s.rescueAllowed now = true → ∀ d, d < c → frontStarving (s.readyQueues d) now = false) :
      Pick s now t false (s.setQueue c rest)

section Picking

variable {s s' : Scheduler} {c d : SchedClass} {t : Task} {p : Bool} {now : ℕ}

theorem higherClassWaiting_iff :
    s.higherClassWaiting c = true ↔ ∃ d, c < d ∧ s.readyQueues d ≠ [] := by
  simp [Scheduler.higherClassWaiting]

theorem higherClassWaiting_eq_false :
    s.higherClassWaiting c = false ↔ ∀ d, c < d → s.readyQueues d = [] := by
  simp [Scheduler.higherClassWaiting]

theorem anyStarving_iff :
    s.anyStarving now = true ↔ ∃ c, frontStarving (s.readyQueues c) now = true := by
  simp [Scheduler.anyStarving]

@[simp] theorem frontStarving_nil : frontStarving [] now = false := rfl

@[simp] theorem frontStarving_cons {rest : List Task} :
    frontStarving (t :: rest) now = t.starving now := rfl

/-- The class that the rescue loop stops at, after the classes it passed over. -/
private def RescuedAt (s : Scheduler) (now : ℕ) (cs : List SchedClass) (t : Task) (p : Bool)
    (s' : Scheduler) : Prop :=
  ∃ l c r rest, cs = l ++ c :: r ∧ s.readyQueues c = t :: rest ∧ t.starving now = true ∧
    (∀ d ∈ l, frontStarving (s.readyQueues d) now = false) ∧ p = s.higherClassWaiting c ∧
    s' = if p then { s.setQueue c rest with lastPromotionTick := now } else s.setQueue c rest

private theorem RescuedAt.skip {cs : List SchedClass} (h : RescuedAt s now cs t p s')
    (hc : frontStarving (s.readyQueues c) now = false) : RescuedAt s now (c :: cs) t p s' := by
  obtain ⟨l, e, r, rest, rfl, hq, ht, hl, hp, hs⟩ := h
  exact ⟨c :: l, e, r, rest, rfl, hq, ht, by simpa [hc] using hl, hp, hs⟩

private theorem rescue_some {cs : List SchedClass} (h : s.rescue now cs = some (t, p, s')) :
    RescuedAt s now cs t p s' := by
  induction cs with
  | nil => simp [Scheduler.rescue] at h
  | cons c cs ih =>
    cases hq : s.readyQueues c with
    | nil =>
      simp only [Scheduler.rescue, hq] at h
      exact (ih h).skip (by simp [hq])
    | cons u rest =>
      simp only [Scheduler.rescue, hq] at h
      by_cases hu : u.starving now = true
      · simp only [hu, if_true, Option.some.injEq, Prod.mk.injEq] at h
        obtain ⟨rfl, rfl, rfl⟩ := h
        exact ⟨[], c, cs, rest, rfl, hq, hu, by simp, rfl, rfl⟩
      · simp only [hu] at h
        exact (ih h).skip (by simpa [hq] using hu)

private theorem rescue_none {cs : List SchedClass} (h : s.rescue now cs = none) :
    ∀ d ∈ cs, frontStarving (s.readyQueues d) now = false := by
  induction cs with
  | nil => simp
  | cons c cs ih =>
    cases hq : s.readyQueues c with
    | nil =>
      simp only [Scheduler.rescue, hq] at h
      simpa [hq] using ih h
    | cons u rest =>
      simp only [Scheduler.rescue, hq] at h
      by_cases hu : u.starving now = true
      · simp [hu] at h
      · simp only [hu] at h
        simpa [hq, hu] using ih h

private theorem popFirst_some {cs : List SchedClass} (h : s.popFirst cs = some (t, p, s')) :
    ∃ l c r rest, cs = l ++ c :: r ∧ s.readyQueues c = t :: rest ∧
      (∀ d ∈ l, s.readyQueues d = []) ∧ p = false ∧ s' = s.setQueue c rest := by
  induction cs with
  | nil => simp [Scheduler.popFirst] at h
  | cons c cs ih =>
    cases hq : s.readyQueues c with
    | nil =>
      simp only [Scheduler.popFirst, hq] at h
      obtain ⟨l, e, r, rest, rfl, hq', hl, hp, hs⟩ := ih h
      exact ⟨c :: l, e, r, rest, rfl, hq', by simpa [hq] using hl, hp, hs⟩
    | cons u rest =>
      simp only [Scheduler.popFirst, hq, Option.some.injEq, Prod.mk.injEq] at h
      obtain ⟨rfl, rfl, rfl⟩ := h
      exact ⟨[], c, cs, rest, rfl, hq, by simp, rfl, rfl⟩

private theorem popFirst_none {cs : List SchedClass} (h : s.popFirst cs = none) :
    ∀ d ∈ cs, s.readyQueues d = [] := by
  induction cs with
  | nil => simp
  | cons c cs ih =>
    cases hq : s.readyQueues c with
    | nil =>
      simp only [Scheduler.popFirst, hq] at h
      simpa [hq] using ih h
    | cons u rest => simp [Scheduler.popFirst, hq] at h

private theorem ascending_before {l r : List SchedClass}
    (h : SchedClass.ascending = l ++ c :: r) (hd : d < c) : d ∈ l := by
  have hm : d ∈ l ++ c :: r := h ▸ mem_ascending d
  rcases l with _ | ⟨a, _ | ⟨b, _ | ⟨e, l⟩⟩⟩ <;>
    cases c <;> cases d <;> simp_all [SchedClass.ascending, lt_iff_index, SchedClass.index]

private theorem descending_before {l r : List SchedClass}
    (h : SchedClass.descending = l ++ c :: r) (hd : c < d) : d ∈ l := by
  have hm : d ∈ l ++ c :: r := h ▸ mem_descending d
  rcases l with _ | ⟨a, _ | ⟨b, _ | ⟨e, l⟩⟩⟩ <;>
    cases c <;> cases d <;> simp_all [SchedClass.descending, lt_iff_index, SchedClass.index]

theorem pickNext_cases (h : s.pickNext now = some (t, p, s')) : Pick s now t p s' := by
  have lowest (hf : s.rescueAllowed now = true → s.rescue now SchedClass.ascending = none)
      (h : s.popFirst SchedClass.descending = some (t, p, s')) : Pick s now t p s' := by
    obtain ⟨l, c, r, rest, hl, hq, hempty, rfl, rfl⟩ := popFirst_some h
    exact .highest hq (fun d hd => hempty d (descending_before hl hd))
      fun ha d _ => rescue_none (hf ha) d (mem_ascending d)
  unfold Scheduler.pickNext at h
  by_cases ha : s.rescueAllowed now = true
  · simp only [ha, if_true] at h
    cases hr : s.rescue now SchedClass.ascending with
    | none => exact lowest (fun _ => hr) (by simpa [hr] using h)
    | some out =>
      obtain ⟨u, b, v⟩ := out
      simp only [hr, Option.some_or, Option.some.injEq, Prod.mk.injEq] at h
      obtain ⟨rfl, rfl, rfl⟩ := h
      obtain ⟨l, c, r, rest, hl, hq, ht, hlow, hp, hs⟩ := rescue_some hr
      have hlow' (d : SchedClass) (hd : d < c) := hlow d (ascending_before hl hd)
      cases hb : s.higherClassWaiting c with
      | true =>
        rw [hb] at hp
        subst hp hs
        refine .promotion hq ?_ ht (higherClassWaiting_iff.mp hb) hlow'
        have hpos : 0 < promotionIntervalTicks := by decide
        simp only [Scheduler.rescueAllowed, decide_eq_true_eq] at ha
        omega
      | false =>
        rw [hb] at hp
        subst hp hs
        exact .highest hq (higherClassWaiting_eq_false.mp hb) fun _ => hlow'
  · exact lowest (fun hc => absurd hc ha) (by simpa [ha] using h)

theorem pickNext_none (h : s.pickNext now = none) (c : SchedClass) : s.readyQueues c = [] := by
  unfold Scheduler.pickNext at h
  have hp : s.popFirst SchedClass.descending = none := by
    split at h
    · exact (Option.or_eq_none_iff.mp h).2
    · exact h
  exact popFirst_none hp c (mem_descending c)

end Picking

section Plans

variable {s s' : Scheduler} {c : SchedClass} {t : Task} {p : Bool} {now : ℕ}

theorem Pick.current_eq (h : Pick s now t p s') : s'.current = s.current := by
  cases h <;> rfl

theorem Pick.zombie_eq (h : Pick s now t p s') : s'.zombie = s.zombie := by
  cases h <;> rfl

theorem Pick.bootStackPointer_eq (h : Pick s now t p s') :
    s'.bootStackPointer = s.bootStackPointer := by
  cases h <;> rfl

/-- The picked task leaves the front of some queue; the other queues are untouched. -/
theorem Pick.queue (h : Pick s now t p s') :
    ∃ c rest, s.readyQueues c = t :: rest ∧
      s'.readyQueues = Function.update s.readyQueues c rest := by
  cases h with
  | promotion hq => exact ⟨_, _, hq, rfl⟩
  | highest hq => exact ⟨_, _, hq, rfl⟩

theorem Pick.ready (h : Pick s now t p s') : s.ready.Perm (t :: s'.ready) := by
  cases h with
  | promotion hq => exact ready_pop hq
  | highest hq => exact ready_pop hq

theorem Pick.lastPromotionTick (h : Pick s now t p s') :
    s'.lastPromotionTick = if p then now else s.lastPromotionTick := by
  cases h <;> rfl

theorem Pick.unpromoted (pick : Pick s now t p s')
    (h : ¬ s.lastPromotionTick + promotionIntervalTicks ≤ now) :
    s'.lastPromotionTick = s.lastPromotionTick := by
  cases pick with
  | promotion hq allowed => exact absurd allowed h
  | highest hq => rfl

theorem Pick.promotion_le (pick : Pick s now t p s') (h : s.lastPromotionTick ≤ now) :
    s'.lastPromotionTick ≤ now := by
  rw [pick.lastPromotionTick]
  split
  · exact Nat.le_refl now
  · exact h

theorem Pick.lastPromotionTick_le (pick : Pick s now t p s') (h : s.lastPromotionTick ≤ now) :
    s.lastPromotionTick ≤ s'.lastPromotionTick := by
  rw [pick.lastPromotionTick]
  split
  · exact h
  · exact Nat.le_refl _

theorem enqueue_queue (s : Scheduler) (t : Task) (now : ℕ) :
    (s.enqueue t now).readyQueues = Function.update s.readyQueues t.schedClass
      (s.readyQueues t.schedClass ++ [{ t with readySince := now, promoted := false }]) := rfl

theorem mem_enqueue {s : Scheduler} {t x : Task} {now : ℕ} {c : SchedClass} :
    x ∈ (s.enqueue t now).readyQueues c ↔ x ∈ s.readyQueues c ∨
      (c = t.schedClass ∧ x = { t with readySince := now, promoted := false }) := by
  by_cases hc : c = t.schedClass
  · subst hc
    simp [enqueue_queue]
  · simp [enqueue_queue, hc]

theorem Pick.mem (h : Pick s now t p s') {x : Task} {c : SchedClass}
    (hx : x ∈ s'.readyQueues c) : x ∈ s.readyQueues c := by
  obtain ⟨d, rest, hq, hs⟩ := h.queue
  rw [hs] at hx
  by_cases hc : c = d
  · subst hc
    simp only [Function.update_self] at hx
    simp [hq, hx]
  · simpa [hc] using hx

theorem Pick.picked (h : Pick s now t p s') : ∃ c, t ∈ s.readyQueues c := by
  obtain ⟨c, rest, hq, _⟩ := h.queue
  exact ⟨c, by simp [hq]⟩

@[simp] theorem dispatch_readyQueues :
    (s.dispatch t p now).readyQueues = s.readyQueues := rfl

@[simp] theorem dispatch_lastPromotionTick :
    (s.dispatch t p now).lastPromotionTick = s.lastPromotionTick := rfl

@[simp] theorem dispatch_current : (s.dispatch t p now).current = some (t.dispatched p) := rfl

@[simp] theorem dispatch_zombie : (s.dispatch t p now).zombie = s.zombie := rfl

@[simp] theorem handOver_readyQueues {u : Task} :
    (s.handOver u t p now).readyQueues =
      (s.enqueue u.outgoing now).readyQueues := rfl

@[simp] theorem handOver_lastPromotionTick {u : Task} :
    (s.handOver u t p now).lastPromotionTick = s.lastPromotionTick := rfl

@[simp] theorem handOver_current {u : Task} :
    (s.handOver u t p now).current = some (t.dispatched p) := rfl

@[simp] theorem handOver_zombie {u : Task} :
    (s.handOver u t p now).zombie = s.zombie := rfl

@[simp] theorem dispatched_schedClass : (t.dispatched p).schedClass = t.schedClass := rfl

@[simp] theorem dispatched_promoted : (t.dispatched p).promoted = p := rfl

@[simp] theorem dispatched_ticksUsed : (t.dispatched p).ticksUsed = 0 := rfl

@[simp] theorem outgoing_handle : t.outgoing.handle = t.handle := rfl

@[simp] theorem outgoing_schedClass : t.outgoing.schedClass = t.schedClass := rfl

@[simp] theorem dispatched_handle : (t.dispatched p).handle = t.handle := rfl

@[simp] theorem charged_schedClass : t.charged.schedClass = t.schedClass := rfl

@[simp] theorem charged_handle : t.charged.handle = t.handle := rfl

@[simp] theorem chargeTick_readyQueues : s.chargeTick.readyQueues = s.readyQueues := rfl

@[simp] theorem chargeTick_lastPromotionTick :
    s.chargeTick.lastPromotionTick = s.lastPromotionTick := rfl

@[simp] theorem chargeTick_zombie : s.chargeTick.zombie = s.zombie := rfl

theorem chargeTick_current (h : s.current = some t) : s.chargeTick.current = some t.charged := by
  simp [Scheduler.chargeTick, h]

theorem chargeTick_none (h : s.current = none) : s.chargeTick = s := by
  cases s
  simp_all [Scheduler.chargeTick]

/-- When a task sits in the queue of its class, taking it and putting it back is invisible
to the queues. -/
theorem Pick.putBack_readyQueues (h : Pick s now t p s')
    (hc : ∀ c, ∀ x ∈ s.readyQueues c, x.schedClass = c) :
    (s'.putBack t).readyQueues = s.readyQueues := by
  obtain ⟨c, rest, hq, hs⟩ := h.queue
  obtain rfl : t.schedClass = c := hc c t (by simp [hq])
  simp [Scheduler.putBack, hs, ← hq]

theorem planSwitch_switch {kind : SwitchKind} {sw : Switch}
    (h : s.planSwitch kind now = .switch s' sw) :
    ∃ current next p s₁, Pick s now next p s₁ ∧ s.current = some current ∧
      s' = s₁.handOver current next p now ∧ sw = .to (.task current.handle) next := by
  unfold Scheduler.planSwitch at h
  cases hp : s.pickNext now with
  | none => simp [hp] at h
  | some out =>
    obtain ⟨next, p, s₁⟩ := out
    have pick := pickNext_cases hp
    cases hc : s.current with
    | none => cases kind <;> simp [hp, pick.current_eq, hc] at h
    | some current =>
      simp only [hp, pick.current_eq, hc, Plan.switch.injEq] at h
      exact ⟨current, next, p, s₁, pick, rfl, h.1.symm, h.2.symm⟩

theorem planSwitch_stay {kind : SwitchKind} (h : s.planSwitch kind now = .stay s') :
    (s' = s ∧ ∀ c, s.readyQueues c = []) ∨
      (s.current = none ∧ kind ≠ .voluntary ∧
        ∃ next p s₁, Pick s now next p s₁ ∧ s' = s₁.putBack next) := by
  unfold Scheduler.planSwitch at h
  cases hp : s.pickNext now with
  | none =>
    left
    simp only [hp, Plan.stay.injEq] at h
    exact ⟨h.symm, pickNext_none hp⟩
  | some out =>
    obtain ⟨next, p, s₁⟩ := out
    have pick := pickNext_cases hp
    cases hc : s.current with
    | none =>
      right
      refine ⟨rfl, ?_, next, p, s₁, pick, ?_⟩ <;> cases kind <;>
        simp [hp, pick.current_eq, hc] at h ⊢ <;> exact h.symm
    | some current => simp [hp, pick.current_eq, hc] at h

theorem exitTask_cases {boot : ℕ} {reaped : Option Task} {sw : Switch}
    (h : s.exitTask now boot = some (s', reaped, sw)) :
    ∃ dying, s.current = some dying ∧ reaped = s.zombie ∧
      ((∃ next p s₁, Pick { s with current := none, zombie := some dying } now next p s₁ ∧
          s' = s₁.dispatch next p now ∧ sw = .to .discarded next) ∨
        ((∀ c, s.readyQueues c = []) ∧ s' = { s with current := none, zombie := some dying } ∧
          sw = ⟨.discarded, s.bootStackPointer, boot, none⟩)) := by
  unfold Scheduler.exitTask at h
  cases hc : s.current with
  | none => simp [hc] at h
  | some dying =>
    refine ⟨dying, rfl, ?_⟩
    simp only [hc] at h
    cases hp : Scheduler.pickNext { s with current := none, zombie := some dying } now with
    | none =>
      simp only [hp, Option.some.injEq, Prod.mk.injEq] at h
      have hempty : ∀ c, s.readyQueues c = [] := fun c => pickNext_none hp c
      exact ⟨h.2.1.symm, Or.inr ⟨hempty, h.1.symm, h.2.2.symm⟩⟩
    | some out =>
      obtain ⟨next, p, s₁⟩ := out
      simp only [hp, Option.some.injEq, Prod.mk.injEq] at h
      exact ⟨h.2.1.symm, Or.inl ⟨next, p, s₁, pickNext_cases hp, h.1.symm, h.2.2.symm⟩⟩

theorem startFirst_cases {sp : ℕ} (h : s.startFirst now = some (s', sp)) :
    ∃ next p s₁, Pick s now next p s₁ ∧ s' = s₁.dispatch next p now ∧
      sp = next.stackPointer := by
  unfold Scheduler.startFirst at h
  cases hp : s.pickNext now with
  | none => simp [hp] at h
  | some out =>
    obtain ⟨next, p, s₁⟩ := out
    simp only [hp, Option.some.injEq, Prod.mk.injEq] at h
    exact ⟨next, p, s₁, pickNext_cases hp, h.1.symm, h.2.symm⟩

end Plans

end TaskScheduler
