import NajmKernel.Footprints

/-! Between the announcement of a task and the switch to its stack. Three of the four paths mask
interrupts before the announcement; `run_until_idle` restores the interrupt flag between its two
sections, and a tick there stores the boot context's stack pointer into the announced task. -/
namespace KernelMachine

open SchedulingClasses KernelStacks TaskScheduler TransitionSystem

variable {P : Platform} {m m' : Machine} {e : Event} {sp : ℕ}

/-- With interrupts enabled, a current task runs on its own stack, and only the boot context
runs without one. -/
def Agrees (P : Platform) (m : Machine) : Prop :=
  m.cpu.interrupts = true →
    (∀ t, m.scheduler.current = some t → t.stack.Holds m.cpu.rsp) ∧
      (m.scheduler.current = none → P.OnBoot m.cpu.rsp)

/-- The stack pointer about to be stored for a task points into that task's stack. -/
def StoresOwn (m : Machine) : Prop :=
  ∀ hd handle, m.cpu.handoff = some hd → hd.switch.currentStackOut = .task handle →
    ∃ t ∈ m.scheduler.ready, t.handle = handle ∧ t.stack.Holds m.cpu.rsp

/-- `run_until_idle` is not called with interrupts enabled while a task is ready. -/
def StartsMasked (P : Platform) (m : Machine) (e : Event) : Prop :=
  e = .runUntilIdle → (next P m e).isSome = true →
    m.cpu.interrupts = false ∨ m.scheduler.ready = []

def Code.isWindow : Code → Bool
  | .window _ => true
  | _ => false

instance (m : Machine) (e : Event) : Decidable (StartsMasked P m e) :=
  inferInstanceAs (Decidable (_ → _ → _))

/-- The window is only ever open with interrupts masked, and nothing is parked inside it. -/
structure Shut (m : Machine) : Prop where
  masked : m.cpu.code.isWindow = true → m.cpu.interrupts = false
  leaving : m.cpu.handoff ≠ none → m.cpu.code.isWindow = false
  parked : NoneParked Code.isWindow m

section Steps

theorem switches_not_window {code : Code} (h : code.switches = true) : code.isWindow = false := by
  cases code <;> simp [Code.switches, Code.isWindow] at h ⊢

theorem isWindow_inner {code : Code} (h : code.isWindow = true) : code.inner = true := by
  cases code <;> simp [Code.isWindow, Code.inner] at h ⊢

theorem Act.window (ha : Act P m e m') (hw : m'.cpu.code.isWindow = true) :
    m'.cpu.interrupts = m.cpu.interrupts ∧ (m.cpu.code.isWindow = true ∨
      e = .runUntilIdle ∧ m.scheduler.ready ≠ []) := by
  have hi := ha.inner (isWindow_inner hw)
  cases ha with
  | clobber => exact ⟨rfl, Or.inl hw⟩
  | runUntilIdle code =>
    unfold Machine.runUntilIdle at hw ⊢
    cases hs : m.scheduler.startFirst m.ticks with
    | none => simp [hs, code, Code.isWindow] at hw
    | some out =>
      obtain ⟨next, p, s₁, pick, _⟩ := startFirst_cases hs
      refine ⟨rfl, Or.inr ⟨rfl, fun hempty => ?_⟩⟩
      have hm : next ∈ m.scheduler.ready := pick.ready.mem_iff.mpr List.mem_cons_self
      simp [hempty] at hm
  | restoreRoot => cases hw
  | beginDrop => cases hw
  | releaseFrame => cases hw
  | _ => cases hi

theorem Shut.step (s : Shut m) (hg : Good P m) (ok : StartsMasked P m e)
    (hn : next P m e = some m') : Shut m' := by
  have hs := next_cases hn
  refine ⟨fun hw => ?_, fun hne => ?_, s.parked.step s.leaving rfl rfl hs⟩
  · cases hs with
    | tick enabled =>
      rw [tick_inner (isWindow_inner hw)] at hw
      simp [s.masked hw] at enabled
    | performSwitch handoff =>
      rw [s.parked.resumed (s.leaving (by simp [handoff])) rfl] at hw
      cases hw
    | act _ ha =>
      obtain ⟨hsame, hold | ⟨rfl, hready⟩⟩ := ha.window hw
      · rw [hsame]
        exact s.masked hold
      · rw [hsame]
        exact (ok rfl (by simp [hn])).resolve_right hready
  · rcases hg.switch_begins hn hne with ⟨_, enabled, hcode⟩ | hsw
    · rw [hcode]
      by_contra hw
      simp [s.masked (by simpa using hw)] at enabled
    · exact switches_not_window hsw

theorem Boots.shut (hb : Boots P m) : Shut m where
  masked hw := by simp [hb.code, Code.isWindow] at hw
  leaving hne := absurd hb.handoff hne
  parked sp k h := by simp [hb.frames] at h

end Steps

section States

theorem Good.agrees (hg : Good P m) (s : Shut m) : Agrees P m := by
  intro enabled
  cases hg.stage with
  | solo st =>
    have hh := st.running.holds
    cases hc : st.current with
    | boot hn =>
      constructor
      · intro t ht
        simp [hn] at ht
      · exact fun _ => hh
    | task ht =>
      constructor
      · intro u hu
        obtain rfl := Option.some.inj (ht.symm.trans hu)
        exact hh
      · intro hn
        simp [ht] at hn
  | window w =>
    have hoff := s.masked (by rw [w.code]; rfl)
    simp [hoff] at enabled
  | leaving l => simp [l.masked] at enabled

theorem Good.storesOwn (hg : Good P m) (s : Shut m) : StoresOwn m := by
  intro hd handle hh hout
  cases hg.stage with
  | solo st => simp [st.handoff] at hh
  | window w => simp [w.handoff] at hh
  | leaving l =>
    obtain rfl := Option.some.inj (hh.symm.trans l.handoff)
    have hl := l.leaver
    rw [hout] at hl
    cases hl with
    | @task t _ queued running => exact ⟨t, queued, rfl, running.holds⟩
    | window _ _ code =>
      have hshut := s.leaving (by simp [hh])
      rw [show m.cpu.code = .window _ from code] at hshut
      cases hshut

/-- Announcing a first task with interrupts enabled breaks the agreement on the spot. -/
theorem Good.announced (hg : Good P m) (bad : ¬ StartsMasked P m e) :
    ∃ u, next P m e = some u ∧ ¬ (Agrees P u ∧ StoresOwn u) := by
  simp only [StartsMasked, Classical.not_imp, not_or, Bool.not_eq_false] at bad
  obtain ⟨rfl, hsome, enabled, hready⟩ := bad
  obtain ⟨u, hu⟩ := Option.isSome_iff_exists.mp hsome
  refine ⟨u, hu, fun hq => ?_⟩
  cases next_cases hu with
  | act handoff ha =>
  cases ha with
  | runUntilIdle code boot =>
  have hcur := hg.stage.idle handoff code boot
  unfold Machine.runUntilIdle at hq
  cases hs : m.scheduler.startFirst m.ticks with
  | none =>
    have hnone : m.scheduler.pickNext m.ticks = none := by
      unfold Scheduler.startFirst at hs
      split at hs
      · assumption
      · simp at hs
    exact hready (ready_eq_nil.mpr (pickNext_none hnone))
  | some out =>
    obtain ⟨next, p, s₁, _, hout, _⟩ := startFirst_cases hs
    simp only [hs] at hq
    have ht : out.1.current = some (next.dispatched p) := by rw [hout]; rfl
    have hon := (hq.1 enabled).1 _ ht
    have hlt := boot_lt_stack P _ hon
    exact absurd boot (Nat.not_le.mpr hlt)

/-- The scheduler's current task is the one whose stack is in use, and no stack pointer is stored
for another, all along a run in which every `run_until_idle` that finds a task is called with
interrupts masked, and in no other run. -/
theorem starts_masked_iff {m₀ : Machine} {es : List Event} (boot : Boots P m₀) :
    Always (next P) (fun m => Agrees P m ∧ StoresOwn m) m₀ es ↔
      Meets (next P) (StartsMasked P) m₀ es := by
  constructor
  · intro h
    exact h.meets step_preserves_good (fun _ _ hg bad => hg.announced bad) boot.good
  · intro hm
    have hstep : Preserves (next P) (StartsMasked P) (fun m => Good P m ∧ Shut m) := by
      intro m e m' hg ok hn
      exact ⟨step_preserves_good m e m' hg.1 trivial hn, hg.2.step hg.1 ok hn⟩
    exact hm.always hstep (fun _ hg => ⟨hg.1.agrees hg.2, hg.1.storesOwn hg.2⟩)
      ⟨boot.good, boot.shut⟩

/-- Two tasks; the first is preempted for the second, which has become the more urgent. -/
def startedMasked : List Event :=
  [.buildTask none 0 .normal true, .queueTask 0 0, .buildTask none 0 .normal true,
    .queueTask 1 0, .setInterrupts false, .runUntilIdle, .leaveWindow, .performSwitch 16384,
    .setCurrentClass .background, .tick, .performSwitch ((KernelStack.ofSlot 0).top - 256)]

theorem starts_masked_iff_startedMasked :
    Always (next smallPlatform) (fun m => Agrees smallPlatform m ∧ StoresOwn m)
      smallPlatform.start startedMasked := by
  have hm : Meets (next smallPlatform) (StartsMasked smallPlatform) smallPlatform.start startedMasked := by
    decide +kernel
  exact (starts_masked_iff (boots_start smallPlatform (by decide))).mpr hm

/-- Two Realtime tasks, started with interrupts enabled. A Realtime turn lasts one tick. -/
def startedOpen : List Event :=
  [.buildTask none 0 .realtime true, .queueTask 0 0, .buildTask none 0 .realtime true,
    .queueTask 1 0, .runUntilIdle]

/-- The scheduler names task 0 while the boot context runs with interrupts enabled, and the next
tick is about to store a boot stack address as that task's stack pointer. -/
theorem boot_stack_stored_for_task :
    (∃ m, exec (next smallPlatform) smallPlatform.start startedOpen = some m ∧
      ¬ Agrees smallPlatform m) ∧
    ∃ m, exec (next smallPlatform) smallPlatform.start (startedOpen ++ [Event.tick]) = some m ∧
      ¬ StoresOwn m := by
  constructor
  · have hrun : (exec (next smallPlatform) smallPlatform.start startedOpen).any (fun m =>
        m.cpu.interrupts && m.scheduler.current.any fun t =>
          !decide (t.stack.Holds m.cpu.rsp)) = true := by
      decide +kernel
    obtain ⟨m, hm, hv⟩ := (Option.any_eq_true _ _).mp hrun
    obtain ⟨enabled, hcur⟩ := Bool.and_eq_true_iff.mp hv
    obtain ⟨t, ht, hh⟩ := (Option.any_eq_true _ _).mp hcur
    refine ⟨m, hm, fun ha => ?_⟩
    simp [(ha enabled).1 t ht] at hh
  · have hrun : (exec (next smallPlatform) smallPlatform.start (startedOpen ++ [Event.tick])).any
        (fun m => (m.cpu.handoff.any fun hd =>
            decide (hd.switch.currentStackOut = .task 0)) &&
          m.scheduler.ready.all fun t => !decide (t.stack.Holds m.cpu.rsp)) = true := by
      decide +kernel
    obtain ⟨m, hm, hv⟩ := (Option.any_eq_true _ _).mp hrun
    obtain ⟨hout, hall⟩ := Bool.and_eq_true_iff.mp hv
    obtain ⟨hd, hh, hto⟩ := (Option.any_eq_true _ _).mp hout
    refine ⟨m, hm, fun hs => ?_⟩
    obtain ⟨t, ht, _, hold⟩ := hs hd 0 hh (of_decide_eq_true hto)
    have hnot := List.all_eq_true.mp hall t ht
    simp [hold] at hnot

end States

end KernelMachine
