import NajmKernel.MachineInvariant

/-! The life of a task, from its first place in a queue to the release of its stack. -/
namespace KernelMachine

open SchedulingClasses KernelStacks TaskScheduler TransitionSystem

variable {P : Platform} {m : Machine} {t u : Task} {x : ℕ}

/-- The task is current and in no queue, or it sits in exactly one slot of its class's queue. -/
def InOnePlace (s : Scheduler) (handle : ℕ) : Prop :=
  (s.current.toList ++ s.ready).countP (fun t => t.handle = handle) = 1 ∧
    ∀ c, ∀ t ∈ s.readyQueues c, t.schedClass = c

/-- An exited task is the zombie and not dropped, or it is not the zombie and dropped once. -/
def ZombieOrDropped (m : Machine) (handle : ℕ) : Prop :=
  (m.scheduler.zombie.map Task.handle = some handle ∧ m.dropped.count handle = 0) ∨
    (m.scheduler.zombie.map Task.handle ≠ some handle ∧ m.dropped.count handle = 1)

theorem countP_handle (l : List Task) (x : ℕ) :
    l.countP (fun t => t.handle = x) = (l.map Task.handle).count x := by
  rw [List.count, List.countP_map]
  congr 1

theorem Placed.runnable_once (h : Placed m) (hs : x ∈ m.spawned) (he : x ∉ m.exited) :
    InOnePlace m.scheduler x := by
  refine ⟨?_, h.queue_class⟩
  rw [countP_handle]
  have hn : (m.runnable.map Task.handle ++ m.exited).Nodup :=
    h.spawned.nodup_iff.mp (List.nodup_append.mp h.nodup).1
  have hm : x ∈ m.runnable.map Task.handle :=
    (List.mem_append.mp (h.spawned.mem_iff.mp hs)).resolve_right he
  exact List.count_eq_one_of_mem (List.nodup_append.mp hn).1 hm

theorem Placed.exited_once (h : Placed m) (he : x ∈ m.exited) : ZombieOrDropped m x := by
  have hn : (m.spawned).Nodup := (List.nodup_append.mp h.nodup).1
  have hne : m.exited.Nodup := (List.nodup_append.mp (h.spawned.nodup_iff.mp hn)).2.1
  have hz := h.exited.nodup_iff.mp hne
  obtain ⟨_, hd, hdisj⟩ := List.nodup_append.mp hz
  rcases List.mem_append.mp (h.exited.mem_iff.mp he) with hm | hm
  · left
    have hnd : x ∉ m.dropped := fun hx => hdisj x hm x hx rfl
    refine ⟨?_, List.count_eq_zero_of_not_mem hnd⟩
    cases hzc : m.scheduler.zombie <;> simp_all
  · right
    refine ⟨?_, List.count_eq_one_of_mem hd hm⟩
    intro hzx
    refine hdisj x ?_ x hm rfl
    obtain ⟨z, hzc, rfl⟩ := Option.map_eq_some_iff.mp hzx
    simp [hzc]

/-- The processor is on the boot stack, or on the stack of a task that is not dropped. -/
theorem Stage.executing (st : Stage P m) :
    P.OnBoot m.cpu.rsp ∨ ∃ t ∈ m.undropped, t.stack.Holds m.cpu.rsp := by
  cases st with
  | solo s =>
    cases hc : s.current with
    | boot => exact Or.inl s.running.holds
    | task ht => exact Or.inr ⟨_, current_mem ht, s.running.holds⟩
  | window w => exact Or.inl w.running.holds
  | @leaving hd _ _ _ l =>
    have hl := l.leaver
    generalize hd.switch.currentStackOut = out at hl
    cases hl with
    | task queued running => exact Or.inr ⟨_, ready_mem queued, running.holds⟩
    | window queued running => exact Or.inl running.holds
    | exit zombie holds => exact Or.inr ⟨_, zombie_mem zombie, holds⟩
    | boot running => exact Or.inl running.holds

/-- In every reachable state each task is where its history says, and the stack in use belongs
to a task that still owns it. -/
theorem tasks_accounted_for {m₀ : Machine} {es : List Event} (boot : Boots P m₀)
    (run : exec (next P) m₀ es = some m) :
    (∀ x ∈ m.spawned, x ∉ m.exited → InOnePlace m.scheduler x) ∧
      (∀ x ∈ m.exited, ZombieOrDropped m x) ∧
      (∀ t ∈ m.undropped, ∀ u ∈ m.undropped, t.stack.slot = u.stack.slot → t = u) ∧
      (P.OnBoot m.cpu.rsp ∨ ∃ t ∈ m.undropped, t.stack.Holds m.cpu.rsp ∧
        t.stack.slot ∉ m.kernelStacks.freeSlots) := by
  have hg := reachable_good ⟨m₀, es, boot, run⟩
  refine ⟨fun x hs he => hg.placed.runnable_once hs he, fun x he => hg.placed.exited_once he, ?_, ?_⟩
  · exact fun t ht u hu he => hg.placed.eq_of_slot ht hu he
  · rcases hg.stage.executing with hb | ⟨t, ht, hh⟩
    · exact Or.inl hb
    · exact Or.inr ⟨t, ht, hh, hg.placed.slot_not_free ht⟩

/-- Two kernel tasks: the second is preempted once, both exit, the boot context reaps the last. -/
def twoTasks : List Event :=
  [.setInterrupts false, .buildTask none 0 .normal true, .queueTask 0 0,
    .buildTask none 0 .realtime true, .queueTask 1 0, .runUntilIdle, .leaveWindow,
    .performSwitch 16384, .setCurrentClass .background, .tick,
    .performSwitch ((KernelStack.ofSlot 1).top - 256), .exitTask,
    .performSwitch ((KernelStack.ofSlot 0).top - 128), .exitTask,
    .performSwitch ((KernelStack.ofSlot 1).top - 128), .reapZombie]

theorem tasks_accounted_for_twoTasks :
    ∃ m, exec (next smallPlatform) smallPlatform.start twoTasks = some m ∧
      (∀ x ∈ m.spawned, x ∉ m.exited → InOnePlace m.scheduler x) ∧
      (∀ x ∈ m.exited, ZombieOrDropped m x) ∧
      (∀ t ∈ m.undropped, ∀ u ∈ m.undropped, t.stack.slot = u.stack.slot → t = u) ∧
      (smallPlatform.OnBoot m.cpu.rsp ∨ ∃ t ∈ m.undropped, t.stack.Holds m.cpu.rsp ∧
        t.stack.slot ∉ m.kernelStacks.freeSlots) := by
  have hrun : (exec (next smallPlatform) smallPlatform.start twoTasks).isSome = true := by
    decide +kernel
  obtain ⟨m, hm⟩ := Option.isSome_iff_exists.mp hrun
  exact ⟨m, hm, tasks_accounted_for (boots_start smallPlatform (by decide)) hm⟩

end KernelMachine
