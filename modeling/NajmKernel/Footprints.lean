import NajmKernel.MachineInvariant

/-! What a step leaves as it was, whatever context takes it: the tasks that have not exited keep
their homes, and of the code that switch frames hold nothing is new but what a switch parked. -/
namespace KernelMachine

open SchedulingClasses KernelStacks TaskScheduler TransitionSystem

variable {P : Platform} {m m' : Machine} {e : Event} {t u : Task} {sp : ℕ}

/-- The tasks that have not exited. -/
def Machine.alive (m : Machine) : List Task := m.runnable ++ m.pending

theorem mem_alive : t ∈ m.alive ↔ t ∈ m.runnable ∨ t ∈ m.pending := List.mem_append

theorem current_alive (h : m.scheduler.current = some t) : t ∈ m.alive :=
  mem_alive.mpr (Or.inl (mem_runnable.mpr (Or.inl h)))

/-- Whoever acts on its own behalf outside the window of `run_until_idle` is alone. -/
theorem Good.solo (hg : Good P m) (handoff : m.cpu.handoff = none)
    (code : m.cpu.code.bootOnly = false) : ∃ h behind, Solo P m h behind := by
  cases hg.stage with
  | solo s => exact ⟨_, _, s⟩
  | window w => simp [w.code, Code.bootOnly] at code
  | leaving l => simp [l.handoff] at handoff

section Homes

/-- Every living task was alive before, at the same home. -/
def Kept (m m' : Machine) : Prop := ∀ u ∈ m'.alive, ∃ t ∈ m.alive, taskHome u = taskHome t

theorem Kept.trans {m'' : Machine} (h : Kept m m') (h' : Kept m' m'') : Kept m m'' := by
  intro u hu
  obtain ⟨v, hv, hvu⟩ := h' u hu
  obtain ⟨t, ht, htv⟩ := h v hv
  exact ⟨t, ht, hvu.trans htv⟩

theorem Kept.same (scheduler : m'.scheduler = m.scheduler)
    (pending : m'.pending = m.pending) : Kept m m' := by
  intro u hu
  refine ⟨u, ?_, rfl⟩
  simpa [Machine.alive, Machine.runnable, scheduler, pending] using hu

theorem Kept.runs (pending : m'.pending = m.pending)
    (runs : ∀ u ∈ m'.runnable, ∃ t ∈ m.runnable, taskHome u = taskHome t) : Kept m m' := by
  intro u hu
  rcases mem_alive.mp hu with hu | hu
  · obtain ⟨t, ht, hh⟩ := runs u hu
    exact ⟨t, mem_alive.mpr (Or.inl ht), hh⟩
  · exact ⟨u, mem_alive.mpr (Or.inr (pending ▸ hu)), rfl⟩

theorem Placed.kept_planSwitch (pl : Placed m) (kind : SwitchKind) (now : ℕ) :
    Kept m (m.follow (m.scheduler.planSwitch kind now)) := by
  cases hp : m.scheduler.planSwitch kind now with
  | panic => exact .same rfl rfl
  | stay s =>
    rcases planSwitch_stay hp with ⟨rfl, _⟩ | ⟨_, _, next, p, s₁, pick, rfl⟩
    · exact .same rfl rfl
    · refine .runs rfl fun u hu => ⟨u, ?_, rfl⟩
      have hcur : (s₁.putBack next).current = m.scheduler.current := pick.current_eq
      simpa [Machine.follow, Machine.runnable, hcur, putBack_places pl.queue_class pick] using hu
  | switch s sw =>
    obtain ⟨current, next, p, s₁, pick, hc, rfl, rfl⟩ := planSwitch_switch hp
    refine .runs rfl fun u hu => ?_
    rcases mem_runnable.mp hu with hu | hu
    · have hnext : next.dispatched p = u := Option.some.inj hu
      refine ⟨next, mem_runnable.mpr (Or.inr (pick.ready.mem_iff.mpr List.mem_cons_self)), ?_⟩
      rw [← hnext]
      rfl
    · have hu' : u ∈ (s₁.enqueue current.outgoing now).ready := hu
      rcases List.mem_cons.mp ((enqueue_ready s₁ current.outgoing now).mem_iff.mp hu') with rfl | hu'
      · exact ⟨current, mem_runnable.mpr (Or.inl hc), rfl⟩
      · refine ⟨u, mem_runnable.mpr (Or.inr (pick.ready.mem_iff.mpr ?_)), rfl⟩
        exact List.mem_cons_of_mem _ hu'

theorem Placed.kept_tick (pl : Placed m) : Kept m m.tick := by
  have hf : Placed ({ m with ticks := m.ticks + 1 } : Machine).interruptFrame :=
    Placed.interruptFrame (Placed.same pl rfl rfl rfl ⟨rfl, rfl, rfl, rfl⟩)
  have hk : Kept m ({ m with ticks := m.ticks + 1 } : Machine).interruptFrame := by
    refine .same (by simp) ?_
    unfold Machine.interruptFrame
    split <;> rfl
  unfold Machine.tick
  dsimp only
  generalize ({ m with ticks := m.ticks + 1 } : Machine).interruptFrame = n at hf hk ⊢
  split
  · exact hk
  · have hcharge : Kept n { n with scheduler := n.scheduler.chargeTick } := by
      refine .runs rfl fun u hu => ?_
      rcases mem_runnable.mp hu with hu | hu
      · obtain ⟨t, ht, rfl⟩ := Option.map_eq_some_iff.mp hu
        exact ⟨t, mem_runnable.mpr (Or.inl ht), rfl⟩
      · exact ⟨u, mem_runnable.mpr (Or.inr hu), rfl⟩
    unfold Scheduler.preempt
    by_cases hs : n.scheduler.chargeTick.shouldSwitch n.ticks = true
    · simp only [hs, if_true]
      have hplan := hf.charge.kept_planSwitch .preemptive n.ticks
      have htotal := hk.trans (hcharge.trans hplan)
      cases hp : n.scheduler.chargeTick.planSwitch .preemptive n.ticks <;>
        simp only [hp, Machine.follow] at htotal ⊢
      · exact htotal
      · exact htotal
      · exact hk.trans (.same rfl rfl)
    · simp only [hs]
      exact hk.trans hcharge

theorem kept_modifyTask {handle : ℕ} {f : Task → Task} (hf : ∀ t, taskHome (f t) = taskHome t) :
    Kept m { m with scheduler := m.scheduler.modifyTask handle f } := by
  have hw (t : Task) : taskHome (if t.handle = handle then f t else t) = taskHome t := by
    split
    · exact hf t
    · rfl
  refine .runs rfl fun u hu => ?_
  rcases mem_runnable.mp hu with hu | hu
  · obtain ⟨t, ht, rfl⟩ := Option.map_eq_some_iff.mp hu
    exact ⟨t, mem_runnable.mpr (Or.inl ht), hw t⟩
  · obtain ⟨c, hc⟩ := mem_ready.mp hu
    obtain ⟨t, ht, rfl⟩ := List.mem_map.mp hc
    exact ⟨t, mem_runnable.mpr (Or.inr (mem_ready.mpr ⟨c, ht⟩)), hw t⟩

theorem kept_performSwitch {hd : Handoff} : Kept m (m.performSwitch P hd sp) := by
  have hpark : Kept m (m.park P hd sp) := by
    unfold Machine.park
    cases hd.switch.currentStackOut with
    | task handle => exact kept_modifyTask fun _ => rfl
    | boot => exact .runs rfl fun u hu => ⟨u, hu, rfl⟩
    | discarded => exact .same rfl rfl
  refine hpark.trans ?_
  unfold Machine.performSwitch Machine.resume
  split <;> exact .same rfl rfl

theorem kept_dispatch {s₁ : Scheduler} {now : ℕ} {p : Bool} (pick : Pick m.scheduler now t p s₁) :
    Kept m { m with scheduler := s₁.dispatch t p now } := by
  refine .runs rfl fun u hu => ?_
  rcases mem_runnable.mp hu with hu | hu
  · have hnext : t.dispatched p = u := Option.some.inj hu
    refine ⟨t, mem_runnable.mpr (Or.inr (pick.ready.mem_iff.mpr List.mem_cons_self)), ?_⟩
    rw [← hnext]
    rfl
  · refine ⟨u, mem_runnable.mpr (Or.inr (pick.ready.mem_iff.mpr ?_)), rfl⟩
    exact List.mem_cons_of_mem _ hu

theorem kept_exitTask : Kept m (m.exitTask P) := by
  unfold Machine.exitTask
  cases hx : m.scheduler.exitTask m.ticks P.bootPrivilegeStack with
  | none => exact .same rfl rfl
  | some out =>
    obtain ⟨s, reaped, sw⟩ := out
    obtain ⟨dying, hc, rfl, hcases⟩ := exitTask_cases hx
    have hs : Kept m { m with scheduler := s } := by
      have hgone : Kept m { m with
          scheduler := { m.scheduler with current := none, zombie := some dying } } := by
        refine .runs rfl fun u hu => ⟨u, ?_, rfl⟩
        exact mem_runnable.mpr (Or.inr ((mem_runnable.mp hu).resolve_left (by simp)))
      rcases hcases with ⟨next, p, s₁, pick, rfl, _⟩ | ⟨_, rfl, _⟩
      · exact hgone.trans (kept_dispatch pick)
      · exact hgone
    refine hs.trans ?_
    dsimp only
    cases m.scheduler.zombie <;> split <;> exact .same rfl rfl

theorem kept_runUntilIdle : Kept m m.runUntilIdle := by
  unfold Machine.runUntilIdle
  cases hs : m.scheduler.startFirst m.ticks with
  | none => exact .same rfl rfl
  | some out =>
    obtain ⟨s, nextStack⟩ := out
    obtain ⟨next, p, s₁, pick, rfl, _⟩ := startFirst_cases hs
    exact (kept_dispatch pick).trans (.same rfl rfl)

theorem kept_queueTask {stamp : ℕ} (ht : t ∈ m.pending) : Kept m (m.queueTask t stamp) := by
  intro u hu
  rcases mem_alive.mp hu with hu | hu
  · rcases mem_runnable.mp hu with hu | hu
    · exact ⟨u, mem_alive.mpr (Or.inl (mem_runnable.mpr (Or.inl hu))), rfl⟩
    · have hu' : u ∈ (m.scheduler.enqueue t stamp).ready := hu
      rcases List.mem_cons.mp ((enqueue_ready m.scheduler t stamp).mem_iff.mp hu') with rfl | hu'
      · exact ⟨t, mem_alive.mpr (Or.inr ht), rfl⟩
      · exact ⟨u, mem_alive.mpr (Or.inl (mem_runnable.mpr (Or.inr hu'))), rfl⟩
  · exact ⟨u, mem_alive.mpr (Or.inr (List.mem_of_mem_erase hu)), rfl⟩

theorem kept_setCurrentClass {c : SchedClass} :
    Kept m { m with scheduler := m.scheduler.setCurrentClass c } := by
  refine .runs rfl fun u hu => ?_
  rcases mem_runnable.mp hu with hu | hu
  · obtain ⟨t, ht, rfl⟩ := Option.map_eq_some_iff.mp hu
    exact ⟨t, mem_runnable.mpr (Or.inl ht), rfl⟩
  · exact ⟨u, mem_runnable.mpr (Or.inr hu), rfl⟩

/-- A new task is the only one that was not there. -/
theorem alive_buildTask {root : Option ℕ} {pid : ℕ} {c : SchedClass} {mapped : Bool}
    (hu : u ∈ (m.buildTask root pid c mapped).alive) : u ∈ m.alive ∨
      ∃ stack, u = .new m.nextHandle stack root pid c := by
  unfold Machine.buildTask at hu
  split at hu
  · exact Or.inl hu
  · rename_i stack _
    rcases mem_alive.mp hu with hu | hu
    · exact Or.inl (mem_alive.mpr (Or.inl hu))
    · rcases List.mem_cons.mp hu with rfl | hu
      · exact Or.inr ⟨stack, rfl⟩
      · exact Or.inl (mem_alive.mpr (Or.inr hu))

/-- A write through a slot pointer changes the slot of one task. -/
theorem alive_writeSlot {slot : Option ℕ} {v : ℕ} (hu : u ∈ (m.writeSlot slot v).alive) :
    u ∈ m.pending ∨ ∃ t ∈ m.runnable,
      u = if slot = some t.handle then { t with supervisorRsp := v } else t := by
  cases slot with
  | none =>
    rcases mem_alive.mp hu with hu | hu
    · exact Or.inr ⟨u, hu, by simp⟩
    · exact Or.inl hu
  | some handle =>
    simp only [Option.some.injEq, eq_comm (a := handle)]
    rcases mem_alive.mp hu with hu | hu
    · right
      rcases mem_runnable.mp hu with hu | hu
      · obtain ⟨t, ht, rfl⟩ := Option.map_eq_some_iff.mp hu
        exact ⟨t, mem_runnable.mpr (Or.inl ht), rfl⟩
      · obtain ⟨c, hc⟩ := mem_ready.mp hu
        obtain ⟨t, ht, rfl⟩ := List.mem_map.mp hc
        exact ⟨t, mem_runnable.mpr (Or.inr (mem_ready.mpr ⟨c, ht⟩)), rfl⟩
    · exact Or.inl hu

theorem kept_enterRing0 {p : ProgramCall} : Kept m (m.enterRing0 p) := by
  unfold Machine.enterRing0 Machine.interruptFrame
  split <;> exact .same rfl rfl

theorem kept_endProgram {p : ProgramCall} {exit : ProgramExit} : Kept m (m.endProgram p exit) := by
  unfold Machine.endProgram
  split
  · exact .same rfl rfl
  · split <;> exact .same rfl rfl

/-- The steps that add a task or write a slot. -/
def Event.rehomes : Event → Bool
  | .buildTask _ _ _ _ => true
  | .storeSlot => true
  | .clearSlot => true
  | _ => false

theorem Placed.kept_act (pl : Placed m) (ha : Act P m e m') (he : e.rehomes = false) : Kept m m' := by
  cases ha with
  | buildTask => cases he
  | buildProcess => cases he
  | storeSlot => cases he
  | clearSlot => cases he
  | queueTask _ found => exact kept_queueTask (pending_of_found found).1
  | yieldNow => exact pl.kept_planSwitch _ _
  | sysYield => exact pl.kept_planSwitch _ _
  | setCurrentClass => exact kept_setCurrentClass
  | exitTask => exact kept_exitTask
  | runUntilIdle => exact kept_runUntilIdle
  | leaveWindow =>
    unfold Machine.leaveWindow
    split <;> exact .same rfl rfl
  | reapZombie =>
    unfold Machine.reapZombie
    cases m.scheduler.zombie <;> exact .runs rfl fun u hu => ⟨u, hu, rfl⟩
  | runProgram =>
    unfold Machine.runProgram
    split <;> exact .same rfl rfl
  | syscall => exact kept_enterRing0
  | @fault p =>
    have hr : Kept m (m.enterRing0 p) := kept_enterRing0
    unfold Machine.fault
    dsimp only
    split
    · exact hr.trans kept_endProgram
    · exact hr.trans (.same rfl rfl)
  | sysExit =>
    unfold Machine.sysExit
    split
    · exact kept_endProgram
    · exact .same rfl rfl
  | leaveProgram =>
    unfold Machine.leaveProgram
    dsimp only
    split <;> exact .same rfl rfl
  | _ => exact .same rfl rfl

theorem Placed.kept_step (pl : Placed m) (hs : Step P m e m') (he : e.rehomes = false) :
    Kept m m' := by
  cases hs with
  | tick => exact pl.kept_tick
  | performSwitch => exact kept_performSwitch
  | act _ ha => exact pl.kept_act ha he

end Homes

section Counters

/-- The boot context's slot is left alone, and handles are never taken back. -/
structure Settled (m m' : Machine) : Prop where
  slot : m'.bootSupervisorRsp = m.bootSupervisorRsp
  handles : m.nextHandle ≤ m'.nextHandle

theorem Settled.trans {m'' : Machine} (h : Settled m m') (h' : Settled m' m'') : Settled m m'' :=
  ⟨h'.slot.trans h.slot, h.handles.trans h'.handles⟩

theorem settled_follow {plan : Plan} : Settled m (m.follow plan) := by
  cases plan <;> exact ⟨rfl, le_rfl⟩

theorem settled_interruptFrame : Settled m m.interruptFrame := by
  unfold Machine.interruptFrame
  split <;> exact ⟨rfl, le_rfl⟩

theorem settled_tick : Settled m m.tick := by
  have hticks : Settled m { m with ticks := m.ticks + 1 } := ⟨rfl, le_rfl⟩
  have hf := hticks.trans settled_interruptFrame
  unfold Machine.tick
  dsimp only
  split
  · exact hf
  · exact hf.trans settled_follow

theorem settled_performSwitch {hd : Handoff} : Settled m (m.performSwitch P hd sp) := by
  have hp : Settled m (m.park P hd sp) := by
    unfold Machine.park
    cases hd.switch.currentStackOut <;> exact ⟨rfl, le_rfl⟩
  unfold Machine.performSwitch Machine.resume
  split <;> exact ⟨hp.slot, hp.handles⟩

theorem settled_enterRing0 {p : ProgramCall} : Settled m (m.enterRing0 p) := by
  have hf : Settled m m.interruptFrame := settled_interruptFrame
  exact ⟨hf.slot, hf.handles⟩

theorem settled_endProgram {p : ProgramCall} {exit : ProgramExit} :
    Settled m (m.endProgram p exit) := by
  unfold Machine.endProgram
  split
  · exact ⟨rfl, le_rfl⟩
  · split <;> exact ⟨rfl, le_rfl⟩

theorem settled_buildTask {root : Option ℕ} {pid : ℕ} {c : SchedClass} {mapped : Bool} :
    Settled m (m.buildTask root pid c mapped) := by
  unfold Machine.buildTask
  split
  · exact ⟨rfl, le_rfl⟩
  · exact ⟨rfl, Nat.le_succ _⟩

theorem Act.settled (ha : Act P m e m') (store : e ≠ .storeSlot) (clear : e ≠ .clearSlot) :
    Settled m m' := by
  cases ha with
  | storeSlot => exact absurd rfl store
  | clearSlot => exact absurd rfl clear
  | buildTask => exact settled_buildTask
  | @buildProcess root =>
    have hb : Settled m (m.bindSpace root) := ⟨rfl, le_rfl⟩
    exact hb.trans settled_buildTask
  | yieldNow => exact settled_follow
  | sysYield => exact settled_follow
  | exitTask =>
    unfold Machine.exitTask
    split
    · exact ⟨rfl, le_rfl⟩
    · rename_i s reaped sw _
      dsimp only
      cases reaped <;> split <;> exact ⟨rfl, le_rfl⟩
  | runUntilIdle =>
    unfold Machine.runUntilIdle
    split <;> exact ⟨rfl, le_rfl⟩
  | leaveWindow =>
    unfold Machine.leaveWindow
    split <;> exact ⟨rfl, le_rfl⟩
  | reapZombie =>
    unfold Machine.reapZombie
    cases m.scheduler.zombie <;> exact ⟨rfl, le_rfl⟩
  | runProgram =>
    unfold Machine.runProgram
    split <;> exact ⟨rfl, le_rfl⟩
  | syscall => exact settled_enterRing0
  | @fault p =>
    have hr : Settled m (m.enterRing0 p) := settled_enterRing0
    unfold Machine.fault
    dsimp only
    split
    · exact hr.trans settled_endProgram
    · exact ⟨hr.slot, hr.handles⟩
  | sysExit =>
    unfold Machine.sysExit
    split
    · exact settled_endProgram
    · exact ⟨rfl, le_rfl⟩
  | leaveProgram =>
    unfold Machine.leaveProgram
    dsimp only
    split <;> exact ⟨rfl, le_rfl⟩
  | _ => exact ⟨rfl, le_rfl⟩

theorem Step.settled (hs : Step P m e m') (store : e ≠ .storeSlot) (clear : e ≠ .clearSlot) :
    Settled m m' := by
  cases hs with
  | tick => exact settled_tick
  | performSwitch => exact settled_performSwitch
  | act _ ha => exact ha.settled store clear

end Counters

section Frames

variable {bad : Code → Bool}

/-- Nothing is parked in code of this kind. -/
def NoneParked (bad : Code → Bool) (m : Machine) : Prop :=
  ∀ sp k, m.frames sp = some (.switch k) → bad k.code = false

theorem NoneParked.update {f : Option Frame} (h : NoneParked bad m)
    (hf : ∀ k, f = some (.switch k) → bad k.code = false)
    (frames : m'.frames = Function.update m.frames sp f) : NoneParked bad m' := by
  intro a k ha
  rw [frames] at ha
  by_cases hsp : a = sp
  · subst hsp
    rw [Function.update_self] at ha
    exact hf k ha
  · rw [Function.update_of_ne hsp] at ha
    exact h a k ha

theorem NoneParked.same (h : NoneParked bad m) (frames : m'.frames = m.frames) :
    NoneParked bad m' := fun a k ha => h a k (frames ▸ ha)

theorem follow_frames {plan : Plan} : (m.follow plan).frames = m.frames := by
  cases plan <;> rfl

theorem tick_frames : m.tick.frames = m.frames := by
  unfold Machine.tick
  dsimp only
  split
  · simp
  · rw [follow_frames]
    simp

theorem NoneParked.park {hd : Handoff} (h : NoneParked bad m) (code : bad m.cpu.code = false) :
    NoneParked bad (m.park P hd sp) := by
  refine h.update ?_ park_frames
  intro k hk
  obtain rfl := Frame.switch.inj (Option.some.inj hk)
  exact code

theorem NoneParked.performSwitch {hd : Handoff} (h : NoneParked bad m)
    (code : bad m.cpu.code = false) : NoneParked bad (m.performSwitch P hd sp) := by
  have hp : NoneParked bad (m.park P hd sp) := h.park code
  unfold Machine.performSwitch Machine.resume
  split
  · exact hp.update (by simp) rfl
  · exact hp.same rfl

theorem NoneParked.buildTask {root : Option ℕ} {pid : ℕ} {c : SchedClass} {mapped : Bool}
    (h : NoneParked bad m) (begins : bad .begin = false) (kernel : bad .kernel = false) :
    NoneParked bad (m.buildTask root pid c mapped) := by
  unfold Machine.buildTask
  split
  · exact h.same rfl
  · refine h.update ?_ rfl
    intro k hk
    obtain rfl := Frame.switch.inj (Option.some.inj hk)
    cases root with
    | none => exact kernel
    | some _ => exact begins

theorem NoneParked.endProgram {p : ProgramCall} {exit : ProgramExit} (h : NoneParked bad m) :
    NoneParked bad (m.endProgram p exit) := by
  unfold Machine.endProgram
  split
  · exact h.same rfl
  · split
    · exact h.update (by simp) rfl
    · exact h.same rfl

theorem NoneParked.act (h : NoneParked bad m) (begins : bad .begin = false)
    (kernel : bad .kernel = false) (ha : Act P m e m') : NoneParked bad m' := by
  cases ha with
  | buildTask => exact h.buildTask begins kernel
  | @buildProcess root =>
    have hb : NoneParked bad (m.bindSpace root) := h.same rfl
    exact hb.buildTask begins kernel
  | yieldNow => exact h.same follow_frames
  | sysYield => exact h.same follow_frames
  | exitTask =>
    unfold Machine.exitTask
    split
    · exact h.same rfl
    · rename_i s reaped sw _
      dsimp only
      cases reaped <;> split <;> exact h.same rfl
  | runUntilIdle =>
    unfold Machine.runUntilIdle
    split <;> exact h.same rfl
  | leaveWindow =>
    unfold Machine.leaveWindow
    split <;> exact h.same rfl
  | reapZombie =>
    unfold Machine.reapZombie
    cases m.scheduler.zombie <;> exact h.same rfl
  | runProgram =>
    unfold Machine.runProgram
    split <;> exact h.same rfl
  | @storeSlot p =>
    have hset : NoneParked bad (m.setFrame p.savedRsp
        (some (.supervisor { p with registers := m.cpu.registers }))) := h.update (by simp) rfl
    exact hset.same (by simp [Machine.storeSlot, Machine.goto])
  | @fault p =>
    have hr : NoneParked bad (m.enterRing0 p) := h.same (by
      simp [Machine.enterRing0, Machine.goto, Machine.setInterrupts])
    unfold Machine.fault
    dsimp only
    split
    · exact hr.endProgram
    · exact hr.same rfl
  | sysExit =>
    unfold Machine.sysExit
    split
    · exact h.endProgram
    · exact h
  | syscall => exact h.same (by simp [Machine.enterRing0, Machine.goto, Machine.setInterrupts])
  | clearSlot => exact h.same (by simp [Machine.goto])
  | leaveProgram =>
    unfold Machine.leaveProgram
    dsimp only
    split <;> exact h.same rfl
  | _ => exact h.same rfl

/-- A switch parks the code that it leaves, and a new task starts at its beginning. -/
theorem NoneParked.step (h : NoneParked bad m) (leaving : m.cpu.handoff ≠ none → bad m.cpu.code = false)
    (begins : bad .begin = false) (kernel : bad .kernel = false) (hs : Step P m e m') :
    NoneParked bad m' := by
  cases hs with
  | tick => exact h.same tick_frames
  | performSwitch handoff => exact h.performSwitch (leaving (by simp [handoff]))
  | act _ ha => exact h.act begins kernel ha

end Frames

section Switches

/-- The code in which the steps other than a tick begin a switch. -/
def Code.switches : Code → Bool
  | .kernel => true
  | .syscall _ => true
  | .reaping => true
  | .panic .resumedAfterExit => true
  | _ => false

theorem follow_code {plan : Plan} (hne : (m.follow plan).cpu.handoff ≠ none)
    (handoff : m.cpu.handoff = none) : (m.follow plan).cpu.code = m.cpu.code := by
  cases plan with
  | stay _ => exact absurd handoff hne
  | switch _ _ => rfl
  | panic => exact absurd handoff hne

theorem interruptFrame_handoff : m.interruptFrame.cpu.handoff = m.cpu.handoff := by
  unfold Machine.interruptFrame
  split <;> rfl

theorem enterRing0_handoff {p : ProgramCall} : (m.enterRing0 p).cpu.handoff = m.cpu.handoff :=
  interruptFrame_handoff

theorem endProgram_handoff {p : ProgramCall} {exit : ProgramExit} :
    (m.endProgram p exit).cpu.handoff = m.cpu.handoff := by
  unfold Machine.endProgram
  split
  · rfl
  · split <;> rfl

theorem tick_code (hne : m.tick.cpu.handoff ≠ none) (handoff : m.cpu.handoff = none) :
    m.tick.cpu.code = m.cpu.code := by
  have hf : ({ m with ticks := m.ticks + 1 } : Machine).interruptFrame.cpu.handoff = none :=
    interruptFrame_handoff.trans handoff
  unfold Machine.tick at hne ⊢
  dsimp only at hne ⊢
  split at hne
  · exact absurd hf hne
  · rw [follow_code hne hf]
    simp

theorem Act.switches (ha : Act P m e m') (handoff : m.cpu.handoff = none)
    (hne : m'.cpu.handoff ≠ none) : m'.cpu.code.switches = true := by
  cases ha with
  | yieldNow code =>
    have hc : (m.yieldInner .voluntary).cpu.code = m.cpu.code := follow_code hne handoff
    rw [hc, code]
    rfl
  | sysYield code =>
    have hc : (m.yieldInner .voluntaryFromUser).cpu.code = m.cpu.code := follow_code hne handoff
    rw [hc, code]
    rfl
  | exitTask =>
    unfold Machine.exitTask at hne ⊢
    split
    · rename_i hx
      simp [hx, Machine.freeze, handoff] at hne
    · rename_i s reaped sw hx
      simp only [hx] at hne
      split
      · rename_i hz
        simp [hz, Machine.goto, Machine.setInterrupts, handoff] at hne
      · rfl
  | leaveWindow =>
    unfold Machine.leaveWindow at hne ⊢
    split
    · rename_i hc
      simp [hc, Machine.freeze, handoff] at hne
    · rfl
  | buildTask =>
    unfold Machine.buildTask at hne
    split at hne <;> exact absurd handoff hne
  | buildProcess =>
    unfold Machine.buildTask at hne
    split at hne <;> exact absurd handoff hne
  | runUntilIdle =>
    unfold Machine.runUntilIdle at hne
    split at hne <;> exact absurd handoff hne
  | reapZombie => simp [Machine.reapZombie, Machine.goto, handoff] at hne
  | runProgram =>
    unfold Machine.runProgram at hne
    split at hne <;> exact absurd handoff hne
  | storeSlot => simp [Machine.storeSlot, Machine.goto, Machine.setFrame, handoff] at hne
  | clearSlot => simp [Machine.goto, handoff] at hne
  | syscall => exact absurd (enterRing0_handoff.trans handoff) hne
  | @fault p =>
    have hr : (m.enterRing0 p).cpu.handoff = none := enterRing0_handoff.trans handoff
    unfold Machine.fault at hne
    dsimp only at hne
    split at hne
    · exact absurd (endProgram_handoff.trans hr) hne
    · exact absurd hr hne
  | sysExit =>
    unfold Machine.sysExit at hne
    split at hne
    · exact absurd (endProgram_handoff.trans handoff) hne
    · exact absurd handoff hne
  | leaveProgram =>
    unfold Machine.leaveProgram at hne
    dsimp only at hne
    split at hne <;> exact absurd handoff hne
  | _ => exact absurd handoff hne

theorem resume_over (sp : ℕ) :
    (m.resume sp).cpu.handoff = none ∨ (m.resume sp).cpu.code = .wild := by
  unfold Machine.resume
  split
  · exact Or.inl rfl
  · exact Or.inr rfl

theorem Stage.not_wild (st : Stage P m) : m.cpu.code ≠ .wild := by
  intro hw
  cases st with
  | solo s =>
    have hk := s.running.ok
    simp [ContextOk, Cpu.saved, hw] at hk
  | window w => simp [w.code] at hw
  | @leaving hd _ _ _ l =>
    have hl := l.leaver
    rw [hw] at hl
    generalize hd.switch.currentStackOut = out at hl
    cases hl with
    | task _ running => exact running.ok
    | window _ running => exact running.ok
    | exit _ _ code => cases code
    | boot running => exact running.ok

/-- A switch begins at a tick, or in one of the few kinds of code that ask for one. -/
theorem Good.switch_begins (hg : Good P m) (hn : next P m e = some m')
    (hne : m'.cpu.handoff ≠ none) :
    (e = .tick ∧ m.cpu.interrupts = true ∧ m'.cpu.code = m.cpu.code) ∨
      m'.cpu.code.switches = true := by
  have hg' := step_preserves_good m e m' hg trivial hn
  cases next_cases hn with
  | tick enabled =>
    cases hg.stage with
    | solo s => exact Or.inl ⟨rfl, enabled, tick_code hne s.handoff⟩
    | window w => exact Or.inl ⟨rfl, enabled, tick_code hne w.handoff⟩
    | leaving l => simp [l.masked] at enabled
  | performSwitch => exact (resume_over _).elim (absurd · hne) (absurd · hg'.stage.not_wild)
  | act handoff ha => exact Or.inr (ha.switches handoff hne)

end Switches

section Codes

/-- Code between the halves of `run_until_idle`, and the teardown in `process_entry`. -/
def Code.inner : Code → Bool
  | .window _ => true
  | .unmapped => true
  | .releasing _ => true
  | _ => false

/-- The steps that lead into such code or leave the context in it. -/
def Event.inner : Event → Bool
  | .clobber _ => true
  | .runUntilIdle => true
  | .restoreRoot => true
  | .beginDrop => true
  | .releaseFrame => true
  | _ => false

theorem follow_inner {plan : Plan} (hc : (m.follow plan).cpu.code.inner = true) :
    (m.follow plan).cpu.code = m.cpu.code := by
  cases plan with
  | stay _ => rfl
  | switch _ _ => rfl
  | panic => cases hc

theorem yield_inner {kind : SwitchKind} (hc : (m.yieldInner kind).cpu.code.inner = true) :
    m.cpu.code.inner = true := by
  have hcode : (m.yieldInner kind).cpu.code = m.cpu.code := follow_inner hc
  rw [← hcode]
  exact hc

theorem endProgram_inner {p : ProgramCall} {exit : ProgramExit} :
    (m.endProgram p exit).cpu.code.inner = false := by
  unfold Machine.endProgram
  split
  · rfl
  · split <;> rfl

theorem buildTask_inner {root : Option ℕ} {pid : ℕ} {c : SchedClass} {mapped : Bool}
    (hc : (m.buildTask root pid c mapped).cpu.code.inner = true) : m.cpu.code.inner = true := by
  unfold Machine.buildTask at hc
  split at hc
  · cases hc
  · exact hc

theorem Act.inner (ha : Act P m e m') (hc : m'.cpu.code.inner = true) : e.inner = true := by
  cases ha with
  | clobber => rfl
  | runUntilIdle => rfl
  | restoreRoot => rfl
  | beginDrop => rfl
  | releaseFrame => rfl
  | buildTask code => simpa [code, Code.inner] using buildTask_inner hc
  | buildProcess code => simpa [Machine.bindSpace, code, Code.inner] using buildTask_inner hc
  | yieldNow code => simpa [code, Code.inner] using yield_inner hc
  | sysYield code => simpa [code, Code.inner] using yield_inner hc
  | exitTask =>
    unfold Machine.exitTask at hc
    split at hc
    · cases hc
    · dsimp only at hc
      split at hc <;> cases hc
  | leaveWindow =>
    unfold Machine.leaveWindow at hc
    split at hc <;> cases hc
  | runProgram =>
    unfold Machine.runProgram at hc
    split at hc <;> cases hc
  | fault =>
    unfold Machine.fault at hc
    dsimp only at hc
    split at hc
    · simp [endProgram_inner] at hc
    · cases hc
  | sysExit code =>
    unfold Machine.sysExit at hc
    split at hc
    · simp [endProgram_inner] at hc
    · simp [code, Code.inner] at hc
  | leaveProgram =>
    unfold Machine.leaveProgram at hc
    dsimp only at hc
    split at hc
    · cases hc
    · dsimp only at hc
      split at hc <;> cases hc
  | _ code =>
    first
      | cases hc
      | simp [Machine.setInterrupts, Machine.newSpace, Machine.kernelFrame, Machine.mapFrame,
          Machine.discardSpace, Machine.queueTask, code, Code.inner] at hc

theorem tick_inner (hc : m.tick.cpu.code.inner = true) : m.tick.cpu.code = m.cpu.code := by
  unfold Machine.tick at hc ⊢
  dsimp only at hc ⊢
  split at hc
  · simp
  · rw [follow_inner hc, Machine.interruptFrame_code]

/-- Code in which nothing is parked is never resumed. -/
theorem NoneParked.resumed {bad : Code → Bool} {hd : Handoff} (h : NoneParked bad m)
    (code : bad m.cpu.code = false) (wild : bad .wild = false) :
    bad (m.performSwitch P hd sp).cpu.code = false := by
  have hp : NoneParked bad (m.park P hd sp) := h.park code
  unfold Machine.performSwitch Machine.resume
  split
  · rename_i k hk
    exact hp _ k hk
  · exact wild

theorem endProgram_calls {p : ProgramCall} {exit : ProgramExit} :
    (m.endProgram p exit).calls = m.calls := by
  unfold Machine.endProgram
  split
  · rfl
  · split <;> rfl

/-- Only `run_program` makes a call. -/
theorem Step.calls_eq (hs : Step P m e m') (he : ∀ depth, e ≠ .runProgram depth) :
    m'.calls = m.calls := by
  by_cases hr : e.records = false
  · exact (hs.sameRecords hr).calls
  cases hs with
  | tick => exact absurd rfl hr
  | performSwitch => exact absurd rfl hr
  | act _ ha =>
    cases ha with
    | @runProgram depth => exact absurd rfl (he depth)
    | @fault p =>
      have hring0 : (m.enterRing0 p).calls = m.calls := sameRecords_enterRing0.calls
      unfold Machine.fault
      dsimp only
      split
      · exact endProgram_calls.trans hring0
      · exact hring0
    | sysExit =>
      unfold Machine.sysExit
      split
      · exact endProgram_calls
      · rfl
    | leaveProgram =>
      unfold Machine.leaveProgram
      dsimp only
      split <;> rfl
    | _ => exact absurd rfl hr

end Codes

end KernelMachine
