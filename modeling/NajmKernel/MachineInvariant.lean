import NajmKernel.ContextSwitches

/-! The invariant of the machine: every task is placed, every context but the running one is
parked, and the record of program calls is consistent. It holds in every reachable state, for
any interleaving of the contexts with the timer. -/
namespace KernelMachine

open SchedulingClasses KernelStacks TaskScheduler TransitionSystem

variable {P : Platform} {m m' : Machine} {h : Home} {behind : Option ℕ} {t u : Task} {sp : ℕ}

section Resuming

variable {k : Saved} {sw : Switch}

theorem resume_eq (hf : m.frames sp = some (.switch k)) :
    m.resume sp = { m with
      cpu := { m.cpu with
        rsp := sp + 64
        code := k.code
        interrupts := k.interrupts
        registers := k.registers
        handoff := none }
      frames := Function.update m.frames sp none } := by
  simp [Machine.resume, hf]

theorem Parked.confined (hp : Parked m h sp k) : Confined m (m.resume sp) h := by
  rw [resume_eq hp.frame]
  have hin : h.Holds sp := ⟨hp.above, by have := hp.below; omega⟩
  refine ⟨?_, fun _ hp => hp, fun _ he => he, fun _ => Or.inl, fun _ => Or.inl⟩
  intro a ha
  apply Function.update_of_ne
  rintro rfl
  exact ha hin

/-- The pops of `context_switch` bring back the context as it was saved. -/
theorem Parked.onStack (hp : Parked m h sp k)
    (rsp0 : h.slot ≠ 0 → m.cpu.rsp0 = h.slot - 8) : OnStack (m.resume sp) h k := by
  have hf := hp.frame
  rw [resume_eq hf]
  refine ⟨⟨?_, hp.below⟩, hp.ok.reframe ?_ rfl rfl rfl, ?_⟩
  · have := hp.above
    show h.bottom < sp + 64
    omega
  · intro p _ hs
    have hne : p.savedRsp ≠ sp := by
      rintro rfl
      rw [hf] at hs
      simp at hs
    exact (Function.update_of_ne hne _ _).trans hs
  · intro p hc
    have hk := hp.ok
    have hi : Inside m h p := by
      rcases hc with hc | hc | hc <;> simp only [ContextOk, hc] at hk
      · exact hk
      · exact hk
      · exact hk.1
    have hs := hi.slot_set
    have ha := hi.above
    rw [← hs]
    exact rsp0 (by omega)

/-- A task gets the processor back. -/
theorem Rest.resume_task (r : Rest P m sw behind) (pl : Placed m)
    (current : m.scheduler.current = some t) (hp : Parked m (taskHome t) sw.nextStack k)
    (code : k.code.bootOnly = false) (alone : behind ≠ some t.handle)
    (rsp0 : m.cpu.rsp0 = t.kernelRsp0) (cr3 : m.cpu.cr3 = t.addressSpaceRoot.getD P.kernelRoot) :
    Solo P (m.resume sw.nextStack) (taskHome t) behind := by
  have hc := hp.confined
  have hos : OnStack (m.resume sw.nextStack) (taskHome t) k := by
    refine hp.onStack fun hne => ?_
    have hne' : t.supervisorRsp ≠ 0 := hne
    rw [rsp0, Task.kernelRsp0, if_pos hne']
    rfl
  have hqb : Quiet m (m.resume sw.nextStack) (bootHome P m) := hc.quiet_boot
  have hq (u : Task) (hu : u ∈ m.undropped) (hne : u.handle ≠ t.handle) :
      Quiet m (m.resume sw.nextStack) (taskHome u) := pl.quiet_task hc (current_mem current) hu hne
  rw [resume_eq hp.frame] at hos hqb hq ⊢
  refine ⟨rfl, .task current, ⟨hos, fun _ => cr3⟩, ?_, ⟨?_, ?_⟩, ?_, ?_⟩
  · intro hb
    simp [code] at hb
  · intro u hu _
    exact (r.aside.ready u hu (by simp)).quiet (fun _ => rfl) (fun _ => hqb)
      (hq u (ready_mem hu) (pl.current_not_ready current hu))
  · intro u hu
    exact (r.aside.pending u hu).quiet (hq u (pending_mem hu)
      (pl.pending_not_runnable hu (mem_runnable.mpr (Or.inl current))))
  · exact fun _ => r.boot.quiet rfl rfl hqb fun v hv _ => ⟨v, hv, rfl⟩
  · intro x hx
    refine ⟨by simp [taskHome], fun he => alone ?_⟩
    rw [hx]
    exact he.symm

/-- The boot context gets the processor back in the window, on behalf of a task. -/
theorem Rest.resume_window {nextStack : ℕ} (r : Rest P m sw (some t.handle)) (pl : Placed m)
    (current : m.scheduler.current = some t) (hp : Parked m (bootHome P m) sw.nextStack k)
    (code : k.code = .window nextStack) (parked : TaskParked m t nextStack) :
    Window P (m.resume sw.nextStack) t nextStack := by
  have hc := hp.confined
  have hq (u : Task) : Quiet m (m.resume sw.nextStack) (taskHome u) := hc.quiet_task
  have hzero : m.bootSupervisorRsp = 0 :=
    (contextOk_plain (by rw [code]; rfl)).mp hp.ok
  have hos : OnStack (m.resume sw.nextStack) (bootHome P m) k :=
    hp.onStack fun hne => absurd hzero hne
  rw [resume_eq hp.frame] at hos hq ⊢
  refine ⟨rfl, code, current, hos, parked.quiet (hq t), ⟨?_, ?_⟩⟩
  · intro u hu _
    have hne : some t.handle ≠ some u.handle := by
      simpa using (pl.current_not_ready current hu).symm
    have hr := r.aside.ready u hu (by simp)
    unfold Resumes at hr ⊢
    rw [if_neg hne] at hr
    rw [if_neg (by simp)]
    exact hr.quiet (hq u)
  · exact fun u hu => (r.aside.pending u hu).quiet (hq u)

/-- The last task has exited: the boot context gets the processor back. -/
theorem Rest.resume_boot (r : Rest P m sw none) (current : m.scheduler.current = none)
    (empty : m.scheduler.ready = []) (hp : Parked m (bootHome P m) sw.nextStack k)
    (code : k.code = .reaping) (cr3 : m.cpu.cr3 = P.kernelRoot) :
    Solo P (m.resume sw.nextStack) (bootHome P m) none := by
  have hc := hp.confined
  have hq (u : Task) : Quiet m (m.resume sw.nextStack) (taskHome u) := hc.quiet_task
  have hzero : m.bootSupervisorRsp = 0 :=
    (contextOk_plain (by rw [code]; rfl)).mp hp.ok
  have hos : OnStack (m.resume sw.nextStack) (bootHome P m) k :=
    hp.onStack fun hne => absurd hzero hne
  rw [resume_eq hp.frame] at hos hq ⊢
  refine ⟨rfl, .boot current, ⟨hos, fun _ => cr3⟩, ?_, ⟨?_, ?_⟩, ?_, by simp⟩
  · exact fun _ => ⟨rfl, code⟩
  · intro u hu _
    exact absurd (show u ∈ m.scheduler.ready from hu) (by simp [empty])
  · exact fun u hu => (r.aside.pending u hu).quiet (hq u)
  · exact fun hne => absurd rfl hne

theorem Rest.resume (r : Rest P m sw behind) (pl : Placed m)
    (rsp0 : m.cpu.rsp0 = sw.nextKernelStackTop)
    (cr3 : m.cpu.cr3 = sw.nextAddressSpace.getD P.kernelRoot) : Stage P (m.resume sw.nextStack) := by
  cases r.target with
  | @task t current top space resumes =>
    unfold Resumes at resumes
    by_cases hb : behind = some t.handle
    · rw [if_pos hb] at resumes
      obtain ⟨nextStack, ⟨k, hp, hcode⟩, hparked⟩ := resumes
      subst hb
      exact .window (r.resume_window pl current hp hcode hparked)
    · rw [if_neg hb] at resumes
      obtain ⟨k, hp, hcode⟩ := resumes
      refine .solo (r.resume_task pl current hp hcode hb (rsp0.trans top) ?_)
      rw [cr3, space]
  | boot current empty stack space =>
    have hnone : behind = none := by
      cases hbh : behind with
      | none => rfl
      | some x =>
        obtain ⟨u, hu, _⟩ := r.boot.known x hbh
        simp [Machine.runnable, current, empty] at hu
    subst hnone
    obtain ⟨k, hp, hcode⟩ := r.boot.waits rfl
    rw [← stack] at hp
    refine .solo (r.resume_boot current empty hp hcode ?_)
    rw [cr3, space]
    rfl

end Resuming

section Steps

variable {e : Event}

theorem Leaving.performSwitch {hd : Handoff} {away behind behind' : Option ℕ}
    (l : Leaving P m hd away behind behind') (pl : Placed m) (room : m.MayPark P sp) :
    Stage P (m.performSwitch P hd sp) := by
  refine (l.park pl room).resume (pl.park hd sp) ?_ ?_ <;> unfold Machine.park <;>
    cases hd.switch.currentStackOut <;> rfl

theorem Solo.fault {p : ProgramCall} {exit : ProgramExit} (s : Solo P m h behind) (pl : Placed m)
    (code : m.cpu.code = .ring3 p) (kind : exit = .pageFault ∨ exit = .generalProtectionFault) :
    Solo P (m.fault p exit) h behind := by
  have hs := s.enterRing0 pl code
  have hpl := pl.enterRing0 p
  have hcode : (m.enterRing0 p).cpu.code = .syscall p := rfl
  have hk := hs.running.ok
  simp only [ContextOk, Cpu.saved, hcode] at hk
  have hv : (m.enterRing0 p).slotValue ≠ 0 := by
    rw [hs.current.slotValue, hk.1.slot_set]
    have := hk.1.above
    omega
  have hfits : exit.Fits := by rcases kind with rfl | rfl <;> trivial
  unfold Machine.fault
  dsimp only
  rw [if_pos hv]
  exact (hs.endProgram hpl hcode hfits).1

theorem Solo.sysExit {p : ProgramCall} {status : ℕ} (s : Solo P m h behind) (pl : Placed m)
    (code : m.cpu.code = .syscall p) : Solo P (m.sysExit p status) h behind := by
  have hk := s.running.ok
  simp only [ContextOk, Cpu.saved, code] at hk
  have hv : m.slotValue ≠ 0 := by
    rw [s.current.slotValue, hk.1.slot_set]
    have := hk.1.above
    omega
  unfold Machine.sysExit
  rw [if_pos hv]
  exact (s.endProgram pl code (Nat.mod_lt _ (by decide))).1

theorem Solo.act (s : Solo P m h behind) (pl : Placed m) (hist : History m) (ha : Act P m e m') :
    Stage P m' := by
  cases ha with
  | clobber free => exact .solo (s.clobber pl _ free)
  | setInterrupts code =>
    have hcr3 := s.running.cr3 (by simp [Cpu.saved, code, Code.mapped])
    refine .solo (?_ : Solo P _ h behind)
    exact s.plain pl (by rw [code]; rfl) (by simp [Machine.setInterrupts, code, Code.plain])
      (fun _ => hcr3) s.code rfl rfl rfl (.same rfl rfl rfl rfl) ⟨rfl, rfl, rfl, fun _ => rfl, rfl⟩
  | newSpace => exact .solo (s.untouched pl rfl rfl rfl rfl rfl rfl rfl rfl)
  | kernelFrame => exact .solo (s.untouched pl rfl rfl rfl rfl rfl rfl rfl rfl)
  | mapFrame => exact .solo (s.untouched pl rfl rfl rfl rfl rfl rfl rfl rfl)
  | discardSpace => exact .solo (s.untouched pl rfl rfl rfl rfl rfl rfl rfl rfl)
  | buildTask code => exact .solo (s.buildTask pl code)
  | @buildProcess root _ _ _ code =>
    have hb : Solo P (m.bindSpace root) h behind := s.untouched pl rfl rfl rfl rfl rfl rfl rfl rfl
    have hpl : Placed (m.bindSpace root) := Placed.same pl rfl rfl rfl ⟨rfl, rfl, rfl, rfl⟩
    exact .solo (hb.buildTask hpl code)
  | queueTask _ found => exact .solo (s.queueTask pl (pending_of_found found).1)
  | yieldNow code => exact s.yieldInner pl fun _ => code
  | setCurrentClass code => exact .solo (s.setCurrentClass pl _ code)
  | exitTask code => exact s.exitTask pl code
  | runUntilIdle code boot => exact s.runUntilIdle code boot
  | leaveWindow code => exact absurd (s.code (by rw [code]; rfl)).2 (by simp [code])
  | reapZombie code => exact .solo (s.reapZombie pl code)
  | runProgram code room => exact .solo (s.runProgram pl hist code room)
  | storeSlot code => exact .solo (s.storeSlot pl code)
  | storeRsp0 code => exact .solo (s.storeRsp0 pl code)
  | enterRing3 code => exact .solo (s.enterRing3 pl (Or.inl code))
  | syscall code => exact .solo (s.enterRing0 pl code)
  | fault code kind => exact .solo (s.fault pl code kind)
  | sysReturn code => exact .solo (s.enterRing3 pl (Or.inr code))
  | sysYield code => exact s.yieldInner pl (by simp)
  | sysExit code => exact .solo (s.sysExit pl code)
  | clearSlot code => exact .solo (s.clearSlot pl code)
  | leaveProgram code => exact .solo (s.leaveProgram pl code)
  | restoreRoot code =>
    refine .solo (?_ : Solo P _ h behind)
    refine s.plain pl (by rw [code]; rfl) rfl ?_ ?_ rfl rfl rfl (.same rfl rfl rfl rfl)
      ⟨rfl, rfl, rfl, fun _ => rfl, rfl⟩
    · simp [Machine.restoreRoot, Code.mapped]
    · simp [Machine.restoreRoot, Code.bootOnly]
  | beginDrop code =>
    refine .solo (?_ : Solo P _ h behind)
    refine s.plain pl (by rw [code]; rfl) rfl ?_ ?_ rfl rfl rfl (.same rfl rfl rfl rfl)
      ⟨rfl, rfl, rfl, fun _ => rfl, rfl⟩
    · simp [Machine.beginDrop, Machine.goto, Code.mapped]
    · simp [Machine.beginDrop, Machine.goto, Code.bootOnly]
  | releaseFrame code =>
    refine .solo (?_ : Solo P _ h behind)
    refine s.plain pl (by rw [code]; rfl) rfl ?_ ?_ rfl rfl rfl (.same rfl rfl rfl rfl)
      ⟨rfl, rfl, rfl, fun _ => rfl, rfl⟩
    · simp [Machine.releaseFrame, Machine.goto, Code.mapped]
    · simp [Machine.releaseFrame, Machine.goto, Code.bootOnly]

theorem Window.act {nextStack : ℕ} (w : Window P m t nextStack) (ha : Act P m e m') :
    Stage P m' := by
  cases ha with
  | clobber => exact .window (w.clobber _)
  | leaveWindow code =>
    obtain rfl := Code.window.inj (code.symm.trans w.code)
    exact w.leaveWindow
  | exitTask code => rcases code with code | code <;> simp [w.code] at code
  | @runProgram _ ofProcess code => cases ofProcess <;> simp [w.code] at code
  | _ code => simp [w.code] at code

theorem Stage.step (st : Stage P m) (pl : Placed m) (hist : History m) (hs : Step P m e m') :
    Stage P m' := by
  cases st with
  | solo s =>
    cases hs with
    | tick => exact s.tick pl
    | performSwitch handoff => simp [s.handoff] at handoff
    | act _ ha => exact s.act pl hist ha
  | window w =>
    cases hs with
    | tick => exact w.tick
    | performSwitch handoff => simp [w.handoff] at handoff
    | act _ ha => exact w.act ha
  | leaving l =>
    cases hs with
    | tick enabled => simp [l.masked] at enabled
    | performSwitch handoff room =>
      obtain rfl := Option.some.inj (handoff.symm.trans l.handoff)
      exact l.performSwitch pl room
    | act handoff => simp [l.handoff] at handoff

/-- The boot context announces a first task only while it runs alone. -/
theorem Stage.idle (st : Stage P m) (handoff : m.cpu.handoff = none)
    (code : m.cpu.code = .kernel) (boot : m.cpu.rsp ≤ P.bootTop) : m.scheduler.current = none := by
  cases st with
  | solo s =>
    cases hc : s.current with
    | boot hn => exact hn
    | task ht => exact absurd boot (Nat.not_le.mpr (boot_lt_stack P _ s.running.holds))
  | window w => simp [w.code] at code
  | leaving l => simp [l.handoff] at handoff

end Steps

section Records

variable {e : Event} {p : ProgramCall}

theorem History.same (hist : History m) (calls : m'.calls = m.calls)
    (ends : m'.ends = m.ends) (returns : m'.returns = m.returns) :
    History m' := by
  obtain ⟨h1, h2, h3, h4, h5, h6, h7⟩ := hist
  constructor <;> simp only [calls, ends, returns] <;> assumption

theorem History.newCall (hist : History m) (hp : p.call = m.calls.length)
    (calls : m'.calls = p :: m.calls) (ends : m'.ends = m.ends)
    (returns : m'.returns = m.returns) : History m' := by
  obtain ⟨h1, h2, h3, h4, h5, h6, h7⟩ := hist
  constructor <;> simp only [calls, ends, returns]
  · intro q hq
    rcases List.mem_cons.mp hq with rfl | hq
    · rw [hp, List.length_cons]
      exact Nat.lt_succ_self _
    · have := h1 q hq
      rw [List.length_cons]
      omega
  · rw [List.map_cons, List.nodup_cons]
    refine ⟨?_, h2⟩
    intro hm
    obtain ⟨q, hq, he⟩ := List.mem_map.mp hm
    have := h1 q hq
    omega
  · exact fun x hx => List.mem_cons_of_mem _ (h3 x hx)
  · exact h4
  · exact h5
  · exact h6
  · exact h7

theorem History.newEnd {exit : ProgramExit} (hist : History m) (called : p ∈ m.calls)
    (first : ∀ e ∈ m.ends, e.1 ≠ p) (ends : m'.ends = (p, exit) :: m.ends)
    (calls : m'.calls = m.calls) (returns : m'.returns = m.returns) :
    History m' := by
  obtain ⟨h1, h2, h3, h4, h5, h6, h7⟩ := hist
  constructor <;> simp only [calls, ends, returns]
  · exact h1
  · exact h2
  · intro x hx
    rcases List.mem_cons.mp hx with rfl | hx
    · exact called
    · exact h3 x hx
  · rw [List.map_cons, List.nodup_cons]
    refine ⟨?_, h4⟩
    intro hm
    obtain ⟨x, hx, he⟩ := List.mem_map.mp hm
    exact first x hx he
  · exact fun r hr => List.mem_cons_of_mem _ (h5 r hr)
  · exact h6
  · exact h7

theorem History.newReturn {r : Return} (hist : History m) (ended : (r.program, r.exit) ∈ m.ends)
    (first : ∀ q ∈ m.returns, q.program ≠ r.program)
    (faithful : r.registers = r.program.registers ∧
      r.interrupts = r.program.interruptsWereEnabled ∧ r.slot = r.program.slot)
    (returns : m'.returns = r :: m.returns) (calls : m'.calls = m.calls)
    (ends : m'.ends = m.ends) : History m' := by
  obtain ⟨h1, h2, h3, h4, h5, h6, h7⟩ := hist
  constructor <;> simp only [calls, ends, returns]
  · exact h1
  · exact h2
  · exact h3
  · exact h4
  · intro q hq
    rcases List.mem_cons.mp hq with rfl | hq
    · exact ended
    · exact h5 q hq
  · rw [List.map_cons, List.nodup_cons]
    refine ⟨?_, h6⟩
    intro hm
    obtain ⟨q, hq, he⟩ := List.mem_map.mp hm
    exact first q hq he
  · intro q hq
    rcases List.mem_cons.mp hq with rfl | hq
    · exact faithful
    · exact h7 q hq

/-- A step that keeps all three records. -/
structure SameRecords (m m' : Machine) : Prop where
  calls : m'.calls = m.calls
  ends : m'.ends = m.ends
  returns : m'.returns = m.returns

theorem SameRecords.history (r : SameRecords m m') (hist : History m) : History m' :=
  hist.same r.calls r.ends r.returns

theorem SameRecords.trans {m'' : Machine} (r : SameRecords m m') (r' : SameRecords m' m'') :
    SameRecords m m'' :=
  ⟨r'.calls.trans r.calls, r'.ends.trans r.ends, r'.returns.trans r.returns⟩

theorem sameRecords_follow (plan : Plan) : SameRecords m (m.follow plan) := by
  cases plan <;> exact ⟨rfl, rfl, rfl⟩

theorem sameRecords_interruptFrame : SameRecords m m.interruptFrame := by
  unfold Machine.interruptFrame
  split <;> exact ⟨rfl, rfl, rfl⟩

theorem sameRecords_tick : SameRecords m m.tick := by
  have h0 : SameRecords m { m with ticks := m.ticks + 1 } := ⟨rfl, rfl, rfl⟩
  have h1 : SameRecords m ({ m with ticks := m.ticks + 1 } : Machine).interruptFrame :=
    h0.trans sameRecords_interruptFrame
  unfold Machine.tick
  dsimp only
  split
  · exact h1
  · exact h1.trans (sameRecords_follow _)

theorem sameRecords_performSwitch {hd : Handoff} : SameRecords m (m.performSwitch P hd sp) := by
  unfold Machine.performSwitch Machine.resume
  split
  · exact ⟨park_calls, park_ends, park_returns⟩
  · exact ⟨park_calls, park_ends, park_returns⟩

theorem sameRecords_exitTask : SameRecords m (m.exitTask P) := by
  unfold Machine.exitTask
  split
  · exact ⟨rfl, rfl, rfl⟩
  · rename_i s reaped sw _
    dsimp only
    cases reaped <;> split <;> exact ⟨rfl, rfl, rfl⟩

theorem sameRecords_enterRing0 : SameRecords m (m.enterRing0 p) := by
  unfold Machine.enterRing0 Machine.interruptFrame
  split <;> exact ⟨rfl, rfl, rfl⟩

theorem sameRecords_buildTask {root : Option ℕ} {pid : ℕ} {c : SchedClass} {mapped : Bool} :
    SameRecords m (m.buildTask root pid c mapped) := by
  unfold Machine.buildTask
  split <;> exact ⟨rfl, rfl, rfl⟩

theorem Solo.history_endProgram {exit : ProgramExit} (s : Solo P m h behind) (hist : History m)
    (code : m.cpu.code = .syscall p) : History (m.endProgram p exit) := by
  have hk := s.running.ok
  simp only [ContextOk, Cpu.saved, code] at hk
  unfold Machine.endProgram
  split
  · exact hist.same rfl rfl rfl
  · split
    · exact hist.newEnd hk.1.called hk.1.no_end rfl rfl rfl
    · exact hist.same rfl rfl rfl

theorem Solo.history_leaveProgram {raw : ℕ} (s : Solo P m h behind) (hist : History m)
    (code : m.cpu.code = .cleared p raw) : History (m.leaveProgram p raw) := by
  have hk := s.running.ok
  simp only [ContextOk, Cpu.saved, code] at hk
  obtain ⟨⟨ho, ⟨exit, hended, hdec⟩, hregs, hmask⟩, hslot⟩ := hk
  unfold Machine.leaveProgram
  rw [hdec]
  refine hist.newReturn (r := ⟨p, exit, m.cpu.registers,
    p.interruptsWereEnabled || m.cpu.interrupts, m.supervisorSlot⟩) hended ho.no_return ?_ rfl rfl rfl
  have hmask' : m.cpu.interrupts = false := hmask
  exact ⟨hregs, by simp [hmask'], s.current.supervisorSlot.trans ho.slot.symm⟩

/-- The steps that call, end or leave a program. -/
def Event.records : Event → Bool
  | .runProgram _ => true
  | .sysExit _ => true
  | .fault _ => true
  | .leaveProgram => true
  | _ => false

theorem Act.sameRecords (ha : Act P m e m') (he : e.records = false) : SameRecords m m' := by
  cases ha with
  | runProgram => cases he
  | sysExit => cases he
  | fault => cases he
  | leaveProgram => cases he
  | buildTask => exact sameRecords_buildTask
  | @buildProcess root =>
    have hb : SameRecords m (m.bindSpace root) := ⟨rfl, rfl, rfl⟩
    exact hb.trans sameRecords_buildTask
  | yieldNow => exact sameRecords_follow _
  | sysYield => exact sameRecords_follow _
  | exitTask => exact sameRecords_exitTask
  | runUntilIdle =>
    unfold Machine.runUntilIdle
    split <;> exact ⟨rfl, rfl, rfl⟩
  | leaveWindow =>
    unfold Machine.leaveWindow
    split <;> exact ⟨rfl, rfl, rfl⟩
  | reapZombie =>
    unfold Machine.reapZombie
    cases m.scheduler.zombie <;> exact ⟨rfl, rfl, rfl⟩
  | storeSlot => constructor <;> simp [Machine.storeSlot, Machine.goto, Machine.setFrame]
  | clearSlot => constructor <;> simp [Machine.goto]
  | syscall => exact sameRecords_enterRing0
  | _ => exact ⟨rfl, rfl, rfl⟩

theorem Step.sameRecords (hs : Step P m e m') (he : e.records = false) : SameRecords m m' := by
  cases hs with
  | tick => exact sameRecords_tick
  | performSwitch => exact sameRecords_performSwitch
  | act _ ha => exact ha.sameRecords he

theorem Solo.history_act (s : Solo P m h behind) (pl : Placed m) (hist : History m)
    (ha : Act P m e m') : History m' := by
  by_cases he : e.records = false
  · exact (ha.sameRecords he).history hist
  cases ha with
  | runProgram =>
    unfold Machine.runProgram
    split
    · exact hist.same rfl rfl rfl
    · exact hist.newCall rfl rfl rfl rfl
  | @fault p _ code =>
    have hs := s.enterRing0 pl code
    have hr : History (m.enterRing0 p) := sameRecords_enterRing0.history hist
    unfold Machine.fault
    dsimp only
    split
    · exact hs.history_endProgram hr rfl
    · exact hr.same rfl rfl rfl
  | sysExit code =>
    unfold Machine.sysExit
    split
    · exact s.history_endProgram hist code
    · exact hist
  | leaveProgram code => exact s.history_leaveProgram hist code
  | _ => exact absurd rfl he

theorem Stage.history (st : Stage P m) (pl : Placed m) (hist : History m) (hs : Step P m e m') :
    History m' := by
  by_cases he : e.records = false
  · exact (hs.sameRecords he).history hist
  cases hs with
  | tick => exact absurd rfl he
  | performSwitch => exact absurd rfl he
  | act handoff ha =>
    cases st with
    | solo s => exact s.history_act pl hist ha
    | leaving l => simp [l.handoff] at handoff
    | window w =>
      cases ha with
      | @runProgram _ ofProcess code => cases ofProcess <;> simp [w.code] at code
      | fault code => simp [w.code] at code
      | sysExit code => simp [w.code] at code
      | leaveProgram code => simp [w.code] at code
      | _ => exact absurd rfl he

end Records

/-- What holds between any two steps. -/
structure Good (P : Platform) (m : Machine) : Prop where
  placed : Placed m
  history : History m
  stage : Stage P m

theorem Boots.good (hb : Boots P m) : Good P m := by
  obtain ⟨h1, h2, h3⟩ := hb.programs
  have hcur : m.scheduler.current = none := by rw [hb.scheduler]; rfl
  have hready : m.scheduler.ready = [] := by rw [hb.scheduler]; rfl
  refine ⟨hb.placed, ?_, .solo (?_ : Solo P m (bootHome P m) none)⟩
  · constructor <;> simp [h1, h2, h3]
  · refine ⟨hb.handoff, .boot hcur, ⟨⟨hb.rsp, ?_, ?_⟩, fun _ => hb.cr3⟩, ?_, ⟨?_, ?_⟩, ?_, by simp⟩
    · exact (contextOk_plain (by simp [Cpu.saved, hb.code, Code.plain])).mpr hb.slot
    · simp [Cpu.saved, hb.code]
    · simp [hb.code, Code.bootOnly]
    · simp [hready]
    · simp [hb.pending]
    · exact fun hne => absurd rfl hne

theorem step_preserves_good : Preserves (next P) Any (Good P) := by
  intro m e m' hg _ hn
  have hs := next_cases hn
  exact ⟨hg.placed.step hg.stage.idle hs, hg.stage.history hg.placed hg.history hs,
    hg.stage.step hg.placed hg.history hs⟩

theorem reachable_good (hr : Reachable (next P) (Boots P) m) : Good P m :=
  hr.invariant (fun _ hb => hb.good) step_preserves_good

end KernelMachine
