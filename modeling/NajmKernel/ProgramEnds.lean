import NajmKernel.Footprints

/-! How Ring 3 programs end. The slot of a context is set for as long as the context is between
the store of `enter_usermode_and_wait` and the clearing of `run_program`, and an exit or a fault
gets back to the call of the context that it happened in. -/
namespace KernelMachine

open SchedulingClasses KernelStacks TaskScheduler TransitionSystem

variable {P : Platform} {m m' : Machine} {e : Event} {h : Home} {behind : Option ℕ} {t u : Task}
  {inside : Option ℕ → Bool}

/-- The context on whose stack the processor is: a task, or else the boot context. -/
def Machine.executing (m : Machine) : Option ℕ :=
  (m.undropped.find? fun t => decide (t.stack.Holds m.cpu.rsp)).map Task.handle

/-- Which contexts have passed the store and not yet the clearing. -/
def note (m : Machine) (e : Event) (inside : Option ℕ → Bool) : Option ℕ → Bool :=
  match e with
  | .storeSlot => Function.update inside m.executing true
  | .clearSlot => Function.update inside m.executing false
  | _ => inside

/-- The call whose program a step ends, and how. -/
def endedBy (m : Machine) (e : Event) : Option (ProgramCall × ProgramExit) :=
  match m.cpu.code, e with
  | .syscall p, .sysExit status => some (p, .exited (status % 2 ^ 32))
  | .ring3 p, .fault exit => some (p, exit)
  | _, _ => none

/-- The slots say who is inside. -/
structure Marked (m : Machine) (inside : Option ℕ → Bool) : Prop where
  tasks : ∀ t ∈ m.alive, (t.supervisorRsp ≠ 0 ↔ inside (some t.handle) = true)
  boot : m.bootSupervisorRsp ≠ 0 ↔ inside none = true
  fresh : ∀ x, m.nextHandle ≤ x → inside (some x) = false

/-- The processor goes on behind the call, in the same context and with its registers. -/
structure BackInCall (m m' : Machine) (p : ProgramCall) (exit : ProgramExit) : Prop where
  caller : p.slot = m.executing
  current : m'.scheduler.current = m.scheduler.current
  code : m'.cpu.code = .returned p exit.encode
  rsp : m'.cpu.rsp = p.savedRsp + 56
  registers : m'.cpu.registers = p.registers
  recorded : m'.ends = (p, exit) :: m.ends

section Slots

theorem Solo.executing (s : Solo P m h behind) (pl : Placed m) : m.executing = h.owner := by
  unfold Machine.executing
  have hh := s.running.holds
  cases hc : s.current with
  | boot _ =>
    have hnone : m.undropped.find? (fun t => decide (t.stack.Holds m.cpu.rsp)) = none := by
      rw [List.find?_eq_none]
      intro t _
      simpa using boot_apart (t := t) hh
    rw [hnone]
    rfl
  | @task t ht =>
    cases hf : m.undropped.find? (fun t => decide (t.stack.Holds m.cpu.rsp)) with
    | none =>
      have hn := List.find?_eq_none.mp hf t (current_mem ht)
      have hnot : ¬ t.stack.Holds m.cpu.rsp := by simpa using hn
      exact absurd hh hnot
    | some u =>
      have hu : u.stack.Holds m.cpu.rsp := by simpa using List.find?_some hf
      have hk := KernelStack.holds_unique hu hh
      have he := pl.eq_of_slot (List.mem_of_find?_eq_some hf) (current_mem ht)
        (congrArg KernelStack.slot hk)
      rw [he]
      rfl

theorem Marked.kept (mk : Marked m inside) (k : Kept m m') (st : Settled m m') :
    Marked m' inside where
  tasks u hu := by
    obtain ⟨t, ht, he⟩ := k u hu
    have hslot : u.supervisorRsp = t.supervisorRsp := congrArg Home.slot he
    have hhandle : u.handle = t.handle := Option.some.inj (congrArg Home.owner he)
    rw [hslot, hhandle]
    exact mk.tasks t ht
  boot := by
    rw [st.slot]
    exact mk.boot
  fresh x hx := mk.fresh x (st.handles.trans hx)

theorem Marked.buildTask (mk : Marked m inside) {root : Option ℕ} {pid : ℕ} {c : SchedClass}
    {mapped : Bool} : Marked (m.buildTask root pid c mapped) inside where
  tasks u hu := by
    rcases alive_buildTask hu with hu | ⟨stack, rfl⟩
    · exact mk.tasks u hu
    · have hf := mk.fresh m.nextHandle (Nat.le_refl _)
      simp [Task.new, hf]
  boot := by
    rw [settled_buildTask.slot]
    exact mk.boot
  fresh x hx := mk.fresh x (settled_buildTask.handles.trans hx)

/-- A write through its own slot pointer marks the running context, or unmarks it. -/
theorem Marked.write (mk : Marked m inside) (pl : Placed m) (o : OnCpu P m h) (v : ℕ) :
    Marked (m.writeSlot h.owner v) (Function.update inside h.owner (decide (v ≠ 0))) where
  tasks u hu := by
    rcases alive_writeSlot hu with hp | ⟨t, ht, rfl⟩
    · have hne : some u.handle ≠ h.owner := by
        cases o with
        | boot _ => simp [bootHome]
        | task ht =>
          have := pl.pending_not_runnable hp (mem_runnable.mpr (Or.inl ht))
          simpa [taskHome] using this
      rw [Function.update_of_ne hne]
      exact mk.tasks u (mem_alive.mpr (Or.inr hp))
    · by_cases ho : h.owner = some t.handle
      · simp [ho]
      · rw [if_neg ho, Function.update_of_ne (Ne.symm ho)]
        exact mk.tasks t (mem_alive.mpr (Or.inl ht))
  boot := by
    cases ho : h.owner with
    | none => simp [Machine.writeSlot]
    | some x =>
      rw [Function.update_of_ne (by simp)]
      exact mk.boot
  fresh x hx := by
    have hx' : m.nextHandle ≤ x := by
      cases ho : h.owner <;> simpa [Machine.writeSlot, ho] using hx
    have hne : some x ≠ h.owner := by
      cases o with
      | boot _ => simp [bootHome]
      | @task t ht =>
        have hm := pl.spawned.mem_iff.mpr (List.mem_append_left _
          (List.mem_map_of_mem (mem_runnable.mpr (Or.inl ht))))
        have hlt := pl.fresh t.handle (List.mem_append_left _ hm)
        intro he
        have : x = t.handle := Option.some.inj he
        omega
    rw [Function.update_of_ne hne]
    exact mk.fresh x hx'

theorem Marked.step (mk : Marked m inside) (hg : Good P m) (hn : next P m e = some m') :
    Marked m' (note m e inside) := by
  have hs := next_cases hn
  by_cases he : e.rehomes = false
  · have hnote : note m e inside = inside := by cases e <;> first | rfl | cases he
    rw [hnote]
    exact mk.kept (hg.placed.kept_step hs he)
      (hs.settled (by rintro rfl; cases he) (by rintro rfl; cases he))
  · cases hs with
    | tick => exact absurd rfl he
    | performSwitch => exact absurd rfl he
    | act handoff ha =>
      cases ha with
      | buildTask => exact mk.buildTask
      | @buildProcess root =>
        have hb : Marked (m.bindSpace root) inside := ⟨mk.tasks, mk.boot, mk.fresh⟩
        exact hb.buildTask
      | @storeSlot p code =>
        obtain ⟨h, behind, s⟩ := hg.solo handoff (by rw [code]; rfl)
        have hk := s.running.ok
        simp only [ContextOk, Cpu.saved, code] at hk
        have hpos : p.savedRsp ≠ 0 := by
          have := hk.1.above
          omega
        have hf : Marked (m.setFrame p.savedRsp
            (some (.supervisor { p with registers := m.cpu.registers }))) inside :=
          ⟨mk.tasks, mk.boot, mk.fresh⟩
        have hw := hf.write (Placed.same hg.placed rfl rfl rfl ⟨rfl, rfl, rfl, rfl⟩) (s.current.same rfl rfl) p.savedRsp
        simp only [note, s.executing hg.placed]
        rw [decide_eq_true hpos, ← hk.1.slot] at hw
        rw [← hk.1.slot]
        exact ⟨hw.tasks, hw.boot, hw.fresh⟩
      | @clearSlot p raw code =>
        obtain ⟨h, behind, s⟩ := hg.solo handoff (by rw [code]; rfl)
        have hk := s.running.ok
        simp only [ContextOk, Cpu.saved, code] at hk
        have hw := mk.write hg.placed s.current 0
        simp only [note, s.executing hg.placed]
        rw [hk.1.slot]
        exact ⟨hw.tasks, hw.boot, hw.fresh⟩
      | _ => exact absurd rfl he

theorem Boots.marked (hb : Boots P m) : Marked m fun _ => false where
  tasks t ht := by
    simp [Machine.alive, Machine.runnable, hb.scheduler, hb.pending, Scheduler.new,
      Scheduler.ready] at ht
  boot := by simp [hb.slot]
  fresh _ _ := rfl

end Slots

section Ends

variable {p : ProgramCall} {exit : ProgramExit}

theorem Solo.backInCall (s : Solo P m h behind) (pl : Placed m) (code : m.cpu.code = .syscall p) :
    BackInCall m (m.endProgram p exit) p exit := by
  have hk := s.running.ok
  simp only [ContextOk, Cpu.saved, code] at hk
  obtain ⟨hi, _⟩ := hk
  have hv : m.slotValue = p.savedRsp := s.current.slotValue.trans hi.slot_set
  have hpos : p.savedRsp ≠ 0 := by
    have := hi.above
    omega
  have hcaller : p.slot = m.executing := hi.slot.trans (s.executing pl).symm
  unfold Machine.endProgram
  rw [hv, if_neg hpos, hi.frame]
  exact ⟨hcaller, rfl, rfl, rfl, rfl, rfl⟩

/-- Whatever ends a program, it is the caller of that very program that goes on. -/
theorem Good.backInCall (hg : Good P m) (hn : next P m e = some m')
    (ended : endedBy m e = some (p, exit)) : BackInCall m m' p exit := by
  cases next_cases hn with
  | tick => simp [endedBy] at ended
  | performSwitch => simp [endedBy] at ended
  | act handoff ha =>
    cases ha with
    | @sysExit q status code =>
      obtain ⟨rfl, rfl⟩ : q = p ∧ ProgramExit.exited (status % 2 ^ 32) = exit := by
        simpa [endedBy, code] using ended
      obtain ⟨h, behind, s⟩ := hg.solo handoff (by rw [code]; rfl)
      have hk := s.running.ok
      simp only [ContextOk, Cpu.saved, code] at hk
      have hv : m.slotValue ≠ 0 := by
        rw [s.current.slotValue, hk.1.slot_set]
        have := hk.1.above
        omega
      rw [Machine.sysExit, if_pos hv]
      exact s.backInCall hg.placed code
    | @fault q exit' code =>
      obtain ⟨rfl, rfl⟩ : q = p ∧ exit' = exit := by simpa [endedBy, code] using ended
      obtain ⟨h, behind, s⟩ := hg.solo handoff (by rw [code]; rfl)
      have hs := s.enterRing0 hg.placed code
      have hpl := hg.placed.enterRing0 q
      have hk := hs.running.ok
      have hcode : (m.enterRing0 q).cpu.code = .syscall q := rfl
      simp only [ContextOk, Cpu.saved, hcode] at hk
      have hv : (m.enterRing0 q).slotValue ≠ 0 := by
        rw [hs.current.slotValue, hk.1.slot_set]
        have := hk.1.above
        omega
      have hb : BackInCall (m.enterRing0 q) ((m.enterRing0 q).endProgram q exit') q exit' :=
        hs.backInCall hpl hcode
      have hex : (m.enterRing0 q).executing = m.executing :=
        (hs.executing hpl).trans (s.executing hg.placed).symm
      have hends : (m.enterRing0 q).ends = m.ends := sameRecords_enterRing0.ends
      have hcur : (m.enterRing0 q).scheduler.current = m.scheduler.current := by
        simp [Machine.enterRing0, Machine.goto, Machine.setInterrupts]
      unfold Machine.fault
      dsimp only
      rw [if_pos hv]
      exact ⟨hb.caller.trans hex, hb.current.trans hcur, hb.code, hb.rsp, hb.registers,
        hb.recorded.trans (by rw [hends])⟩
    | _ code => simp [endedBy, code] at ended

/-- Programs end in no other way. -/
theorem Step.ends_eq (hs : Step P m e m') (ended : endedBy m e = none) : m'.ends = m.ends := by
  by_cases he : e.records = false
  · exact (hs.sameRecords he).ends
  cases hs with
  | tick => exact absurd rfl he
  | performSwitch => exact absurd rfl he
  | act _ ha =>
    cases ha with
    | sysExit code => simp [endedBy, code] at ended
    | fault code => simp [endedBy, code] at ended
    | runProgram =>
      unfold Machine.runProgram
      split <;> rfl
    | leaveProgram =>
      unfold Machine.leaveProgram
      dsimp only
      split <;> rfl
    | _ => exact absurd rfl he

/-- The panics of `run_program`, `end_program` and `decode` are never reached. -/
theorem Stage.no_panic (st : Stage P m) {site : PanicSite}
    (hs : site = .nestedProgram ∨ site = .noProgram ∨ site = .unknownKind) :
    m.cpu.code ≠ .panic site := by
  intro hc
  cases st with
  | solo s =>
    have hk := s.running.ok
    rcases hs with rfl | rfl | rfl <;> simp [ContextOk, Cpu.saved, hc] at hk
  | window w => simp [w.code] at hc
  | @leaving hd _ _ _ l =>
    have hl := l.leaver
    rw [hc] at hl
    generalize hd.switch.currentStackOut = out at hl
    cases hl with
    | task _ running => rcases hs with rfl | rfl | rfl <;> exact running.ok
    | window _ running => rcases hs with rfl | rfl | rfl <;> exact running.ok
    | exit _ _ code => rcases hs with rfl | rfl | rfl <;> cases code
    | boot running => rcases hs with rfl | rfl | rfl <;> exact running.ok

end Ends

/-- The ends of Ring 3 programs are attributed to the calls that they belong to. -/
structure Attributed (P : Platform) (m : Machine) (inside : Option ℕ → Bool) : Prop where
  task_slots : ∀ t ∈ m.alive, (t.supervisorRsp ≠ 0 ↔ inside (some t.handle) = true)
  boot_slot : m.bootSupervisorRsp ≠ 0 ↔ inside none = true
  back : ∀ e m' p exit, next P m e = some m' → endedBy m e = some (p, exit) →
    BackInCall m m' p exit
  ended_so : ∀ e m', next P m e = some m' → endedBy m e = none → m'.ends = m.ends
  ended_once : (m.ends.map Prod.fst).Nodup
  returned_once : (m.returns.map Return.program).Nodup
  returned_own : ∀ r ∈ m.returns, (r.program, r.exit) ∈ m.ends ∧
    r.registers = r.program.registers ∧ r.interrupts = r.program.interruptsWereEnabled ∧
    r.slot = r.program.slot
  no_panic : ∀ site, site = .nestedProgram ∨ site = .noProgram ∨ site = .unknownKind →
    m.cpu.code ≠ .panic site

theorem program_ends_attributed {m₀ : Machine} {es : List Event} (boot : Boots P m₀)
    (run : exec (observed (next P) note) (m₀, fun _ => false) es = some (m, inside)) :
    Attributed P m inside := by
  have hstep : Preserves (observed (next P) note) Any
      (fun s => Good P s.1 ∧ Marked s.1 s.2) := by
    rintro ⟨m, inside⟩ e ⟨m', inside'⟩ ⟨hg, mk⟩ _ hn
    obtain ⟨u, hu, he⟩ := Option.map_eq_some_iff.mp hn
    obtain ⟨rfl, rfl⟩ := Prod.mk.inj he
    exact ⟨step_preserves_good m e u hg trivial hu, mk.step hg hu⟩
  have hinv := exec_invariant hstep (s := (m₀, fun _ => false)) ⟨boot.good, boot.marked⟩
    (meets_any _ _ _) run
  obtain ⟨hg, mk⟩ := hinv
  have hist := hg.history
  exact {
    task_slots := mk.tasks
    boot_slot := mk.boot
    back := fun e m' p exit hn ended => hg.backInCall hn ended
    ended_so := fun e m' hn ended => (next_cases hn).ends_eq ended
    ended_once := hist.ends_once
    returned_once := hist.returns_once
    returned_own := fun r hr => ⟨hist.returns_ended r hr, hist.returns_faithful r hr⟩
    no_panic := fun site hs => hg.stage.no_panic hs }

/-- Two tasks run programs; the first is preempted in Ring 3, the second faults, and the first
exits when it runs again. -/
def twoPrograms : List Event :=
  [.setInterrupts false, .buildTask none 0 .realtime true, .queueTask 0 0,
    .buildTask none 0 .realtime true, .queueTask 1 0, .runUntilIdle, .leaveWindow,
    .performSwitch 16384, .runProgram 104, .storeSlot, .storeRsp0, .enterRing3, .tick,
    .performSwitch ((KernelStack.ofSlot 0).top - 512), .runProgram 136, .storeSlot, .storeRsp0,
    .enterRing3, .fault .pageFault, .clearSlot, .leaveProgram, .yieldNow,
    .performSwitch ((KernelStack.ofSlot 1).top - 512), .syscall, .sysExit 7, .clearSlot,
    .leaveProgram]

theorem program_ends_attributed_twoPrograms : ∃ m inside,
    exec (observed (next smallPlatform) note) (smallPlatform.start, fun _ => false) twoPrograms =
      some (m, inside) ∧ Attributed smallPlatform m inside := by
  have hrun : (exec (next smallPlatform) smallPlatform.start twoPrograms).isSome = true := by
    decide +kernel
  obtain ⟨m, hm⟩ := Option.isSome_iff_exists.mp hrun
  obtain ⟨inside, ho⟩ := exists_observed note (fun _ => false) hm
  exact ⟨m, inside, ho, program_ends_attributed (boots_start smallPlatform (by decide)) ho⟩

end KernelMachine
