import NajmKernel.Contexts

/-! Steps that leave the processor to the context that has it. What such a step changes is
confined to the context's own stack, slot and calls, so that every parked context stays as it
was. -/
namespace KernelMachine

open SchedulingClasses KernelStacks TaskScheduler

variable {P : Platform} {m m' : Machine} {h h' : Home} {behind : Option ℕ} {t u : Task} {sp : ℕ}

section Others

/-- Another context keeps all it relies on when changes stay on a stack it does not run on and
in calls it did not make. -/
structure Confined (m m' : Machine) (h : Home) : Prop where
  frames : ∀ a, ¬ h.Holds a → m'.frames a = m.frames a
  calls : ∀ p ∈ m.calls, p ∈ m'.calls
  ends : ∀ e ∈ m.ends, e ∈ m'.ends
  new_ends : ∀ e ∈ m'.ends, e ∈ m.ends ∨ e.1.slot = h.owner
  new_returns : ∀ r ∈ m'.returns, r ∈ m.returns ∨ r.program.slot = h.owner

theorem Confined.same (frames : m'.frames = m.frames) (calls : m'.calls = m.calls)
    (ends : m'.ends = m.ends) (returns : m'.returns = m.returns) : Confined m m' h where
  frames a _ := congrFun frames a
  calls _ hp := calls ▸ hp
  ends _ he := ends ▸ he
  new_ends _ he := Or.inl (ends ▸ he)
  new_returns _ hr := Or.inl (returns ▸ hr)

theorem Confined.quiet (c : Confined m m' h) (owner : h'.owner ≠ h.owner)
    (apart : ∀ a, h'.Holds a → ¬ h.Holds a) : Quiet m m' h' where
  frames a ha := c.frames a (apart a ha)
  calls := c.calls
  ends := c.ends
  new_ends e he := (c.new_ends e he).imp_right fun ho hw => owner (hw.symm.trans ho)
  new_returns r hr := (c.new_returns r hr).imp_right fun ho hw => owner (hw.symm.trans ho)

theorem Placed.quiet_task (pl : Placed m) (c : Confined m m' (taskHome t)) (ht : t ∈ m.undropped)
    (hu : u ∈ m.undropped) (hne : u.handle ≠ t.handle) : Quiet m m' (taskHome u) :=
  c.quiet (fun he => hne (Option.some.inj he)) fun _ ha => pl.stacks_apart hu ht hne ha

theorem Confined.quiet_boot (c : Confined m m' (taskHome t)) : Quiet m m' (bootHome P m) :=
  c.quiet (by simp [bootHome, taskHome]) fun _ ha => boot_apart ha

theorem Confined.quiet_task (c : Confined m m' (bootHome P m)) : Quiet m m' (taskHome u) :=
  c.quiet (by simp [bootHome, taskHome]) fun _ ha hb => boot_apart hb ha

theorem Resumes.quiet (hr : Resumes P m behind t sp)
    (hs : behind = some t.handle → m'.bootSupervisorRsp = m.bootSupervisorRsp)
    (hb : behind = some t.handle → Quiet m m' (bootHome P m)) (q : Quiet m m' (taskHome t)) :
    Resumes P m' behind t sp := by
  unfold Resumes at hr ⊢
  by_cases hbh : behind = some t.handle
  · rw [if_pos hbh] at hr ⊢
    obtain ⟨ns, hw, ht⟩ := hr
    exact ⟨ns, hw.quiet (hs hbh) (hb hbh), ht.quiet q⟩
  · rw [if_neg hbh] at hr ⊢
    exact hr.quiet q

/-- What the step of a context with home `h` leaves alone in the scheduler. -/
structure Steady (m m' : Machine) (h : Home) : Prop where
  ready : m'.scheduler.readyQueues = m.scheduler.readyQueues
  bootStackPointer : m'.scheduler.bootStackPointer = m.scheduler.bootStackPointer
  pending : m'.pending = m.pending
  bootSlot : h.owner ≠ none → m'.bootSupervisorRsp = m.bootSupervisorRsp
  handoff : m'.cpu.handoff = m.cpu.handoff

theorem OnCpu.confined_quiet (o : OnCpu P m h) (pl : Placed m) (c : Confined m m' h)
    (hu : u ∈ m.undropped) (hc : ∀ t, m.scheduler.current = some t → u.handle ≠ t.handle) :
    Quiet m m' (taskHome u) := by
  cases o with
  | boot _ => exact c.quiet_task
  | task ht => exact pl.quiet_task c (current_mem ht) hu (hc _ ht)

theorem OnCpu.boot_quiet (o : OnCpu P m h) (c : Confined m m' h) (hne : h.owner ≠ none) :
    Quiet m m' (bootHome P m) := by
  cases o with
  | boot _ => exact absurd rfl hne
  | task ht => exact c.quiet_boot

theorem OnCpu.owner_of (o : OnCpu P m h) (ht : m.scheduler.current = some t) :
    h.owner = some t.handle := by
  cases o with
  | boot hc => simp [hc] at ht
  | task hc =>
    obtain rfl := Option.some.inj (hc.symm.trans ht)
    rfl

theorem BootAside.quiet (b : BootAside P m behind)
    (stack : m'.scheduler.bootStackPointer = m.scheduler.bootStackPointer)
    (slot : m'.bootSupervisorRsp = m.bootSupervisorRsp) (q : Quiet m m' (bootHome P m))
    (known : ∀ t ∈ m.runnable, behind = some t.handle → ∃ u ∈ m'.runnable, u.handle = t.handle) :
    BootAside P m' behind where
  waits hnone := by
    rw [stack]
    exact (b.waits hnone).quiet slot q
  known handle hh := by
    obtain ⟨t, ht, rfl⟩ := b.known handle hh
    exact known t ht hh

/-- The running context's own step: the others stay parked. -/
theorem Solo.step (s : Solo P m h behind) (pl : Placed m) (current : OnCpu P m' h')
    (owner : h'.owner = h.owner) (running : Running P m' h' m'.cpu.saved)
    (code : m'.cpu.code.bootOnly = true → h'.owner = none ∧ m'.cpu.code = .reaping)
    (c : Confined m m' h) (st : Steady m m' h) :
    Solo P m' h' behind where
  handoff := st.handoff.trans s.handoff
  current := current
  running := running
  code := code
  aside := by
    have hready : m'.scheduler.ready = m.scheduler.ready := ready_congr st.ready
    refine ⟨?_, ?_⟩
    · intro u hu _
      rw [hready] at hu
      have hr := s.aside.ready u hu (by simp)
      refine hr.quiet ?_ ?_ ?_
      · exact fun hb => st.bootSlot (s.alone _ hb).1
      · exact fun hb => s.current.boot_quiet c (s.alone _ hb).1
      · exact s.current.confined_quiet pl c (ready_mem hu) fun t ht => pl.current_not_ready ht hu
    · intro u hu
      rw [st.pending] at hu
      refine (s.aside.pending u hu).quiet (s.current.confined_quiet pl c (pending_mem hu) ?_)
      exact fun t ht => pl.pending_not_runnable hu (mem_runnable.mpr (Or.inl ht))
  boot := by
    intro hne
    rw [owner] at hne
    have hready : m'.scheduler.ready = m.scheduler.ready := ready_congr st.ready
    refine (s.boot hne).quiet st.bootStackPointer (st.bootSlot hne) (s.current.boot_quiet c hne) ?_
    intro t ht hh
    rcases mem_runnable.mp ht with hc | hr
    · exact absurd (s.current.owner_of hc) (s.alone _ hh).2
    · exact ⟨t, mem_runnable.mpr (Or.inr (hready ▸ hr)), rfl⟩
  alone := by
    intro handle hh
    rw [owner]
    exact s.alone handle hh

end Others

section OwnSteps

theorem OnCpu.slotValue (o : OnCpu P m h) : m.slotValue = h.slot := by
  cases o with
  | boot hc => simp [Machine.slotValue, hc, bootHome]
  | task hc => simp [Machine.slotValue, hc, taskHome]

theorem OnCpu.supervisorSlot (o : OnCpu P m h) : m.supervisorSlot = h.owner := by
  cases o with
  | boot hc => simp [Machine.supervisorSlot, hc, bootHome]
  | task hc => simp [Machine.supervisorSlot, hc, taskHome]

theorem OnCpu.isHome (o : OnCpu P m h) : IsHome P m h := by
  cases o with
  | boot _ => exact .boot
  | task _ => exact .task _

theorem OnCpu.same (o : OnCpu P m h) (current : m'.scheduler.current = m.scheduler.current)
    (slot : m'.bootSupervisorRsp = m.bootSupervisorRsp) : OnCpu P m' h := by
  cases o with
  | boot hc =>
    have hb : bootHome P m' = bootHome P m := by simp [bootHome, slot]
    exact hb ▸ .boot (current.trans hc)
  | task hc => exact .task (current.trans hc)

@[simp] theorem writeSlot_cpu {o : Option ℕ} {v : ℕ} : (m.writeSlot o v).cpu = m.cpu := by
  cases o <;> rfl

@[simp] theorem writeSlot_frames {o : Option ℕ} {v : ℕ} : (m.writeSlot o v).frames = m.frames := by
  cases o <;> rfl

@[simp] theorem writeSlot_calls {o : Option ℕ} {v : ℕ} : (m.writeSlot o v).calls = m.calls := by
  cases o <;> rfl

@[simp] theorem writeSlot_ends {o : Option ℕ} {v : ℕ} : (m.writeSlot o v).ends = m.ends := by
  cases o <;> rfl

@[simp] theorem writeSlot_returns {o : Option ℕ} {v : ℕ} :
    (m.writeSlot o v).returns = m.returns := by
  cases o <;> rfl

@[simp] theorem writeSlot_pending {o : Option ℕ} {v : ℕ} :
    (m.writeSlot o v).pending = m.pending := by
  cases o <;> rfl

@[simp] theorem writeSlot_bootStackPointer {o : Option ℕ} {v : ℕ} :
    (m.writeSlot o v).scheduler.bootStackPointer = m.scheduler.bootStackPointer := by
  cases o <;> rfl

/-- A write through the running context's slot pointer reaches its own slot and nothing else. -/
theorem OnCpu.writeSlot (o : OnCpu P m h) (pl : Placed m) (v : ℕ) :
    OnCpu P (m.writeSlot h.owner v) { h with slot := v } ∧
      (m.writeSlot h.owner v).scheduler.readyQueues = m.scheduler.readyQueues := by
  cases o with
  | boot hc => exact ⟨.boot hc, rfl⟩
  | @task t hc =>
    have hcur : (m.writeSlot (some t.handle) v).scheduler.current =
        some { t with supervisorRsp := v } := by
      simp [Machine.writeSlot, Scheduler.modifyTask, hc]
    refine ⟨.task hcur, ?_⟩
    funext c
    have hid : ∀ u ∈ m.scheduler.readyQueues c, (if u.handle = t.handle then
        { u with supervisorRsp := v } else u) = u := by
      intro u hu
      exact if_neg (pl.current_not_ready hc (mem_ready.mpr ⟨c, hu⟩))
    simpa [Machine.writeSlot, Scheduler.modifyTask, taskHome] using
      (List.map_congr_left hid).trans (List.map_id _)

/-- Code outside any program call. -/
def Code.plain : Code → Bool
  | .kernel => true
  | .window _ => true
  | .reaping => true
  | .begin => true
  | .ended => true
  | .unmapped => true
  | .releasing _ => true
  | .panic .outOfStacks => true
  | .panic .yieldWithoutTask => true
  | .panic .exitWithoutTask => true
  | _ => false

theorem contextOk_plain {k : Saved} (hp : k.code.plain = true) :
    ContextOk m h k ↔ h.slot = 0 := by
  obtain ⟨code, i, r⟩ := k
  unfold ContextOk
  cases code with
  | panic site => cases site <;> simp_all [Code.plain]
  | _ => simp_all [Code.plain]

theorem ContextOk.clobber {k : Saved} (hk : ContextOk m h k) (free : k.code.clobbers = true)
    (r : CalleeSaved) : ContextOk m h { k with registers := r } := by
  obtain ⟨code, i, r'⟩ := k
  cases code <;> simp_all [ContextOk, Code.clobbers]

theorem Solo.clobber (s : Solo P m h behind) (pl : Placed m) (r : CalleeSaved)
    (free : m.cpu.code.clobbers = true) :
    Solo P { m with cpu := { m.cpu with registers := r } } h behind := by
  refine s.step pl (s.current.same rfl rfl) rfl ?_ s.code (.same rfl rfl rfl rfl)
    ⟨rfl, rfl, rfl, fun _ => rfl, rfl⟩
  have hr := s.running
  exact ⟨⟨hr.holds, (hr.ok.clobber free r).quiet (.same rfl rfl rfl rfl), hr.rsp0⟩, hr.cr3⟩

/-- Steps of kernel code that only concern memory. -/
theorem Solo.untouched (s : Solo P m h behind) (pl : Placed m)
    (scheduler : m'.scheduler = m.scheduler) (cpu : m'.cpu = m.cpu)
    (slot : m'.bootSupervisorRsp = m.bootSupervisorRsp)
    (frames : m'.frames = m.frames) (calls : m'.calls = m.calls)
    (ends : m'.ends = m.ends) (returns : m'.returns = m.returns)
    (pending : m'.pending = m.pending) : Solo P m' h behind := by
  have hr := s.running
  refine s.step pl (s.current.same (by rw [scheduler]) slot) rfl ?_ ?_ ?_ ?_
  · rw [cpu]
    refine ⟨⟨?_, hr.ok.quiet (.same frames calls ends returns), ?_⟩, ?_⟩ <;> rw [cpu]
    exacts [hr.holds, hr.rsp0, hr.cr3]
  · rw [cpu]
    exact s.code
  · refine ⟨fun a _ => congrFun frames a, ?_, ?_, ?_, ?_⟩
    · exact fun p hp => calls ▸ hp
    · exact fun e he => ends ▸ he
    · exact fun e he => Or.inl (ends ▸ he)
    · exact fun r hr => Or.inl (returns ▸ hr)
  · exact ⟨by rw [scheduler], by rw [scheduler], pending, fun _ => slot, by rw [cpu]⟩

/-- From one stretch of code outside any program call to the next. -/
theorem Solo.plain (s : Solo P m h behind) (pl : Placed m) (hp : m.cpu.code.plain = true)
    (hp' : m'.cpu.code.plain = true)
    (cr3 : m'.cpu.code.mapped = true → m'.cpu.cr3 = h.root.getD P.kernelRoot)
    (code : m'.cpu.code.bootOnly = true → h.owner = none ∧ m'.cpu.code = .reaping)
    (current : m'.scheduler.current = m.scheduler.current)
    (slot : m'.bootSupervisorRsp = m.bootSupervisorRsp)
    (rsp : m'.cpu.rsp = m.cpu.rsp) (c : Confined m m' h)
    (st : Steady m m' h) : Solo P m' h behind := by
  have hslot := (contextOk_plain (k := m.cpu.saved) hp).mp s.running.ok
  refine s.step pl (s.current.same current slot) rfl ?_ code c st
  refine ⟨⟨rsp ▸ s.running.holds, (contextOk_plain (k := m'.cpu.saved) hp').mpr hslot, ?_⟩, cr3⟩
  intro p hc
  have hk : m'.cpu.saved.code = m'.cpu.code := rfl
  rw [hk] at hc
  rcases hc with hc | hc | hc <;> rw [hc] at hp' <;> simp [Code.plain] at hp'

end OwnSteps

section ProgramSteps

variable {p : ProgramCall} {raw : ℕ} {exit : ProgramExit}

theorem History.fresh_call (hist : History m) (hp : p.call = m.calls.length) :
    p ∉ m.calls ∧ (∀ e ∈ m.ends, e.1 ≠ p) ∧ (∀ r ∈ m.returns, r.program ≠ p) := by
  have hnew : p ∉ m.calls := fun hm => absurd (hist.numbered p hm) (by omega)
  refine ⟨hnew, fun e he hep => hnew (hep ▸ hist.ends_called e he), fun r hr hrp => ?_⟩
  exact hnew (hrp ▸ hist.ends_called _ (hist.returns_ended r hr))

/-- The running context moves on within a program call. -/
theorem Solo.call (s : Solo P m h behind) (pl : Placed m) (c' : OnCpu P m' h')
    (owner : h'.owner = h.owner) (root : h'.root = h.root) (hp : m.cpu.code.plain = false)
    (ok : ContextOk m' h' m'.cpu.saved) (holds : h'.Holds m'.cpu.rsp)
    (rsp0 : ∀ p, m'.cpu.code = .armed p ∨ m'.cpu.code = .ring3 p ∨ m'.cpu.code = .syscall p →
      m'.cpu.rsp0 = p.savedRsp - 8)
    (code : m'.cpu.code.bootOnly = false) (cr3 : m'.cpu.cr3 = m.cpu.cr3)
    (c : Confined m m' h) (st : Steady m m' h) :
    Solo P m' h' behind := by
  have hmapped : m.cpu.code.mapped = true := by
    cases hc : m.cpu.code with
    | panic site => 
      have hk := s.running.ok
      cases site <;> simp_all [ContextOk, Cpu.saved, Code.plain]
    | _ => simp_all [Code.plain, Code.mapped]
  have hcr3 := s.running.cr3 hmapped
  refine s.step pl c' owner ⟨⟨holds, ok, rsp0⟩, ?_⟩ (by simp [code]) c st
  intro _
  rw [cr3, hcr3, root]

theorem Solo.runProgram (s : Solo P m h behind) (pl : Placed m) (hist : History m) {depth : ℕ}
    {ofProcess : Bool} (code : m.cpu.code = if ofProcess then .begin else .kernel)
    (room : m.HasRoom P depth) : Solo P (m.runProgram P depth ofProcess) h behind := by
  have hplain : m.cpu.code.plain = true := by
    rw [code]
    cases ofProcess <;> rfl
  have hzero := (contextOk_plain (k := m.cpu.saved) hplain).mp s.running.ok
  obtain ⟨hbot, htop⟩ := s.current.isHome.bounds s.running.holds
  have hcr3 : m.cpu.cr3 = h.root.getD P.kernelRoot := by
    apply s.running.cr3
    simp only [Cpu.saved, code]
    cases ofProcess <;> rfl
  unfold Machine.HasRoom Machine.savedRspAt at room
  rw [hbot, htop] at room
  unfold Machine.runProgram
  rw [s.current.slotValue, hzero, if_neg (by simp)]
  obtain ⟨hnew, hends, hreturns⟩ := hist.fresh_call (p := ⟨m.calls.length, m.supervisorSlot,
    m.cpu.interrupts, m.cpu.registers, m.savedRspAt P depth, ofProcess⟩) rfl
  refine s.step pl (s.current.same rfl rfl) rfl ⟨⟨s.running.holds, ?_, ?_⟩, fun _ => hcr3⟩ ?_ ?_
    ⟨rfl, rfl, rfl, fun _ => rfl, rfl⟩
  · refine ⟨⟨List.mem_cons_self, s.current.supervisorSlot, ?_, ?_, hreturns⟩, hends, hzero, rfl⟩ <;>
      simp only [Machine.savedRspAt, htop] <;> omega
  · intro q hq
    simp [Machine.goto, Cpu.saved] at hq
  · simp [Machine.goto, Code.bootOnly]
  · exact ⟨fun _ _ => rfl, fun q hq => List.mem_cons_of_mem _ hq, fun _ he => he, fun _ => Or.inl,
      fun _ => Or.inl⟩

theorem Solo.storeSlot (s : Solo P m h behind) (pl : Placed m)
    (code : m.cpu.code = .entering p) : Solo P (m.storeSlot p) { h with slot := p.savedRsp } behind := by
  have hk := s.running.ok
  simp only [ContextOk, Cpu.saved, code] at hk
  obtain ⟨ho, hn, hz, hregs⟩ := hk
  have hp : { p with registers := m.cpu.registers } = p := by rw [hregs]
  have hset : OnCpu P (m.setFrame p.savedRsp (some (.supervisor p))) h := s.current.same rfl rfl
  have hw := hset.writeSlot (Placed.same pl rfl rfl rfl ⟨rfl, rfl, rfl, rfl⟩) p.savedRsp
  have hframes (a : ℕ) (ha : ¬ h.Holds a) :
      Function.update m.frames p.savedRsp (some (.supervisor p)) a = m.frames a := by
    apply Function.update_of_ne
    rintro rfl
    exact ha ho.holds
  unfold Machine.storeSlot
  rw [hp, ho.slot]
  refine s.call pl (hw.1.same rfl rfl) rfl rfl (by rw [code]; rfl) ?_ ?_ ?_ rfl ?_ ?_ ?_
  · refine ⟨⟨?_, ho.slot, ho.above, ho.below, ?_⟩, ?_, rfl, ?_⟩ <;>
      simp only [Machine.goto, writeSlot_calls, writeSlot_returns, writeSlot_ends, writeSlot_frames,
        Machine.setFrame]
    · exact ho.called
    · exact ho.no_return
    · exact hn
    · simp
  · have hh := s.running.holds
    simpa [Machine.goto, Machine.setFrame, Home.Holds] using hh
  · simp [Machine.goto]
  · simp [Machine.goto, Machine.setFrame]
  · refine ⟨?_, ?_, ?_, ?_, ?_⟩ <;> simp only [Machine.goto, writeSlot_calls, writeSlot_returns,
      writeSlot_ends, writeSlot_frames, Machine.setFrame]
    · exact hframes
    · exact fun _ hq => hq
    · exact fun _ hq => hq
    · exact fun _ hq => Or.inl hq
    · exact fun _ hq => Or.inl hq
  · refine ⟨hw.2, ?_, ?_, ?_, ?_⟩ <;> simp only [Machine.goto, writeSlot_cpu, writeSlot_pending,
      writeSlot_bootStackPointer, Machine.setFrame]
    intro hne
    cases howner : h.owner with
    | none => exact absurd howner hne
    | some x => rfl

theorem Solo.storeRsp0 (s : Solo P m h behind) (pl : Placed m) (code : m.cpu.code = .stored p) :
    Solo P (m.storeRsp0 p) h behind := by
  have hk := s.running.ok
  simp only [ContextOk, Cpu.saved, code] at hk
  refine s.call pl (s.current.same rfl rfl) rfl rfl (by rw [code]; rfl)
    (hk.quiet (.same rfl rfl rfl rfl)) s.running.holds ?_ rfl rfl (.same rfl rfl rfl rfl) ⟨rfl, rfl, rfl, fun _ => rfl, rfl⟩
  intro q hq
  simp only [Machine.storeRsp0, Code.armed.injEq, reduceCtorEq, or_false] at hq ⊢
  rw [hq]

/-- `iretq` to Ring 3, from the entry path or from a system call. -/
theorem Solo.enterRing3 (s : Solo P m h behind) (pl : Placed m)
    (code : m.cpu.code = .armed p ∨ m.cpu.code = .syscall p) :
    Solo P ((m.setInterrupts true).goto (.ring3 p)) h behind := by
  have hk : Inside m h p := by
    have hk := s.running.ok
    rcases code with code | code <;> simp only [ContextOk, Cpu.saved, code] at hk
    · exact hk
    · exact hk.1
  have hrsp0 : m.cpu.rsp0 = p.savedRsp - 8 :=
    s.running.rsp0 p (code.imp_right Or.inr)
  refine s.call pl (s.current.same rfl rfl) rfl rfl (by rcases code with code | code <;> rw [code] <;> rfl)
    (hk.quiet (.same rfl rfl rfl rfl)) s.running.holds ?_ rfl rfl (.same rfl rfl rfl rfl) ⟨rfl, rfl, rfl, fun _ => rfl, rfl⟩
  intro q hq
  simp only [Machine.goto, reduceCtorEq, Code.ring3.injEq, false_or, or_false] at hq
  rw [← hq]
  exact hrsp0

theorem interruptStack_bounds (hp : h.bottom + 64 < p.savedRsp) :
    h.bottom < interruptStack (p.savedRsp - 8) ∧ interruptStack (p.savedRsp - 8) + 48 ≤ p.savedRsp := by
  unfold interruptStack
  omega

/-- The processor's frame for an interrupt from Ring 3 lies on the context's own stack. -/
theorem Solo.enterRing0 (s : Solo P m h behind) (pl : Placed m) (code : m.cpu.code = .ring3 p) :
    Solo P (m.enterRing0 p) h behind := by
  have hk := s.running.ok
  simp only [ContextOk, Cpu.saved, code] at hk
  have hrsp0 : m.cpu.rsp0 = p.savedRsp - 8 := s.running.rsp0 p (Or.inr (Or.inl code))
  have hm : m.enterRing0 p = { m with cpu := { m.cpu with
      rsp := interruptStack m.cpu.rsp0, interrupts := false, code := .syscall p } } := by
    simp [Machine.enterRing0, Machine.interruptFrame, code, Machine.goto, Machine.setInterrupts]
  rw [hm]
  obtain ⟨hb, ht⟩ := interruptStack_bounds hk.above
  have hbelow := hk.below
  have hholds : h.Holds (interruptStack m.cpu.rsp0) := by
    rw [hrsp0]
    exact ⟨hb, by omega⟩
  refine s.call pl (s.current.same rfl rfl) rfl rfl (by rw [code]; rfl)
    ⟨hk.quiet (.same rfl rfl rfl rfl), rfl⟩ hholds ?_ rfl rfl (.same rfl rfl rfl rfl) ⟨rfl, rfl, rfl, fun _ => rfl, rfl⟩
  · intro q hq
    simp only [reduceCtorEq, Code.syscall.injEq, false_or] at hq
    rw [← hq]
    exact hrsp0

theorem Solo.endProgram (s : Solo P m h behind) (pl : Placed m) (code : m.cpu.code = .syscall p)
    (fits : exit.Fits) : Solo P (m.endProgram p exit) h behind ∧
      ∃ raw, (m.endProgram p exit).cpu.code = .returned p raw := by
  have hk := s.running.ok
  simp only [ContextOk, Cpu.saved, code] at hk
  obtain ⟨hi, hmask⟩ := hk
  have hv : m.slotValue = p.savedRsp := s.current.slotValue.trans hi.slot_set
  have hpos : p.savedRsp ≠ 0 := by
    have := hi.above
    omega
  unfold Machine.endProgram
  rw [hv, if_neg hpos, hi.frame]
  refine ⟨?_, exit.encode, rfl⟩
  have ho : Open m h p := hi.toOpen
  refine s.call pl (s.current.same rfl rfl) rfl rfl (by rw [code]; rfl) ?_ ?_ ?_ rfl rfl ?_
    ⟨rfl, rfl, rfl, fun _ => rfl, rfl⟩
  · refine ⟨⟨⟨ho.called, ho.slot, ho.above, ho.below, ho.no_return⟩, ?_, rfl, hmask⟩, hi.slot_set⟩
    exact ⟨exit, List.mem_cons_self, decode_encode fits⟩
  · have h1 := ho.above
    have h2 := ho.below
    exact ⟨by simp only [Machine.setFrame]; omega, by simp only [Machine.setFrame]; omega⟩
  · intro q hq
    simp [Machine.setFrame] at hq
  · refine ⟨?_, fun _ hq => hq, fun _ hq => List.mem_cons_of_mem _ hq, ?_, fun _ hq => Or.inl hq⟩
    · intro a ha
      apply Function.update_of_ne
      rintro rfl
      exact ha ho.holds
    · intro e he
      rcases List.mem_cons.mp he with rfl | he
      · exact Or.inr ho.slot
      · exact Or.inl he

theorem Solo.clearSlot (s : Solo P m h behind) (pl : Placed m)
    (code : m.cpu.code = .returned p raw) :
    Solo P ((m.writeSlot p.slot 0).goto (.cleared p raw)) { h with slot := 0 } behind := by
  have hk := s.running.ok
  simp only [ContextOk, Cpu.saved, code] at hk
  obtain ⟨⟨ho, hended, hregs, hmask⟩, hslot⟩ := hk
  have hw := s.current.writeSlot pl 0
  rw [ho.slot]
  refine s.call pl (hw.1.same rfl rfl) rfl rfl (by rw [code]; rfl) ?_ ?_ ?_ rfl ?_ ?_ ?_
  · refine ⟨⟨⟨?_, ho.slot, ho.above, ho.below, ?_⟩, ?_, ?_, ?_⟩, rfl⟩ <;>
      simp only [Machine.goto, writeSlot_calls, writeSlot_returns, writeSlot_ends, writeSlot_cpu,
        Cpu.saved]
    exacts [ho.called, ho.no_return, hended, hregs, hmask]
  · have hh := s.running.holds
    simpa [Machine.goto, Home.Holds] using hh
  · simp [Machine.goto]
  · simp [Machine.goto]
  · refine ⟨?_, ?_, ?_, ?_, ?_⟩ <;> simp only [Machine.goto, writeSlot_calls, writeSlot_returns,
      writeSlot_ends, writeSlot_frames]
    · exact fun _ _ => trivial
    · exact fun _ hq => hq
    · exact fun _ hq => hq
    · exact fun _ hq => Or.inl hq
    · exact fun _ hq => Or.inl hq
  · refine ⟨hw.2, ?_, ?_, ?_, ?_⟩ <;> simp only [Machine.goto, writeSlot_cpu, writeSlot_pending,
      writeSlot_bootStackPointer]
    intro hne
    cases howner : h.owner with
    | none => exact absurd howner hne
    | some x => rfl

theorem Solo.leaveProgram (s : Solo P m h behind) (pl : Placed m)
    (code : m.cpu.code = .cleared p raw) : Solo P (m.leaveProgram p raw) h behind := by
  have hk := s.running.ok
  simp only [ContextOk, Cpu.saved, code] at hk
  obtain ⟨⟨ho, ⟨exit, hended, hdec⟩, hregs, hmask⟩, hslot⟩ := hk
  have hcr3 : m.cpu.cr3 = h.root.getD P.kernelRoot := by
    apply s.running.cr3
    simp [Cpu.saved, code, Code.mapped]
  unfold Machine.leaveProgram
  rw [hdec]
  have hplain : (if p.ofProcess then Code.ended else .kernel).plain = true := by
    cases p.ofProcess <;> rfl
  refine s.step pl (s.current.same rfl rfl) rfl ⟨⟨s.running.holds, ?_, ?_⟩, fun _ => hcr3⟩ ?_ ?_
    ⟨rfl, rfl, rfl, fun _ => rfl, rfl⟩
  · exact (contextOk_plain (by exact hplain)).mpr hslot
  · intro q hq
    simp only [Cpu.saved] at hq
    cases hof : p.ofProcess <;> simp [hof] at hq
  · cases hof : p.ofProcess <;> simp [Code.bootOnly]
  · refine ⟨fun _ _ => rfl, fun _ hq => hq, fun _ he => he, fun _ => Or.inl, ?_⟩
    intro r hr
    rcases List.mem_cons.mp hr with rfl | hr
    · exact Or.inr ho.slot
    · exact Or.inl hr

end ProgramSteps

section TaskSteps

/-- A stack that the allocator hands out belongs to no task. -/
theorem Placed.allocated_apart (pl : Placed m) {mapped : Bool} {stack : KernelStack}
    (ha : (m.kernelStacks.allocate mapped).2 = some stack) (hu : u ∈ m.undropped) {a : ℕ}
    (hold : u.stack.Holds a) : ¬ stack.Holds a := by
  intro hs
  have hn := (pl.slots.allocate ha).used_nodup
  rw [List.nodup_cons] at hn
  rw [← KernelStack.holds_unique hold hs] at hn
  exact hn.1 (List.mem_map_of_mem hu)

/-- Everyone keeps what it relies on when a frame is made up on a stack that nobody runs on. -/
theorem Quiet.fabricate {stack : KernelStack} {f : Option Frame}
    (apart : ∀ a, h.Holds a → ¬ stack.Holds a)
    (frames : m'.frames = Function.update m.frames (stack.top - 64) f)
    (calls : m'.calls = m.calls) (ends : m'.ends = m.ends)
    (returns : m'.returns = m.returns) : Quiet m m' h where
  frames a ha := by
    rw [frames]
    apply Function.update_of_ne
    rintro rfl
    obtain ⟨h1, h2⟩ := stack.bounds
    exact apart _ ha ⟨by omega, by omega⟩
  calls _ hp := calls ▸ hp
  ends _ he := ends ▸ he
  new_ends _ he := Or.inl (ends ▸ he)
  new_returns _ hr := Or.inl (returns ▸ hr)

/-- A new task starts at the top of its stack, outside any program call. -/
theorem taskParked_new {handle pid : ℕ} {stack : KernelStack} {root : Option ℕ} {c : SchedClass}
    (code : Code) (hp : code.plain = true) (hb : code.bootOnly = false)
    (hf : m.frames (stack.top - 64) = some (.switch ⟨code, true, .zero⟩)) :
    TaskParked m (.new handle stack root pid c) (stack.top - 64) := by
  obtain ⟨h1, h2⟩ := stack.bounds
  refine ⟨⟨code, true, .zero⟩, ⟨?_, ?_, hf, (contextOk_plain hp).mpr rfl⟩, hb⟩ <;>
    simp only [taskHome, Task.new] <;> omega

theorem Solo.buildTask (s : Solo P m h behind) (pl : Placed m) {root : Option ℕ} {pid : ℕ}
    {c : SchedClass} {mapped : Bool} (code : m.cpu.code = .kernel) :
    Solo P (m.buildTask root pid c mapped) h behind := by
  have hcr3 : m.cpu.cr3 = h.root.getD P.kernelRoot := by
    apply s.running.cr3
    simp [Cpu.saved, code, Code.mapped]
  unfold Machine.buildTask
  split
  · refine s.plain pl (by rw [code]; rfl) rfl (fun _ => hcr3) ?_ rfl rfl rfl (.same rfl rfl rfl rfl)
      ⟨rfl, rfl, rfl, fun _ => rfl, rfl⟩
    simp [Machine.goto, Code.bootOnly]
  · rename_i ks stack hk
    have ha : (m.kernelStacks.allocate mapped).2 = some stack := congrArg Prod.snd hk
    have hq (u : Task) (hu : u ∈ m.undropped) :
        Quiet m (m.addTask ks stack root pid c) (taskHome u) :=
      .fabricate (fun a hold => pl.allocated_apart ha hu hold) rfl rfl rfl rfl
    have hqb : Quiet m (m.addTask ks stack root pid c) (bootHome P m) :=
      .fabricate (fun a hold => boot_apart (t := .new 0 stack none 0 c) hold) rfl rfl rfl rfl
    have hqh : Quiet m (m.addTask ks stack root pid c) h := by
      cases s.current with
      | boot _ => exact hqb
      | task ht => exact hq _ (current_mem ht)
    refine ⟨s.handoff, (s.current.same rfl rfl), ?_, s.code, ⟨?_, ?_⟩, ?_, s.alone⟩
    · exact ⟨⟨s.running.holds, s.running.ok.quiet hqh, s.running.rsp0⟩, s.running.cr3⟩
    · intro u hu _
      exact (s.aside.ready u hu (by simp)).quiet (fun _ => rfl) (fun _ => hqb) (hq u (ready_mem hu))
    · intro u hu
      rcases List.mem_cons.mp hu with rfl | hu
      · refine taskParked_new _ ?_ ?_ (Function.update_self ..) <;> cases root <;> rfl
      · exact (s.aside.pending u hu).quiet (hq u (pending_mem hu))
    · exact fun hne => (s.boot hne).quiet rfl rfl hqb fun t ht _ => ⟨t, ht, rfl⟩

theorem Solo.queueTask (s : Solo P m h behind) (pl : Placed m) {stamp : ℕ} (ht : t ∈ m.pending) :
    Solo P (m.queueTask t stamp) h behind := by
  have hready : ∀ u, u ∈ (m.queueTask t stamp).scheduler.ready ↔
      u = { t with readySince := stamp, promoted := false } ∨ u ∈ m.scheduler.ready := by
    intro u
    rw [← List.mem_cons]
    exact (enqueue_ready m.scheduler t stamp).mem_iff
  refine ⟨s.handoff, (s.current.same rfl rfl), ?_, s.code, ⟨?_, ?_⟩, ?_, s.alone⟩
  · exact ⟨⟨s.running.holds, s.running.ok.quiet (.same rfl rfl rfl rfl), s.running.rsp0⟩, s.running.cr3⟩
  · intro u hu _
    rcases (hready u).mp hu with rfl | hu
    · have hne : behind ≠ some t.handle := by
        intro hb
        obtain ⟨v, hv, he⟩ := (s.boot (s.alone _ hb).1).known _ hb
        exact pl.pending_not_runnable ht hv he.symm
      unfold Resumes
      rw [if_neg hne]
      have hq : Quiet m (m.queueTask t stamp) (taskHome t) := .same rfl rfl rfl rfl
      exact ((s.aside.pending t ht).quiet hq).congr rfl
    · exact (s.aside.ready u hu (by simp)).quiet (fun _ => rfl) (fun _ => .same rfl rfl rfl rfl) (.same rfl rfl rfl rfl)
  · intro u hu
    exact (s.aside.pending u (List.mem_of_mem_erase hu)).quiet (.same rfl rfl rfl rfl)
  · refine fun hne => (s.boot hne).quiet rfl rfl (.same rfl rfl rfl rfl) ?_
    intro v hv _
    rcases mem_runnable.mp hv with hv | hv
    · exact ⟨v, mem_runnable.mpr (Or.inl hv), rfl⟩
    · exact ⟨v, mem_runnable.mpr (Or.inr ((hready v).mpr (Or.inr hv))), rfl⟩

theorem Solo.setCurrentClass (s : Solo P m h behind) (pl : Placed m) (c : SchedClass)
    (code : m.cpu.code = .kernel) :
    Solo P { m with scheduler := m.scheduler.setCurrentClass c } h behind := by
  have hcur : OnCpu P { m with scheduler := m.scheduler.setCurrentClass c } h := by
    cases s.current with
    | boot hc => exact .boot (by simp [Scheduler.setCurrentClass, hc])
    | @task t hc =>
      have := OnCpu.task (P := P) (m := { m with scheduler := m.scheduler.setCurrentClass c })
        (t := { t with schedClass := c }) (by simp [Scheduler.setCurrentClass, hc])
      exact this
  refine s.step pl hcur rfl ?_ (by simp [code, Code.bootOnly]) (.same rfl rfl rfl rfl)
    ⟨rfl, rfl, rfl, fun _ => rfl, rfl⟩
  exact ⟨⟨s.running.holds, s.running.ok.quiet (.same rfl rfl rfl rfl), s.running.rsp0⟩, s.running.cr3⟩

theorem Solo.reapZombie (s : Solo P m h behind) (pl : Placed m) (code : m.cpu.code = .reaping) :
    Solo P (m.reapZombie.goto .kernel) h behind := by
  have hcr3 : m.cpu.cr3 = h.root.getD P.kernelRoot := by
    apply s.running.cr3
    simp [Cpu.saved, code, Code.mapped]
  unfold Machine.reapZombie
  cases m.scheduler.zombie with
  | none =>
    exact s.plain pl (by rw [code]; rfl) rfl (fun _ => hcr3)
      (by simp [Machine.goto, Code.bootOnly]) rfl rfl rfl (.same rfl rfl rfl rfl) ⟨rfl, rfl, rfl, fun _ => rfl, rfl⟩
  | some z =>
    exact s.plain pl (by rw [code]; rfl) rfl (fun _ => hcr3)
      (by simp [Machine.goto, Code.bootOnly]) rfl rfl rfl (.same rfl rfl rfl rfl) ⟨rfl, rfl, rfl, fun _ => rfl, rfl⟩

end TaskSteps

end KernelMachine
