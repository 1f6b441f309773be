import NajmKernel.ContextSteps

/-! Steps that give the processor away. The scheduler's decision is taken with interrupts masked;
what leaves and where it leads is pinned down before `perform_switch` carries it out. -/
namespace KernelMachine

open SchedulingClasses KernelStacks TaskScheduler

variable {P : Platform} {m m' : Machine} {h : Home} {behind : Option ℕ} {t u : Task} {sp now : ℕ}

section Decisions

theorem mem_of_places {l l' : List Task} (hp : (l.map place).Perm (l'.map place)) (ht : t ∈ l') :
    ∃ u ∈ l, u.handle = t.handle := by
  obtain ⟨u, hu, he⟩ := List.mem_map.mp (hp.mem_iff.mpr (List.mem_map_of_mem ht))
  exact ⟨u, hu, congrArg Prod.fst he⟩

theorem Resumes.positive (hr : Resumes P m behind t sp) : sp ≠ 0 := by
  unfold Resumes at hr
  split at hr
  · obtain ⟨_, ⟨k, hk, _⟩, _⟩ := hr
    exact Nat.ne_of_gt (Nat.lt_of_le_of_lt (Nat.zero_le _) hk.above)
  · obtain ⟨k, hk, _⟩ := hr
    exact Nat.ne_of_gt (Nat.lt_of_le_of_lt (Nat.zero_le _) hk.above)

theorem BootParked.positive {code : Code} (hb : BootParked P m sp code) : sp ≠ 0 := by
  obtain ⟨k, hk, _⟩ := hb
  exact Nat.ne_of_gt (Nat.lt_of_le_of_lt (Nat.zero_le _) hk.above)

theorem planSwitch_no_panic {s : Scheduler} {kind : SwitchKind} (hk : kind ≠ .voluntary) :
    s.planSwitch kind now ≠ .panic := by
  intro hp
  unfold Scheduler.planSwitch at hp
  split at hp
  · simp at hp
  · split at hp
    · cases kind <;> simp at hp hk
    · simp at hp

/-- The scheduler puts back what it took, and nothing changes for the contexts. -/
theorem Solo.stay (s : Solo P m h behind) (pl : Placed m) {s' : Scheduler}
    (ready : s'.readyQueues = m.scheduler.readyQueues) (current : s'.current = m.scheduler.current)
    (stack : s'.bootStackPointer = m.scheduler.bootStackPointer) :
    Solo P { m with scheduler := s' } h behind := by
  refine s.step pl (s.current.same current rfl) rfl ?_ s.code (.same rfl rfl rfl rfl)
    ⟨ready, stack, rfl, fun _ => rfl, rfl⟩
  exact ⟨⟨s.running.holds, s.running.ok.quiet (.same rfl rfl rfl rfl), s.running.rsp0⟩, s.running.cr3⟩

theorem Leaving.stage {hd : Handoff} (away behind behind' : Option ℕ)
    (l : Leaving P m hd away behind behind') : Stage P m := .leaving l

/-- What `plan_switch` decides for a running task: it joins its queue, and the picked task is
reached through the stack pointer it was parked with. -/
theorem Solo.handOver {s₁ : Scheduler} {next : Task} {p : Bool} (s : Solo P m (taskHome t) behind)
    (hc : m.scheduler.current = some t) (pick : Pick m.scheduler now next p s₁)
    (code : m.cpu.code.bootOnly = false) :
    Stage P ({ m with scheduler := s₁.handOver t next p now }.beginSwitch
      (.to (.task t.handle) next)) := by
  have hready : ∀ u, u ∈ (s₁.handOver t next p now).ready ↔
      u = { t.outgoing with readySince := now, promoted := false } ∨ u ∈ s₁.ready := by
    intro u
    rw [← List.mem_cons]
    exact (enqueue_ready s₁ t.outgoing now).mem_iff
  have hsub : ∀ u ∈ s₁.ready, u ∈ m.scheduler.ready :=
    fun u hu => pick.ready.mem_iff.mpr (List.mem_cons_of_mem _ hu)
  have hnext : next ∈ m.scheduler.ready := pick.ready.mem_iff.mpr List.mem_cons_self
  have halone : behind ≠ some t.handle := fun hb => (s.alone _ hb).2 rfl
  have hplaces : ((({ m with scheduler := s₁.handOver t next p now }.beginSwitch
      (.to (.task t.handle) next)).runnable).map place).Perm (m.runnable.map place) := by
    simp only [Machine.runnable, hc]
    exact handOver_places pick
  refine Leaving.stage (some t.handle) behind behind
    ⟨rfl, rfl, ?_, ⟨?_, ?_⟩, ?_⟩
  · refine Leaver.task (t := { t.outgoing with readySince := now, promoted := false })
      ((hready _).mpr (Or.inl rfl)) ?_ code ?_ halone
    · exact ⟨s.running.holds, s.running.ok.quiet (.same rfl rfl rfl rfl), s.running.rsp0⟩
    · refine (s.boot (by simp [taskHome])).quiet pick.bootStackPointer_eq rfl (.same rfl rfl rfl rfl) ?_
      exact fun v hv _ => mem_of_places hplaces hv
  · intro u hu haway
    rcases (hready u).mp hu with rfl | hu
    · exact absurd rfl haway
    · exact (s.aside.ready u (hsub u hu) (by simp)).quiet (fun _ => rfl) (fun _ => .same rfl rfl rfl rfl) (.same rfl rfl rfl rfl)
  · exact fun u hu => (s.aside.pending u hu).quiet (.same rfl rfl rfl rfl)
  · refine .task (t := next.dispatched p) rfl rfl rfl ?_
    refine Resumes.congr (t := next) ?_ rfl
    exact (s.aside.ready next hnext (by simp)).quiet (fun _ => rfl) (fun _ => .same rfl rfl rfl rfl) (.same rfl rfl rfl rfl)

theorem Solo.planSwitch (s : Solo P m h behind) (pl : Placed m) {kind : SwitchKind}
    (hk : kind = .voluntary → m.cpu.code = .kernel) :
    Stage P (m.follow (m.scheduler.planSwitch kind now)) := by
  cases hp : m.scheduler.planSwitch kind now with
  | panic =>
    have hv : kind = .voluntary := by
      by_contra hne
      exact planSwitch_no_panic hne hp
    have hcode := hk hv
    have hcr3 : m.cpu.cr3 = h.root.getD P.kernelRoot := by
      apply s.running.cr3
      simp [Cpu.saved, hcode, Code.mapped]
    refine .solo (?_ : Solo P _ h behind)
    refine s.plain pl (by rw [hcode]; rfl) rfl (fun _ => hcr3) ?_ rfl rfl rfl (.same rfl rfl rfl rfl)
      ⟨rfl, rfl, rfl, fun _ => rfl, rfl⟩
    simp [Machine.follow, Machine.freeze, Code.bootOnly]
  | stay s' =>
    rcases planSwitch_stay hp with ⟨rfl, _⟩ | ⟨hc, _, next, p, s₁, pick, rfl⟩
    · exact .solo s
    · exact .solo (s.stay pl (pick.putBack_readyQueues pl.queue_class) pick.current_eq
        pick.bootStackPointer_eq)
  | switch s' sw =>
    obtain ⟨current, next, p, s₁, pick, hc, rfl, rfl⟩ := planSwitch_switch hp
    cases hcur : s.current with
    | boot hn => simp [hn] at hc
    | @task t ht =>
      obtain rfl := Option.some.inj (ht.symm.trans hc)
      refine s.handOver hc pick ?_
      cases hb : m.cpu.code.bootOnly with
      | false => rfl
      | true => exact absurd (s.code hb).1 (by simp [taskHome])

theorem Solo.yieldInner (s : Solo P m h behind) (pl : Placed m) {kind : SwitchKind}
    (hk : kind = .voluntary → m.cpu.code = .kernel) : Stage P (m.yieldInner kind) :=
  s.planSwitch pl hk

/-- The processor's frame for a tick lies on the running context's own stack as well. -/
theorem Solo.interruptFrame (s : Solo P m h behind) (pl : Placed m) :
    Solo P m.interruptFrame h behind := by
  unfold Machine.interruptFrame
  split
  · rename_i p hcode
    have hk := s.running.ok
    simp only [ContextOk, Cpu.saved, hcode] at hk
    have hrsp0 : m.cpu.rsp0 = p.savedRsp - 8 := s.running.rsp0 p (Or.inr (Or.inl hcode))
    obtain ⟨hb, ht⟩ := interruptStack_bounds hk.above
    have hbelow := hk.below
    have hholds : h.Holds (interruptStack m.cpu.rsp0) := by
      rw [hrsp0]
      exact ⟨hb, by omega⟩
    refine s.step pl (s.current.same rfl rfl) rfl ?_ s.code (.same rfl rfl rfl rfl)
      ⟨rfl, rfl, rfl, fun _ => rfl, rfl⟩
    refine ⟨⟨hholds, ?_, s.running.rsp0⟩, s.running.cr3⟩
    exact s.running.ok.quiet (.same rfl rfl rfl rfl)
  · exact s

theorem OnCpu.charge (o : OnCpu P m h) :
    OnCpu P { m with scheduler := m.scheduler.chargeTick } h := by
  cases o with
  | boot hc => exact .boot (by simp [Scheduler.chargeTick, hc])
  | @task t hc =>
    have hch := OnCpu.task (P := P) (m := { m with scheduler := m.scheduler.chargeTick })
      (chargeTick_current hc)
    exact hch

theorem Solo.charge (s : Solo P m h behind) (pl : Placed m) :
    Solo P { m with scheduler := m.scheduler.chargeTick } h behind := by
  refine s.step pl s.current.charge rfl ?_ s.code (.same rfl rfl rfl rfl)
    ⟨chargeTick_readyQueues, rfl, rfl, fun _ => rfl, rfl⟩
  exact ⟨⟨s.running.holds, s.running.ok.quiet (.same rfl rfl rfl rfl), s.running.rsp0⟩, s.running.cr3⟩

theorem follow_preempt (m : Machine) (now : ℕ) :
    m.follow (m.scheduler.preempt now) =
      if m.scheduler.chargeTick.shouldSwitch now then
        { m with scheduler := m.scheduler.chargeTick }.follow
          (m.scheduler.chargeTick.planSwitch .preemptive now)
      else { m with scheduler := m.scheduler.chargeTick } := by
  unfold Scheduler.preempt
  by_cases hs : m.scheduler.chargeTick.shouldSwitch now = true
  · simp only [hs, if_true]
    cases hp : m.scheduler.chargeTick.planSwitch .preemptive now with
    | panic => exact absurd hp (planSwitch_no_panic (by simp))
    | stay s => rfl
    | switch s sw => rfl
  · simp only [hs]
    rfl

theorem Solo.tick (s : Solo P m h behind) (pl : Placed m) : Stage P m.tick := by
  have hpl : Placed ({ m with ticks := m.ticks + 1 } : Machine) :=
    Placed.same pl rfl rfl rfl ⟨rfl, rfl, rfl, rfl⟩
  have hs : Solo P ({ m with ticks := m.ticks + 1 } : Machine) h behind := s.untouched pl rfl rfl rfl rfl rfl rfl rfl rfl
  have hf := hs.interruptFrame hpl
  unfold Machine.tick
  dsimp only
  split
  · exact .solo hf
  · rw [follow_preempt]
    split
    · exact (hf.charge hpl.interruptFrame).planSwitch hpl.interruptFrame.charge (by simp)
    · exact .solo (hf.charge hpl.interruptFrame)

end Decisions

section Exit

/-- After the scheduler has let go of the dying task, everyone else is where they were. -/
theorem Solo.leaveForGood {s' : Scheduler} {out : Switch} {reaped : Option Task}
    {exited : List ℕ}
    (s : Solo P m (taskHome t) behind) (hout : out.currentStackOut = .discarded) (zombie : s'.zombie = some t)
    (stack : s'.bootStackPointer = m.scheduler.bootStackPointer)
    (ready : ∀ u ∈ s'.ready, u ∈ m.scheduler.ready)
    (known : ∀ u ∈ m.scheduler.ready, ∃ v ∈ s'.current.toList ++ s'.ready, v.handle = u.handle)
    (target : Target P { m with scheduler := s' } out behind) :
    Stage P (((({ m with scheduler := s', exited := exited } : Machine).drop reaped).goto
      (.panic .resumedAfterExit)).beginSwitch out) := by
  have hd : (({ m with scheduler := s', exited := exited } : Machine).drop reaped) =
      { m with
        scheduler := s'
        exited := exited
        kernelStacks := (m.drop reaped).kernelStacks
        dropped := (m.drop reaped).dropped } := by
    cases reaped <;> rfl
  rw [hd]
  refine Leaving.stage none behind behind
    ⟨rfl, rfl, ?_, ⟨?_, ?_⟩, ?_⟩
  · rw [hout]
    refine .exit zombie s.running.holds rfl ?_
    refine (s.boot (by simp [taskHome])).quiet stack rfl (.same rfl rfl rfl rfl) ?_
    intro u hu hb
    rcases mem_runnable.mp hu with hu | hu
    · exact absurd (s.current.owner_of hu) (s.alone _ hb).2
    · exact known u hu
  · intro u hu _
    exact (s.aside.ready u (ready u hu) (by simp)).quiet (fun _ => rfl) (fun _ => .same rfl rfl rfl rfl) (.same rfl rfl rfl rfl)
  · exact fun u hu => (s.aside.pending u hu).quiet (.same rfl rfl rfl rfl)
  · cases target with
    | task hcur htop hspace hres =>
      exact .task hcur htop hspace (hres.quiet (fun _ => rfl) (fun _ => .same rfl rfl rfl rfl) (.same rfl rfl rfl rfl))
    | boot hcur hempty hstack hspace => exact .boot hcur hempty hstack hspace

theorem Solo.exitTask (s : Solo P m h behind) (pl : Placed m)
    (code : m.cpu.code = .kernel ∨ m.cpu.code = .releasing []) : Stage P (m.exitTask P) := by
  unfold Machine.exitTask
  cases hx : m.scheduler.exitTask m.ticks P.bootPrivilegeStack with
  | none =>
    have hplain : m.cpu.code.plain = true := by rcases code with code | code <;> rw [code] <;> rfl
    refine .solo (?_ : Solo P _ h behind)
    refine s.plain pl hplain rfl ?_ ?_ rfl rfl rfl (.same rfl rfl rfl rfl)
      ⟨rfl, rfl, rfl, fun _ => rfl, rfl⟩
    · simp [Machine.freeze, Code.mapped]
    · simp [Machine.freeze, Code.bootOnly]
  | some out =>
    obtain ⟨s', reaped, sw⟩ := out
    obtain ⟨dying, hc, rfl, hcases⟩ := exitTask_cases hx
    cases hcur : s.current with
    | boot hn => simp [hn] at hc
    | @task t ht =>
      obtain rfl := Option.some.inj (ht.symm.trans hc)
      rcases hcases with ⟨next, p, s₁, pick, rfl, rfl⟩ | ⟨hempty, rfl, rfl⟩
      · have hnext : next ∈ m.scheduler.ready := pick.ready.mem_iff.mpr List.mem_cons_self
        have hres := s.aside.ready next hnext (by simp)
        have hpos : (Switch.to .discarded next).nextStack ≠ 0 := hres.positive
        dsimp only
        rw [if_neg hpos]
        refine s.leaveForGood rfl pick.zombie_eq pick.bootStackPointer_eq ?_ ?_ ?_
        · exact fun u hu => pick.ready.mem_iff.mpr (List.mem_cons_of_mem _ hu)
        · exact fun u hu => mem_of_places (dispatch_places pick) hu
        · refine .task (t := next.dispatched p) rfl rfl rfl ?_
          refine Resumes.congr (t := next) ?_ rfl
          exact hres.quiet (fun _ => rfl) (fun _ => .same rfl rfl rfl rfl) (.same rfl rfl rfl rfl)
      · have hready : m.scheduler.ready = [] := ready_eq_nil.mpr hempty
        have hnone : behind = none := by
          cases hb : behind with
          | none => rfl
          | some x =>
            obtain ⟨u, hu, hux⟩ := (s.boot (by simp [taskHome])).known x hb
            rcases mem_runnable.mp hu with hu | hu
            · exact absurd (hux ▸ s.current.owner_of hu) (s.alone x hb).2
            · simp [hready] at hu
        have hpos := ((s.boot (by simp [taskHome])).waits hnone).positive
        dsimp only
        rw [if_neg hpos]
        refine s.leaveForGood rfl rfl rfl (fun u hu => hu) ?_ ?_
        · exact fun u hu => absurd hu (by simp [hready])
        · exact .boot rfl hready rfl rfl

end Exit

section Start

/-- `run_until_idle` names a first task while the boot context keeps the processor. -/
theorem Solo.runUntilIdle (s : Solo P m h behind) (code : m.cpu.code = .kernel)
    (boot : m.cpu.rsp ≤ P.bootTop) : Stage P m.runUntilIdle := by
  unfold Machine.runUntilIdle
  cases hs : m.scheduler.startFirst m.ticks with
  | none => exact .solo s
  | some out =>
    obtain ⟨s', nextStack⟩ := out
    obtain ⟨next, p, s₁, pick, rfl, rfl⟩ := startFirst_cases hs
    cases hcur : s.current with
    | task ht =>
      exact absurd boot (Nat.not_le.mpr (boot_lt_stack P _ s.running.holds))
    | boot hn =>
      have hnone : behind = none := by
        cases hb : behind with
        | none => rfl
        | some x => exact absurd rfl (s.alone x hb).1
      subst hnone
      have hzero := (contextOk_plain (k := m.cpu.saved) (by simp [Cpu.saved, code, Code.plain])).mp
        s.running.ok
      have hnext : next ∈ m.scheduler.ready := pick.ready.mem_iff.mpr List.mem_cons_self
      have hres := s.aside.ready next hnext (by simp)
      refine .window (?_ : Window P _ (next.dispatched p) next.stackPointer)
      refine ⟨s.handoff, rfl, rfl, ⟨s.running.holds, ?_, ?_⟩, ?_, ⟨?_, ?_⟩⟩
      · exact (contextOk_plain rfl).mpr hzero
      · intro q hq
        simp [Cpu.saved, Machine.goto] at hq
      · have hp : TaskParked m next next.stackPointer := by simpa [Resumes] using hres
        exact TaskParked.congr (hp.quiet (.same rfl rfl rfl rfl)) rfl
      · intro u hu _
        have hu' : u ∈ m.scheduler.ready := pick.ready.mem_iff.mpr (List.mem_cons_of_mem _ hu)
        exact (s.aside.ready u hu' (by simp)).quiet (fun _ => rfl) (fun _ => .same rfl rfl rfl rfl) (.same rfl rfl rfl rfl)
      · exact fun u hu => (s.aside.pending u hu).quiet (.same rfl rfl rfl rfl)

theorem Window.slot_zero {nextStack : ℕ} (w : Window P m t nextStack) :
    m.bootSupervisorRsp = 0 :=
  (contextOk_plain (k := m.cpu.saved) (by simp [Cpu.saved, w.code, Code.plain])).mp w.running.ok

theorem Window.clobber {nextStack : ℕ} (w : Window P m t nextStack) (r : CalleeSaved) :
    Window P { m with cpu := { m.cpu with registers := r } } t nextStack := by
  refine ⟨w.handoff, w.code, w.current, ⟨w.running.holds, ?_, w.running.rsp0⟩,
    w.parked.quiet (.same rfl rfl rfl rfl), ⟨?_, ?_⟩⟩
  · refine (w.running.ok.clobber ?_ r).quiet (.same rfl rfl rfl rfl)
    simp [Cpu.saved, w.code, Code.clobbers]
  · exact fun u hu hx => (w.aside.ready u hu hx).quiet (fun _ => rfl) (fun _ => .same rfl rfl rfl rfl) (.same rfl rfl rfl rfl)
  · exact fun u hu => (w.aside.pending u hu).quiet (.same rfl rfl rfl rfl)

theorem Window.leaveWindow {nextStack : ℕ} (w : Window P m t nextStack) :
    Stage P (m.leaveWindow nextStack) := by
  unfold Machine.leaveWindow
  rw [w.current]
  refine Leaving.stage none none none
    ⟨rfl, rfl, ?_, ⟨?_, ?_⟩, ?_⟩
  · refine .boot ⟨w.running.holds, ?_, ?_⟩ rfl w.current
    · exact (contextOk_plain rfl).mpr w.slot_zero
    · intro q hq
      simp [Machine.goto, Machine.beginSwitch] at hq
  · exact fun u hu hx => (w.aside.ready u hu hx).quiet (fun _ => rfl) (fun _ => .same rfl rfl rfl rfl) (.same rfl rfl rfl rfl)
  · exact fun u hu => (w.aside.pending u hu).quiet (.same rfl rfl rfl rfl)
  · refine .task w.current rfl rfl ?_
    simp only [Resumes]
    exact w.parked.quiet (.same rfl rfl rfl rfl)

theorem Window.planSwitch {nextStack : ℕ} (w : Window P m t nextStack) :
    Stage P (m.follow (m.scheduler.planSwitch .preemptive now)) := by
  cases hp : m.scheduler.planSwitch .preemptive now with
  | panic => exact absurd hp (planSwitch_no_panic (by simp))
  | stay s' =>
    rcases planSwitch_stay hp with ⟨rfl, _⟩ | ⟨hc, _⟩
    · exact .window w
    · simp [w.current] at hc
  | switch s' sw =>
    obtain ⟨current, next, p, s₁, pick, hc, rfl, rfl⟩ := planSwitch_switch hp
    obtain rfl := Option.some.inj (hc.symm.trans w.current)
    have hready : ∀ u, u ∈ (s₁.handOver current next p now).ready ↔
        u = { current.outgoing with readySince := now, promoted := false } ∨ u ∈ s₁.ready := by
      intro u
      rw [← List.mem_cons]
      exact (enqueue_ready s₁ current.outgoing now).mem_iff
    have hnext : next ∈ m.scheduler.ready := pick.ready.mem_iff.mpr List.mem_cons_self
    refine Leaving.stage (some current.handle) none (some current.handle)
      ⟨rfl, rfl, ?_, ⟨?_, ?_⟩, ?_⟩
    · refine Leaver.window (t := { current.outgoing with readySince := now, promoted := false })
        ((hready _).mpr (Or.inl rfl)) ?_ w.code (TaskParked.congr (w.parked.quiet (.same rfl rfl rfl rfl)) rfl)
      exact ⟨w.running.holds, w.running.ok.quiet (.same rfl rfl rfl rfl), w.running.rsp0⟩
    · intro u hu haway
      rcases (hready u).mp hu with rfl | hu
      · exact absurd rfl haway
      · have hu' : u ∈ m.scheduler.ready := pick.ready.mem_iff.mpr (List.mem_cons_of_mem _ hu)
        exact (w.aside.ready u hu' (by simp)).quiet (fun _ => rfl) (fun _ => .same rfl rfl rfl rfl) (.same rfl rfl rfl rfl)
    · exact fun u hu => (w.aside.pending u hu).quiet (.same rfl rfl rfl rfl)
    · refine .task (t := next.dispatched p) rfl rfl rfl ?_
      refine Resumes.congr (t := next) ?_ rfl
      exact (w.aside.ready next hnext (by simp)).quiet (fun _ => rfl) (fun _ => .same rfl rfl rfl rfl) (.same rfl rfl rfl rfl)

/-- A tick in the window finds a task that is current and not running yet: if the tick takes the
processor away, it is the boot context's stack pointer that will be stored for that task. -/
theorem Window.tick {nextStack : ℕ} (w : Window P m t nextStack) : Stage P m.tick := by
  have hf : ({ m with ticks := m.ticks + 1 } : Machine).interruptFrame =
      { m with ticks := m.ticks + 1 } := by
    simp [Machine.interruptFrame, w.code]
  have hw : Window P { m with ticks := m.ticks + 1, scheduler := m.scheduler.chargeTick } t.charged
      nextStack := by
    refine ⟨w.handoff, w.code, chargeTick_current w.current,
      ⟨w.running.holds, w.running.ok.quiet (.same rfl rfl rfl rfl), w.running.rsp0⟩,
      TaskParked.congr (w.parked.quiet (.same rfl rfl rfl rfl)) rfl, ⟨?_, ?_⟩⟩
    · exact fun u hu hx => (w.aside.ready u hu hx).quiet (fun _ => rfl) (fun _ => .same rfl rfl rfl rfl) (.same rfl rfl rfl rfl)
    · exact fun u hu => (w.aside.pending u hu).quiet (.same rfl rfl rfl rfl)
  unfold Machine.tick
  dsimp only
  rw [hf]
  simp only [w.code]
  rw [follow_preempt]
  split
  · exact hw.planSwitch
  · exact .window hw

end Start

section Parking

variable {k : Saved} {hd : Handoff} {away behind' : Option ℕ}

/-- What is live on the running stack lies at or above the frame that the slot names. -/
theorem OnStack.live_le (o : OnStack m h k) (hh : IsHome P m h) (code : k.code = m.cpu.code) :
    m.live P ≤ h.top ∧ ∀ p, k.code.program = some p → m.live P ≤ p.savedRsp := by
  have htop := (hh.bounds o.holds).2
  have hok := o.ok
  have hrsp0 := o.rsp0
  unfold ContextOk at hok
  rw [code] at hok hrsp0
  rw [code]
  unfold Machine.live
  cases hc : m.cpu.code with
  | entering p => 
    simp only [hc, Code.program, Option.some.injEq, forall_eq'] at hok ⊢
    have := hok.1.below
    omega
  | stored p =>
    simp only [hc, Code.program, Option.some.injEq, forall_eq'] at hok ⊢
    have := hok.below
    omega
  | armed p =>
    simp only [hc, Code.program, Option.some.injEq, forall_eq'] at hok ⊢
    have := hok.below
    omega
  | ring3 p =>
    simp only [hc, Code.program, Option.some.injEq, forall_eq'] at hok ⊢
    have hb := hok.below
    have hi := interruptStack_bounds hok.above
    rw [hrsp0 p (Or.inr (Or.inl hc))]
    omega
  | syscall p =>
    simp only [hc, Code.program, Option.some.injEq, forall_eq'] at hok ⊢
    have hb := hok.1.below
    have hi := interruptStack_bounds hok.1.above
    rw [hrsp0 p (Or.inr (Or.inr hc))]
    omega
  | returned p raw =>
    simp only [hc, Code.program, Option.some.injEq, forall_eq'] at hok ⊢
    have := hok.1.below
    omega
  | cleared p raw =>
    simp only [hc, Code.program, Option.some.injEq, forall_eq'] at hok ⊢
    have := hok.1.below
    omega
  | _ => simp [Code.program, htop]

/-- A frame pushed below what is live changes nothing for the context that pushes it. -/
theorem ContextOk.reframe (hk : ContextOk m h k)
    (frames : ∀ p, k.code.program = some p → m.frames p.savedRsp = some (.supervisor p) →
      m'.frames p.savedRsp = some (.supervisor p))
    (calls : m'.calls = m.calls) (ends : m'.ends = m.ends) (returns : m'.returns = m.returns) :
    ContextOk m' h k := by
  have hopen {p : ProgramCall} (ho : Open m h p) : Open m' h p :=
    ⟨calls ▸ ho.called, ho.slot, ho.above, ho.below, returns ▸ ho.no_return⟩
  have hinside {p : ProgramCall} (hp : k.code.program = some p) (hi : Inside m h p) :
      Inside m' h p :=
    ⟨hopen hi.toOpen, ends ▸ hi.no_end, hi.slot_set, frames p hp hi.frame⟩
  have hover {p : ProgramCall} {raw : ℕ} (ho : Over m h p raw k) : Over m' h p raw k :=
    ⟨hopen ho.toOpen, ends ▸ ho.ended, ho.registers, ho.masked⟩
  unfold ContextOk at hk ⊢
  cases hc : k.code with
  | entering p =>
    simp only [hc] at hk ⊢
    exact ⟨hopen hk.1, ends ▸ hk.2.1, hk.2.2⟩
  | stored p =>
    simp only [hc] at hk ⊢
    exact hinside (by rw [hc]; rfl) hk
  | armed p =>
    simp only [hc] at hk ⊢
    exact hinside (by rw [hc]; rfl) hk
  | ring3 p =>
    simp only [hc] at hk ⊢
    exact hinside (by rw [hc]; rfl) hk
  | syscall p =>
    simp only [hc] at hk ⊢
    exact ⟨hinside (by rw [hc]; rfl) hk.1, hk.2⟩
  | returned p raw =>
    simp only [hc] at hk ⊢
    exact ⟨hover hk.1, hk.2⟩
  | cleared p raw =>
    simp only [hc] at hk ⊢
    exact ⟨hover hk.1, hk.2⟩
  | panic site => cases site <;> simp_all
  | _ => simp_all

/-- Where a switch frame may be pushed. -/
theorem OnStack.parks (o : OnStack m h k) (hh : IsHome P m h) (code : k.code = m.cpu.code)
    (room : m.MayPark P sp) : h.bottom < sp ∧ sp + 64 ≤ h.top ∧
      ∀ p, k.code.program = some p → sp ≠ p.savedRsp := by
  obtain ⟨hb, hl⟩ := room
  obtain ⟨htop, hprog⟩ := o.live_le hh code
  rw [(hh.bounds o.holds).1] at hb
  refine ⟨hb, by omega, fun p hp => ?_⟩
  have := hprog p hp
  omega

@[simp] theorem park_frames : (m.park P hd sp).frames =
    Function.update m.frames sp (some (.switch ⟨m.cpu.code, hd.interrupts, m.cpu.registers⟩)) := by
  unfold Machine.park
  cases hd.switch.currentStackOut <;> rfl

@[simp] theorem park_calls : (m.park P hd sp).calls = m.calls := by
  unfold Machine.park
  cases hd.switch.currentStackOut <;> rfl

@[simp] theorem park_ends : (m.park P hd sp).ends = m.ends := by
  unfold Machine.park
  cases hd.switch.currentStackOut <;> rfl

@[simp] theorem park_returns : (m.park P hd sp).returns = m.returns := by
  unfold Machine.park
  cases hd.switch.currentStackOut <;> rfl

@[simp] theorem park_pending : (m.park P hd sp).pending = m.pending := by
  unfold Machine.park
  cases hd.switch.currentStackOut <;> rfl

@[simp] theorem park_bootSupervisorRsp :
    (m.park P hd sp).bootSupervisorRsp = m.bootSupervisorRsp := by
  unfold Machine.park
  cases hd.switch.currentStackOut <;> rfl

/-- The context that leaves is parked where its frame went. -/
theorem OnStack.parked (o : OnStack m h ⟨m.cpu.code, hd.interrupts, m.cpu.registers⟩)
    (hh : IsHome P m h) (room : m.MayPark P sp) :
    Parked (m.park P hd sp) h sp ⟨m.cpu.code, hd.interrupts, m.cpu.registers⟩ := by
  obtain ⟨hb, ht, hne⟩ := o.parks hh rfl room
  refine ⟨hb, ht, by simp, o.ok.reframe ?_ (by simp) (by simp) (by simp)⟩
  intro p hp hf
  rw [park_frames, Function.update_of_ne (hne p hp).symm]
  exact hf

theorem park_confined (hin : h.Holds sp) : Confined m (m.park P hd sp) h := by
  refine ⟨?_, by simp, by simp, ?_, ?_⟩
  · intro a ha
    rw [park_frames]
    apply Function.update_of_ne
    rintro rfl
    exact ha hin
  · exact fun e he => Or.inl (by simpa using he)
  · exact fun r hr => Or.inl (by simpa using hr)

/-- All contexts are parked, and the switch knows which one comes next. -/
structure Rest (P : Platform) (m : Machine) (sw : Switch) (behind : Option ℕ) : Prop where
  aside : Aside P m none behind
  boot : BootAside P m behind
  target : Target P m sw behind

theorem Target.quiet {sw : Switch} (tg : Target P m sw behind)
    (current : m'.scheduler.current = m.scheduler.current)
    (ready : m.scheduler.ready = [] → m'.scheduler.ready = [])
    (stack : m'.scheduler.bootStackPointer = m.scheduler.bootStackPointer)
    (resumes : ∀ t, m.scheduler.current = some t → Resumes P m behind t sw.nextStack →
      Resumes P m' behind' t sw.nextStack) : Target P m' sw behind' := by
  cases tg with
  | task hc htop hspace hres => exact .task (current.trans hc) htop hspace (resumes _ hc hres)
  | boot hc hr hst hspace =>
    exact .boot (current.trans hc) (ready hr) (hst.trans stack.symm) hspace

/-- The store reaches the one queued task that the switch names. -/
theorem park_ready (pl : Placed m) (ht : t ∈ m.scheduler.ready)
    (out : hd.switch.currentStackOut = .task t.handle) :
    u ∈ (m.park P hd sp).scheduler.ready ↔
      u = { t with stackPointer := sp } ∨ (u ∈ m.scheduler.ready ∧ u.handle ≠ t.handle) := by
  have hs : (m.park P hd sp).scheduler =
      m.scheduler.modifyTask t.handle fun t => { t with stackPointer := sp } := by
    unfold Machine.park
    rw [out]
    rfl
  rw [hs, mem_ready]
  simp only [Scheduler.modifyTask, List.mem_map]
  constructor
  · rintro ⟨c, v, hv, rfl⟩
    have hvr := mem_ready.mpr ⟨c, hv⟩
    by_cases he : v.handle = t.handle
    · obtain rfl := pl.eq_of_handle (ready_mem hvr) (ready_mem ht) he
      simp
    · simp only [he, if_false]
      exact Or.inr ⟨hvr, he⟩
  · rintro (rfl | ⟨hu, hne⟩)
    · obtain ⟨c, hc⟩ := mem_ready.mp ht
      exact ⟨c, t, hc, by simp⟩
    · obtain ⟨c, hc⟩ := mem_ready.mp hu
      exact ⟨c, u, hc, by simp [hne]⟩

variable (P sp) in
theorem park_current (pl : Placed m) (ht : t ∈ m.scheduler.ready)
    (out : hd.switch.currentStackOut = .task t.handle) :
    (m.park P hd sp).scheduler.current = m.scheduler.current ∧
      (m.park P hd sp).scheduler.bootStackPointer = m.scheduler.bootStackPointer := by
  have hs : (m.park P hd sp).scheduler =
      m.scheduler.modifyTask t.handle fun t => { t with stackPointer := sp } := by
    unfold Machine.park
    rw [out]
    rfl
  rw [hs]
  refine ⟨?_, rfl⟩
  cases hc : m.scheduler.current with
  | none => simp [Scheduler.modifyTask, hc]
  | some n =>
    have hne : n.handle ≠ t.handle := (pl.current_not_ready hc ht).symm
    simp [Scheduler.modifyTask, hc, hne]

theorem park_known (hu : u ∈ m.runnable) :
    ∃ v ∈ (m.park P hd sp).runnable, v.handle = u.handle := by
  unfold Machine.park
  cases hd.switch.currentStackOut with
  | task x =>
    have hp := modifyTask_places (s := m.scheduler) (h := x)
      (f := fun t => { t with stackPointer := sp }) fun _ => rfl
    exact mem_of_places (List.Perm.of_eq hp) hu
  | boot => exact ⟨u, hu, rfl⟩
  | discarded => exact ⟨u, hu, rfl⟩

/-- A task that leaves is parked in its queue. -/
theorem Leaving.park_task (l : Leaving P m hd (some t.handle) behind behind) (pl : Placed m)
    (room : m.MayPark P sp) (out : hd.switch.currentStackOut = .task t.handle)
    (queued : t ∈ m.scheduler.ready)
    (running : OnStack m (taskHome t) ⟨m.cpu.code, hd.interrupts, m.cpu.registers⟩)
    (code : m.cpu.code.bootOnly = false) (boot : BootAside P m behind)
    (alone : behind ≠ some t.handle) : Rest P (m.park P hd sp) hd.switch behind := by
  obtain ⟨hb, ht, _⟩ := running.parks (.task t) rfl room
  have hc : Confined m (m.park P hd sp) (taskHome t) := park_confined ⟨hb, by omega⟩
  have hqb : Quiet m (m.park P hd sp) (bootHome P m) := hc.quiet_boot
  have hq (u : Task) (hu : u ∈ m.undropped) (hne : u.handle ≠ t.handle) :
      Quiet m (m.park P hd sp) (taskHome u) := pl.quiet_task hc (ready_mem queued) hu hne
  obtain ⟨hcur, hstack⟩ := park_current P sp pl queued out
  refine ⟨⟨?_, ?_⟩, boot.quiet hstack park_bootSupervisorRsp hqb fun u hu _ => park_known hu, ?_⟩
  · intro u hu _
    rcases (park_ready pl queued out).mp hu with rfl | ⟨hu, hne⟩
    · unfold Resumes
      rw [if_neg alone]
      exact ⟨_, running.parked (.task t) room, code⟩
    · exact (l.aside.ready u hu (by simpa using hne)).quiet (fun _ => park_bootSupervisorRsp)
        (fun _ => hqb) (hq u (ready_mem hu) hne)
  · intro u hu
    rw [park_pending] at hu
    exact (l.aside.pending u hu).quiet (hq u (pending_mem hu)
      (pl.pending_not_runnable hu (mem_runnable.mpr (Or.inr queued))))
  · refine l.target.quiet hcur (fun he => absurd queued (by simp [he])) hstack ?_
    intro u hu hr
    exact hr.quiet (fun _ => park_bootSupervisorRsp) (fun _ => hqb)
      (hq u (current_mem hu) (pl.current_not_ready hu queued).symm)

/-- The boot context is preempted in the window: it is parked, and the task whose turn was
announced is recorded with the boot context's stack pointer. -/
theorem Leaving.park_window {nextStack : ℕ}
    (l : Leaving P m hd (some t.handle) none (some t.handle)) (pl : Placed m)
    (room : m.MayPark P sp) (out : hd.switch.currentStackOut = .task t.handle)
    (queued : t ∈ m.scheduler.ready)
    (running : OnStack m (bootHome P m) ⟨m.cpu.code, hd.interrupts, m.cpu.registers⟩)
    (code : m.cpu.code = .window nextStack) (parked : TaskParked m t nextStack) :
    Rest P (m.park P hd sp) hd.switch (some t.handle) := by
  obtain ⟨hb, ht, _⟩ := running.parks .boot rfl room
  have hc : Confined m (m.park P hd sp) (bootHome P m) := park_confined ⟨hb, by omega⟩
  have hq (u : Task) : Quiet m (m.park P hd sp) (taskHome u) := hc.quiet_task
  obtain ⟨hcur, hstack⟩ := park_current P sp pl queued out
  have hbh : bootHome P (m.park P hd sp) = bootHome P m := by simp [bootHome]
  have hself : ({ t with stackPointer := sp } : Task) ∈ (m.park P hd sp).scheduler.ready :=
    (park_ready pl queued out).mpr (Or.inl rfl)
  -- nobody stood behind another task before, so every other task resumes as itself
  have hother {u : Task} {a : ℕ} (hne : u.handle ≠ t.handle) (hr : Resumes P m none u a) :
      Resumes P (m.park P hd sp) (some t.handle) u a := by
    unfold Resumes at hr ⊢
    rw [if_neg (by simp)] at hr
    rw [if_neg (by simpa using hne.symm)]
    exact hr.quiet (hq u)
  refine ⟨⟨?_, ?_⟩, ⟨by simp, ?_⟩, ?_⟩
  · intro u hu _
    rcases (park_ready pl queued out).mp hu with rfl | ⟨hu, hne⟩
    · unfold Resumes
      rw [if_pos rfl]
      have hp := running.parked (P := P) .boot room
      rw [← hbh] at hp
      exact ⟨nextStack, ⟨_, hp, code⟩, (parked.quiet (hq t)).congr rfl⟩
    · exact hother hne (l.aside.ready u hu (by simpa using hne))
  · intro u hu
    rw [park_pending] at hu
    exact (l.aside.pending u hu).quiet (hq u)
  · intro x hx
    exact ⟨_, mem_runnable.mpr (Or.inr hself), Option.some.inj hx⟩
  · refine l.target.quiet hcur (fun he => absurd queued (by simp [he])) hstack ?_
    exact fun u hu hr => hother (pl.current_not_ready hu queued).symm hr

/-- Nothing is stored for a dying task. -/
theorem Leaving.park_exit (l : Leaving P m hd none behind behind) (pl : Placed m)
    (room : m.MayPark P sp) (out : hd.switch.currentStackOut = .discarded)
    (zombie : m.scheduler.zombie = some t) (holds : t.stack.Holds m.cpu.rsp)
    (code : m.cpu.code = .panic .resumedAfterExit) (boot : BootAside P m behind) :
    Rest P (m.park P hd sp) hd.switch behind := by
  have hs : (m.park P hd sp).scheduler = m.scheduler := by
    unfold Machine.park
    rw [out]
    rfl
  have hlive : m.live P = t.stack.top := by
    simp [Machine.live, code, Code.program, topAt_task (P := P) holds]
  obtain ⟨hb, hl⟩ := room
  rw [bottomAt_task holds] at hb
  rw [hlive] at hl
  have hc : Confined m (m.park P hd sp) (taskHome t) := park_confined ⟨hb, by
    simp only [taskHome]; omega⟩
  have hqb : Quiet m (m.park P hd sp) (bootHome P m) := hc.quiet_boot
  have hq (u : Task) (hu : u ∈ m.undropped) (hne : u.handle ≠ t.handle) :
      Quiet m (m.park P hd sp) (taskHome u) := pl.quiet_task hc (zombie_mem zombie) hu hne
  refine ⟨⟨?_, ?_⟩, boot.quiet (by rw [hs]) park_bootSupervisorRsp hqb fun u hu _ => park_known hu, ?_⟩
  · intro u hu _
    rw [hs] at hu
    exact (l.aside.ready u hu (by simp)).quiet (fun _ => park_bootSupervisorRsp) (fun _ => hqb)
      (hq u (ready_mem hu) (pl.zombie_not_runnable zombie (mem_runnable.mpr (Or.inr hu))))
  · intro u hu
    rw [park_pending] at hu
    exact (l.aside.pending u hu).quiet (hq u (pending_mem hu) (pl.zombie_not_pending zombie hu))
  · refine l.target.quiet (by rw [hs]) (by rw [hs]; exact id) (by rw [hs]) ?_
    intro u hu hr
    exact hr.quiet (fun _ => park_bootSupervisorRsp) (fun _ => hqb)
      (hq u (current_mem hu) (pl.zombie_not_runnable zombie (mem_runnable.mpr (Or.inl hu))))

/-- The boot context leaves `run_until_idle` for the first task. -/
theorem Leaving.park_boot (l : Leaving P m hd none none none) (room : m.MayPark P sp)
    (out : hd.switch.currentStackOut = .boot)
    (running : OnStack m (bootHome P m) ⟨m.cpu.code, hd.interrupts, m.cpu.registers⟩)
    (code : m.cpu.code = .reaping) (current : m.scheduler.current = some t) :
    Rest P (m.park P hd sp) hd.switch none := by
  obtain ⟨hb, ht, _⟩ := running.parks .boot rfl room
  have hc : Confined m (m.park P hd sp) (bootHome P m) := park_confined ⟨hb, by omega⟩
  have hq (u : Task) : Quiet m (m.park P hd sp) (taskHome u) := hc.quiet_task
  have hs : (m.park P hd sp).scheduler = { m.scheduler with bootStackPointer := sp } := by
    unfold Machine.park
    rw [out]
    rfl
  have hbh : bootHome P (m.park P hd sp) = bootHome P m := by simp [bootHome]
  have hready : (m.park P hd sp).scheduler.ready = m.scheduler.ready := by
    rw [hs]
    exact ready_congr rfl
  have hself : BootParked P (m.park P hd sp) sp .reaping := by
    have hp := running.parked (P := P) .boot room
    rw [← hbh] at hp
    exact ⟨_, hp, code⟩
  refine ⟨⟨?_, ?_⟩, ⟨?_, by simp⟩, ?_⟩
  · intro u hu _
    rw [hready] at hu
    exact (l.aside.ready u hu (by simp)).quiet (by simp) (by simp) (hq u)
  · intro u hu
    rw [park_pending] at hu
    exact (l.aside.pending u hu).quiet (hq u)
  · intro _
    rw [hs]
    exact hself
  · cases l.target with
    | task hcur htop hspace hres =>
      exact .task (by rw [hs]; exact hcur) htop hspace (hres.quiet (by simp) (by simp) (hq _))
    | boot hcur => simp [current] at hcur

theorem Leaving.park (l : Leaving P m hd away behind behind') (pl : Placed m)
    (room : m.MayPark P sp) : Rest P (m.park P hd sp) hd.switch behind' := by
  have hl := l.leaver
  generalize hout : hd.switch.currentStackOut = out at hl
  cases hl with
  | task queued running code boot alone =>
    exact l.park_task pl room hout queued running code boot alone
  | window queued running code parked => exact l.park_window pl room hout queued running code parked
  | exit zombie holds code boot => exact l.park_exit pl room hout zombie holds code boot
  | boot running code current => exact l.park_boot room hout running code current

end Parking

end KernelMachine
