import NajmKernel.Placement

/-! What holds of every context, running or parked, and where the parked ones are. A context
is the boot context or a task. It relies on its own stack, its supervisor slot and the history
of its own program calls, which no other context touches. -/
namespace KernelMachine

open SchedulingClasses KernelStacks TaskScheduler

/-- Who a context is, the stack it runs on, its address space, and its supervisor slot. -/
structure Home where
  owner : Option ℕ
  bottom : ℕ
  top : ℕ
  root : Option ℕ
  slot : ℕ

def Home.Holds (h : Home) (rsp : ℕ) : Prop := h.bottom < rsp ∧ rsp ≤ h.top

def taskHome (t : Task) : Home where
  owner := some t.handle
  bottom := t.stack.bottom
  top := t.stack.top
  root := t.addressSpaceRoot
  slot := t.supervisorRsp

def bootHome (P : Platform) (m : Machine) : Home where
  owner := none
  bottom := P.bootBottom
  top := P.bootTop
  root := none
  slot := m.bootSupervisorRsp

/-- A call of the context, made with room on its stack, that has not returned. -/
structure Open (m : Machine) (h : Home) (p : ProgramCall) : Prop where
  called : p ∈ m.calls
  slot : p.slot = h.owner
  above : h.bottom + 64 < p.savedRsp
  below : p.savedRsp + 56 ≤ h.top
  no_return : ∀ r ∈ m.returns, r.program ≠ p

/-- The slot names the frame that ending the program will pop. -/
structure Inside (m : Machine) (h : Home) (p : ProgramCall) : Prop extends Open m h p where
  no_end : ∀ e ∈ m.ends, e.1 ≠ p
  slot_set : h.slot = p.savedRsp
  frame : m.frames p.savedRsp = some (.supervisor p)

/-- The program has ended, and `raw` says how. -/
structure Over (m : Machine) (h : Home) (p : ProgramCall) (raw : ℕ) (k : Saved) : Prop
    extends Open m h p where
  ended : ∃ exit, (p, exit) ∈ m.ends ∧ ProgramExit.decode raw = some exit
  registers : k.registers = p.registers
  masked : k.interrupts = false

/-- What holds of a context that goes on as `k`. -/
def ContextOk (m : Machine) (h : Home) (k : Saved) : Prop :=
  match k.code with
  | .entering p => Open m h p ∧ (∀ e ∈ m.ends, e.1 ≠ p) ∧ h.slot = 0 ∧ k.registers = p.registers
  | .stored p => Inside m h p
  | .armed p => Inside m h p
  | .ring3 p => Inside m h p
  | .syscall p => Inside m h p ∧ k.interrupts = false
  | .returned p raw => Over m h p raw k ∧ h.slot = p.savedRsp
  | .cleared p raw => Over m h p raw k ∧ h.slot = 0
  | .panic .outOfStacks => h.slot = 0
  | .panic .yieldWithoutTask => h.slot = 0
  | .panic .exitWithoutTask => h.slot = 0
  | .panic _ => False
  | .halted => False
  | .wild => False
  | _ => h.slot = 0

/-- Code that only the boot context runs. -/
def Code.bootOnly : Code → Bool
  | .window _ => true
  | .reaping => true
  | _ => false

/-- A context is parked at `sp` on its own stack, to go on as `k`. -/
structure Parked (m : Machine) (h : Home) (sp : ℕ) (k : Saved) : Prop where
  above : h.bottom < sp
  below : sp + 64 ≤ h.top
  frame : m.frames sp = some (.switch k)
  ok : ContextOk m h k

def TaskParked (m : Machine) (t : Task) (sp : ℕ) : Prop :=
  ∃ k, Parked m (taskHome t) sp k ∧ k.code.bootOnly = false

def BootParked (P : Platform) (m : Machine) (sp : ℕ) (code : Code) : Prop :=
  ∃ k, Parked m (bootHome P m) sp k ∧ k.code = code

/-- Resuming at `sp` on behalf of the task reaches the task itself, or the boot context in the
window of `run_until_idle` that has yet to start it. -/
def Resumes (P : Platform) (m : Machine) (behind : Option ℕ) (t : Task) (sp : ℕ) : Prop :=
  if behind = some t.handle then
    ∃ nextStack, BootParked P m sp (.window nextStack) ∧ TaskParked m t nextStack
  else TaskParked m t sp

/-- Code that runs in its context's own address space. -/
def Code.mapped : Code → Bool
  | .unmapped => false
  | .releasing _ => false
  | .panic _ => false
  | _ => true

/-- The processor runs on the stack of a context that goes on as `k`. -/
structure OnStack (m : Machine) (h : Home) (k : Saved) : Prop where
  holds : h.Holds m.cpu.rsp
  ok : ContextOk m h k
  rsp0 : ∀ p, k.code = .armed p ∨ k.code = .ring3 p ∨ k.code = .syscall p →
    m.cpu.rsp0 = p.savedRsp - 8

/-- It does so in the context's own address space. -/
structure Running (P : Platform) (m : Machine) (h : Home) (k : Saved) : Prop
    extends OnStack m h k where
  cr3 : k.code.mapped = true → m.cpu.cr3 = h.root.getD P.kernelRoot

/-- The boot context waits in `run_until_idle` for the last task to exit, unless it stands
behind a task that it has yet to start. -/
structure BootAside (P : Platform) (m : Machine) (behind : Option ℕ) : Prop where
  waits : behind = none → BootParked P m m.scheduler.bootStackPointer .reaping
  known : ∀ handle, behind = some handle → ∃ t ∈ m.runnable, t.handle = handle

/-- Every task but `away` is parked where it says it is. -/
structure Aside (P : Platform) (m : Machine) (away behind : Option ℕ) : Prop where
  ready : ∀ t ∈ m.scheduler.ready, some t.handle ≠ away → Resumes P m behind t t.stackPointer
  pending : ∀ t ∈ m.pending, TaskParked m t t.stackPointer

/-- The record of program calls, of how their programs ended, and of what they returned. -/
structure History (m : Machine) : Prop where
  numbered : ∀ p ∈ m.calls, p.call < m.calls.length
  calls_once : (m.calls.map ProgramCall.call).Nodup
  ends_called : ∀ e ∈ m.ends, e.1 ∈ m.calls
  ends_once : (m.ends.map Prod.fst).Nodup
  returns_ended : ∀ r ∈ m.returns, (r.program, r.exit) ∈ m.ends
  returns_once : (m.returns.map Return.program).Nodup
  returns_faithful : ∀ r ∈ m.returns, r.registers = r.program.registers ∧
    r.interrupts = r.program.interruptsWereEnabled ∧ r.slot = r.program.slot

/-- Whose turn it is, and under which home. -/
inductive OnCpu (P : Platform) (m : Machine) : Home → Prop where
  | boot (h : m.scheduler.current = none) : OnCpu P m (bootHome P m)
  | task {t : Task} (h : m.scheduler.current = some t) : OnCpu P m (taskHome t)

/-- One context runs, all others are parked. -/
structure Solo (P : Platform) (m : Machine) (h : Home) (behind : Option ℕ) : Prop where
  handoff : m.cpu.handoff = none
  current : OnCpu P m h
  running : Running P m h m.cpu.saved
  code : m.cpu.code.bootOnly = true → h.owner = none ∧ m.cpu.code = .reaping
  aside : Aside P m none behind
  boot : h.owner ≠ none → BootAside P m behind
  alone : ∀ handle, behind = some handle → h.owner ≠ none ∧ h.owner ≠ some handle

/-- The boot context between the two sections of `run_until_idle`: the scheduler names a task
that is still parked. -/
structure Window (P : Platform) (m : Machine) (t : Task) (nextStack : ℕ) : Prop where
  handoff : m.cpu.handoff = none
  code : m.cpu.code = .window nextStack
  current : m.scheduler.current = some t
  running : OnStack m (bootHome P m) m.cpu.saved
  parked : TaskParked m t nextStack
  aside : Aside P m none none

/-- Who leaves the processor in a switch. `away` is the queued task whose stack pointer is
still to be stored, `behind'` the task that the boot context will stand behind afterwards. -/
inductive Leaver (P : Platform) (m : Machine) (k : Saved) :
    StackOut → Option ℕ → Option ℕ → Option ℕ → Prop where
  | task {t : Task} {behind : Option ℕ} (queued : t ∈ m.scheduler.ready)
      (running : OnStack m (taskHome t) k) (code : k.code.bootOnly = false)
      (boot : BootAside P m behind) (alone : behind ≠ some t.handle) :
      Leaver P m k (.task t.handle) (some t.handle) behind behind
  | window {t : Task} {nextStack : ℕ} (queued : t ∈ m.scheduler.ready)
      (running : OnStack m (bootHome P m) k) (code : k.code = .window nextStack)
      (parked : TaskParked m t nextStack) :
      Leaver P m k (.task t.handle) (some t.handle) none (some t.handle)
  | exit {t : Task} {behind : Option ℕ} (zombie : m.scheduler.zombie = some t)
      (holds : t.stack.Holds m.cpu.rsp) (code : k.code = .panic .resumedAfterExit)
      (boot : BootAside P m behind) :
      Leaver P m k .discarded none behind behind
  | boot {t : Task} (running : OnStack m (bootHome P m) k) (code : k.code = .reaping)
      (current : m.scheduler.current = some t) : Leaver P m k .boot none none none

/-- Where a switch leads. -/
inductive Target (P : Platform) (m : Machine) (sw : Switch) (behind : Option ℕ) : Prop where
  | task {t : Task} (current : m.scheduler.current = some t)
      (top : sw.nextKernelStackTop = t.kernelRsp0) (space : sw.nextAddressSpace = t.addressSpaceRoot)
      (resumes : Resumes P m behind t sw.nextStack)
  | boot (current : m.scheduler.current = none) (empty : m.scheduler.ready = [])
      (stack : sw.nextStack = m.scheduler.bootStackPointer) (space : sw.nextAddressSpace = none)

/-- Between the decision and the switch. -/
structure Leaving (P : Platform) (m : Machine) (hd : Handoff) (away behind behind' : Option ℕ) :
    Prop where
  handoff : m.cpu.handoff = some hd
  masked : m.cpu.interrupts = false
  leaver : Leaver P m ⟨m.cpu.code, hd.interrupts, m.cpu.registers⟩ hd.switch.currentStackOut
    away behind behind'
  aside : Aside P m away behind
  target : Target P m hd.switch behind

/-- Where the machine stands. -/
inductive Stage (P : Platform) (m : Machine) : Prop where
  | solo {h : Home} {behind : Option ℕ} (s : Solo P m h behind)
  | window {t : Task} {nextStack : ℕ} (w : Window P m t nextStack)
  | leaving {hd : Handoff} {away behind behind' : Option ℕ} (l : Leaving P m hd away behind behind')

section Homes

variable {P : Platform} {m : Machine} {t u : Task} {a : ℕ}

theorem boot_lt_stack (P : Platform) (t : Task) (h : t.stack.Holds a) : P.bootTop < a := by
  have hb := P.boot_below
  obtain ⟨h1, h2⟩ := t.stack.bounds
  obtain ⟨h3, h4⟩ := h
  unfold kernelStackArea at hb
  omega

theorem boot_apart (h : P.OnBoot a) : ¬ t.stack.Holds a :=
  fun ht => absurd h.2 (Nat.not_le.mpr (boot_lt_stack P t ht))

theorem stackAt_eq {k : KernelStack} (h : k.Holds a) : stackAt a = k := by
  apply KernelStack.slot_injective
  obtain ⟨h1, h2⟩ := k.bounds
  obtain ⟨h3, h4⟩ := h
  have hs : (a - 1 - kernelStackArea) / kernelStackSlot = k.slot := by
    have ha : kernelStackArea = 0xffff_d000_0000_0000 := rfl
    have hk : kernelStackSlot = 20480 := rfl
    rw [ha, hk]
    omega
  simpa [stackAt, KernelStack.ofSlot] using hs

theorem bottomAt_boot (h : P.OnBoot a) : P.bottomAt a = P.bootBottom := if_pos h.2

theorem topAt_boot (h : P.OnBoot a) : P.topAt a = P.bootTop := if_pos h.2

theorem bottomAt_task (h : t.stack.Holds a) : P.bottomAt a = t.stack.bottom := by
  unfold Platform.bottomAt
  rw [if_neg (Nat.not_le.mpr (boot_lt_stack P t h)), stackAt_eq h]

theorem topAt_task (h : t.stack.Holds a) : P.topAt a = t.stack.top := by
  unfold Platform.topAt
  rw [if_neg (Nat.not_le.mpr (boot_lt_stack P t h)), stackAt_eq h]

/-- The homes that contexts have. -/
inductive IsHome (P : Platform) (m : Machine) : Home → Prop where
  | boot : IsHome P m (bootHome P m)
  | task (t : Task) : IsHome P m (taskHome t)

theorem IsHome.bounds {h : Home} (hh : IsHome P m h) (ha : h.Holds a) :
    P.bottomAt a = h.bottom ∧ P.topAt a = h.top := by
  cases hh with
  | boot => exact ⟨bottomAt_boot ha, topAt_boot ha⟩
  | task t => exact ⟨bottomAt_task ha, topAt_task ha⟩

end Homes

section Stability

variable {P : Platform} {m m' : Machine} {h : Home} {k : Saved} {sp : ℕ} {t : Task}

/-- Nothing that the context relies on has changed. -/
structure Quiet (m m' : Machine) (h : Home) : Prop where
  frames : ∀ a, h.Holds a → m'.frames a = m.frames a
  calls : ∀ p ∈ m.calls, p ∈ m'.calls
  ends : ∀ e ∈ m.ends, e ∈ m'.ends
  new_ends : ∀ e ∈ m'.ends, e ∈ m.ends ∨ e.1.slot ≠ h.owner
  new_returns : ∀ r ∈ m'.returns, r ∈ m.returns ∨ r.program.slot ≠ h.owner

theorem Quiet.same (frames : m'.frames = m.frames) (calls : m'.calls = m.calls)
    (ends : m'.ends = m.ends) (returns : m'.returns = m.returns) :
    Quiet m m' h where
  frames a _ := congrFun frames a
  calls _ hp := calls ▸ hp
  ends _ he := ends ▸ he
  new_ends _ he := Or.inl (ends ▸ he)
  new_returns _ hr := Or.inl (returns ▸ hr)

theorem Open.quiet {p : ProgramCall} (ho : Open m h p) (q : Quiet m m' h) : Open m' h p := by
  refine ⟨q.calls p ho.called, ho.slot, ho.above, ho.below, ?_⟩
  intro r hr he
  rcases q.new_returns r hr with hr | hr
  · exact ho.no_return r hr he
  · exact hr (he ▸ ho.slot)

theorem no_end_quiet {p : ProgramCall} (ho : Open m h p) (q : Quiet m m' h)
    (hn : ∀ e ∈ m.ends, e.1 ≠ p) : ∀ e ∈ m'.ends, e.1 ≠ p := by
  intro e he hp
  rcases q.new_ends e he with he | he
  · exact hn e he hp
  · exact he (hp ▸ ho.slot)

theorem Open.holds {p : ProgramCall} (ho : Open m h p) : h.Holds p.savedRsp := by
  obtain ⟨_, _, ha, hb, _⟩ := ho
  unfold Home.Holds
  omega

theorem Inside.quiet {p : ProgramCall} (hi : Inside m h p) (q : Quiet m m' h) :
    Inside m' h p where
  toOpen := hi.toOpen.quiet q
  no_end := no_end_quiet hi.toOpen q hi.no_end
  slot_set := hi.slot_set
  frame := (q.frames _ hi.toOpen.holds).trans hi.frame

theorem Over.quiet {p : ProgramCall} {raw : ℕ} (ho : Over m h p raw k) (q : Quiet m m' h) :
    Over m' h p raw k where
  toOpen := ho.toOpen.quiet q
  ended := by
    obtain ⟨exit, he, hd⟩ := ho.ended
    exact ⟨exit, q.ends _ he, hd⟩
  registers := ho.registers
  masked := ho.masked

theorem ContextOk.quiet (hk : ContextOk m h k) (q : Quiet m m' h) : ContextOk m' h k := by
  unfold ContextOk at hk ⊢
  split at hk
  case h_1 p _ => exact ⟨hk.1.quiet q, no_end_quiet hk.1 q hk.2.1, hk.2.2⟩
  case h_5 p _ => exact ⟨hk.1.quiet q, hk.2⟩
  case h_6 p raw _ => exact ⟨hk.1.quiet q, hk.2⟩
  case h_7 p raw _ => exact ⟨hk.1.quiet q, hk.2⟩
  all_goals first | exact hk | exact hk.quiet q

theorem Parked.quiet (hp : Parked m h sp k) (q : Quiet m m' h) : Parked m' h sp k := by
  obtain ⟨ha, hb, hf, hk⟩ := hp
  refine ⟨ha, hb, ?_, hk.quiet q⟩
  rw [q.frames sp ⟨ha, by omega⟩]
  exact hf

theorem TaskParked.quiet (hp : TaskParked m t sp) (q : Quiet m m' (taskHome t)) :
    TaskParked m' t sp := by
  obtain ⟨k, hk, hc⟩ := hp
  exact ⟨k, hk.quiet q, hc⟩

theorem BootParked.quiet {code : Code} (hp : BootParked P m sp code)
    (hs : m'.bootSupervisorRsp = m.bootSupervisorRsp) (q : Quiet m m' (bootHome P m)) :
    BootParked P m' sp code := by
  obtain ⟨k, hk, hc⟩ := hp
  have hb : bootHome P m' = bootHome P m := by simp [bootHome, hs]
  exact ⟨k, hb ▸ hk.quiet q, hc⟩

/-- Parking depends on the task's stack, handle, root and slot only. -/
theorem TaskParked.congr {u : Task} (hp : TaskParked m t sp) (he : taskHome u = taskHome t) :
    TaskParked m u sp := by
  obtain ⟨k, hk, hc⟩ := hp
  exact ⟨k, he ▸ hk, hc⟩

theorem Resumes.congr {behind : Option ℕ} {u : Task} (hr : Resumes P m behind t sp)
    (he : taskHome u = taskHome t) : Resumes P m behind u sp := by
  have hh : u.handle = t.handle := Option.some.inj (congrArg Home.owner he)
  unfold Resumes at hr ⊢
  rw [hh]
  by_cases hb : behind = some t.handle
  · rw [if_pos hb] at hr ⊢
    obtain ⟨ns, hw, ht⟩ := hr
    exact ⟨ns, hw, ht.congr he⟩
  · rw [if_neg hb] at hr ⊢
    exact hr.congr he

end Stability

end KernelMachine
