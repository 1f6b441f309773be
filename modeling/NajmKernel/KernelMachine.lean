import Mathlib.Algebra.Group.Nat.Defs
import NajmKernel.FramePool
import NajmKernel.TaskScheduler
import NajmKernel.TransitionSystem

/-! One processor running the boot context and any number of tasks: interrupt flag, CR3, TSS
RSP0, the stack in use, and the frames that context switches and program entries leave on the
stacks. A step is a stretch that no tick can divide: one action, or one section under a lock
taken with interrupts masked. A tick is possible in every state with interrupts enabled. -/
namespace KernelMachine

open SchedulingClasses KernelStacks FramePool TaskScheduler

inductive ProgramExit where
  | exited (status : ℕ)
  | pageFault
  | generalProtectionFault
  deriving DecidableEq, Repr

/-- `status` is a `u32`, so that it fits the low half. -/
def ProgramExit.encode : ProgramExit → ℕ
  | .exited status => status
  | .pageFault => 1 * 2 ^ 32
  | .generalProtectionFault => 2 * 2 ^ 32

def ProgramExit.decode (raw : ℕ) : Option ProgramExit :=
  match raw / 2 ^ 32 with
  | 0 => some (.exited (raw % 2 ^ 32))
  | 1 => some .pageFault
  | 2 => some .generalProtectionFault
  | _ => none

/-- The status that an exit can carry is a `u32`. -/
def ProgramExit.Fits : ProgramExit → Prop
  | .exited status => status < 2 ^ 32
  | _ => True

theorem decode_encode {exit : ProgramExit} (h : exit.Fits) :
    ProgramExit.decode exit.encode = some exit := by
  cases exit with
  | exited status =>
    have h' : status < 2 ^ 32 := h
    have hd : status / 2 ^ 32 = 0 := Nat.div_eq_of_lt h'
    simp only [ProgramExit.encode, ProgramExit.decode, hd, Nat.mod_eq_of_lt h']
  | pageFault => rfl
  | generalProtectionFault => rfl

/-- The registers a SysV callee preserves. -/
structure CalleeSaved where
  rbp : ℕ
  rbx : ℕ
  r12 : ℕ
  r13 : ℕ
  r14 : ℕ
  r15 : ℕ
  deriving DecidableEq, Repr

def CalleeSaved.zero : CalleeSaved := ⟨0, 0, 0, 0, 0, 0⟩

/-- One `run_program` call: its locals, and the values its frame on the stack preserves. The
number identifies the call and has no counterpart in the code. -/
structure ProgramCall where
  call : ℕ
  slot : Option ℕ
  interruptsWereEnabled : Bool
  registers : CalleeSaved
  savedRsp : ℕ
  ofProcess : Bool
  deriving DecidableEq, Repr

inductive PanicSite where
  | outOfStacks
  | yieldWithoutTask
  | exitWithoutTask
  | windowWithoutTask
  | resumedAfterExit
  | nestedProgram
  | noProgram
  | unknownKind
  deriving DecidableEq, Repr

/-- What a context goes on with. `kernel` is boot code or the body of a kernel task; `window`
and `reaping` lie inside `run_until_idle`; `begin`, `ended`, `unmapped` and `releasing` inside
`process_entry`; the rest follow a program call from `enter_usermode_and_wait` to the end of
`run_program`. -/
inductive Code where
  | kernel
  | window (nextStack : ℕ)
  | reaping
  | begin
  | ended
  | unmapped
  | releasing (frames : List ℕ)
  | entering (p : ProgramCall)
  | stored (p : ProgramCall)
  | armed (p : ProgramCall)
  | ring3 (p : ProgramCall)
  | syscall (p : ProgramCall)
  | returned (p : ProgramCall) (raw : ℕ)
  | cleared (p : ProgramCall) (raw : ℕ)
  | panic (site : PanicSite)
  | halted
  | wild
  deriving DecidableEq, Repr

/-- The call whose frames are still on the stack. -/
def Code.program : Code → Option ProgramCall
  | .entering p => some p
  | .stored p => some p
  | .armed p => some p
  | .ring3 p => some p
  | .syscall p => some p
  | .returned p _ => some p
  | .cleared p _ => some p
  | _ => none

/-- What a switch saves of a context, and what resuming it restores. -/
structure Saved where
  code : Code
  interrupts : Bool
  registers : CalleeSaved
  deriving DecidableEq, Repr

/-- The frames on kernel stacks that something will pop: one pushed by `context_switch` (or
fabricated for a new task), or by `enter_usermode_and_wait`. -/
inductive Frame where
  | switch (k : Saved)
  | supervisor (p : ProgramCall)
  deriving DecidableEq, Repr

/-- A switch that the scheduler has decided on and `perform_switch` has not carried out, with
the interrupt flag that the outgoing context is to get back. -/
structure Handoff where
  switch : Switch
  interrupts : Bool
  deriving DecidableEq, Repr

structure Cpu where
  interrupts : Bool
  cr3 : ℕ
  rsp0 : ℕ
  rsp : ℕ
  code : Code
  registers : CalleeSaved
  handoff : Option Handoff
  deriving DecidableEq, Repr

def Cpu.saved (c : Cpu) : Saved := ⟨c.code, c.interrupts, c.registers⟩

structure Return where
  program : ProgramCall
  exit : ProgramExit
  registers : CalleeSaved
  interrupts : Bool
  slot : Option ℕ
  deriving DecidableEq, Repr

/-- The fields from `nextHandle` on have no counterpart in the code, except `pending`: the
tasks that a spawner has built and not queued yet. -/
structure Machine where
  scheduler : Scheduler
  ticks : ℕ
  kernelStacks : Allocator
  memory : FrameAllocator
  spaces : List AddressSpace
  bootSupervisorRsp : ℕ
  cpu : Cpu
  frames : ℕ → Option Frame
  pending : List Task
  nextHandle : ℕ
  spawned : List ℕ
  exited : List ℕ
  dropped : List ℕ
  calls : List ProgramCall
  ends : List (ProgramCall × ProgramExit)
  returns : List Return

/-- What the machine is given at boot. The boot stack lies below the kernel-stack area. -/
structure Platform where
  kernelRoot : ℕ
  bootPrivilegeStack : ℕ
  bootBottom : ℕ
  bootTop : ℕ
  boot_below : bootTop ≤ kernelStackArea

def Platform.OnBoot (P : Platform) (rsp : ℕ) : Prop := P.bootBottom < rsp ∧ rsp ≤ P.bootTop

instance (P : Platform) (rsp : ℕ) : Decidable (P.OnBoot rsp) :=
  inferInstanceAs (Decidable (_ ∧ _))

/-- The stack whose slot contains the address just below `rsp`. -/
def stackAt (rsp : ℕ) : KernelStack := .ofSlot ((rsp - 1 - kernelStackArea) / kernelStackSlot)

def Platform.bottomAt (P : Platform) (rsp : ℕ) : ℕ :=
  if rsp ≤ P.bootTop then P.bootBottom else (stackAt rsp).bottom

def Platform.topAt (P : Platform) (rsp : ℕ) : ℕ :=
  if rsp ≤ P.bootTop then P.bootTop else (stackAt rsp).top

/-- Where the processor's interrupt frame of five words ends up: in long mode the new stack
pointer is aligned down to 16 before the pushes. -/
def interruptStack (rsp0 : ℕ) : ℕ := rsp0 / 16 * 16 - 40

variable (P : Platform)

namespace Machine

/-- `supervisor_slot`: the current task's slot, or the boot context's. -/
def supervisorSlot (m : Machine) : Option ℕ := m.scheduler.current.map Task.handle

def slotValue (m : Machine) : ℕ :=
  match m.scheduler.current with
  | some t => t.supervisorRsp
  | none => m.bootSupervisorRsp

/-- A write through a slot pointer: it reaches the task wherever the scheduler keeps it. -/
def writeSlot (m : Machine) (slot : Option ℕ) (value : ℕ) : Machine :=
  match slot with
  | none => { m with bootSupervisorRsp := value }
  | some h => { m with
      scheduler := m.scheduler.modifyTask h fun t => { t with supervisorRsp := value } }

def setFrame (m : Machine) (rsp : ℕ) (f : Option Frame) : Machine :=
  { m with frames := Function.update m.frames rsp f }

def goto (m : Machine) (code : Code) : Machine := { m with cpu := { m.cpu with code := code } }

def setInterrupts (m : Machine) (b : Bool) : Machine :=
  { m with cpu := { m.cpu with interrupts := b } }

/-- A panic with interrupts masked: nothing runs from here on. -/
def freeze (m : Machine) (site : PanicSite) : Machine :=
  { m with cpu := { m.cpu with interrupts := false, code := .panic site } }

/-- Interrupts are off from before the decision until the switch. -/
def beginSwitch (m : Machine) (sw : Switch) : Machine :=
  { m with cpu := { m.cpu with
      interrupts := false
      handoff := some ⟨sw, m.cpu.interrupts⟩ } }

def follow (m : Machine) : Plan → Machine
  | .stay s => { m with scheduler := s }
  | .switch s sw => { m with scheduler := s }.beginSwitch sw
  | .panic => m.freeze .yieldWithoutTask

/-- `yield_now` and `yield_from_syscall`, up to `perform_switch`. -/
def yieldInner (m : Machine) (kind : SwitchKind) : Machine :=
  m.follow (m.scheduler.planSwitch kind m.ticks)

/-- An interrupt from Ring 3 moves to the stack that RSP0 names. -/
def interruptFrame (m : Machine) : Machine :=
  match m.cpu.code with
  | .ring3 _ => { m with cpu := { m.cpu with rsp := interruptStack m.cpu.rsp0 } }
  | _ => m

@[simp] theorem interruptFrame_scheduler (m : Machine) :
    m.interruptFrame.scheduler = m.scheduler := by
  unfold interruptFrame
  split <;> rfl

@[simp] theorem interruptFrame_frames (m : Machine) : m.interruptFrame.frames = m.frames := by
  unfold interruptFrame
  split <;> rfl

@[simp] theorem interruptFrame_code (m : Machine) :
    m.interruptFrame.cpu.code = m.cpu.code := by
  unfold interruptFrame
  split <;> rfl

@[simp] theorem interruptFrame_cr3 (m : Machine) : m.interruptFrame.cpu.cr3 = m.cpu.cr3 := by
  unfold interruptFrame
  split <;> rfl

/-- `timer_interrupt_handler`, up to `perform_switch`: a Ring 3 program is only preempted on a
task's own stack. -/
def tick (m : Machine) : Machine :=
  let m := { m with ticks := m.ticks + 1 }.interruptFrame
  match m.cpu.code, m.scheduler.current with
  | .ring3 _, none => m
  | _, _ => m.follow (m.scheduler.preempt m.ticks)

/-- Everything from here up on the running stack is in use. -/
def live (m : Machine) : ℕ :=
  match m.cpu.code with
  | .ring3 _ => interruptStack m.cpu.rsp0
  | .syscall _ => interruptStack m.cpu.rsp0
  | code =>
    match code.program with
    | some p => p.savedRsp
    | none => P.topAt m.cpu.rsp

/-- A switch frame of eight words fits at `sp` on the running stack, below what is live. -/
def MayPark (m : Machine) (sp : ℕ) : Prop := P.bottomAt m.cpu.rsp < sp ∧ sp + 64 ≤ m.live P

instance (m : Machine) (sp : ℕ) : Decidable (m.MayPark P sp) :=
  inferInstanceAs (Decidable (_ ∧ _))

def storeStackPointer (m : Machine) (out : StackOut) (sp : ℕ) : Machine :=
  match out with
  | .task h => { m with
      scheduler := m.scheduler.modifyTask h fun t => { t with stackPointer := sp } }
  | .boot => { m with scheduler := { m.scheduler with bootStackPointer := sp } }
  | .discarded => m

/-- The pops and the `ret` of `context_switch`. -/
def resume (m : Machine) (nextStack : ℕ) : Machine :=
  match m.frames nextStack with
  | some (.switch k) =>
    { m with
      cpu := { m.cpu with
        rsp := nextStack + 64
        code := k.code
        interrupts := k.interrupts
        registers := k.registers
        handoff := none }
      frames := Function.update m.frames nextStack none }
  | _ => m.goto .wild

/-- `perform_switch` up to the middle of `context_switch`: RSP0, CR3, and the frame at `sp`. -/
def park (m : Machine) (h : Handoff) (sp : ℕ) : Machine :=
  let m := { m with cpu := { m.cpu with
    rsp0 := h.switch.nextKernelStackTop
    cr3 := h.switch.nextAddressSpace.getD P.kernelRoot } }
  (m.setFrame sp (some (.switch ⟨m.cpu.code, h.interrupts, m.cpu.registers⟩))).storeStackPointer
    h.switch.currentStackOut sp

def performSwitch (m : Machine) (h : Handoff) (sp : ℕ) : Machine :=
  (m.park P h sp).resume h.switch.nextStack

/-- A dropped task gives its kernel stack back. -/
def drop (m : Machine) : Option Task → Machine
  | none => m
  | some t => { m with
      kernelStacks := m.kernelStacks.release t.stack
      dropped := t.handle :: m.dropped }

/-- `exit_task`, up to `perform_switch`. -/
def exitTask (m : Machine) : Machine :=
  match m.scheduler.exitTask m.ticks P.bootPrivilegeStack with
  | none => m.freeze .exitWithoutTask
  | some (s, reaped, sw) =>
    let m := { m with
      scheduler := s
      exited := m.supervisorSlot.toList ++ m.exited }
    let m := m.drop reaped
    if sw.nextStack = 0 then (m.setInterrupts false).goto .halted
    else (m.goto (.panic .resumedAfterExit)).beginSwitch sw

/-- The first locked section of `run_until_idle`. -/
def runUntilIdle (m : Machine) : Machine :=
  match m.scheduler.startFirst m.ticks with
  | none => m
  | some (s, nextStack) => { m with scheduler := s }.goto (.window nextStack)

/-- The second part of `run_until_idle`, from where it masks interrupts. -/
def leaveWindow (m : Machine) (nextStack : ℕ) : Machine :=
  match m.scheduler.current with
  | none => m.freeze .windowWithoutTask
  | some t =>
    (m.goto .reaping).beginSwitch ⟨.boot, nextStack, t.kernelRsp0, t.addressSpaceRoot⟩

def reapZombie (m : Machine) : Machine :=
  { m with scheduler := { m.scheduler with zombie := none } }.drop m.scheduler.zombie

/-- A new address space takes its root from the frame allocator. -/
def newSpace (m : Machine) : Machine :=
  { m with
    memory := m.memory.allocateFrame.2
    spaces := ⟨m.memory.allocateFrame.1, [], none⟩ :: m.spaces }

/-- A frame for a kernel stack, the heap or a kernel page table. -/
def kernelFrame (m : Machine) : Machine := { m with memory := m.memory.allocateFrame.2 }

def unbound (m : Machine) (root : ℕ) : Bool :=
  m.spaces.any fun s => decide (s.root = root ∧ s.boundTo = none)

/-- A frame for a page, or a page table, of an address space that no task is bound to yet. -/
def mapFrame (m : Machine) (root : ℕ) : Machine :=
  { m with
    memory := m.memory.allocateFrame.2
    spaces := m.spaces.map (.grow root m.memory.allocateFrame.1) }

/-- An address space that never got a task is dropped whole. -/
def discardSpace (m : Machine) (root : ℕ) : Machine :=
  let (gone, kept) := m.spaces.partition fun s => decide (s.root = root)
  { m with
    memory := (gone.flatMap AddressSpace.frames).foldl FrameAllocator.release m.memory
    spaces := kept }

/-- The task of a process is bound to an address space of its own. -/
def bindSpace (m : Machine) (root : ℕ) : Machine :=
  { m with spaces := m.spaces.map (.bind root m.nextHandle) }

/-- A new task with its fabricated frame at the top of its stack. -/
def addTask (m : Machine) (kernelStacks : Allocator) (stack : KernelStack) (root : Option ℕ)
    (pid : ℕ) (c : SchedClass) : Machine :=
  let code := if root.isSome then Code.begin else .kernel
  { m with
    kernelStacks := kernelStacks
    pending := .new m.nextHandle stack root pid c :: m.pending
    nextHandle := m.nextHandle + 1 }.setFrame (stack.top - 64) (some (.switch ⟨code, true, .zero⟩))

def buildTask (m : Machine) (root : Option ℕ) (pid : ℕ) (c : SchedClass) (mapped : Bool) :
    Machine :=
  match m.kernelStacks.allocate mapped with
  | (kernelStacks, none) => { m with kernelStacks := kernelStacks }.goto (.panic .outOfStacks)
  | (kernelStacks, some stack) => m.addTask kernelStacks stack root pid c

def findPending (m : Machine) (handle : ℕ) : Option Task :=
  m.pending.find? fun t => decide (t.handle = handle)

/-- `enqueue` under the lock, with the tick count `stamp` read before it was taken. -/
def queueTask (m : Machine) (t : Task) (stamp : ℕ) : Machine :=
  { m with
    scheduler := m.scheduler.enqueue t stamp
    pending := m.pending.erase t
    spawned := t.handle :: m.spawned }

def savedRspAt (m : Machine) (depth : ℕ) : ℕ := P.topAt m.cpu.rsp - depth - 48

/-- Above RSP lies at least the return address; six pushes and the `iretq` frame must fit. -/
def HasRoom (m : Machine) (depth : ℕ) : Prop :=
  8 ≤ depth ∧ P.bottomAt m.cpu.rsp + 64 < m.savedRspAt P depth

instance (m : Machine) (depth : ℕ) : Decidable (m.HasRoom P depth) :=
  inferInstanceAs (Decidable (_ ∧ _))

/-- `run_program` up to its call of `enter_usermode_and_wait`, whose first instruction finds
RSP `depth` bytes below the top of the stack. -/
def runProgram (m : Machine) (depth : ℕ) (ofProcess : Bool) : Machine :=
  if m.slotValue ≠ 0 then m.goto (.panic .nestedProgram)
  else
    let p : ProgramCall := ⟨m.calls.length, m.supervisorSlot, m.cpu.interrupts,
      m.cpu.registers, m.savedRspAt P depth, ofProcess⟩
    { m with calls := p :: m.calls }.goto (.entering p)

/-- The six pushes and the store through `supervisor_rsp_out`. -/
def storeSlot (m : Machine) (p : ProgramCall) : Machine :=
  ((m.setFrame p.savedRsp (some (.supervisor { p with registers := m.cpu.registers }))).writeSlot
    p.slot p.savedRsp).goto (.stored p)

/-- The store through `tss_rsp0_out`. -/
def storeRsp0 (m : Machine) (p : ProgramCall) : Machine :=
  { m with cpu := { m.cpu with rsp0 := p.savedRsp - 8, code := .armed p } }

/-- The interrupt gate of a system call or a fault, taken from Ring 3. -/
def enterRing0 (m : Machine) (p : ProgramCall) : Machine :=
  (m.interruptFrame.setInterrupts false).goto (.syscall p)

/-- `end_program`: the frame that the slot points to is popped, whoever pushed it. -/
def endProgram (m : Machine) (program : ProgramCall) (exit : ProgramExit) : Machine :=
  if m.slotValue = 0 then m.goto (.panic .noProgram)
  else
    match m.frames m.slotValue with
    | some (.supervisor p) =>
      { m with
        ends := (program, exit) :: m.ends
        cpu := { m.cpu with
          rsp := m.slotValue + 56
          code := .returned p exit.encode
          registers := p.registers } }.setFrame m.slotValue none
    | _ => m.goto .wild

/-- `sys_exit`: a program that the kernel never launched gets an error back. -/
def sysExit (m : Machine) (program : ProgramCall) (status : ℕ) : Machine :=
  if m.slotValue ≠ 0 then m.endProgram program (.exited (status % 2 ^ 32)) else m

/-- `end_or_halt_after_fault`, reached from Ring 3. -/
def fault (m : Machine) (program : ProgramCall) (exit : ProgramExit) : Machine :=
  let m := m.enterRing0 program
  if m.slotValue ≠ 0 then m.endProgram program exit else m.goto .halted

/-- The end of `run_program`: the caller's interrupt flag, then `decode`. -/
def leaveProgram (m : Machine) (p : ProgramCall) (raw : ℕ) : Machine :=
  let interrupts := p.interruptsWereEnabled || m.cpu.interrupts
  match ProgramExit.decode raw with
  | none => (m.setInterrupts interrupts).goto (.panic .unknownKind)
  | some exit =>
    { m with
      returns := ⟨p, exit, m.cpu.registers, interrupts, m.supervisorSlot⟩ :: m.returns
      cpu := { m.cpu with
        interrupts := interrupts
        code := if p.ofProcess then .ended else .kernel } }

/-- `restore(kernel_root())` in `process_entry`. -/
def restoreRoot (m : Machine) : Machine :=
  { m with cpu := { m.cpu with cr3 := P.kernelRoot, code := .unmapped } }

/-- The address space that the running process task is bound to. -/
def ownSpace (m : Machine) : Option AddressSpace :=
  m.spaces.find? fun s => decide (m.supervisorSlot ≠ none ∧ s.boundTo = m.supervisorSlot)

/-- `drop(context)` takes the address space apart: from here on it is no longer live. -/
def beginDrop (m : Machine) (space : AddressSpace) : Machine :=
  { m with spaces := m.spaces.erase space }.goto (.releasing space.frames)

def releaseFrame (m : Machine) (frame : ℕ) (rest : List ℕ) : Machine :=
  { m with memory := m.memory.release frame }.goto (.releasing rest)

end Machine

inductive Event where
  | tick
  | performSwitch (sp : ℕ)
  | clobber (r : CalleeSaved)
  | setInterrupts (b : Bool)
  | newSpace
  | kernelFrame
  | mapFrame (root : ℕ)
  | discardSpace (root : ℕ)
  | buildTask (root : Option ℕ) (pid : ℕ) (c : SchedClass) (mapped : Bool)
  | queueTask (handle stamp : ℕ)
  | yieldNow
  | setCurrentClass (c : SchedClass)
  | exitTask
  | runUntilIdle
  | leaveWindow
  | reapZombie
  | runProgram (depth : ℕ)
  | storeSlot
  | storeRsp0
  | enterRing3
  | syscall
  | sysReturn
  | sysYield
  | sysExit (status : ℕ)
  | fault (exit : ProgramExit)
  | clearSlot
  | leaveProgram
  | restoreRoot
  | beginDrop
  | releaseFrame
  deriving DecidableEq, Repr

/-- Whether compiled code runs here: between the pushes of `enter_usermode_and_wait` and the
end of `run_program`, nothing but the pops touches the registers it was called with. -/
def Code.clobbers : Code → Bool
  | .entering _ => false
  | .returned _ _ => false
  | .cleared _ _ => false
  | .panic _ => false
  | .halted => false
  | _ => true

/-- What the running context can do next. `run_until_idle` is called by the boot context only. -/
def Machine.act (m : Machine) (e : Event) : Option Machine :=
  match m.cpu.code, e with
  | code, .clobber r =>
    if code.clobbers then some { m with cpu := { m.cpu with registers := r } } else none
  | .kernel, .setInterrupts b => some (m.setInterrupts b)
  | .kernel, .newSpace => some m.newSpace
  | .kernel, .kernelFrame => some m.kernelFrame
  | .kernel, .mapFrame root => if m.unbound root then some (m.mapFrame root) else none
  | .kernel, .discardSpace root => if m.unbound root then some (m.discardSpace root) else none
  | .kernel, .buildTask none pid c mapped => some (m.buildTask none pid c mapped)
  | .kernel, .buildTask (some root) pid c mapped =>
    if m.unbound root then some ((m.bindSpace root).buildTask (some root) pid c mapped) else none
  | .kernel, .queueTask handle stamp =>
    match m.findPending handle with
    | none => none
    | some t => if stamp ≤ m.ticks then some (m.queueTask t stamp) else none
  | .kernel, .yieldNow => some (m.yieldInner .voluntary)
  | .kernel, .setCurrentClass c =>
    some { m with scheduler := m.scheduler.setCurrentClass c }
  | .kernel, .exitTask => some (m.exitTask P)
  | .kernel, .runUntilIdle => if m.cpu.rsp ≤ P.bootTop then some m.runUntilIdle else none
  | .kernel, .runProgram depth =>
    if m.HasRoom P depth then some (m.runProgram P depth false) else none
  | .window nextStack, .leaveWindow => some (m.leaveWindow nextStack)
  | .reaping, .reapZombie => some (m.reapZombie.goto .kernel)
  | .begin, .runProgram depth =>
    if m.HasRoom P depth then some (m.runProgram P depth true) else none
  | .ended, .restoreRoot => some (m.restoreRoot P)
  | .unmapped, .beginDrop =>
    match m.ownSpace with
    | none => none
    | some space => some (m.beginDrop space)
  | .releasing (frame :: rest), .releaseFrame => some (m.releaseFrame frame rest)
  | .releasing [], .exitTask => some (m.exitTask P)
  | .entering p, .storeSlot => some (m.storeSlot p)
  | .stored p, .storeRsp0 => some (m.storeRsp0 p)
  | .armed p, .enterRing3 => some ((m.setInterrupts true).goto (.ring3 p))
  | .ring3 p, .syscall => some (m.enterRing0 p)
  | .ring3 p, .fault .pageFault => some (m.fault p .pageFault)
  | .ring3 p, .fault .generalProtectionFault => some (m.fault p .generalProtectionFault)
  | .syscall p, .sysReturn => some ((m.setInterrupts true).goto (.ring3 p))
  | .syscall _, .sysYield => some (m.yieldInner .voluntaryFromUser)
  | .syscall p, .sysExit status => some (m.sysExit p status)
  | .returned p raw, .clearSlot => some ((m.writeSlot p.slot 0).goto (.cleared p raw))
  | .cleared p raw, .leaveProgram => some (m.leaveProgram p raw)
  | _, _ => none

def next (m : Machine) (e : Event) : Option Machine :=
  match m.cpu.code, m.cpu.handoff, e with
  | .wild, _, _ => none
  | _, _, .tick => if m.cpu.interrupts then some m.tick else none
  | _, some h, .performSwitch sp =>
    if m.MayPark P sp then some (m.performSwitch P h sp) else none
  | _, some _, _ => none
  | _, none, e => m.act P e

/-- The boot context runs alone, in the kernel's address space. -/
structure Boots (m : Machine) : Prop where
  scheduler : m.scheduler = .new
  kernelStacks : m.kernelStacks = .initial
  memory : m.memory.free = [] ∧ P.kernelRoot < m.memory.nextFrame
  spaces : m.spaces = []
  slot : m.bootSupervisorRsp = 0
  cr3 : m.cpu.cr3 = P.kernelRoot
  rsp : P.OnBoot m.cpu.rsp
  code : m.cpu.code = .kernel
  handoff : m.cpu.handoff = none
  frames : m.frames = fun _ => none
  pending : m.pending = []
  history : m.spawned = [] ∧ m.exited = [] ∧ m.dropped = []
  programs : m.calls = [] ∧ m.ends = [] ∧ m.returns = []

/-- The machine as the kernel's entry point finds it, interrupts on and no tick counted. -/
def Platform.start : Machine where
  scheduler := .new
  ticks := 0
  kernelStacks := .initial
  memory := ⟨[], P.kernelRoot + 1⟩
  spaces := []
  bootSupervisorRsp := 0
  cpu := ⟨true, P.kernelRoot, P.bootPrivilegeStack, P.bootTop, .kernel, .zero, none⟩
  frames := fun _ => none
  pending := []
  nextHandle := 0
  spawned := []
  exited := []
  dropped := []
  calls := []
  ends := []
  returns := []

theorem boots_start (h : P.bootBottom < P.bootTop) : Boots P P.start where
  scheduler := rfl
  kernelStacks := rfl
  memory := ⟨rfl, Nat.lt_succ_self _⟩
  spaces := rfl
  slot := rfl
  cr3 := rfl
  rsp := ⟨h, Nat.le_refl _⟩
  code := rfl
  handoff := rfl
  frames := rfl
  pending := rfl
  history := ⟨rfl, rfl, rfl⟩
  programs := ⟨rfl, rfl, rfl⟩

/-- A platform to run examples on. -/
def smallPlatform : Platform where
  kernelRoot := 7
  bootPrivilegeStack := 512
  bootBottom := 4096
  bootTop := 20480
  boot_below := by decide

/-- All that the running context can do, one constructor for each line of `act`. -/
inductive Act (m : Machine) : Event → Machine → Prop where
  | clobber {r : CalleeSaved} (free : m.cpu.code.clobbers = true) :
      Act m (.clobber r) { m with cpu := { m.cpu with registers := r } }
  | setInterrupts {b : Bool} (code : m.cpu.code = .kernel) :
      Act m (.setInterrupts b) (m.setInterrupts b)
  | newSpace (code : m.cpu.code = .kernel) : Act m .newSpace m.newSpace
  | kernelFrame (code : m.cpu.code = .kernel) : Act m .kernelFrame m.kernelFrame
  | mapFrame {root : ℕ} (code : m.cpu.code = .kernel) (unbound : m.unbound root = true) :
      Act m (.mapFrame root) (m.mapFrame root)
  | discardSpace {root : ℕ} (code : m.cpu.code = .kernel) (unbound : m.unbound root = true) :
      Act m (.discardSpace root) (m.discardSpace root)
  | buildTask {pid : ℕ} {c : SchedClass} {mapped : Bool} (code : m.cpu.code = .kernel) :
      Act m (.buildTask none pid c mapped) (m.buildTask none pid c mapped)
  | buildProcess {root pid : ℕ} {c : SchedClass} {mapped : Bool} (code : m.cpu.code = .kernel)
      (unbound : m.unbound root = true) : Act m (.buildTask (some root) pid c mapped)
        ((m.bindSpace root).buildTask (some root) pid c mapped)
  | queueTask {handle stamp : ℕ} {t : Task} (code : m.cpu.code = .kernel)
      (found : m.findPending handle = some t) (past : stamp ≤ m.ticks) :
      Act m (.queueTask handle stamp) (m.queueTask t stamp)
  | yieldNow (code : m.cpu.code = .kernel) : Act m .yieldNow (m.yieldInner .voluntary)
  | setCurrentClass {c : SchedClass} (code : m.cpu.code = .kernel) :
      Act m (.setCurrentClass c) { m with scheduler := m.scheduler.setCurrentClass c }
  | exitTask (code : m.cpu.code = .kernel ∨ m.cpu.code = .releasing []) :
      Act m .exitTask (m.exitTask P)
  | runUntilIdle (code : m.cpu.code = .kernel) (boot : m.cpu.rsp ≤ P.bootTop) :
      Act m .runUntilIdle m.runUntilIdle
  | leaveWindow {nextStack : ℕ} (code : m.cpu.code = .window nextStack) :
      Act m .leaveWindow (m.leaveWindow nextStack)
  | reapZombie (code : m.cpu.code = .reaping) : Act m .reapZombie (m.reapZombie.goto .kernel)
  | runProgram {depth : ℕ} {ofProcess : Bool}
      (code : m.cpu.code = if ofProcess then .begin else .kernel) (room : m.HasRoom P depth) :
      Act m (.runProgram depth) (m.runProgram P depth ofProcess)
  | storeSlot {p : ProgramCall} (code : m.cpu.code = .entering p) :
      Act m .storeSlot (m.storeSlot p)
  | storeRsp0 {p : ProgramCall} (code : m.cpu.code = .stored p) :
      Act m .storeRsp0 (m.storeRsp0 p)
  | enterRing3 {p : ProgramCall} (code : m.cpu.code = .armed p) :
      Act m .enterRing3 ((m.setInterrupts true).goto (.ring3 p))
  | syscall {p : ProgramCall} (code : m.cpu.code = .ring3 p) : Act m .syscall (m.enterRing0 p)
  | fault {p : ProgramCall} {exit : ProgramExit} (code : m.cpu.code = .ring3 p)
      (kind : exit = .pageFault ∨ exit = .generalProtectionFault) :
      Act m (.fault exit) (m.fault p exit)
  | sysReturn {p : ProgramCall} (code : m.cpu.code = .syscall p) :
      Act m .sysReturn ((m.setInterrupts true).goto (.ring3 p))
  | sysYield {p : ProgramCall} (code : m.cpu.code = .syscall p) :
      Act m .sysYield (m.yieldInner .voluntaryFromUser)
  | sysExit {p : ProgramCall} {status : ℕ} (code : m.cpu.code = .syscall p) :
      Act m (.sysExit status) (m.sysExit p status)
  | clearSlot {p : ProgramCall} {raw : ℕ} (code : m.cpu.code = .returned p raw) :
      Act m .clearSlot ((m.writeSlot p.slot 0).goto (.cleared p raw))
  | leaveProgram {p : ProgramCall} {raw : ℕ} (code : m.cpu.code = .cleared p raw) :
      Act m .leaveProgram (m.leaveProgram p raw)
  | restoreRoot (code : m.cpu.code = .ended) : Act m .restoreRoot (m.restoreRoot P)
  | beginDrop {space : AddressSpace} (code : m.cpu.code = .unmapped)
      (own : m.ownSpace = some space) : Act m .beginDrop (m.beginDrop space)
  | releaseFrame {frame : ℕ} {rest : List ℕ} (code : m.cpu.code = .releasing (frame :: rest)) :
      Act m .releaseFrame (m.releaseFrame frame rest)

/-- All that one step can be. -/
inductive Step (m : Machine) : Event → Machine → Prop where
  | tick (enabled : m.cpu.interrupts = true) : Step m .tick m.tick
  | performSwitch {h : Handoff} {sp : ℕ} (handoff : m.cpu.handoff = some h)
      (park : m.MayPark P sp) : Step m (.performSwitch sp) (m.performSwitch P h sp)
  | act {e : Event} {m' : Machine} (handoff : m.cpu.handoff = none) (h : Act P m e m') :
      Step m e m'

variable {P} {m m' : Machine} {e : Event}

theorem act_cases (h : m.act P e = some m') : Act P m e m' := by
  revert h
  fun_cases Machine.act P m e <;> intro h <;> cases h
  all_goals try (constructor <;> assumption)
  · exact .exitTask (Or.inl ‹_›)
  · exact .exitTask (Or.inr ‹_›)
  · exact .fault ‹_› (Or.inl rfl)
  · exact .fault ‹_› (Or.inr rfl)

theorem next_cases (h : next P m e = some m') : Step P m e m' := by
  unfold next at h
  split at h
  · simp at h
  · split at h
    · exact Option.some.inj h ▸ .tick ‹_›
    · simp at h
  · split at h
    · exact Option.some.inj h ▸ .performSwitch ‹_› ‹_›
    · simp at h
  · simp at h
  · exact .act ‹_› (act_cases h)

end KernelMachine
