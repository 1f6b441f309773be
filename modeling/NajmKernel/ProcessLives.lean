import NajmKernel.Syscalls

/-! The life of a process: its task enters the program, and when that has ended tears the process
down, one step after another. The timer may switch to another task between any two steps. -/
namespace ProcessLives

open KernelMachine (ProgramExit)
open Syscalls (Kernel ProcessState)
open Attempts Attempt UserMemory

def kernelHeapSize : ℕ := 16 * 1024 * 1024

/-- How far `process_entry` has come. -/
inductive Stage where
  | created
  | entered
  | inProgram
  | ended (exit : ProgramExit)
  | recorded (exit : ProgramExit)
  | surfacesRemoved (exit : ProgramExit)
  | portsClosed (exit : ProgramExit)
  | dropped (exit : ProgramExit)
  | gone (exit : ProgramExit)
  deriving DecidableEq, Repr

/-- What `run_program` returned. -/
def Stage.exit : Stage → Option ProgramExit
  | .created | .entered | .inProgram => none
  | .ended exit | .recorded exit | .surfacesRemoved exit | .portsClosed exit | .dropped exit
  | .gone exit => some exit

/-- The scheduler still has the task. -/
def Stage.alive : Stage → Bool
  | .gone _ => false
  | _ => true

/-- `records` counts the entries of the table of processes. -/
structure System where
  kernel : Kernel
  stage : ℕ → Option Stage
  records : ℕ

inductive Event where
  | spawn (profile : Realms.RealmProfile) (space : UserSpace)
  | switch (pid : ℕ)
  | setRunning
  | runProgram
  | compute (bytes : ℕ → UInt8)
  | syscall (number arg1 arg2 arg3 : UInt64)
  | fault (exit : ProgramExit)
  | setExited
  | removeSurfaces
  | closePorts
  | dropContext
  | exitTask
  | tick
  | input (e : InputQueue.InputEvent)
  | toggleLayout
  | mount (fs : FileSystem.Mounted)

namespace System

variable (s : System)

/-- The stage of the task on the processor; the boot context has none. -/
def current : Option Stage := s.stage s.kernel.currentPid

/-- With another kernel, and the current task at another stage. -/
def advance (k : Kernel) (stage : Stage) : System :=
  { s with kernel := k, stage := Function.update s.stage s.kernel.currentPid (some stage) }

/-- `set_state`, of the current process. -/
def setState (state : ProcessState) : Kernel := s.kernel.setProcess fun p => { p with state := state }

def supervise (running : Bool) : Kernel :=
  { s.kernel with
    supervised := Function.update s.kernel.supervised s.kernel.currentPid running }

/-- `run_program` returns, to `process_entry` or to the boot context. -/
def endProgram (exit : ProgramExit) : System :=
  if s.kernel.currentPid = 0 then { s with kernel := s.supervise false }
  else s.advance (s.supervise false) (.ended exit)

end System

/-- A step of the kernel's own, of which no process's life is a part. -/
def kernelStep (s : System) (e : Syscalls.Event) : Option System :=
  (Syscalls.next s.kernel e).map fun k => { s with kernel := k }

/-- A record is never removed, and takes at least a byte of the heap: where that is full, a spawn
panics. -/
def next (s : System) : Event → Option System
  | .spawn profile space =>
    if s.records < kernelHeapSize then
      (Syscalls.next s.kernel (.spawn profile space)).map fun k =>
        ⟨k, Function.update s.stage s.kernel.nextPid (some .created), s.records + 1⟩
    else none
  | .switch pid =>
    if pid = 0 ∨ (s.stage pid).any Stage.alive then
      some { s with kernel := { s.kernel with currentPid := pid } }
    else none
  | .setRunning =>
    if s.current = some .created then some (s.advance (s.setState .running) .entered) else none
  | .runProgram =>
    if s.kernel.supervised s.kernel.currentPid then none
    else if s.kernel.currentPid = 0 then some { s with kernel := s.supervise true }
    else if s.current = some .entered then some (s.advance (s.supervise true) .inProgram)
    else none
  | .compute bytes => kernelStep s (.compute bytes)
  | .syscall number arg1 arg2 arg3 =>
    if s.kernel.supervised s.kernel.currentPid then
      (s.kernel.call number arg1 arg2 arg3).map fun
        | (.ok _, k) => { s with kernel := k }
        | (.error exit, k) => System.endProgram { s with kernel := k } exit
    else none
  | .fault exit =>
    if s.kernel.supervised s.kernel.currentPid then some (s.endProgram exit) else none
  | .setExited => match s.current with
    | some (.ended exit) => some (s.advance (s.setState (.exited exit)) (.recorded exit))
    | _ => none
  | .removeSurfaces => match s.current with
    | some (.recorded exit) =>
      ((Compositor.removeSurfacesFor s.kernel.currentPid : Attempt Compositor.State Empty Unit).run
        s.kernel.compositor).map fun (_, compositor) =>
          s.advance { s.kernel with compositor := compositor } (.surfacesRemoved exit)
    | _ => none
  | .closePorts => match s.current with
    | some (.surfacesRemoved exit) => some (s.advance
      { s.kernel with ports := Ports.closeAllFor s.kernel.currentPid s.kernel.ports }
      (.portsClosed exit))
    | _ => none
  | .dropContext => match s.current with
    | some (.portsClosed exit) =>
      let unmapped : UserSpace := ⟨fun _ => false, fun _ => false, fun _ => 0⟩
      some (s.advance
        { s.kernel with
          spaces := Function.update s.kernel.spaces s.kernel.currentPid unmapped }
        (.dropped exit))
    | _ => none
  | .exitTask => match s.current with
    | some (.dropped exit) => some (s.advance s.kernel (.gone exit))
    | _ => none
  | .tick => kernelStep s .tick
  | .input e => kernelStep s (.input e)
  | .toggleLayout => kernelStep s .toggleLayout
  | .mount fs => kernelStep s (.mount fs)

/-- Before the first process, with no port and no surface. -/
structure Fresh (k : Kernel) : Prop where
  booted : Syscalls.Booted k
  counter : k.nextPid = 1
  idle : ∀ pid, k.supervised pid = false
  ports : k.ports.ports = []
  surfaces : k.compositor.surfaces = []

def begin (k : Kernel) : System := ⟨k, fun _ => none, 0⟩

/-- `exit_status`. -/
def exitStatus (k : Kernel) (pid : ℕ) : Option ProgramExit :=
  match k.processes pid with
  | some ⟨_, .exited exit, _⟩ => some exit
  | _ => none

end ProcessLives
