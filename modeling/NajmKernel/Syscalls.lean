import NajmKernel.Compositor
import NajmKernel.FileSystem
import NajmKernel.InputQueue
import NajmKernel.KernelMachine
import NajmKernel.Outcomes
import NajmKernel.Ports
import NajmKernel.Realms
import NajmKernel.UserMemory

/-! The syscalls: what each number does for the process on the processor, and the answer it gets.
A process is its profile and its descriptors. -/
namespace Syscalls

open KernelMachine (ProgramExit)
open Realms
open Attempts Attempt UserMemory LittleEndian

section Interface

def encodeError (errno : ℕ) : ℕ := 2 ^ 64 - errno

def isError (raw : ℕ) : Bool := decide (encodeError 4095 ≤ raw)

def ENOSYS : ℕ := 1
def EFAULT : ℕ := 2
def ENOENT : ℕ := 3
def EINVAL : ℕ := 4
def EPERM : ℕ := 5
def ENOMEM : ℕ := 6
def EEXIST : ℕ := 7
def EAGAIN : ℕ := 8
def EBADF : ℕ := 9
def ENOTSUP : ℕ := 10

end Interface

section States

inductive ProcessState where
  | ready
  | running
  | exited (exit : ProgramExit)
  deriving DecidableEq, Repr

structure OpenFile where
  node : FileSystem.Node
  position : ℕ
  path : String
  deriving DecidableEq, Repr

def OpenFile.new (node : FileSystem.Node) (path : String) : Option OpenFile :=
  if (FileSystem.utf8 path).length > FileSystem.maxPath then none else some ⟨node, 0, path⟩

structure Process where
  profile : RealmProfile
  state : ProcessState
  files : List (Option OpenFile)
  deriving DecidableEq, Repr

/-- `supervised` says of a process, or of the boot context under 0, that a program of it runs and
may be ended. -/
structure Kernel where
  currentPid : ℕ
  nextPid : ℕ
  supervised : ℕ → Bool
  processes : ℕ → Option Process
  spaces : ℕ → UserSpace
  fs : Option FileSystem.Mounted
  ports : Ports.Table
  input : InputQueue.EventQueue
  layoutToggle : Bool
  compositor : Compositor.State
  ticks : ℕ
  console : List UInt8

namespace Kernel

def currentProcess (k : Kernel) : Option Process :=
  if k.currentPid = 0 then none else k.processes k.currentPid

def currentProfile (k : Kernel) : Option RealmProfile := k.currentProcess.map (·.profile)

/-- A context with no process holds nothing. -/
def holds (k : Kernel) (right : Right) : Bool := (k.currentProfile.map (·.allows right)).getD false

def space (k : Kernel) : UserSpace := k.spaces k.currentPid

def files (k : Kernel) : List (Option OpenFile) := (k.currentProcess.map (·.files)).getD []

def setProcess (k : Kernel) (f : Process → Process) : Kernel :=
  { k with processes := Function.update k.processes k.currentPid (k.currentProcess.map f) }

end Kernel

end States

abbrev Call := Attempt Kernel ProgramExit

section Parts

def gets {α : Type} (f : Kernel → α) : Call α := of fun k => some (.ok (f k), k)

def modifies (f : Kernel → Kernel) : Call Unit := of fun k => some (.ok (), f k)

/-- An operation on the ports, whose errors are answers. -/
def ipc {α : Type} (x : Attempt Ports.Table Ports.IpcError α) : Call (Except Ports.IpcError α) :=
  of fun k => (x.run k.ports).map fun (r, ports) => (.ok r, { k with ports := ports })

def graphics {α : Type} (x : Attempt Compositor.State ProgramExit α) : Call α :=
  of fun k => (x.run k.compositor).map fun (r, compositor) => (r, { k with compositor := compositor })

/-- The copy of some bytes to the program, and the answer to give for it. -/
def answerWith (ptr : ℕ) (data : List UInt8) (answer : ℕ) : Call ℕ := do
  match ← gets fun k => copyToUser k.space ptr data with
  | none => pure (encodeError EFAULT)
  | some space => do
    modifies fun k => { k with spaces := Function.update k.spaces k.currentPid space }
    pure answer

/-- The handler's body behind `require`. -/
def requiring (right : Right) (body : Call ℕ) : Call ℕ := do
  if ← gets (·.holds right) then body else pure (encodeError EPERM)

/-- The handler's body where it is a process that calls. -/
def forProcess (body : ℕ → Call ℕ) : Call ℕ := do
  let pid ← gets (·.currentPid)
  if pid = 0 then pure (encodeError EPERM) else body pid

def readUserPath (s : UserSpace) (ptr len : ℕ) : Except ℕ String :=
  if len = 0 ∨ len > FileSystem.maxPath then .error (encodeError EINVAL)
  else match copyFromUser s ptr len with
    | none => .error (encodeError EFAULT)
    | some bytes =>
      if FileSystem.pathIsValid bytes then .ok (PeParser.fromUtf8Lossy bytes)
      else .error (encodeError EINVAL)

def readIpcName (s : UserSpace) (ptr len : ℕ) : Option (List UInt8) :=
  if len = 0 ∨ len > Ports.maxName then none else copyFromUser s ptr len

end Parts

section Descriptors

def firstDynamic : ℕ := 3

/-- The table with a file in its lowest free slot behind the console's, and that slot. -/
def placeFile (files : List (Option OpenFile)) (file : OpenFile) : List (Option OpenFile) × ℕ :=
  let files := files ++ List.replicate (firstDynamic - files.length) none
  match (files.drop firstDynamic).findIdx? (·.isNone) with
  | some offset => (files.set (firstDynamic + offset) (some file), firstDynamic + offset)
  | none => (files ++ [some file], files.length)

def openFile (file : OpenFile) : Call (Option ℕ) := do
  match ← gets (·.currentProcess) with
  | none => pure none
  | some p => do
    let (files, descriptor) := placeFile p.files file
    modifies (·.setProcess fun p => { p with files := files })
    pure (some descriptor)

def getFile (k : Kernel) (descriptor : ℕ) : Option OpenFile := (k.files[descriptor]?).join

def setFilePosition (descriptor position : ℕ) : Call Bool := do
  match ← gets (getFile · descriptor) with
  | none => pure false
  | some file => do
    modifies (·.setProcess fun p =>
      { p with files := p.files.set descriptor (some { file with position := position }) })
    pure true

def closeFile (descriptor : ℕ) : Call Bool := do
  match ← gets (getFile · descriptor) with
  | none => pure false
  | some _ => do
    modifies (·.setProcess fun p => { p with files := p.files.set descriptor none })
    pure true

end Descriptors

section Console

def stdin : ℕ := 0
def stdout : ℕ := 1
def stderr : ℕ := 2

def hexDigit (n : ℕ) : UInt8 := UInt8.ofNat (if n < 10 then 0x30 + n else 0x57 + n)

/-- Newlines, tabs and printable characters as they are, and the rest as an escape. -/
def printed (byte : UInt8) : List UInt8 :=
  if byte = 0x0A ∨ byte = 0x09 ∨ (0x20 ≤ byte ∧ byte ≤ 0x7E) then [byte]
  else [0x5C, 0x78, hexDigit (byte.toNat / 16), hexDigit (byte.toNat % 16)]

def sysWrite (descriptor ptr len : ℕ) : Call ℕ := do
  if descriptor ≠ stdout ∧ descriptor ≠ stderr then pure (encodeError EBADF)
  else match ← gets fun k => copyFromUser k.space ptr len with
    | none => pure (encodeError EFAULT)
    | some bytes => do
      modifies fun k => { k with console := k.console ++ bytes.flatMap printed }
      pure bytes.length

def maxCstr : ℕ := 4096

structure CstrCursor where
  length : ℕ
  address : ℕ

/-- A turn of the scan for the terminator, over what is left of a page. -/
def cstrTurn (c : CstrCursor) : Call (ForInStep CstrCursor) := do
  if maxCstr ≤ c.length then pure (.done c)
  else
    let want := min (4096 - c.address % 4096) (maxCstr - c.length)
    match ← gets fun k => copyFromUser k.space c.address want with
    | none => pure (.done c)
    | some chunk =>
      match chunk.findIdx? (· == 0) with
      | some terminator => pure (.done { c with length := c.length + terminator })
      | none => do
        let address ← sum 64 c.address chunk.length
        pure (.yield ⟨c.length + chunk.length, address⟩)

def sysWriteCstr (ptr : ℕ) : Call ℕ := do
  let c ← turns cstrTurn maxCstr ⟨0, ptr⟩
  if c.length = 0 then do
    if (← gets fun k => copyFromUser k.space ptr 1).isSome then pure 0
    else pure (encodeError EFAULT)
  else sysWrite stdout ptr c.length

end Console

section Programs

/-- A program that runs ends here, and the call returns to its supervisor. -/
def sysExit (status : ℕ) : Call ℕ := do
  if ← gets fun k => k.supervised k.currentPid then throw (.exited (status % 2 ^ 32))
  else pure (encodeError EINVAL)

/-- Who runs meanwhile is another event's matter. -/
def sysYield : Call ℕ := pure 0

def sysTicks : Call ℕ := gets (·.ticks)

def timerHz : ℕ := 100

/-- The product is a `u64`. -/
def sysUptimeMs : Call ℕ := do
  let ticks ← gets (·.ticks)
  demand (ticks * 1000 < 2 ^ 64)
  pure (ticks * 1000 / timerHz)

def sysGetpid : Call ℕ := gets (·.currentPid)

def sysRealmInfo (out : ℕ) : Call ℕ := do
  let pid ← gets (·.currentPid)
  match ← gets (·.currentProfile) with
  | none => pure (encodeError EPERM)
  | some profile =>
    answerWith out (toBytes 8 profile.kind ++ toBytes 8 pid ++ toBytes 8 profile.capabilities) 0

end Programs

section Files

def openWrite : ℕ := 1
def openDirectory : ℕ := 2

def sysOpen (ptr len flags : ℕ) : Call ℕ := requiring .fileRead do
  if flags &&& openWrite ≠ 0 then pure (encodeError ENOTSUP)
  else match ← gets fun k => readUserPath k.space ptr len with
    | .error e => pure e
    | .ok path =>
      match ← gets fun k => FileSystem.lookup k.fs path with
      | none => pure (encodeError ENOENT)
      | some node =>
        if flags &&& openDirectory ≠ 0 ∧ node.isDirectory = false then pure (encodeError ENOTSUP)
        else match OpenFile.new node path with
          | none => pure (encodeError EINVAL)
          | some file => do
            match ← openFile file with
            | some descriptor => pure descriptor
            | none => pure (encodeError ENOMEM)

def sysRead (descriptor ptr len : ℕ) : Call ℕ := do
  if descriptor = stdin then pure 0
  else if descriptor = stdout ∨ descriptor = stderr then pure (encodeError EBADF)
  else match ← gets (getFile · descriptor) with
    | none => pure (encodeError EBADF)
    | some file =>
      if file.node.isDirectory then pure (encodeError ENOTSUP)
      else do
        let fs ← gets (·.fs)
        let data ← FileSystem.read fs file.node file.position (min len maxUserTransfer)
        match ← gets fun k => copyToUser k.space ptr data with
        | none => pure (encodeError EFAULT)
        | some space => do
          modifies fun k => { k with spaces := Function.update k.spaces k.currentPid space }
          let position ← sum 64 file.position data.length
          discard (setFilePosition descriptor position)
          pure data.length

def sysClose (descriptor : ℕ) : Call ℕ := do
  if ← closeFile descriptor then pure 0 else pure (encodeError EBADF)

/-- The additions and subtractions saturate. -/
def seekTarget (file : OpenFile) (offset whence : ℕ) : Option ℕ :=
  match whence with
  | 0 => some (min offset file.node.size)
  | 1 => some (min (min (file.position + offset) (2 ^ 64 - 1)) file.node.size)
  | 2 => some (min (file.node.size - offset) file.node.size)
  | _ => none

def sysSeek (descriptor offset whence : ℕ) : Call ℕ := do
  match ← gets (getFile · descriptor) with
  | none => pure (encodeError EBADF)
  | some file =>
    match seekTarget file offset whence with
    | none => pure (encodeError EINVAL)
    | some position => do
      if ← setFilePosition descriptor position then pure position else pure (encodeError EBADF)

def sysStat (ptr len out : ℕ) : Call ℕ := requiring .fileRead do
  match ← gets fun k => readUserPath k.space ptr len with
  | .error e => pure e
  | .ok path =>
    match ← gets fun k => FileSystem.lookup k.fs path with
    | none => pure (encodeError ENOENT)
    | some node => answerWith out (toBytes 8 node.size ++ toBytes 8 node.isDirectory.toNat) 0

/-- The names that fit, each with a NUL behind it, up to the first that does not. -/
def nameBlock (room : ℕ) : List String → List UInt8 → List UInt8
  | [], out => out
  | child :: rest, out =>
    let name := FileSystem.basename (FileSystem.utf8 child)
    if out.length + name.length + 1 > room then out else nameBlock room rest (out ++ name ++ [0])

def sysReaddir (descriptor ptr len : ℕ) : Call ℕ := do
  match ← gets (getFile · descriptor) with
  | none => pure (encodeError EBADF)
  | some file =>
    if file.node.isDirectory = false then pure (encodeError ENOTSUP)
    else match ← gets fun k => FileSystem.readDir k.fs file.path with
      | none => pure (encodeError ENOENT)
      | some children => do
        let out := nameBlock len children []
        answerWith ptr out out.length

end Files

section Messages

def ipcError (e : Ports.IpcError) : ℕ := encodeError <| match e with
  | .badName => EINVAL
  | .nameTaken => EEXIST
  | .notFound => ENOENT
  | .badHandle => EBADF
  | .tooLarge => EINVAL
  | .wouldBlock => EAGAIN
  | .exhausted => ENOMEM

/-- The answer that a number from the ports, or an error of theirs, comes to. -/
def ipcAnswer (r : Except Ports.IpcError ℕ) : Call ℕ := match r with
  | .ok n => pure n
  | .error e => pure (ipcError e)

def sysPortCreate (ptr len : ℕ) : Call ℕ := requiring .ipcCreate <| forProcess fun pid => do
  match ← gets fun k => readIpcName k.space ptr len with
  | none => pure (encodeError EINVAL)
  | some name => do ipcAnswer (← ipc (Ports.create pid name))

def sysPortConnect (ptr len : ℕ) : Call ℕ := requiring .ipcConnect do
  match ← gets fun k => readIpcName k.space ptr len with
  | none => pure (encodeError EINVAL)
  | some name => do ipcAnswer (← ipc (Ports.connect name))

def sysPortSend (handle ptr len : ℕ) : Call ℕ := requiring .ipcConnect <| forProcess fun pid => do
  if len > Ports.maxMessage then pure (encodeError EINVAL)
  else match ← gets fun k => copyFromUser k.space ptr len with
    | none => pure (encodeError EFAULT)
    | some bytes => do ipcAnswer (← ipc (Ports.send pid handle bytes))

def sysPortRecv (handle ptr len : ℕ) : Call ℕ := forProcess fun pid => do
  match ← ipc (Ports.recv pid handle) with
  | .error e => pure (ipcError e)
  | .ok message =>
    let data := message.bytes.take (min message.bytes.length len)
    answerWith ptr data data.length

def sysPortClose (handle : ℕ) : Call ℕ := forProcess fun pid => do
  match ← ipc (Ports.close pid handle) with
  | .error e => pure (ipcError e)
  | .ok () => pure 0

end Messages

section Screen

def sysSurfaceCreate (width height : ℕ) : Call ℕ := requiring .surfaceCreate do
  match ← gets (·.currentProfile) with
  | none => pure (encodeError EPERM)
  | some profile => do
    let pid ← gets (·.currentPid)
    let mode := if profile.allows .exclusiveScanout then Compositor.SurfaceMode.fullscreen
      else Compositor.SurfaceMode.windowed
    match ← graphics (Compositor.createSurface pid profile.kind width height mode) with
    | some id => pure id
    | none => pure (encodeError ENOMEM)

def presentThrottled : Call Unit := do
  let k ← gets id
  if Compositor.due k.compositor k.ticks then do
    modifies fun k => { k with
      layoutToggle := false
      compositor := { k.compositor with lastPresentTick := k.ticks } }
    graphics (Compositor.present k.layoutToggle)

def sysSurfaceCommit (id ptr len : ℕ) : Call ℕ := forProcess fun pid => do
  match ← gets fun k => Compositor.surfaceGeometry k.compositor id pid with
  | none => pure (encodeError EBADF)
  | some (width, height) => do
    demand (width * height < 2 ^ 64 ∧ width * height * 4 < 2 ^ 64)
    if len ≠ width * height * 4 then pure (encodeError EINVAL)
    else do
      let data ← gets fun k => copyFromUserInto k.space ptr len
      if ← graphics (Compositor.commitSurfaceFromUser id pid len data) then do
        presentThrottled
        pure 0
      else pure (encodeError EFAULT)

def sysSurfaceInfo (id out : ℕ) : Call ℕ := do
  let pid ← gets (·.currentPid)
  match ← gets fun k => Compositor.surfaceGeometry k.compositor id pid with
  | none => pure (encodeError EBADF)
  | some (width, height) => do
    demand (width * 4 < 2 ^ 64)
    answerWith out (toBytes 8 width ++ toBytes 8 height ++ toBytes 8 (width * 4) ++ toBytes 8 4) 0

def eventBytes (e : InputQueue.InputEvent) : List UInt8 :=
  toBytes 8 e.kind ++ toBytes 8 e.code ++ toBytes 8 e.x ++ toBytes 8 e.y

/-- What is polled is gone, also where the copy fails. -/
def sysInputPoll (out count : ℕ) : Call ℕ := requiring .inputRead do
  if min count 64 = 0 then pure 0
  else do
    let (events, input) ← gets fun k => InputQueue.poll (min count 64) k.input
    modifies fun k => { k with input := input }
    if events.length = 0 then pure 0 else answerWith out (events.flatMap eventBytes) events.length

end Screen

def dispatch (number arg1 arg2 arg3 : ℕ) : Call ℕ :=
  match number with
  | 0 => sysExit arg1
  | 1 => sysYield
  | 2 => sysGetpid
  | 16 => sysWrite arg1 arg2 arg3
  | 17 => sysRead arg1 arg2 arg3
  | 18 => sysOpen arg1 arg2 arg3
  | 19 => sysClose arg1
  | 20 => sysSeek arg1 arg2 arg3
  | 21 => sysReaddir arg1 arg2 arg3
  | 22 => sysStat arg1 arg2 arg3
  | 23 => sysWriteCstr arg1
  | 48 => sysPortCreate arg1 arg2
  | 49 => sysPortConnect arg1 arg2
  | 50 => sysPortSend arg1 arg2 arg3
  | 51 => sysPortRecv arg1 arg2 arg3
  | 52 => sysPortClose arg1
  | 64 => sysRealmInfo arg1
  | 65 => sysTicks
  | 66 => sysUptimeMs
  | 80 => sysSurfaceCreate arg1 arg2
  | 81 => sysSurfaceCommit arg1 arg2 arg3
  | 82 => sysSurfaceInfo arg1 arg2
  | 83 => sysInputPoll arg1 arg2
  | _ => pure (encodeError ENOSYS)

section Runs

inductive Event where
  | spawn (profile : RealmProfile) (space : UserSpace)
  | switch (pid : ℕ)
  | enter
  | compute (bytes : ℕ → UInt8)
  | syscall (number arg1 arg2 arg3 : UInt64)
  | fault (exit : ProgramExit)
  | removeSurfaces
  | closePorts
  | tick
  | input (e : InputQueue.InputEvent)
  | toggleLayout
  | mount (fs : FileSystem.Mounted)

def Kernel.call (k : Kernel) (number arg1 arg2 arg3 : UInt64) :
    Option (Except ProgramExit ℕ × Kernel) :=
  (dispatch number.toNat arg1.toNat arg2.toNat arg3.toNat).run k

/-- The supervisor goes on, and the process has its exit status. -/
def Kernel.ended (k : Kernel) (exit : ProgramExit) : Kernel :=
  { k.setProcess fun p => { p with state := .exited exit } with
    supervised := Function.update k.supervised k.currentPid false }

def Kernel.hasExited (k : Kernel) : Bool := match k.currentProcess with
  | some ⟨_, .exited _, _⟩ => true
  | _ => false

/-- What a syscall comes to: an answer, or the end of its program. -/
def settled : Except ProgramExit ℕ × Kernel → Kernel
  | (.ok _, k) => k
  | (.error exit, k) => k.ended exit

/-- A panic has no successor. -/
def next (k : Kernel) : Event → Option Kernel
  | .spawn profile space => some { k with
      nextPid := (k.nextPid + 1) % 2 ^ 64
      processes := Function.update k.processes k.nextPid (some ⟨profile, .ready, []⟩)
      spaces := Function.update k.spaces k.nextPid space
      supervised := Function.update k.supervised k.nextPid false }
  | .switch pid =>
    if pid = 0 ∨ (k.processes pid).isSome then some { k with currentPid := pid } else none
  | .enter =>
    if k.supervised k.currentPid then none
    else some { k.setProcess fun p => { p with state := .running } with
      supervised := Function.update k.supervised k.currentPid true }
  | .compute bytes =>
    if k.supervised k.currentPid then some { k with
      spaces := Function.update k.spaces k.currentPid { k.space with
        bytes := fun a => if k.space.allows true (a / 4096) then bytes a else k.space.bytes a } }
    else none
  | .syscall number arg1 arg2 arg3 =>
    if k.supervised k.currentPid then (k.call number arg1 arg2 arg3).map settled else none
  | .fault exit => if k.supervised k.currentPid then some (k.ended exit) else none
  | .removeSurfaces =>
    if k.hasExited then
      ((graphics (Compositor.removeSurfacesFor k.currentPid)).run k).map Prod.snd
    else none
  | .closePorts =>
    if k.hasExited then some { k with ports := Ports.closeAllFor k.currentPid k.ports } else none
  | .tick => some { k with ticks := (k.ticks + 1) % 2 ^ 64 }
  | .input e => some { k with input := InputQueue.push k.input e }
  | .toggleLayout => some { k with layoutToggle := true }
  | .mount fs => some { k with fs := some fs }

/-- Before the first process. -/
def Booted (k : Kernel) : Prop := ∀ pid, k.processes pid = none

/-- A kernel with no archive and no screen. -/
def boot : Kernel where
  currentPid := 0
  nextPid := 1
  supervised _ := false
  processes _ := none
  spaces _ := ⟨fun _ => false, fun _ => false, fun _ => 0⟩
  fs := none
  ports := ⟨[], 1⟩
  input := InputQueue.empty
  layoutToggle := false
  compositor := ⟨none, [], 1, none, .default, .floating, [], 0, 0, 0⟩
  ticks := 0
  console := []

end Runs

end Syscalls
