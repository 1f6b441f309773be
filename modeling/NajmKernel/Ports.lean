import NajmKernel.PeParser

/-! Named ports that carry messages from any process to their owner. -/
namespace Ports

open Attempts Attempt

def maxName : ℕ := 64
def maxMessage : ℕ := 4096
def queueDepth : ℕ := 32
def maxPorts : ℕ := 128

structure Message where
  sender : ℕ
  bytes : List UInt8
  deriving DecidableEq, Repr

structure Port where
  handle : ℕ
  name : String
  owner : ℕ
  queue : List Message
  dropped : ℕ
  deriving DecidableEq, Repr

/-- The live ports, in the order of their handles, and the handle that the next one gets. -/
structure Table where
  ports : List Port
  nextHandle : ℕ
  deriving DecidableEq, Repr

inductive IpcError where
  | badName
  | nameTaken
  | notFound
  | badHandle
  | tooLarge
  | wouldBlock
  | exhausted
  deriving DecidableEq, Repr

def nameIsValid (name : List UInt8) : Bool :=
  name != [] && decide (name.length ≤ maxName) && !name.contains 0 &&
    name.all fun b => decide (0x21 ≤ b ∧ b ≤ 0x7E)

def Table.find (t : Table) (handle : ℕ) : Option Port := t.ports.find? fun p => p.handle == handle

/-- `BTreeMap::insert` of a port under its handle. -/
def Table.insert (t : Table) (p : Port) : Table :=
  { t with ports := t.ports.filter (fun q => decide (q.handle < p.handle)) ++
      p :: t.ports.filter fun q => decide (p.handle < q.handle) }

/-- A change to the port of a handle. -/
def Table.modify (t : Table) (handle : ℕ) (f : Port → Port) : Table :=
  { t with ports := t.ports.map fun p => if p.handle = handle then f p else p }

def create (owner : ℕ) (name : List UInt8) : Attempt Table IpcError ℕ := of fun t => some <|
  if nameIsValid name = false then (.error .badName, t)
  else if maxPorts ≤ t.ports.length then (.error .exhausted, t)
  else if t.ports.any fun p => p.name == PeParser.fromUtf8Lossy name then (.error .nameTaken, t)
  else
    let handle := t.nextHandle
    let t := { t with nextHandle := (t.nextHandle + 1) % 2 ^ 64 }
    (.ok handle, t.insert ⟨handle, PeParser.fromUtf8Lossy name, owner, [], 0⟩)

def connect (name : List UInt8) : Attempt Table IpcError ℕ := of fun t => some <|
  if nameIsValid name = false then (.error .badName, t)
  else match t.ports.find? fun p => p.name == PeParser.fromUtf8Lossy name with
    | none => (.error .notFound, t)
    | some port => (.ok port.handle, t)

/-- A message to a full queue is counted, and the count is a sum. -/
def send (sender handle : ℕ) (bytes : List UInt8) : Attempt Table IpcError ℕ := of fun t =>
  if bytes.length > maxMessage then some (.error .tooLarge, t)
  else match t.find handle with
    | none => some (.error .badHandle, t)
    | some port =>
      if queueDepth ≤ port.queue.length then
        if port.dropped + 1 < 2 ^ 64 then
          some (.error .wouldBlock, t.modify handle fun p => { p with dropped := p.dropped + 1 })
        else none
      else some (.ok bytes.length,
        t.modify handle fun p => { p with queue := p.queue ++ [⟨sender, bytes⟩] })

def recv (receiver handle : ℕ) : Attempt Table IpcError Message := of fun t => some <|
  match t.find handle with
  | none => (.error .badHandle, t)
  | some port =>
    if port.owner ≠ receiver then (.error .badHandle, t)
    else match port.queue with
      | [] => (.error .wouldBlock, t)
      | m :: queue => (.ok m, t.modify handle fun p => { p with queue := queue })

def close (owner handle : ℕ) : Attempt Table IpcError Unit := of fun t => some <|
  match t.find handle with
  | none => (.error .badHandle, t)
  | some port =>
    if port.owner = owner then
      (.ok (), { t with ports := t.ports.filter fun p => p.handle != handle })
    else (.error .badHandle, t)

def closeAllFor (owner : ℕ) (t : Table) : Table :=
  { t with ports := t.ports.filter fun p => p.owner != owner }

end Ports
