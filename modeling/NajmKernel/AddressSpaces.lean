import NajmKernel.PhysicalFrames

/-! Address spaces as the kernel builds them: a root that shares the kernel's upper half, pages
mapped one by one below it, bytes written through the frames behind them, and the frames owned. -/
namespace AddressSpaces

open PhysicalMemory PageTables PhysicalFrames

def userSpaceEnd : ℕ := 0x7ffffffff000

def isUserAddress (addr : ℕ) : Bool := decide (addr < userSpaceEnd)

/-- What `VirtAddr::try_new` accepts. -/
def isCanonical (addr : ℕ) : Bool :=
  decide (addr < 2 ^ 47 ∨ 2 ^ 64 - 2 ^ 47 ≤ addr ∧ addr < 2 ^ 64)

/-- `mapTo` and `updateFlags` carry the error of the paging library. -/
inductive MapError where
  | notUserAddress (addr : ℕ)
  | notUserAccessible (addr : ℕ)
  | outOfMemory
  | notMapped (addr : ℕ)
  | mapTo (err : MapToError)
  | updateFlags (err : FlagUpdateError)
  deriving DecidableEq, Repr

structure System where
  bytes : Memory
  frames : FrameAllocator

/-- `ownedFrames` are the frames below the root, tables and leaves, as they were taken. -/
structure AddressSpace where
  root : Frame
  ownedFrames : List Frame
  deriving DecidableEq, Repr

structure TrackingAllocator where
  inner : FrameAllocator
  allocated : List Frame
  deriving DecidableEq, Repr

def TrackingAllocator.allocateFrame (t : TrackingAllocator) : Option Frame × TrackingAllocator :=
  match t.inner.allocateFrame with
  | (some frame, inner) => (some frame, ⟨inner, t.allocated ++ [frame]⟩)
  | (none, inner) => (none, ⟨inner, t.allocated⟩)

namespace AddressSpace

/-- The entries from index 256 on are the upper 2048 bytes of a table. -/
def copyKernelHalf (m : Memory) (root kernelRoot : Frame) : Memory := fun f o =>
  if f = root then if 2048 ≤ o then m kernelRoot o else 0 else m f o

def kernelEntries (m : Memory) (kernelRoot : Frame) : ℕ :=
  (List.range' 256 256).countP fun i => (entry m kernelRoot i).flags.contains .present

/-- `new`, with the root that CR3 holds. The outer `none` is the failed assertion. -/
def new (cr3 : Frame) (s : System) : Option (Option AddressSpace × System) :=
  match s.frames.allocateFrame with
  | (none, frames) => some (none, { s with frames })
  | (some root, frames) =>
    if 0 < kernelEntries s.bytes cr3 then
      some (some ⟨root, []⟩, ⟨copyKernelHalf s.bytes root cr3, frames⟩)
    else none

/-- The outer `none` is a panic of the paging library. -/
def mapPage (X : Mapper) (space : AddressSpace) (page : ℕ) (flags : PageTableFlags) (s : System) :
    Option (Except MapError Unit × AddressSpace × System) :=
  let addr := 4096 * page
  if isUserAddress addr = false then some (.error (.notUserAddress addr), space, s)
  else if flags.contains .userAccessible = false then
    some (.error (.notUserAccessible addr), space, s)
  else
    match s.frames.allocateFrame with
    | (none, frames) => some (.error .outOfMemory, space, { s with frames })
    | (some frame, frames) =>
      match X.mapTo TrackingAllocator.allocateFrame space.root page frame flags s.bytes
        ⟨frames, []⟩ with
      | none => none
      | some (.ok (), bytes, tracker) =>
        some (.ok (), { space with
          ownedFrames := space.ownedFrames ++ frame :: tracker.allocated }, ⟨bytes, tracker.inner⟩)
      | some (.error err, bytes, tracker) =>
        some (.error (.mapTo err), { space with
          ownedFrames := space.ownedFrames ++ tracker.allocated }, ⟨bytes, tracker.inner⟩)

def protectPage (X : Mapper) (space : AddressSpace) (page : ℕ) (flags : PageTableFlags)
    (s : System) : Except MapError Unit × System :=
  let addr := 4096 * page
  if isUserAddress addr = false then (.error (.notUserAddress addr), s)
  else
    match X.updateFlags space.root page flags s.bytes with
    | (.ok (), bytes) => (.ok (), { s with bytes })
    | (.error err, bytes) => (.error (.updateFlags err), { s with bytes })

/-- The walk of `translate` from a table of level `l`. -/
def translateFrom (m : Memory) : ℕ → Frame → ℕ → Option Frame
  | 0, frame, _ => some frame
  | l + 1, table, page =>
    let e := entry m table (index (l + 1) page)
    if e.flags.contains .present = false then none
    else if l ≠ 0 ∧ e.flags.contains .hugePage = true then none
    else translateFrom m l e.frame page

def translate (space : AddressSpace) (m : Memory) (addr : ℕ) : Option Frame :=
  if isCanonical addr then translateFrom m 4 space.root (addr / 4096) else none

/-- The loop of `write_at` and `zero_at`: `content start count` are the bytes put at `start`. A
turn moves at least one byte, so that as many turns as there are bytes suffice. -/
def transfer (space : AddressSpace) (addr len : ℕ) (content : ℕ → ℕ → List UInt8) :
    ℕ → ℕ → Memory → Except MapError Unit × Memory
  | 0, _, m => (.ok (), m)
  | turns + 1, done, m =>
    if done < len then
      let target := addr + done
      let pageOffset := target % 4096
      let chunk := min (4096 - pageOffset) (len - done)
      match space.translate m target with
      | none => (.error (.notMapped target), m)
      | some frame =>
        transfer space addr len content turns (done + chunk)
          (m.write frame pageOffset (content done chunk))
    else (.ok (), m)

def writeAt (space : AddressSpace) (addr : ℕ) (bytes : List UInt8) (m : Memory) :
    Except MapError Unit × Memory :=
  transfer space addr bytes.length (fun start count => (bytes.drop start).take count) bytes.length
    0 m

def zeroAt (space : AddressSpace) (addr len : ℕ) (m : Memory) : Except MapError Unit × Memory :=
  transfer space addr len (fun _ count => List.replicate count 0) len 0 m

/-- The frames that `drop` releases, in order. -/
def frames (space : AddressSpace) : List Frame := space.ownedFrames ++ [space.root]

def drop (space : AddressSpace) (s : System) : System :=
  { s with frames := space.frames.foldl FrameAllocator.release s.frames }

end AddressSpace

end AddressSpaces
