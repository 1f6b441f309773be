import NajmKernel.ElfLoader
import NajmKernel.PeParser

/-! Mirage's loader for PE images: the whole image mapped writable and filled, its relocations
applied, its imports bound to generated thunks, and its sections tightened one by one. -/
namespace Mirage

open LittleEndian PhysicalMemory PageTables PhysicalFrames AddressSpaces Attempts Attempt
  SpaceBuilding PeParser ElfLoader

section Thunks

/-- What a Win32 import is bound to. -/
structure Thunk where
  name : String
  syscall : ℕ
  args : ℕ
  deriving DecidableEq, Repr

def sysExit : ℕ := 0
def sysYield : ℕ := 1
def sysWriteCstr : ℕ := 23
def sysUptimeMs : ℕ := 66

def thunks : List Thunk :=
  [⟨"ExitProcess", sysExit, 1⟩, ⟨"GetTickCount", sysUptimeMs, 0⟩, ⟨"Sleep", sysYield, 1⟩,
    ⟨"OutputDebugStringA", sysWriteCstr, 1⟩]

def lookup (name : String) : Option Thunk := thunks.find? fun t => t.name == name

def thunkStride : ℕ := 32

/-- Register moves, the system call and a return, with NOPs behind them. -/
def generateThunk (t : Thunk) : List UInt8 :=
  let code := (if 1 ≤ t.args then [0x48, 0x89, 0xCF] else []) ++
    (if 2 ≤ t.args then [0x48, 0x89, 0xD6] else []) ++
    (if 3 ≤ t.args then [0x4C, 0x89, 0xC2] else []) ++
    [0x48, 0xC7, 0xC0] ++ toBytes 4 t.syscall ++ [0xCD, 0x80] ++ [0xC3]
  code ++ List.replicate (thunkStride - code.length) 0x90

end Thunks

def mirageImageBase : ℕ := 0x200000000000

def imagePages (image : Image) : ℕ := (image.imageSize + 4095) / 4096

def thunkBase (image : Image) : ℕ := mirageImageBase + imagePages image * 4096

def thunkFlags : PageTableFlags := .present ||| .userAccessible

section Filling

def mapImage (X : Mapper) (image : Image) : Attempt Building MirageError Unit := do
  (List.range (imagePages image)).foldlM (fun _ i => do
    virtAddr (mirageImageBase + i * 4096)
    mapPage .mapping X ((mirageImageBase + i * 4096) / 4096) loadFlags) ()
  zeroAt .mapping mirageImageBase (imagePages image * 4096)

/-- A turn of the loop that copies the sections. -/
def copySection (bytes : List UInt8) (t : Section) : Attempt Building MirageError Unit :=
  if t.rawSize = 0 then pure ()
  else do
    let stop ← sum 64 t.rawOffset t.rawSize
    writeAt .mapping (mirageImageBase + t.virtualAddress) (← slice bytes t.rawOffset stop)

/-- A turn of the loop over the relocations; the number is read and written in the frame. -/
def relocate (delta rva : ℕ) : Attempt Building MirageError Unit := do
  let addr := mirageImageBase + rva
  let frame ← of fun b => match b.space.translate b.system.bytes addr with
    | none => some (.error (.malformed "a relocation points outside the mapped image"), b)
    | some frame => some (.ok frame, b)
  ensure (¬ addr % 4096 > 4096 - 8) (.malformed "a relocation straddles a page boundary")
  of fun b =>
    let value := ofBytes (b.system.bytes.read frame (addr % 4096) 8)
    some (.ok (), ⟨b.space, { b.system with
      bytes := b.system.bytes.write frame (addr % 4096) (toBytes 8 (value + delta)) }⟩)

def applyRelocations (image : Image) : Attempt Building MirageError Unit :=
  let delta := (mirageImageBase + (2 ^ 64 - image.preferredBase)) % 2 ^ 64
  if delta = 0 ∨ image.relocations = [] then pure ()
  else image.relocations.foldlM (fun _ rva => relocate delta rva) ()

end Filling

section Binding

def thunkAddress (image : Image) (index : ℕ) : ℕ := thunkBase image + index * thunkStride

/-- A turn of the loop of `bind_imports`. -/
def bindImport (image : Image) (i : Import × ℕ) : Attempt Building MirageError Unit :=
  match lookup i.1.name with
  | none => throw (.unimplementedImport i.1.name)
  | some thunk => do
    ensure (¬ thunkAddress image i.2 + thunkStride > thunkBase image + 4096)
      (.malformed "too many imports to fit in one page of thunks")
    writeAt .mapping (thunkAddress image i.2) (generateThunk thunk)
    writeAt .mapping (mirageImageBase + i.1.iatRva) (toBytes 8 (thunkAddress image i.2))

def bindImports (X : Mapper) (image : Image) : Attempt Building MirageError Unit := do
  virtAddr (thunkBase image)
  mapPage .mapping X (thunkBase image / 4096) loadFlags
  zeroAt .mapping (thunkBase image) 4096
  image.imports.zipIdx.foldlM (fun _ i => bindImport image i) ()
  protectPage .mapping X (thunkBase image / 4096) thunkFlags

end Binding

section Tightening

def sectionFlags (nx : Bool) (t : Section) : PageTableFlags :=
  let flags : PageTableFlags := .present ||| .userAccessible
  let flags := if t.writable then flags ||| .writable else flags
  if !t.executable && nx then flags ||| .noExecute else flags

def firstPage (t : Section) : ℕ := t.virtualAddress / 4096

def lastPage (t : Section) : ℕ := (t.virtualAddress + max t.virtualSize 1 - 1) / 4096

/-- The pages of a section, as distances from the image's first. -/
def sectionPages (t : Section) : List ℕ := List.range' (firstPage t) (lastPage t + 1 - firstPage t)

/-- A turn of the loop that tightens the sections. -/
def protectSection (X : Mapper) (nx : Bool) (t : Section) : Attempt Building MirageError Unit := do
  ensure (¬ (t.writable = true ∧ t.executable = true)) (.malformed
    ("a section requests both write and execute permission; Najm OS enforces W^X, so a " ++
      "self-modifying or packed image cannot run"))
  (sectionPages t).foldlM (fun _ i => do
    virtAddr (mirageImageBase + i * 4096)
    protectPage .mapping X ((mirageImageBase + i * 4096) / 4096) (sectionFlags nx t)) ()

end Tightening

/-- The work on the new space. -/
def buildImage (X : Mapper) (nx : Bool) (bytes : List UInt8) (image : Image) :
    Attempt Building MirageError Unit := do
  mapImage X image
  writeAt .mapping mirageImageBase (← slice bytes 0 (min image.headersSize bytes.length))
  image.sections.foldlM (fun _ t => copySection bytes t) ()
  applyRelocations image
  bindImports X image
  image.sections.foldlM (fun _ t => protectSection X nx t) ()
  mapStack .mapping X nx

/-- The loop that looks for an import that nothing implements. -/
def checkImports {σ : Type} (image : Image) : Attempt σ MirageError Unit :=
  image.imports.foldlM (fun _ i => ensure ((lookup i.name).isSome = true)
    (.unimplementedImport i.name)) ()

def loadImage (X : Mapper) (cr3 : Frame) (nx : Bool) (bytes : List UInt8) (name : String) :
    Attempt System MirageError LoadedImage := do
  let image ← parse bytes
  checkImports image
  let space ← newSpace cr3 .outOfMemory
  let ((), space) ← building space (buildImage X nx bytes image)
  pure ⟨name, mirageImageBase + image.entryRva, SpaceBuilding.stackTop - 64, space⟩

end Mirage
