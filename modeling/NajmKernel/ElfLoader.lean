import NajmKernel.SpaceBuilding

/-! The ELF loader: the header validated, a space of its own, every loadable segment mapped
writable, zeroed, filled and tightened, and a stack. -/
namespace ElfLoader

open LittleEndian PhysicalMemory PageTables PhysicalFrames AddressSpaces Attempts Attempt
  SpaceBuilding

def elfMagic : List UInt8 := [0x7F, 0x45, 0x4C, 0x46]
def elfClass64 : ℕ := 2
def elfData2Lsb : ℕ := 1
def etExec : ℕ := 2
def emX8664 : ℕ := 0x3E
def ptLoad : ℕ := 1
def pfX : ℕ := 1
def pfW : ℕ := 2
def pfR : ℕ := 4

inductive LoadError where
  | notAnElf (why : String)
  | badSegment (index vaddr : ℕ) (reason : String)
  | mapping (err : MapError)
  | outOfMemory
  deriving DecidableEq, Repr

structure LoadedImage where
  name : String
  entry : ℕ
  stackTop : ℕ
  addressSpace : AddressSpace

structure ElfHeader where
  entry : ℕ
  phoff : ℕ
  phentsize : ℕ
  phnum : ℕ
  deriving DecidableEq

structure ProgramHeader where
  pType : ℕ
  pFlags : ℕ
  pOffset : ℕ
  pVaddr : ℕ
  pFilesz : ℕ
  pMemsz : ℕ
  deriving DecidableEq

/-- A program header that is to be loaded, with the permissions it ends up with. -/
structure Segment where
  index : ℕ
  header : ProgramHeader
  finalFlags : PageTableFlags

def segmentFlags (pFlags : ℕ) (nxAvailable : Bool) : Except String PageTableFlags :=
  let readable := decide (pFlags &&& pfR ≠ 0)
  let writable := decide (pFlags &&& pfW ≠ 0)
  let executable := decide (pFlags &&& pfX ≠ 0)
  if readable = false then
    .error "segment is not readable - x86_64 paging cannot express that"
  else if writable && executable then
    .error ("segment requests both write and execute permission; Najm OS enforces W^X, so a " ++
      "writable segment can never be executable. Split it into separate PT_LOAD segments " ++
      "on page boundaries.")
  else
    let flags : PageTableFlags := .present ||| .userAccessible
    let flags := if writable then flags ||| .writable else flags
    .ok (if !executable && nxAvailable then flags ||| .noExecute else flags)

section Parsing

variable {σ : Type}

/-- `read_u16`, `read_u32` and `read_u64`, by their width. -/
def readUint (width : ℕ) (bytes : List UInt8) (offset : ℕ) : Attempt σ LoadError ℕ := do
  demand (offset + width < 2 ^ 64)
  pure (ofBytes (← slice bytes offset (offset + width)))

def parseHeader (bytes : List UInt8) : Attempt σ LoadError ElfHeader := do
  ensure (64 ≤ bytes.length) (.notAnElf "smaller than an ELF64 header")
  ensure ((← slice bytes 0 4) = elfMagic) (.notAnElf "wrong magic number")
  ensure ((← readUint 1 bytes 4) = elfClass64) (.notAnElf "not 64-bit")
  ensure ((← readUint 1 bytes 5) = elfData2Lsb) (.notAnElf "not little-endian")
  ensure ((← readUint 2 bytes 16) = etExec)
    (.notAnElf "not ET_EXEC - PIE and dynamic linking are not supported")
  ensure ((← readUint 2 bytes 18) = emX8664) (.notAnElf "not x86_64")
  let phoff ← readUint 8 bytes 32
  let phentsize ← readUint 2 bytes 54
  let phnum ← readUint 2 bytes 56
  ensure (56 ≤ phentsize)
    (.notAnElf "program header entries are too small to contain the fields the loader reads")
  ensure (phnum * phentsize < 2 ^ 64) (.notAnElf "program header table size overflows")
  ensure (phoff + phnum * phentsize < 2 ^ 64)
    (.notAnElf "program header table offset overflows")
  ensure (phoff + phnum * phentsize ≤ bytes.length)
    (.notAnElf "program header table extends past the end of the image")
  pure ⟨← readUint 8 bytes 24, phoff, phentsize, phnum⟩

/-- The checks on a `PT_LOAD` header: `none` where there is nothing to load. -/
def checkSegment (nxAvailable : Bool) (bytes : List UInt8) (i : ℕ) (h : ProgramHeader) :
    Attempt σ LoadError (Option Segment) :=
  match segmentFlags h.pFlags nxAvailable with
  | .error reason => throw (.badSegment i h.pVaddr reason)
  | .ok finalFlags => do
    ensure (isUserAddress h.pVaddr = true)
      (.badSegment i h.pVaddr "load address is outside user space")
    ensure (h.pFilesz ≤ h.pMemsz) (.badSegment i h.pVaddr "file size exceeds memory size")
    ensure (h.pOffset + h.pFilesz < 2 ^ 64)
      (.badSegment i h.pVaddr "file offset + size overflows")
    ensure (h.pOffset + h.pFilesz ≤ bytes.length)
      (.badSegment i h.pVaddr "segment extends past the end of the image")
    ensure (h.pVaddr + h.pMemsz < 2 ^ 64) (.badSegment i h.pVaddr "vaddr + memsz overflows")
    pure (if h.pMemsz = 0 then none else some ⟨i, h, finalFlags⟩)

/-- A turn of the segment loop up to its last `continue`. -/
def readSegment (nxAvailable : Bool) (bytes : List UInt8) (header : ElfHeader) (i : ℕ) :
    Attempt σ LoadError (Option Segment) := do
  demand (header.phoff + i * header.phentsize < 2 ^ 64)
  let phOffset := header.phoff + i * header.phentsize
  let pType ← readUint 4 bytes phOffset
  if pType ≠ ptLoad then pure none
  else do
    let pFlags ← readUint 4 bytes (phOffset + 4)
    let pOffset ← readUint 8 bytes (phOffset + 8)
    let pVaddr ← readUint 8 bytes (phOffset + 16)
    let pFilesz ← readUint 8 bytes (phOffset + 32)
    let pMemsz ← readUint 8 bytes (phOffset + 40)
    checkSegment nxAvailable bytes i ⟨pType, pFlags, pOffset, pVaddr, pFilesz, pMemsz⟩

end Parsing

section Loading

variable (X : Mapper) (R : PageRange)

def nextPage (page : ℕ) : Attempt Building LoadError Unit :=
  of fun b => (R.advance page).map fun _ => (.ok (), b)

/-- A turn of the loop over the pages of a segment; `mappedPages` lists all pages so far. -/
def mapSegmentPage (seg : Segment) (mappedPages : List ℕ) (page : ℕ) :
    Attempt Building LoadError (List ℕ) := do
  nextPage R page
  ensure (page ∉ mappedPages) (.badSegment seg.index (4096 * page)
    ("two segments share a page, so they cannot have different " ++
      "permissions - page-align them in the linker script"))
  mapPage .mapping X page loadFlags
  pure (mappedPages ++ [page])

def ProgramHeader.startPage (h : ProgramHeader) : ℕ := h.pVaddr / 4096

def ProgramHeader.endPage (h : ProgramHeader) : ℕ := (h.pVaddr + h.pMemsz - 1) / 4096

/-- `Page::range_inclusive` from the first to the last page. -/
def ProgramHeader.pages (h : ProgramHeader) : List ℕ :=
  List.range' h.startPage (h.endPage + 1 - h.startPage)

def placeSegment (bytes : List UInt8) (seg : Segment) (mappedPages : List ℕ) :
    Attempt Building LoadError (List ℕ) := do
  let h := seg.header
  virtAddr h.pVaddr
  virtAddr (h.pVaddr + h.pMemsz - 1)
  let mappedPages ← h.pages.foldlM (mapSegmentPage X R seg) mappedPages
  zeroAt .mapping (4096 * h.startPage) (4096 * h.endPage + 4096 - 4096 * h.startPage)
  let contents ← slice bytes h.pOffset (h.pOffset + h.pFilesz)
  writeAt .mapping h.pVaddr contents
  h.pages.foldlM (fun _ page => do
    nextPage R page
    protectPage .mapping X page seg.finalFlags) ()
  pure mappedPages

def loadSegment (nxAvailable : Bool) (bytes : List UInt8) (header : ElfHeader)
    (mappedPages : List ℕ) (i : ℕ) : Attempt Building LoadError (List ℕ) := do
  match ← readSegment nxAvailable bytes header i with
  | none => pure mappedPages
  | some seg => placeSegment X R bytes seg mappedPages

def buildImage (nxAvailable : Bool) (bytes : List UInt8) (header : ElfHeader) :
    Attempt Building LoadError Unit := do
  let _ ← (List.range header.phnum).foldlM (loadSegment X R nxAvailable bytes header) []
  mapStack .mapping X nxAvailable

def loadImage (cr3 : Frame) (nxAvailable : Bool) (bytes : List UInt8) (name : String) :
    Attempt System LoadError LoadedImage := do
  let header ← parseHeader bytes
  let space ← newSpace cr3 .outOfMemory
  let ((), space) ← building space (buildImage X R nxAvailable bytes header)
  pure ⟨name, header.entry, SpaceBuilding.stackTop, space⟩

end Loading

end ElfLoader
