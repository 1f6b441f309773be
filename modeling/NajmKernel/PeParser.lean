import NajmKernel.AddressSpaces
import NajmKernel.Outcomes

/-! The PE32+ parser: headers, section table, import directory and base relocations, read from
bytes that may say anything. -/
namespace PeParser

open LittleEndian AddressSpaces Attempts Attempt

def dosMagic : ℕ := 0x5A4D
def peMagic : ℕ := 0x4550
def machineAmd64 : ℕ := 0x8664
def pe32PlusMagic : ℕ := 0x20B
def imageScnMemExecute : ℕ := 0x20000000
def imageScnMemRead : ℕ := 0x40000000
def imageScnMemWrite : ℕ := 0x80000000
def directoryImport : ℕ := 1
def directoryBasereloc : ℕ := 5
def imageRelBasedAbsolute : ℕ := 0
def imageRelBasedDir64 : ℕ := 10
def maxSections : ℕ := 96
def maxImports : ℕ := 512
def maxRelocations : ℕ := 65536

inductive MirageError where
  | notPe (why : String)
  | unimplementedImport (name : String)
  | malformed (why : String)
  | mapping (err : MapError)
  | outOfMemory
  deriving DecidableEq, Repr

structure Section where
  virtualAddress : ℕ
  virtualSize : ℕ
  rawOffset : ℕ
  rawSize : ℕ
  executable : Bool
  writable : Bool
  readable : Bool
  deriving DecidableEq, Repr

structure Import where
  name : String
  iatRva : ℕ
  deriving DecidableEq, Repr

structure Image where
  entryRva : ℕ
  preferredBase : ℕ
  imageSize : ℕ
  headersSize : ℕ
  sections : List Section
  imports : List Import
  relocations : List ℕ
  deriving DecidableEq, Repr

/-- The fields of the headers that `parse` goes on with. -/
structure Headers where
  sectionCount : ℕ
  sectionTable : ℕ
  entryRva : ℕ
  preferredBase : ℕ
  imageSize : ℕ
  headersSize : ℕ
  directoryCount : ℕ
  directories : ℕ

section Text

def isContinuation (b : UInt8) : Bool := decide (0x80 ≤ b ∧ b < 0xC0)

/-- The bytes that may follow the first of a longer sequence, and the length of that sequence. -/
def sequence (b : UInt8) : Option (ℕ × UInt8 × UInt8) :=
  if 0xC2 ≤ b ∧ b < 0xE0 then some (2, 0x80, 0xBF)
  else if b = 0xE0 then some (3, 0xA0, 0xBF)
  else if b = 0xED then some (3, 0x80, 0x9F)
  else if 0xE1 ≤ b ∧ b < 0xF0 then some (3, 0x80, 0xBF)
  else if b = 0xF0 then some (4, 0x90, 0xBF)
  else if 0xF1 ≤ b ∧ b < 0xF4 then some (4, 0x80, 0xBF)
  else if b = 0xF4 then some (4, 0x80, 0x8F)
  else none

/-- How many of the following bytes belong to the sequence that `b` begins. -/
def following (b : UInt8) (rest : List UInt8) : ℕ :=
  match sequence b, rest with
  | some (len, lo, hi), c :: rest =>
    if lo ≤ c ∧ c ≤ hi then 1 + ((rest.take (len - 2)).takeWhile isContinuation).length else 0
  | _, _ => 0

def scalar (b : UInt8) (tail : List UInt8) : ℕ :=
  tail.foldl (fun n c => 64 * n + (c.toNat - 0x80))
    (b.toNat - match tail.length with | 1 => 0xC0 | 2 => 0xE0 | _ => 0xF0)

/-- `String::from_utf8_lossy`: every longest piece that no sequence continues is one U+FFFD. A turn
consumes a byte at least, so that as many turns as there are bytes suffice. -/
def lossyChars : ℕ → List UInt8 → List Char
  | 0, _ => []
  | _, [] => []
  | turns + 1, b :: rest =>
    if b < 0x80 then Char.ofNat b.toNat :: lossyChars turns rest
    else
      let count := following b rest
      let char := match sequence b with
        | some (len, _, _) =>
          if count + 1 = len then Char.ofNat (scalar b (rest.take count)) else '\uFFFD'
        | none => '\uFFFD'
      char :: lossyChars turns (rest.drop count)

def fromUtf8Lossy (bytes : List UInt8) : String := String.ofList (lossyChars bytes.length bytes)

end Text

section Parsing

variable {σ : Type}

/-- `u16_at`, `u32_at` and `u64_at`, by their width. -/
def uintAt (width : ℕ) (bytes : List UInt8) (offset : ℕ) : Attempt σ MirageError ℕ := do
  let stop ← sum 64 offset width
  ensure (stop ≤ bytes.length) (.malformed "read past the end of the image")
  pure (field bytes offset width)

def readHeaders (bytes : List UInt8) : Attempt σ MirageError Headers := do
  ensure (64 ≤ bytes.length) (.notPe "smaller than a DOS header")
  ensure ((← uintAt 2 bytes 0) = dosMagic) (.notPe "no MZ signature")
  let peOffset ← uintAt 4 bytes 0x3C
  ensure ((← sum 64 peOffset 24) ≤ bytes.length)
    (.notPe "PE header offset is outside the file")
  ensure ((← uintAt 4 bytes peOffset) = peMagic) (.notPe "no PE signature at e_lfanew")
  ensure ((← uintAt 2 bytes (peOffset + 4)) = machineAmd64)
    (.notPe ("not an x86_64 image - Mirage runs Windows binaries natively rather than emulating " ++
      "them, so the instruction set has to match the CPU"))
  let sectionCount ← uintAt 2 bytes (peOffset + 6)
  let optionalHeaderSize ← uintAt 2 bytes (peOffset + 20)
  let optionalHeader := peOffset + 24
  ensure (sectionCount ≤ maxSections) (.malformed "implausible section count")
  ensure ((← sum 64 optionalHeader optionalHeaderSize) ≤ bytes.length)
    (.notPe "optional header extends past the file")
  ensure ((← uintAt 2 bytes optionalHeader) = pe32PlusMagic)
    (.notPe ("not PE32+ - a 32-bit PE would need a different address space layout and a 32-bit " ++
      "thunk ABI, neither of which exists here"))
  let entryRva ← uintAt 4 bytes (optionalHeader + 16)
  let preferredBase ← uintAt 8 bytes (optionalHeader + 24)
  let imageSize ← uintAt 4 bytes (optionalHeader + 56)
  let headersSize ← uintAt 4 bytes (optionalHeader + 60)
  let directoryCount ← uintAt 4 bytes (optionalHeader + 108)
  ensure (¬ (imageSize = 0 ∨ imageSize > 512 * 1024 * 1024))
    (.malformed "SizeOfImage is zero or implausibly large")
  ensure (headersSize ≤ bytes.length)
    (.malformed "SizeOfHeaders extends past the end of the file")
  pure ⟨sectionCount, optionalHeader + optionalHeaderSize, entryRva, preferredBase, imageSize,
    headersSize, directoryCount, optionalHeader + 112⟩

def readDirectory (bytes : List UInt8) (h : Headers) (index : ℕ) : Attempt σ MirageError (ℕ × ℕ) :=
  if h.directoryCount ≤ index then pure (0, 0)
  else do
    let rva ← uintAt 4 bytes (h.directories + index * 8)
    pure (rva, ← uintAt 4 bytes (h.directories + index * 8 + 4))

/-- A turn of the loop over the section table. -/
def readSection (bytes : List UInt8) (h : Headers) (sections : List Section) (index : ℕ) :
    Attempt σ MirageError (List Section) := do
  let entry := h.sectionTable + index * 40
  ensure ((← sum 64 entry 40) ≤ bytes.length)
    (.malformed "the section table extends past the end of the file")
  let virtualSize ← uintAt 4 bytes (entry + 8)
  let virtualAddress ← uintAt 4 bytes (entry + 12)
  let rawSize ← uintAt 4 bytes (entry + 16)
  let rawOffset ← uintAt 4 bytes (entry + 20)
  let characteristics ← uintAt 4 bytes (entry + 36)
  ensure (rawSize = 0 ∨ rawOffset + rawSize < 2 ^ 64)
    (.malformed "section file range overflows")
  ensure (rawSize = 0 ∨ rawOffset + rawSize ≤ bytes.length)
    (.malformed "a section's data extends past the end of the file")
  ensure (virtualAddress + max virtualSize 1 < 2 ^ 64)
    (.malformed "section memory range overflows")
  ensure (virtualAddress + max virtualSize 1 ≤ h.imageSize)
    (.malformed "a section extends past SizeOfImage")
  pure (sections ++ [⟨virtualAddress, virtualSize, rawOffset, rawSize,
    decide (characteristics &&& imageScnMemExecute ≠ 0),
    decide (characteristics &&& imageScnMemWrite ≠ 0),
    decide (characteristics &&& imageScnMemRead ≠ 0)⟩])

/-- The loop of `rva_to_offset` over the sections. -/
def sectionOffset (rva : ℕ) : List Section → Attempt σ MirageError (Option ℕ)
  | [] => pure none
  | s :: rest => do
    let stop ← sum 32 s.virtualAddress (max s.virtualSize (s.rawSize % 2 ^ 32))
    if s.virtualAddress ≤ rva ∧ rva < stop then
      if s.rawSize ≤ rva - s.virtualAddress then pure none
      else do pure (some (← sum 64 s.rawOffset (rva - s.virtualAddress)))
    else sectionOffset rva rest

def rvaToOffset (headersSize : ℕ) (sections : List Section) (rva : ℕ) :
    Attempt σ MirageError (Option ℕ) :=
  if rva < headersSize then pure (some rva) else sectionOffset rva sections

/-- `.ok_or` on what `rva_to_offset` returns. -/
def offsetOr (translate : ℕ → Attempt σ MirageError (Option ℕ)) (rva : ℕ) (why : String) :
    Attempt σ MirageError ℕ := do
  match ← translate rva with
  | some offset => pure offset
  | none => throw (.malformed why)

variable (translate : ℕ → Attempt σ MirageError (Option ℕ))

/-- The name behind a lookup entry, from two bytes behind its hint up to a zero byte. -/
def importName (bytes : List UInt8) (entry : ℕ) : Attempt σ MirageError String := do
  let hintName ← offsetOr translate (entry &&& 0x7FFFFFFF) "an import name RVA is unmapped"
  let nameStart ← sum 64 hintName 2
  let rest ← slice bytes nameStart bytes.length
  match rest.findIdx? (· == 0) with
  | none => throw (.malformed
      "an import name is not NUL-terminated before the end of the file")
  | some length => pure (fromUtf8Lossy (← slice bytes nameStart (nameStart + length)))

/-- What the inner loop of `parse_imports` goes on with. -/
structure EntryCursor where
  names : ℕ
  slotRva : ℕ
  imports : List Import

/-- A turn of the inner loop, an entry of a lookup table. -/
def importEntry (bytes : List UInt8) (c : EntryCursor) :
    Attempt σ MirageError (ForInStep EntryCursor) := do
  ensure (c.imports.length < maxImports) (.malformed "implausible number of imports")
  let entry ← uintAt 8 bytes c.names
  if entry = 0 then pure (.done c)
  else do
    ensure (entry &&& 1 <<< 63 = 0)
      (.malformed ("the image imports by ordinal; Mirage resolves imports by name, since there " ++
        "is no DLL export table to index into"))
    let name ← importName translate bytes entry
    let names ← sum 64 c.names 8
    let slotRva ← sum 32 c.slotRva 8
    pure (.yield ⟨names, slotRva, c.imports ++ [⟨name, c.slotRva⟩]⟩)

/-- What the outer loop goes on with. -/
structure DescriptorCursor where
  descriptor : ℕ
  imports : List Import

/-- A turn of the outer loop, a descriptor and its table. -/
def importDescriptor (bytes : List UInt8) (c : DescriptorCursor) :
    Attempt σ MirageError (ForInStep DescriptorCursor) := do
  ensure ((← sum 64 c.descriptor 20) ≤ bytes.length)
    (.malformed "the import descriptor list runs past the end of the file")
  let lookupRva ← uintAt 4 bytes c.descriptor
  let nameRva ← uintAt 4 bytes (c.descriptor + 12)
  let iatRva ← uintAt 4 bytes (c.descriptor + 16)
  if lookupRva = 0 ∧ nameRva = 0 ∧ iatRva = 0 then pure (.done c)
  else do
    let names ← offsetOr translate (if lookupRva ≠ 0 then lookupRva else iatRva)
      "an import lookup table is unmapped"
    let last ← turns (importEntry translate bytes) maxImports ⟨names, iatRva, c.imports⟩
    pure (.yield ⟨c.descriptor + 20, last.imports⟩)

def parseImports (bytes : List UInt8) (directory : ℕ × ℕ) :
    Attempt σ MirageError (List Import) :=
  if directory.1 = 0 then pure []
  else do
    let descriptor ← offsetOr translate directory.1 "the import directory RVA is unmapped"
    let last ← turns (importDescriptor translate bytes) maxImports ⟨descriptor, []⟩
    pure last.imports

/-- What the loop over the entries of a block goes on with. -/
structure RelocationCursor where
  index : ℕ
  relocations : List ℕ

/-- A turn of the loop over the entries of a relocation block. -/
def relocationEntry (bytes : List UInt8) (block pageRva : ℕ) (c : RelocationCursor) :
    Attempt σ MirageError (ForInStep RelocationCursor) := do
  ensure (c.relocations.length < maxRelocations) (.malformed "implausible number of relocations")
  let entry ← uintAt 2 bytes (block + 8 + c.index * 2)
  let kind := entry >>> 12
  let offset := entry &&& 0x0FFF
  if kind = imageRelBasedAbsolute then pure (.yield ⟨c.index + 1, c.relocations⟩)
  else if kind = imageRelBasedDir64 then do
    let rva ← sum 32 pageRva offset
    pure (.yield ⟨c.index + 1, c.relocations ++ [rva]⟩)
  else throw (.malformed ("an unsupported relocation type is present; only 64-bit absolute " ++
    "relocations are handled"))

/-- What the loop over the blocks goes on with. -/
structure BlockCursor where
  block : ℕ
  relocations : List ℕ

/-- A turn of the loop over the blocks of a directory that ends at `stop`. -/
def relocationBlock (bytes : List UInt8) (stop : ℕ) (c : BlockCursor) :
    Attempt σ MirageError (ForInStep BlockCursor) := do
  if (← sum 64 c.block 8) ≤ stop then do
    let pageRva ← uintAt 4 bytes c.block
    let blockSize ← uintAt 4 bytes (c.block + 4)
    ensure (¬ (blockSize < 8 ∨ c.block + blockSize > stop))
      (.malformed "a relocation block has a bad size")
    let last ← turns (relocationEntry bytes c.block pageRva) ((blockSize - 8) / 2)
      ⟨0, c.relocations⟩
    pure (.yield ⟨c.block + blockSize, last.relocations⟩)
  else pure (.done c)

/-- A block is eight bytes at least, so that the loop has ended after as many turns as there are
bytes in the directory. -/
def parseRelocations (bytes : List UInt8) (directory : ℕ × ℕ) :
    Attempt σ MirageError (List ℕ) :=
  if directory.1 = 0 ∨ directory.2 = 0 then pure []
  else do
    let start ← offsetOr translate directory.1 "the relocation directory is unmapped"
    ensure (start + directory.2 < 2 ^ 64 ∧ start + directory.2 ≤ bytes.length)
      (.malformed "the relocation directory extends past the end of the file")
    let last ← turns (relocationBlock bytes (start + directory.2)) directory.2 ⟨start, []⟩
    pure last.relocations

end Parsing

def parse {σ : Type} (bytes : List UInt8) : Attempt σ MirageError Image := do
  let h ← readHeaders bytes
  let sections ← (List.range h.sectionCount).foldlM (readSection bytes h) []
  let imports ← parseImports (rvaToOffset h.headersSize sections) bytes
    (← readDirectory bytes h directoryImport)
  let relocations ← parseRelocations (rvaToOffset h.headersSize sections) bytes
    (← readDirectory bytes h directoryBasereloc)
  pure ⟨h.entryRva, h.preferredBase, h.imageSize, h.headersSize, sections, imports, relocations⟩

end PeParser
