import Mathlib.Data.List.Sort
import Mathlib.Data.String.Basic
import NajmKernel.FileSystem
import NajmKernel.LittleEndian
import NajmKernel.Utf8

/-! The archives of the boot image: how the build script packs files into one, and how the kernel
mounts one. -/
namespace FileSystem

open Attempts Attempt LittleEndian

section Format

/-- The bytes of `NAJMAR`, and two zeros. -/
def archiveMagic : List UInt8 := [0x4E, 0x41, 0x4A, 0x4D, 0x41, 0x52, 0, 0]
def archiveVersion : ℕ := 1
def headerSize : ℕ := 24
def entrySize : ℕ := 24 + maxPath
def flagDirectory : ℕ := 1

/-- The parent directory of a path, up to its last slash. -/
def parentOf (path : List UInt8) : Option (List UInt8) :=
  if path = [slash] ∨ path = [] then none
  else if path.contains slash then
    let cut := path.length - (basename path).length - 1
    some (if cut = 0 then [slash] else path.take cut)
  else none

/-- A map's insertion of a key that it does not have. -/
def insertNew {β : Type} (key : String) (value : β) (l : List (String × β)) : List (String × β) :=
  l.orderedInsert (fun a b => a.1 ≤ b.1) (key, value)

end Format

section Mounting

inductive MountError where
  | tooSmall
  | badMagic
  | unsupportedVersion (version : ℕ)
  | entryOutOfBounds (index : ℕ)
  | badPath (index : ℕ)
  | duplicatePath (index : ℕ)
  deriving DecidableEq, Repr

variable {σ ε : Type}

/-- `read_u32` and `read_u64`, by their width. -/
def readUint (width : ℕ) (bytes : List UInt8) (start : ℕ) : Attempt σ ε ℕ := do
  pure (ofBytes (← slice bytes start (start + width)))

/-- A turn of the loop over the entries. -/
def mountEntry (bytes : List UInt8) (nodes : List (String × Node)) (index : ℕ) :
    Attempt σ MountError (List (String × Node)) := do
  let start := headerSize + index * entrySize
  let offset ← readUint 8 bytes start
  let len ← readUint 8 bytes (start + 8)
  let flags ← readUint 4 bytes (start + 16)
  let pathLen ← readUint 4 bytes (start + 20)
  ensure (pathLen ≤ maxPath) (.badPath index)
  let path ← slice bytes (start + 24) (start + 24 + pathLen)
  ensure (pathIsValid path = true) (.badPath index)
  let isDirectory := flags &&& flagDirectory != 0
  if isDirectory then ensure (len = 0) (.entryOutOfBounds index)
  else do
    ensure (offset + len < 2 ^ 64) (.entryOutOfBounds index)
    ensure (offset + len ≤ bytes.length) (.entryOutOfBounds index)
  let path := PeParser.fromUtf8Lossy path
  ensure (path ∉ nodes.map Prod.fst) (.duplicatePath index)
  pure (insertNew path ⟨offset, len, isDirectory⟩ nodes)

/-- The state is the mounted archive; the answer is the number of its nodes. -/
def mount (bytes : List UInt8) : Attempt (Option Mounted) MountError ℕ := do
  ensure (headerSize ≤ bytes.length) .tooSmall
  ensure ((← slice bytes 0 8) = archiveMagic) .badMagic
  let version ← readUint 4 bytes 8
  ensure (version = archiveVersion) (.unsupportedVersion version)
  let count ← readUint 4 bytes 12
  ensure (count * entrySize < 2 ^ 64) .tooSmall
  ensure (headerSize + count * entrySize < 2 ^ 64) .tooSmall
  ensure (headerSize + count * entrySize ≤ bytes.length) .tooSmall
  let nodes ← (List.range count).foldlM (mountEntry bytes) []
  let nodes := if "/" ∈ nodes.map Prod.fst then nodes else insertNew "/" ⟨0, 0, true⟩ nodes
  of fun _ => some (.ok nodes.length, some ⟨nodes, bytes⟩)

def readAll (fs : Option Mounted) (path : String) : Attempt σ ε (Option (List UInt8)) :=
  match lookup fs path with
  | none => pure none
  | some node =>
    if node.isDirectory then pure none
    else do pure (some (← read fs node 0 node.len))

end Mounting

section Building

/-- The loop up from a path: every parent joins the set, up to the root. A parent is shorter, so
that as many turns as the path has bytes suffice. -/
def insertParents {σ ε : Type} : ℕ → List UInt8 → List String → Attempt σ ε (List String)
  | 0, _, directories => pure directories
  | turns + 1, current, directories =>
    match parentOf current with
    | none => pure directories
    | some parent => match Utf8.fromUtf8 parent with
      | none => abort
      | some text =>
        let directory := String.ofList text
        let directories := if directory ∈ directories then directories
          else directories.orderedInsert (· ≤ ·) directory
        if directory = "/" then pure directories else insertParents turns parent directories

/-- The contents of each path, and `none` for a directory. -/
abbrev Contents := List (String × Option (List UInt8))

def insertFile {σ ε : Type} (contents : Contents) (file : String × List UInt8) :
    Attempt σ ε Contents := do
  demand (pathIsValid (utf8 file.1) = true)
  demand (file.1 ∉ contents.map Prod.fst)
  pure (insertNew file.1 (some file.2) contents)

/-- The offset and the length of each entry's data, behind what is laid out before it. -/
def layOut (start : ℕ) : Contents → List (ℕ × ℕ)
  | [] => []
  | (_, none) :: rest => (0, 0) :: layOut start rest
  | (_, some data) :: rest => (start, data.length) :: layOut (start + data.length) rest

def blob (contents : Contents) : List UInt8 := contents.flatMap fun entry => entry.2.getD []

/-- An entry of the table, with its path padded to the fixed size. -/
def encodeEntry (path : String) (isDirectory : Bool) (place : ℕ × ℕ) : List UInt8 :=
  let entry := toBytes 8 place.1 ++ toBytes 8 place.2 ++
    toBytes 4 (if isDirectory then flagDirectory else 0) ++ toBytes 4 (utf8 path).length ++ utf8 path
  entry.take entrySize ++ List.replicate (entrySize - entry.length) 0

/-- `build_archive`, whose assertions panic. -/
def buildArchive {σ ε : Type} (files : List (String × List UInt8)) : Attempt σ ε (List UInt8) := do
  let directories ← files.foldlM
    (fun directories file => insertParents (utf8 file.1).length (utf8 file.1) directories) ["/"]
  let contents ← files.foldlM insertFile (directories.map fun directory => (directory, none))
  let entryCount := contents.length
  let dataStart := headerSize + entryCount * entrySize
  let totalLen := dataStart + (blob contents).length
  demand (totalLen < 2 ^ 63)
  let header := archiveMagic ++ toBytes 4 archiveVersion ++ toBytes 4 entryCount ++
    toBytes 8 totalLen
  let table := (contents.zip (layOut dataStart contents)).flatMap fun (entry, place) =>
    encodeEntry entry.1 entry.2.isNone place
  demand ((header ++ table).length = dataStart)
  pure (header ++ table ++ blob contents)

end Building

end FileSystem
