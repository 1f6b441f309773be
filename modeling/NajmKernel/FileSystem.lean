import NajmKernel.Attempts

/-! The read-only namespace of the mounted archive: paths, lookups, reads and directory lists. -/
namespace FileSystem

open Attempts Attempt

def maxPath : ℕ := 120

def slash : UInt8 := 0x2F

/-- `as_bytes`. -/
def utf8 (s : String) : List UInt8 := s.toUTF8.data.toList

/-- Absolute, without a NUL, and without an empty, a `.` or a `..` component. -/
def pathIsValid (path : List UInt8) : Bool :=
  if path = [] ∨ path.length > maxPath then false
  else if path.head? ≠ some slash then false
  else if path.contains 0 then false
  else if path = [slash] then true
  else (path.splitOn slash).tail.all fun c => c != [] && c != [0x2E] && c != [0x2E, 0x2E]

/-- The final component of a path. -/
def basename (path : List UInt8) : List UInt8 :=
  (path.reverse.takeWhile (· != slash)).reverse

structure Node where
  offset : ℕ
  len : ℕ
  isDirectory : Bool
  deriving DecidableEq, Repr

def Node.size (n : Node) : ℕ := n.len

/-- The nodes stand in the order of their paths. -/
structure Mounted where
  nodes : List (String × Node)
  archive : List UInt8
  deriving DecidableEq

def lookup (fs : Option Mounted) (path : String) : Option Node := do
  let fs ← fs
  let (_, node) ← fs.nodes.find? fun n => n.1 == path
  pure node

/-- The bytes that a read of at most `count` delivers. -/
def read {σ ε : Type} (fs : Option Mounted) (node : Node) (offset count : ℕ) :
    Attempt σ ε (List UInt8) :=
  if node.isDirectory ∨ node.len ≤ offset then pure []
  else match fs with
    | none => pure []
    | some fs => do
      let want := min (node.len - offset) count
      let start ← sum 64 node.offset offset
      let stop ← sum 64 start want
      pure (if stop > fs.archive.length then [] else (fs.archive.drop start).take want)

/-- What `strip_prefix` leaves of a path. -/
def stripPrefix (lead path : String) : Option (List Char) :=
  if lead.toList.isPrefixOf path.toList then some (path.toList.drop lead.length) else none

/-- The immediate children of a directory, as full paths. -/
def readDir (fs : Option Mounted) (path : String) : Option (List String) := do
  let fs ← fs
  let (_, node) ← fs.nodes.find? fun n => n.1 == path
  guard node.isDirectory
  let lead := if path = "/" then "/" else path.push '/'
  pure ((fs.nodes.map Prod.fst).filter fun candidate => candidate != path &&
    match stripPrefix lead candidate with
    | none => false
    | some rest => rest != [] && !rest.contains '/')

end FileSystem
