import NajmKernel.LittleEndian
import NajmKernel.Realms
import NajmKernel.Sha256
import NajmKernel.Utf8

/-! The packages of the store: the manifest and the payload behind a header, the digest over both,
and the realm that a package gets. -/
namespace PackageStore

open Attempts Attempt LittleEndian Realms

section Manifests

structure Manifest where
  id : String
  name : String
  version : String
  publisher : String
  entry : String
  requestedRealm : ℕ
  requestedCapabilities : ℕ
  deriving DecidableEq, Repr

/-- Unicode's `White_Space`. -/
def isWhitespace (c : Char) : Bool :=
  let n := c.toNat
  decide (0x9 ≤ n ∧ n ≤ 0xD ∨ n = 0x20 ∨ n = 0x85 ∨ n = 0xA0 ∨ n = 0x1680 ∨
    0x2000 ≤ n ∧ n ≤ 0x200A ∨ n = 0x2028 ∨ n = 0x2029 ∨ n = 0x202F ∨ n = 0x205F ∨ n = 0x3000)

def trim (text : List Char) : List Char :=
  ((text.dropWhile isWhitespace).reverse.dropWhile isWhitespace).reverse

/-- `str::lines`: a return before the newline goes with it, and nothing behind the last newline is
no line. -/
def lines (text : List Char) : List (List Char) :=
  let pieces := text.splitOn '\n'
  let ended := pieces.dropLast.map fun line =>
    if line.getLast? = some '\r' then line.dropLast else line
  match pieces.getLast? with
  | none | some [] => ended
  | some last => ended ++ [last]

def splitOnce (c : Char) (text : List Char) : Option (List Char × List Char) :=
  if text.contains c then some (text.takeWhile (· != c), (text.dropWhile (· != c)).tail) else none

def capabilityBit (name : String) : Option Right :=
  match name with
  | "serial_write" => some .serialWrite
  | "timer_read" => some .timerRead
  | "file_read" => some .fileRead
  | "file_write" => some .fileWrite
  | "process_spawn" => some .processSpawn
  | "ipc_create" => some .ipcCreate
  | "ipc_connect" => some .ipcConnect
  | "surface_create" => some .surfaceCreate
  | "input_read" => some .inputRead
  | "exclusive_scanout" => some .exclusiveScanout
  | _ => none

/-- The match on a line's key. -/
def Manifest.set (m : Manifest) (key value : String) : Manifest :=
  match key with
  | "id" => { m with id := value }
  | "name" => { m with name := value }
  | "version" => { m with version := value }
  | "publisher" => { m with publisher := value }
  | "entry" => { m with entry := value }
  | "realm" => { m with requestedRealm := match value with
      | "gaming" => realmGaming
      | "vault" => realmVault
      | _ => realmHome }
  | "capability" => match capabilityBit value with
    | some right =>
      { m with requestedCapabilities := m.requestedCapabilities ||| 1 <<< right.bit }
    | none => m
  | _ => m

/-- A turn of the loop over the lines. -/
def Manifest.readLine (m : Manifest) (line : List Char) : Manifest :=
  let line := trim line
  if line = [] ∨ line.head? = some '#' then m
  else match splitOnce '=' line with
    | none => m
    | some (key, value) => m.set (String.ofList (trim key)) (String.ofList (trim value))

def Manifest.parse (text : List Char) : Option Manifest :=
  let manifest := (lines text).foldl Manifest.readLine ⟨"", "", "", "", "", realmHome, 0⟩
  if manifest.id = "" ∨ manifest.entry = "" then none else some manifest

end Manifests

section Packages

inductive SignatureStatus where
  | absent
  | unverified
  | verified
  deriving DecidableEq, Repr

structure Verdict where
  manifest : Manifest
  integrityOk : Bool
  signature : SignatureStatus
  grantedRealm : RealmProfile
  requestDenied : Bool
  deriving DecidableEq, Repr

inductive StoreError where
  | tooSmall
  | badMagic
  | unsupportedVersion (version : ℕ)
  | malformed (why : String)
  | badManifest
  deriving DecidableEq, Repr

/-- The bytes of `NAJMPKG`, and a zero. -/
def magic : List UInt8 := [0x4E, 0x41, 0x4A, 0x4D, 0x50, 0x4B, 0x47, 0]
def version : ℕ := 1
def headerSize : ℕ := 48

/-- The realm by the signature's status, before the integrity is looked at. -/
def grantedBy (signature : SignatureStatus) (requested : ℕ) : RealmProfile :=
  match signature with
  | .verified =>
    if requested = realmVault then vault else if requested = realmGaming then gaming else home
  | _ => home

/-- `verify`, where `verifySignature` stands for the function of its name. -/
def verifyWith {σ : Type} (verifySignature : List UInt8 → Manifest → SignatureStatus)
    (bytes : List UInt8) : Attempt σ StoreError Verdict := do
  ensure (headerSize ≤ bytes.length) .tooSmall
  ensure ((← slice bytes 0 8) = magic) .badMagic
  let found := ofBytes (← slice bytes 8 12)
  ensure (found = version) (.unsupportedVersion found)
  let manifestLen := ofBytes (← slice bytes 12 16)
  let expectedDigest ← slice bytes 16 48
  let body ← slice bytes headerSize bytes.length
  ensure (manifestLen ≤ body.length)
    (.malformed "the manifest length extends past the end of the package")
  let actualDigest ← Sha256.digest body
  let integrityOk := Sha256.digestsEqual actualDigest expectedDigest
  match Utf8.fromUtf8 (← slice body 0 manifestLen) with
  | none => throw (.malformed "the manifest is not valid UTF-8")
  | some text => match Manifest.parse text with
    | none => throw .badManifest
    | some manifest =>
      let signature := verifySignature bytes manifest
      let effective := if integrityOk then grantedBy signature manifest.requestedRealm else home
      pure ⟨manifest, integrityOk, signature, effective,
        decide (manifest.requestedRealm ≠ effective.kind)⟩

def verifySignature (_bytes : List UInt8) (_manifest : Manifest) : SignatureStatus := .absent

def verify {σ : Type} (bytes : List UInt8) : Attempt σ StoreError Verdict :=
  verifyWith verifySignature bytes

def effectiveProfile (verdict : Verdict) : RealmProfile :=
  let profile := verdict.grantedRealm
  if verdict.manifest.requestedCapabilities ≠ 0 then
    { profile with
      capabilities := profile.capabilities &&& verdict.manifest.requestedCapabilities }
  else profile

def payload {σ : Type} (bytes : List UInt8) : Attempt σ StoreError (List UInt8) := do
  ensure (headerSize ≤ bytes.length) .tooSmall
  let manifestLen := ofBytes (← slice bytes 12 16)
  let start ← sum 64 headerSize manifestLen
  ensure (start ≤ bytes.length) (.malformed "the payload starts past the end")
  slice bytes start bytes.length

def computeDigest {σ ε : Type} (manifest payload : List UInt8) : Attempt σ ε (List UInt8) := do
  let hasher ← Sha256.update .new manifest
  Sha256.finish (← Sha256.update hasher payload)

end Packages

end PackageStore
