import Mathlib.Algebra.Group.Nat.Defs
import Mathlib.Data.Nat.Bits

/-! The realms: a kind, and the rights that a process placed in one of it holds. -/
namespace Realms

/-- `capability_bits`. -/
inductive Right where
  | serialWrite
  | timerRead
  | fileRead
  | fileWrite
  | processSpawn
  | ipcCreate
  | ipcConnect
  | surfaceCreate
  | inputRead
  | exclusiveScanout
  deriving DecidableEq, Repr

def Right.bit : Right → ℕ
  | .serialWrite => 0
  | .timerRead => 1
  | .fileRead => 2
  | .fileWrite => 3
  | .processSpawn => 4
  | .ipcCreate => 5
  | .ipcConnect => 6
  | .surfaceCreate => 7
  | .inputRead => 8
  | .exclusiveScanout => 9

def realmHome : ℕ := 0
def realmGaming : ℕ := 1
def realmVault : ℕ := 2
def realmSystem : ℕ := 3

structure RealmProfile where
  kind : ℕ
  capabilities : ℕ
  deriving DecidableEq, Repr

def RealmProfile.allows (p : RealmProfile) (right : Right) : Bool := p.capabilities.testBit right.bit

def mask (rights : List Right) : ℕ := rights.foldl (fun c right => c ||| 1 <<< right.bit) 0

def home : RealmProfile :=
  ⟨realmHome, mask [.serialWrite, .timerRead, .fileRead, .ipcCreate, .ipcConnect, .surfaceCreate,
    .inputRead]⟩

def gaming : RealmProfile :=
  ⟨realmGaming, mask [.serialWrite, .timerRead, .fileRead, .surfaceCreate, .inputRead,
    .exclusiveScanout]⟩

def vault : RealmProfile := ⟨realmVault, mask [.timerRead, .fileRead, .fileWrite, .surfaceCreate]⟩

/-- No process is placed in it. -/
def system : RealmProfile := ⟨realmSystem, 2 ^ 64 - 1⟩

end Realms
