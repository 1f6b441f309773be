import Mathlib.Algebra.Group.Nat.Defs
import Mathlib.Data.Int.Notation
import NajmKernel.InputQueue
import NajmKernel.TransitionSystem

/-! The keyboard and the mouse: what the bytes of their interrupts put into the ring of events. -/
namespace InputDrivers

open InputQueue

def keyDown : ℕ := 1
def keyUp : ℕ := 2
def pointerMotion : ℕ := 3
def pointerButtonDown : ℕ := 4
def pointerButtonUp : ℕ := 5

def scancodeF1 : ℕ := 0x3B

/-- `packet` has the bytes of a mouse report so far. -/
structure Driver where
  queue : EventQueue
  pointer : ℕ × ℕ
  bounds : ℕ × ℕ
  layoutToggle : Bool
  packet : List UInt8
  previousButtons : UInt8

section Keyboard

def isRelease (scancode : UInt8) : Bool := scancode &&& 0x80 != 0

def keyOf (scancode : UInt8) : ℕ := (scancode &&& 0x7F).toNat

def onScancode (d : Driver) (scancode : UInt8) : Driver :=
  let released := isRelease scancode
  let code := keyOf scancode
  if released = false ∧ code = scancodeF1 then { d with layoutToggle := true }
  else { d with queue := push d.queue ⟨if released then keyUp else keyDown, code, 0, 0⟩ }

end Keyboard

section Mouse

/-- What a sum of 64-bit numbers is as a signed one. -/
def asI64 (x : ℤ) : ℤ := x.bmod (2 ^ 64)

/-- A coordinate within the screen, or any that is not negative where the screen is not known. -/
def clamp (coordinate : ℤ) (bound : ℕ) : ℕ :=
  let coordinate := (max coordinate 0).toNat
  if 0 < bound then min coordinate (bound - 1) else coordinate

/-- A movement by its byte and the sign in the flags. -/
def movement (flags sign byte : UInt8) : ℤ :=
  if flags &&& sign ≠ 0 then (byte.toNat : ℤ) - 256 else byte.toNat

/-- What `on_mouse_byte` does with the third byte of a report. -/
def onPacket (d : Driver) (flags second third : UInt8) : Driver :=
  let dx := movement flags 0x10 second
  let dy := movement flags 0x20 third
  if flags &&& 0xC0 ≠ 0 then d
  else
    let x := clamp (asI64 (d.pointer.1 + dx)) d.bounds.1
    let y := clamp (asI64 (d.pointer.2 - dy)) d.bounds.2
    let d := { d with pointer := (x, y) }
    let d := if dx ≠ 0 ∨ dy ≠ 0 then { d with queue := push d.queue ⟨pointerMotion, 0, x, y⟩ } else d
    let buttons := flags &&& 0x07
    let changed := buttons ^^^ d.previousButtons
    let kind := if buttons &&& changed ≠ 0 then pointerButtonDown else pointerButtonUp
    let d := if changed ≠ 0 then { d with queue := push d.queue ⟨kind, changed.toNat, x, y⟩ } else d
    { d with previousButtons := buttons }

def onMouseByte (d : Driver) (byte : UInt8) : Driver :=
  match d.packet with
  | [flags, second] => onPacket { d with packet := [] } flags second byte
  | packet =>
    if packet = [] ∧ byte &&& 0x08 = 0 then d
    else { d with packet := packet ++ [byte] }

end Mouse

section Sessions

/-- The driver, with what the programs have received of it and the scancodes it has been given. -/
structure Session where
  driver : Driver
  received : List InputEvent
  scancodes : List UInt8

inductive Event where
  | scancode (byte : UInt8)
  | mouseByte (byte : UInt8)
  | poll (count : ℕ)
  | takeLayoutToggle
  deriving DecidableEq, Repr

def next (s : Session) : Event → Option Session
  | .scancode byte => some { s with
      driver := onScancode s.driver byte, scancodes := s.scancodes ++ [byte] }
  | .mouseByte byte => some { s with driver := onMouseByte s.driver byte }
  | .poll count =>
    let (events, queue) := poll count s.driver.queue
    some { s with driver := { s.driver with queue }, received := s.received ++ events }
  | .takeLayoutToggle => some { s with driver := { s.driver with layoutToggle := false } }

/-- After `set_bounds`, before any input. -/
def boot (width height : ℕ) : Session :=
  ⟨⟨InputQueue.empty, (width / 2, height / 2), (width, height), false, [], 0⟩, [], []⟩

end Sessions

end InputDrivers
