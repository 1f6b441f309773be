import NajmKernel.Attempts

/-! The framebuffer: its bytes, its pixels, and the shapes and letters that are drawn into it. -/
namespace Framebuffers

open Attempts Attempt

structure Colour where
  r : UInt8
  g : UInt8
  b : UInt8
  deriving DecidableEq, Repr

inductive PixelFormat where
  | rgb
  | bgr
  | u8
  | other
  deriving DecidableEq, Repr

structure Framebuffer where
  width : ℕ
  height : ℕ
  stride : ℕ
  bytesPerPixel : ℕ
  format : PixelFormat
  len : ℕ
  deriving DecidableEq, Repr

/-- What the boot loader reports of a framebuffer. -/
structure Framebuffer.Mapped (fb : Framebuffer) : Prop where
  pixels : 1 ≤ fb.bytesPerPixel
  rows : fb.width * fb.bytesPerPixel ≤ fb.stride
  mapping : fb.height * fb.stride ≤ fb.len
  addressed : fb.len < 2 ^ 64

theorem Framebuffer.Mapped.size {fb : Framebuffer} (h : fb.Mapped) :
    fb.width * fb.height < 2 ^ 64 := by
  have hwidth : fb.width ≤ fb.stride :=
    Nat.le_trans (Nat.le_mul_of_pos_right _ h.pixels) h.rows
  have harea : fb.width * fb.height ≤ fb.height * fb.stride := by
    rw [Nat.mul_comm]
    exact Nat.mul_le_mul_left _ hwidth
  exact Nat.lt_of_le_of_lt (Nat.le_trans harea h.mapping) h.addressed

/-- The bytes of the mapping, by their offsets. -/
abbrev Screen := ℕ → UInt8

section Pixels

def luma (c : Colour) : UInt8 :=
  UInt8.ofNat ((c.r.toNat * 77 + c.g.toNat * 150 + c.b.toNat * 29) >>> 8)

/-- The bytes that are written of a colour. -/
def Framebuffer.packed (fb : Framebuffer) (c : Colour) : List UInt8 :=
  match fb.format with
  | .rgb => c.r :: [c.g, c.b].take (fb.bytesPerPixel - 1)
  | .bgr => c.b :: [c.g, c.r].take (fb.bytesPerPixel - 1)
  | .u8 => [luma c]
  | .other => List.replicate fb.bytesPerPixel c.g

def Framebuffer.offset (fb : Framebuffer) (x y : ℕ) : ℕ := y * fb.stride + x * fb.bytesPerPixel

def write (s : Screen) (offset : ℕ) (bytes : List UInt8) : Screen :=
  fun i => if offset ≤ i ∧ i < offset + bytes.length then bytes.getD (i - offset) 0 else s i

variable {ε : Type}

def setPixel (fb : Framebuffer) (x y : ℕ) (c : Colour) : Attempt Screen ε Unit :=
  if fb.width ≤ x ∨ fb.height ≤ y then pure ()
  else do
    demand (y * fb.stride < 2 ^ 64 ∧ x * fb.bytesPerPixel < 2 ^ 64 ∧
      fb.offset x y + fb.bytesPerPixel < 2 ^ 64)
    if fb.len < fb.offset x y + fb.bytesPerPixel then pure ()
    else of fun s => some (.ok (), write s (fb.offset x y) (fb.packed c))

def fillRect (fb : Framebuffer) (x y width height : ℕ) (c : Colour) : Attempt Screen ε Unit := do
  let right ← sum 64 x width
  let bottom ← sum 64 y height
  (List.range' y (min bottom fb.height - y)).forM fun row =>
    (List.range' x (min right fb.width - x)).forM fun column => setPixel fb column row c

def strokeRect (fb : Framebuffer) (x y width height : ℕ) (c : Colour) : Attempt Screen ε Unit :=
  if width = 0 ∨ height = 0 then pure ()
  else do
    fillRect fb x y width 1 c
    demand (y + height < 2 ^ 64)
    fillRect fb x (y + height - 1) width 1 c
    fillRect fb x y 1 height c
    demand (x + width < 2 ^ 64)
    fillRect fb (x + width - 1) y 1 height c

end Pixels

section Text

def glyphHeight : ℕ := 7
def advance : ℕ := 6

/-- From the space to the tilde, five columns each. -/
def glyphs : List (List UInt8) := [
  [0x00, 0x00, 0x00, 0x00, 0x00], [0x00, 0x00, 0x5F, 0x00, 0x00], [0x00, 0x07, 0x00, 0x07, 0x00],
  [0x14, 0x7F, 0x14, 0x7F, 0x14], [0x24, 0x2A, 0x7F, 0x2A, 0x12], [0x23, 0x13, 0x08, 0x64, 0x62],
  [0x36, 0x49, 0x55, 0x22, 0x50], [0x00, 0x05, 0x03, 0x00, 0x00], [0x00, 0x1C, 0x22, 0x41, 0x00],
  [0x00, 0x41, 0x22, 0x1C, 0x00], [0x14, 0x08, 0x3E, 0x08, 0x14], [0x08, 0x08, 0x3E, 0x08, 0x08],
  [0x00, 0x50, 0x30, 0x00, 0x00], [0x08, 0x08, 0x08, 0x08, 0x08], [0x00, 0x60, 0x60, 0x00, 0x00],
  [0x20, 0x10, 0x08, 0x04, 0x02], [0x3E, 0x51, 0x49, 0x45, 0x3E], [0x00, 0x42, 0x7F, 0x40, 0x00],
  [0x42, 0x61, 0x51, 0x49, 0x46], [0x21, 0x41, 0x45, 0x4B, 0x31], [0x18, 0x14, 0x12, 0x7F, 0x10],
  [0x27, 0x45, 0x45, 0x45, 0x39], [0x3C, 0x4A, 0x49, 0x49, 0x30], [0x01, 0x71, 0x09, 0x05, 0x03],
  [0x36, 0x49, 0x49, 0x49, 0x36], [0x06, 0x49, 0x49, 0x29, 0x1E], [0x00, 0x36, 0x36, 0x00, 0x00],
  [0x00, 0x56, 0x36, 0x00, 0x00], [0x00, 0x08, 0x14, 0x22, 0x41], [0x14, 0x14, 0x14, 0x14, 0x14],
  [0x41, 0x22, 0x14, 0x08, 0x00], [0x02, 0x01, 0x51, 0x09, 0x06], [0x32, 0x49, 0x79, 0x41, 0x3E],
  [0x7E, 0x11, 0x11, 0x11, 0x7E], [0x7F, 0x49, 0x49, 0x49, 0x36], [0x3E, 0x41, 0x41, 0x41, 0x22],
  [0x7F, 0x41, 0x41, 0x22, 0x1C], [0x7F, 0x49, 0x49, 0x49, 0x41], [0x7F, 0x09, 0x09, 0x01, 0x01],
  [0x3E, 0x41, 0x41, 0x51, 0x32], [0x7F, 0x08, 0x08, 0x08, 0x7F], [0x00, 0x41, 0x7F, 0x41, 0x00],
  [0x20, 0x40, 0x41, 0x3F, 0x01], [0x7F, 0x08, 0x14, 0x22, 0x41], [0x7F, 0x40, 0x40, 0x40, 0x40],
  [0x7F, 0x02, 0x04, 0x02, 0x7F], [0x7F, 0x04, 0x08, 0x10, 0x7F], [0x3E, 0x41, 0x41, 0x41, 0x3E],
  [0x7F, 0x09, 0x09, 0x09, 0x06], [0x3E, 0x41, 0x51, 0x21, 0x5E], [0x7F, 0x09, 0x19, 0x29, 0x46],
  [0x46, 0x49, 0x49, 0x49, 0x31], [0x01, 0x01, 0x7F, 0x01, 0x01], [0x3F, 0x40, 0x40, 0x40, 0x3F],
  [0x1F, 0x20, 0x40, 0x20, 0x1F], [0x7F, 0x20, 0x18, 0x20, 0x7F], [0x63, 0x14, 0x08, 0x14, 0x63],
  [0x03, 0x04, 0x78, 0x04, 0x03], [0x61, 0x51, 0x49, 0x45, 0x43], [0x00, 0x7F, 0x41, 0x41, 0x00],
  [0x02, 0x04, 0x08, 0x10, 0x20], [0x00, 0x41, 0x41, 0x7F, 0x00], [0x04, 0x02, 0x01, 0x02, 0x04],
  [0x40, 0x40, 0x40, 0x40, 0x40], [0x00, 0x01, 0x02, 0x04, 0x00], [0x20, 0x54, 0x54, 0x54, 0x78],
  [0x7F, 0x48, 0x44, 0x44, 0x38], [0x38, 0x44, 0x44, 0x44, 0x20], [0x38, 0x44, 0x44, 0x48, 0x7F],
  [0x38, 0x54, 0x54, 0x54, 0x18], [0x08, 0x7E, 0x09, 0x01, 0x02], [0x0C, 0x52, 0x52, 0x52, 0x3E],
  [0x7F, 0x08, 0x04, 0x04, 0x78], [0x00, 0x44, 0x7D, 0x40, 0x00], [0x20, 0x40, 0x44, 0x3D, 0x00],
  [0x7F, 0x10, 0x28, 0x44, 0x00], [0x00, 0x41, 0x7F, 0x40, 0x00], [0x7C, 0x04, 0x18, 0x04, 0x78],
  [0x7C, 0x08, 0x04, 0x04, 0x78], [0x38, 0x44, 0x44, 0x44, 0x38], [0x7C, 0x14, 0x14, 0x14, 0x08],
  [0x08, 0x14, 0x14, 0x18, 0x7C], [0x7C, 0x08, 0x04, 0x04, 0x08], [0x48, 0x54, 0x54, 0x54, 0x20],
  [0x04, 0x3F, 0x44, 0x40, 0x20], [0x3C, 0x40, 0x40, 0x20, 0x1C], [0x1C, 0x20, 0x40, 0x20, 0x1C],
  [0x3C, 0x40, 0x30, 0x40, 0x3C], [0x44, 0x28, 0x10, 0x28, 0x44], [0x0C, 0x50, 0x50, 0x50, 0x3C],
  [0x44, 0x64, 0x54, 0x4C, 0x44], [0x00, 0x08, 0x36, 0x41, 0x00], [0x00, 0x00, 0x7F, 0x00, 0x00],
  [0x00, 0x41, 0x36, 0x08, 0x00], [0x08, 0x04, 0x08, 0x10, 0x08]]

def unknown : List UInt8 := [0x7F, 0x7F, 0x7F, 0x7F, 0x7F]

def glyph (character : Char) : List UInt8 :=
  if 0x20 ≤ character.toNat ∧ character.toNat ≤ 0x7E then glyphs.getD (character.toNat - 0x20) []
  else unknown

variable {ε : Type}

/-- A column of a glyph, by its bits. -/
def drawColumn (fb : Framebuffer) (x y : ℕ) (bits : UInt8) (c : Colour) : Attempt Screen ε Unit :=
  (List.range glyphHeight).forM fun row =>
    if bits.toNat.testBit row then do
      let y ← sum 64 y row
      setPixel fb x y c
    else pure ()

def drawText (fb : Framebuffer) (x y : ℕ) (text : String) (c : Colour) :
    Attempt Screen ε Unit := do
  let _ ← text.toList.foldlM (fun cursor character => do
    (glyph character).zipIdx.forM fun (bits, column) => do
      let x ← sum 64 cursor column
      drawColumn fb x y bits c
    sum 64 cursor advance) x

end Text

section Themes

structure Theme where
  desktop : Colour
  trustBar : Colour
  trustBarEdge : Colour
  trustBarText : Colour
  accentHome : Colour
  accentGaming : Colour
  accentVault : Colour
  accentSystem : Colour
  pointerFill : Colour
  pointerEdge : Colour
  deriving DecidableEq, Repr

def Theme.default : Theme where
  desktop := ⟨0x10, 0x14, 0x1C⟩
  trustBar := ⟨0x06, 0x08, 0x0C⟩
  trustBarEdge := ⟨0x2A, 0x33, 0x44⟩
  trustBarText := ⟨0xE8, 0xEE, 0xF7⟩
  accentHome := ⟨0x3A, 0x86, 0xFF⟩
  accentGaming := ⟨0xF7, 0x25, 0x85⟩
  accentVault := ⟨0x4C, 0xC9, 0x7C⟩
  accentSystem := ⟨0xFF, 0xD1, 0x66⟩
  pointerFill := ⟨0xFF, 0xFF, 0xFF⟩
  pointerEdge := ⟨0x1A, 0x1A, 0x1A⟩

def Theme.accentForRealm (t : Theme) (kind : ℕ) : Colour :=
  match kind with
  | 1 => t.accentGaming
  | 2 => t.accentVault
  | 3 => t.accentSystem
  | _ => t.accentHome

end Themes

end Framebuffers
