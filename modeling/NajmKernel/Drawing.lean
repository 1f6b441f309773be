import NajmKernel.Compositor

/-! A frame, as it is drawn: the desktop, the surfaces, the pointer, and last the trust bar. -/
namespace Compositor

open Framebuffers
open Attempts Attempt

variable {ε : Type}

section Surfaces

/-- The pixel of a place in the surface, blue in its lowest byte. -/
def Surface.pixelAt (s : Surface) (localX localY : ℕ) : Option Colour :=
  let i := (localY * s.width + localX) * 4
  if i + 3 < s.pixels.length then
    some ⟨s.pixels.getD (i + 2) 0, s.pixels.getD (i + 1) 0, s.pixels.getD i 0⟩
  else none

/-- The part of a surface that is drawn. -/
def Surface.clip (s : Surface) (content : Rect) : Rect :=
  let top := max s.y content.y
  ⟨s.x, top, min (s.x + s.width) content.width - s.x,
    min (s.y + s.height) (content.y + content.height) - top⟩

def drawSurface (fb : Framebuffer) (theme : Theme) (s : Surface) : Attempt Screen ε Unit := do
  demand (s.x + s.width < 2 ^ 64 ∧ s.y + s.height < 2 ^ 64)
  let clip := s.clip (contentRegion fb)
  (List.range' clip.y clip.height).forM fun row =>
    (List.range' clip.x clip.width).forM fun column => do
      demand ((row - s.y) * s.width + (column - s.x) < 2 ^ 64)
      match s.pixelAt (column - s.x) (row - s.y) with
      | none => abort
      | some pixel => setPixel fb column row pixel
  if s.mode = .windowed ∧ 0 < clip.width ∧ 0 < clip.height then
    strokeRect fb clip.x clip.y clip.width clip.height (theme.accentForRealm s.realmKind)

end Surfaces

section Pointer

/-- A wedge of twelve rows with an outline. -/
def drawPointer (fb : Framebuffer) (theme : Theme) (x y : ℕ) : Attempt Screen ε Unit :=
  (List.range 12).forM fun row => (List.range (12 - row)).forM fun column =>
    if column > row + 6 then pure ()
    else do
      let right ← sum 64 x column
      let below ← sum 64 y row
      setPixel fb right below <|
        if column = 0 ∨ column = 11 - row ∨ row = 11 then theme.pointerEdge else theme.pointerFill

end Pointer

section TrustBar

def realmLabel (kind : ℕ) : String :=
  match kind with
  | 1 => "GAMING REALM"
  | 2 => "VAULT REALM - VERIFIED PUBLISHER"
  | 3 => "SYSTEM"
  | _ => "HOME REALM"

def block : ℕ := 10
def gap : ℕ := 3

/-- The blocks of the boot signature, from left to right. -/
def drawSignature (fb : Framebuffer) (signature : List Colour) : Attempt Screen ε Unit := do
  let _ ← signature.foldlM (fun x colour => do
    fillRect fb x 5 block 10 colour
    sum 64 x (block + gap)) (fb.width - (signature.length * (block + gap) + 8))

def drawTrustBar (fb : Framebuffer) (theme : Theme) (focusedRealm : Option ℕ)
    (signature : List Colour) : Attempt Screen ε Unit := do
  fillRect fb 0 0 fb.width trustBarHeight theme.trustBar
  fillRect fb 0 (trustBarHeight - 1) fb.width 1 theme.trustBarEdge
  let (label, accent) := match focusedRealm with
    | some kind => (realmLabel kind, theme.accentForRealm kind)
    | none => ("NAJM OS", theme.trustBarText)
  fillRect fb 6 5 10 10 accent
  drawText fb 22 7 label theme.trustBarText
  drawSignature fb signature

end TrustBar

section Frames

/-- The realm of the surface that has the focus. -/
def focusedRealm (c : State) : Option ℕ := do
  let id ← c.focused
  let s ← c.surfaces.find? fun s => s.id == id
  pure s.realmKind

def drawFrame (fb : Framebuffer) (c : State) (pointer : ℕ × ℕ) : Attempt Screen ε Unit := do
  let content := contentRegion fb
  fillRect fb 0 content.y content.width content.height c.theme.desktop
  c.surfaces.forM (drawSurface fb c.theme)
  drawPointer fb c.theme pointer.1 pointer.2
  drawTrustBar fb c.theme (focusedRealm c) c.signature

def onState {α : Type} (x : Attempt State ε α) : Attempt (State × Screen) ε α :=
  of fun (c, s) => (x.run c).map fun (r, c) => (r, (c, s))

def onScreen {α : Type} (x : Attempt Screen ε α) : Attempt (State × Screen) ε α :=
  of fun (c, s) => (x.run s).map fun (r, s) => (r, (c, s))

/-- `present` with what it draws. -/
def presentOn (toggle : Bool) (pointer : ℕ × ℕ) : Attempt (State × Screen) ε Unit := do
  if toggle then onState toggleLayout
  let c ← onState (of fun c => some (.ok c, c))
  match c.framebuffer with
  | none => pure ()
  | some fb => do
    onScreen (drawFrame fb c pointer)
    onState do
      let frames ← sum 64 c.frames 1
      of fun c => some (.ok (), { c with frames := frames })

end Frames

end Compositor
