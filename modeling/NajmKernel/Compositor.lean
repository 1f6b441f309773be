import NajmKernel.Framebuffers

/-! The surfaces of the processes and their places on the screen. -/
namespace Compositor

open Framebuffers
open Attempts Attempt

def trustBarHeight : ℕ := 20
def tileGap : ℕ := 6
def maxSurfacePixels : ℕ := 8 * 1024 * 1024

inductive LayoutMode where
  | floating
  | tiling
  deriving DecidableEq, Repr

inductive SurfaceMode where
  | windowed
  | fullscreen
  deriving DecidableEq, Repr

structure Surface where
  id : ℕ
  pid : ℕ
  realmKind : ℕ
  x : ℕ
  y : ℕ
  width : ℕ
  height : ℕ
  mode : SurfaceMode
  pixels : List UInt8
  deriving DecidableEq, Repr

/-- Another size leaves no pixel of the old one. -/
def Surface.resize {σ ε : Type} (s : Surface) (width height : ℕ) : Attempt σ ε Surface :=
  if s.width = width ∧ s.height = height then pure s
  else do
    demand (width * height < 2 ^ 64)
    pure { s with
      width := width, height := height, pixels := List.replicate (width * height * 4) 0 }

structure State where
  framebuffer : Option Framebuffer
  surfaces : List Surface
  nextSurfaceId : ℕ
  focused : Option ℕ
  theme : Theme
  layout : LayoutMode
  signature : List Colour
  frames : ℕ
  lastPresentTick : ℕ
  rejectedCommits : ℕ
  deriving DecidableEq, Repr

structure Rect where
  x : ℕ
  y : ℕ
  width : ℕ
  height : ℕ
  deriving DecidableEq, Repr

def contentRegion (fb : Framebuffer) : Rect :=
  ⟨0, trustBarHeight, fb.width, fb.height - trustBarHeight⟩

/-- A turn of the tiling loop: the surface's tile, and what is left for those behind it. -/
def tile {σ ε : Type} (last : Bool) (left : Rect) : Attempt σ ε (Rect × Rect) :=
  if last then pure (left, left)
  else if left.height ≤ left.width then do
    demand (tileGap ≤ left.width)
    let half := (left.width - tileGap) / 2
    pure ({ left with width := half },
      { left with x := left.x + half + tileGap, width := left.width - (half + tileGap) })
  else do
    demand (tileGap ≤ left.height)
    let half := (left.height - tileGap) / 2
    pure ({ left with height := half },
      { left with y := left.y + half + tileGap, height := left.height - (half + tileGap) })

/-- The loop over the surfaces, of which the windowed ones get a tile each. -/
def tileSurfaces {σ ε : Type} : List Surface → Rect → Attempt σ ε (List Surface)
  | [], _ => pure []
  | s :: rest, left =>
    if s.mode = .windowed then do
      let (place, left) ← tile (rest.all fun t => t.mode != .windowed) left
      let placed ← { s with x := place.x, y := place.y }.resize (max place.width 1)
        (max place.height 1)
      pure (placed :: (← tileSurfaces rest left))
    else do pure (s :: (← tileSurfaces rest left))

def relayout {ε : Type} : Attempt State ε Unit := do
  let c ← of fun c => some (.ok c, c)
  match c.framebuffer with
  | none => pure ()
  | some fb => do
    let content := contentRegion fb
    let surfaces ← if c.layout = .floating then
        pure (c.surfaces.map fun s =>
          if s.mode = .windowed then { s with y := max s.y content.y } else s)
      else tileSurfaces c.surfaces ⟨content.x + tileGap, content.y + tileGap,
        content.width - tileGap * 2, content.height - tileGap * 2⟩
    of fun c => some (.ok (), { c with surfaces := surfaces })

/-- Where a new surface goes before the layout moves it. -/
def placement {σ ε : Type} (content : Rect) (index width height : ℕ) (mode : SurfaceMode) :
    Attempt σ ε Rect :=
  match mode with
  | .fullscreen => pure content
  | .windowed => do
    let width := min width content.width
    let height := min height content.height
    demand (content.x + 40 + index * 30 < 2 ^ 64 ∧ content.y + 30 + index * 26 < 2 ^ 64)
    pure ⟨min (content.x + 40 + index * 30) (content.x + content.width - width),
      min (content.y + 30 + index * 26) (content.y + (content.height - height)), width, height⟩

def createSurface {ε : Type} (pid realmKind width height : ℕ) (mode : SurfaceMode) :
    Attempt State ε (Option ℕ) := do
  let c ← of fun c => some (.ok c, c)
  match c.framebuffer with
  | none => pure none
  | some fb => do
    let place ← placement (contentRegion fb) c.surfaces.length width height mode
    if place.width = 0 ∨ place.height = 0 then pure none
    else if 2 ^ 64 ≤ place.width * place.height then pure none
    else if place.width * place.height > maxSurfacePixels then pure none
    else do
      let id := c.nextSurfaceId
      let next ← sum 64 c.nextSurfaceId 1
      let surface : Surface := ⟨id, pid, realmKind, place.x, place.y, place.width, place.height,
        mode, List.replicate (place.width * place.height * 4) 0⟩
      of fun c => some (.ok (), { c with
        nextSurfaceId := next, surfaces := c.surfaces ++ [surface], focused := some id })
      relayout
      pure (some id)

def surfaceGeometry (c : State) (id pid : ℕ) : Option (ℕ × ℕ) :=
  (c.surfaces.find? fun s => s.id == id && s.pid == pid).map fun s => (s.width, s.height)

/-- `data` is what the user's memory holds at the pointer, where all of it may be read. -/
def commitSurfaceFromUser {ε : Type} (id pid len : ℕ) (data : Option (List UInt8)) :
    Attempt State ε Bool := do
  let c ← of fun c => some (.ok c, c)
  match c.surfaces.find? fun s => s.id == id with
  | none => pure false
  | some surface =>
    match (if surface.pid ≠ pid ∨ len ≠ surface.pixels.length then none else data) with
    | none => do
      let rejected ← sum 64 c.rejectedCommits 1
      of fun c => some (.ok false, { c with rejectedCommits := rejected })
    | some data => of fun c => some (.ok true, { c with
        surfaces := c.surfaces.map fun s => if s.id = id then { s with pixels := data } else s })

def setLayout {ε : Type} (mode : LayoutMode) : Attempt State ε Unit := do
  let c ← of fun c => some (.ok c, c)
  if c.layout = mode then pure ()
  else do
    of fun c => some (.ok (), { c with layout := mode })
    relayout

def toggleLayout {ε : Type} : Attempt State ε Unit := do
  let c ← of fun c => some (.ok c, c)
  setLayout (match c.layout with
    | .floating => .tiling
    | .tiling => .floating)

def removeSurfacesFor {ε : Type} (pid : ℕ) : Attempt State ε Unit := do
  of fun c =>
    let surfaces := c.surfaces.filter fun s => s.pid != pid
    some (.ok (), { c with
      surfaces := surfaces
      focused := c.focused.bind fun id =>
        if surfaces.any fun s => s.id == id then some id else surfaces.getLast?.map (·.id) })
  relayout

/-- `toggle` is what `take_layout_toggle` returned. -/
def present {ε : Type} (toggle : Bool) : Attempt State ε Unit := do
  if toggle then toggleLayout
  let c ← of fun c => some (.ok c, c)
  match c.framebuffer with
  | none => pure ()
  | some _ => do
    let frames ← sum 64 c.frames 1
    of fun c => some (.ok (), { c with frames := frames })

/-- Whether `present_throttled` presents at this tick. -/
def due (c : State) (now : ℕ) : Bool := !(decide (0 < c.frames) && decide (c.lastPresentTick = now))

end Compositor
