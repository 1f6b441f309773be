import NajmKernel.Framebuffers
import NajmKernel.PackageStore

/-! The themes: a colour in hexadecimal, and the lines of a file that assign colours to keys. -/
namespace Themes

open Attempts Attempt Framebuffers PackageStore

variable {σ ε : Type}

section Texts

/-- The length of a text in bytes. -/
def byteLen (text : List Char) : ℕ := (text.map Char.utf8Size).sum

/-- A text in two at a byte offset, unless a character lies across it or it is past the end. -/
def cutAt (n : ℕ) : List Char → Option (List Char × List Char)
  | [] => if n = 0 then some ([], []) else none
  | c :: text =>
    if n = 0 then some ([], c :: text)
    else if c.utf8Size ≤ n then
      (cutAt (n - c.utf8Size) text).map fun cut => (c :: cut.1, cut.2)
    else none

/-- The slice of a text between two byte offsets, which panics within a character. -/
def sliceText (text : List Char) (start stop : ℕ) : Attempt σ ε (List Char) :=
  match (cutAt start text).bind fun cut => cutAt (stop - start) cut.2 with
  | none => abort
  | some (piece, _) => pure piece

def hexDigit (c : Char) : Option ℕ :=
  let n := c.toNat
  if 0x30 ≤ n ∧ n ≤ 0x39 then some (n - 0x30)
  else if 0x41 ≤ n ∧ n ≤ 0x46 then some (n - 0x41 + 10)
  else if 0x61 ≤ n ∧ n ≤ 0x66 then some (n - 0x61 + 10)
  else none

/-- `u8::from_str_radix` in base 16, with its sign. -/
def fromHex (text : List Char) : Option UInt8 :=
  let digits := if text.head? = some '+' then text.tail else text
  if digits = [] then none
  else (digits.foldlM (fun n c => (hexDigit c).bind fun digit =>
    if n * 16 + digit < 256 then some (n * 16 + digit) else none) 0).map UInt8.ofNat

end Texts

section Colours

/-- What `strip_prefix` leaves, or the text. -/
def withoutHash (text : List Char) : List Char := if text.head? = some '#' then text.tail else text

def parseHex (text : List Char) : Attempt σ ε (Option Colour) :=
  let text := withoutHash text
  if byteLen text ≠ 6 then pure none
  else do
    match fromHex (← sliceText text 0 2) with
    | none => pure none
    | some r => match fromHex (← sliceText text 2 4) with
      | none => pure none
      | some g => match fromHex (← sliceText text 4 6) with
        | none => pure none
        | some b => pure (some ⟨r, g, b⟩)

end Colours

section Parsing

/-- The match on a line's key. -/
def assign (theme : Theme) (key : String) (colour : Colour) : Option Theme :=
  match key with
  | "desktop" => some { theme with desktop := colour }
  | "trust_bar" => some { theme with trustBar := colour }
  | "trust_bar.edge" => some { theme with trustBarEdge := colour }
  | "trust_bar.text" => some { theme with trustBarText := colour }
  | "accent.home" => some { theme with accentHome := colour }
  | "accent.gaming" => some { theme with accentGaming := colour }
  | "accent.vault" => some { theme with accentVault := colour }
  | "accent.system" => some { theme with accentSystem := colour }
  | "pointer.fill" => some { theme with pointerFill := colour }
  | "pointer.edge" => some { theme with pointerEdge := colour }
  | _ => none

/-- A theme under way, with the settings applied and the lines rejected. -/
structure Progress where
  theme : Theme
  applied : ℕ
  rejected : ℕ
  deriving DecidableEq, Repr

/-- A turn of the loop over the lines. -/
def readLine (p : Progress) (line : List Char) : Attempt σ ε Progress :=
  let line := trim line
  if line = [] ∨ line.head? = some '#' then pure p
  else match splitOnce '=' line with
    | none => pure { p with rejected := p.rejected + 1 }
    | some (key, value) => do
      match ← parseHex (trim value) with
      | none => pure { p with rejected := p.rejected + 1 }
      | some colour => match assign p.theme (String.ofList (trim key)) colour with
        | none => pure { p with rejected := p.rejected + 1 }
        | some theme => pure { p with theme, applied := p.applied + 1 }

def parse (text : List Char) : Attempt σ ε Progress :=
  (lines text).foldlM readLine ⟨Theme.default, 0, 0⟩

end Parsing

end Themes
