import NajmKernel.Layers
import NajmKernel.SurfaceOwnership
import NajmKernel.TrustedPath

/-! What the shapes, the letters and the parts of a frame show on the screen. -/
namespace Compositor

open Framebuffers Layers
open Attempts Attempt

section Places

/-- The pixels of the screen, seen by their colours. -/
def canvas (fb : Framebuffer) : Canvas Screen (ℕ × ℕ) Colour (List UInt8) where
  On p := p.1 < fb.width ∧ p.2 < fb.height
  view s p := colourAt fb s p.1 p.2
  shown := fb.packed

def Rect.Has (r : Rect) (p : ℕ × ℕ) : Prop :=
  (r.x ≤ p.1 ∧ p.1 < r.x + r.width) ∧ r.y ≤ p.2 ∧ p.2 < r.y + r.height

instance (r : Rect) : DecidablePred r.Has := fun _ => inferInstanceAs (Decidable ((_ ∧ _) ∧ _ ∧ _))

def Rect.Edge (r : Rect) (p : ℕ × ℕ) : Prop :=
  r.Has p ∧ (p.1 = r.x ∨ p.1 + 1 = r.x + r.width ∨ p.2 = r.y ∨ p.2 + 1 = r.y + r.height)

instance (r : Rect) : DecidablePred r.Edge := fun _ => inferInstanceAs (Decidable (_ ∧ (_ ∨ _ ∨ _ ∨ _)))

theorem has_mk {x y width height : ℕ} {p : ℕ × ℕ} : Rect.Has ⟨x, y, width, height⟩ p ↔
    (x ≤ p.1 ∧ p.1 < x + width) ∧ y ≤ p.2 ∧ p.2 < y + height := Iff.rfl

/-- The dots of a character whose corner is here. -/
def Inked (character : Char) (x y : ℕ) (p : ℕ × ℕ) : Prop :=
  (x ≤ p.1 ∧ y ≤ p.2 ∧ p.2 < y + glyphHeight) ∧
    ((glyph character)[p.1 - x]?).any (·.toNat.testBit (p.2 - y)) = true

instance (character : Char) (x y : ℕ) : DecidablePred (Inked character x y) :=
  fun _ => inferInstanceAs (Decidable (_ ∧ _))

def Written (text : String) (x y : ℕ) (p : ℕ × ℕ) : Prop :=
  ∃ c ∈ text.toList.zipIdx, Inked c.1 (x + c.2 * advance) y p

instance (text : String) (x y : ℕ) : DecidablePred (Written text x y) :=
  fun _ => inferInstanceAs (Decidable (∃ c ∈ _, _))

end Places

section Shapes

variable {ε : Type} {fb : Framebuffer} {x y width height : ℕ} {c : Colour}
  {character : Char}

theorem setPixel_paints (hm : fb.Mapped) (x y : ℕ) (c : Colour) :
    Paints (canvas fb) (setPixel fb x y c : Attempt Screen ε Unit) () (plain (· = (x, y)) c) := by
  intro s
  have hruns : ∃ s', (setPixel fb x y c : Attempt Screen ε Unit).run s = some (.ok (), s') := by
    rw [setPixel]
    by_cases hout : fb.width ≤ x ∨ fb.height ≤ y
    · exact ⟨s, by rw [if_pos hout, run_pure]⟩
    · rw [not_or, Nat.not_le, Nat.not_le] at hout
      have hend := offset_end hm hout.1 hout.2
      have hlen := hm.addressed
      have hoffset : fb.offset x y = y * fb.stride + x * fb.bytesPerPixel := rfl
      rw [if_neg (by omega), run_demand_bind, if_pos (by omega), if_neg (Nat.not_lt.mpr hend)]
      exact ⟨_, rfl⟩
  obtain ⟨s', hrun⟩ := hruns
  refine ⟨s', hrun, fun p hp => ?_⟩
  have hcolour := setPixel_colourAt hm hp.1 hp.2 hrun
  by_cases heq : p.1 = x ∧ p.2 = y
  · rw [plain, if_pos (Prod.ext heq.1 heq.2)]
    exact hcolour.trans (if_pos heq)
  · rw [plain, if_neg fun h => heq ⟨congrArg Prod.fst h, congrArg Prod.snd h⟩]
    exact hcolour.trans (if_neg heq)

theorem fillRect_paints (hm : fb.Mapped) (hx : x + width < 2 ^ 64) (hy : y + height < 2 ^ 64) :
    Paints (canvas fb) (fillRect fb x y width height c : Attempt Screen ε Unit) ()
      (plain (Rect.Has ⟨x, y, width, height⟩) c) := by
  refine .sum_bind hx (.sum_bind hy ?_)
  have hrow : ∀ row, Paints (canvas fb) ((List.range' x (min (x + width) fb.width - x)).forM
      fun column => (setPixel fb column row c : Attempt Screen ε Unit)) ()
        (plain (fun p => ∃ column ∈ List.range' x (min (x + width) fb.width - x),
          p = (column, row)) c) :=
    fun row => (Paints.forM fun column _ => setPixel_paints hm column row c).congr
      fun p _ => stack_plain
  refine (Paints.forM fun row _ => hrow row).congr fun p hp => ?_
  rw [stack_plain]
  apply plain_congr
  obtain ⟨hcolumn, hline⟩ := hp
  constructor
  · rintro ⟨row, hrow, column, hcolumn', rfl⟩
    rw [List.mem_range'_1] at hrow hcolumn'
    rw [has_mk]
    omega
  · rw [has_mk]
    rintro ⟨hpx, hpy⟩
    refine ⟨p.2, List.mem_range'_1.mpr ?_, p.1, List.mem_range'_1.mpr ?_, rfl⟩ <;> omega

theorem strokeRect_paints (hm : fb.Mapped) (hx : x + width < 2 ^ 64) (hy : y + height < 2 ^ 64) :
    Paints (canvas fb) (strokeRect fb x y width height c : Attempt Screen ε Unit) ()
      (plain (Rect.Edge ⟨x, y, width, height⟩) c) := by
  rw [strokeRect]
  by_cases hempty : width = 0 ∨ height = 0
  · rw [if_pos hempty]
    refine (Paints.pure ()).congr fun p _ => (if_neg ?_).symm
    rintro ⟨hhas, -⟩
    rw [has_mk] at hhas
    omega
  · rw [if_neg hempty]
    have htop : Paints (canvas fb) (fillRect fb x y width 1 c : Attempt Screen ε Unit) ()
        (plain (Rect.Has ⟨x, y, width, 1⟩) c) := fillRect_paints hm hx (by omega)
    have hbottom : Paints (canvas fb) (fillRect fb x (y + height - 1) width 1 c :
        Attempt Screen ε Unit) () (plain (Rect.Has ⟨x, y + height - 1, width, 1⟩) c) :=
      fillRect_paints hm hx (by omega)
    have hleft : Paints (canvas fb) (fillRect fb x y 1 height c : Attempt Screen ε Unit) ()
        (plain (Rect.Has ⟨x, y, 1, height⟩) c) := fillRect_paints hm (by omega) hy
    have hright : Paints (canvas fb) (fillRect fb (x + width - 1) y 1 height c :
        Attempt Screen ε Unit) () (plain (Rect.Has ⟨x + width - 1, y, 1, height⟩) c) :=
      fillRect_paints hm (by omega) hy
    refine (htop.bind (.demand_bind hy (hbottom.bind (hleft.bind
      (.demand_bind hx hright))))).congr fun p _ => ?_
    rw [above_plain, above_plain, above_plain]
    apply plain_congr
    rw [Rect.Edge, has_mk, has_mk, has_mk, has_mk, has_mk]
    dsimp only
    omega

theorem drawColumn_paints (hm : fb.Mapped) (hy : y + glyphHeight ≤ 2 ^ 64) (bits : UInt8) :
    Paints (canvas fb) (drawColumn fb x y bits c : Attempt Screen ε Unit) ()
      (plain (fun p => p.1 = x ∧ (y ≤ p.2 ∧ p.2 < y + glyphHeight) ∧
        bits.toNat.testBit (p.2 - y) = true) c) := by
  have hdot : ∀ row ∈ List.range glyphHeight, Paints (canvas fb)
      (if bits.toNat.testBit row then (do
        let y ← sum 64 y row
        setPixel fb x y c) else pure () : Attempt Screen ε Unit) ()
      (plain (fun p => bits.toNat.testBit row = true ∧ p = (x, y + row)) c) := by
    intro row hrow
    have hlt := List.mem_range.mp hrow
    by_cases hbit : bits.toNat.testBit row = true
    · rw [if_pos hbit]
      refine (Paints.sum_bind (by omega) (setPixel_paints hm x (y + row) c)).congr fun p _ => ?_
      exact plain_congr (and_iff_right hbit).symm
    · rw [if_neg hbit]
      exact (Paints.pure ()).congr fun p _ => (if_neg fun h => hbit h.1).symm
  refine (Paints.forM hdot).congr fun p _ => ?_
  rw [stack_plain]
  apply plain_congr
  constructor
  · rintro ⟨row, hrow, hbit, rfl⟩
    have hlt := List.mem_range.mp hrow
    dsimp only
    rw [Nat.add_sub_cancel_left]
    exact ⟨rfl, ⟨by omega, by omega⟩, hbit⟩
  · rintro ⟨hpx, hrange, hbit⟩
    refine ⟨p.2 - y, List.mem_range.mpr (by omega), hbit, Prod.ext hpx ?_⟩
    dsimp only
    omega

theorem glyph_paints (hm : fb.Mapped) (hx : x + (glyph character).length ≤ 2 ^ 64)
    (hy : y + glyphHeight ≤ 2 ^ 64) :
    Paints (canvas fb) ((glyph character).zipIdx.forM fun (bits, column) => do
      let x ← sum 64 x column
      drawColumn fb x y bits c : Attempt Screen ε Unit) () (plain (Inked character x y) c) := by
  refine (Paints.forM (g := fun column => plain (fun p => p.1 = x + column.2 ∧
    (y ≤ p.2 ∧ p.2 < y + glyphHeight) ∧ column.1.toNat.testBit (p.2 - y) = true) c)
    fun column hcolumn => ?_).congr fun p _ => ?_
  · have hlt := (List.mem_zipIdx hcolumn).2.1
    exact .sum_bind (by omega) (drawColumn_paints hm hy column.1)
  · rw [stack_plain]
    apply plain_congr
    constructor
    · rintro ⟨⟨bits, column⟩, hmem, hpx, hrange, hbit⟩
      have hget := List.mk_mem_zipIdx_iff_getElem?.mp hmem
      refine ⟨⟨by omega, hrange⟩, ?_⟩
      rw [hpx, Nat.add_sub_cancel_left, hget]
      exact hbit
    · rintro ⟨⟨hpx, hrange⟩, hdot⟩
      obtain ⟨bits, hget, hbit⟩ := (Option.any_eq_true _ _).mp hdot
      refine ⟨(bits, p.1 - x), List.mk_mem_zipIdx_iff_getElem?.mpr hget, ?_, hrange, hbit⟩
      dsimp only
      omega

theorem glyph_length (character : Char) : (glyph character).length < advance := by
  have hall : ∀ columns ∈ glyphs, columns.length < advance := by decide
  rw [glyph]
  split
  · rw [List.getD_eq_getElem?_getD]
    cases hget : glyphs[character.toNat - 0x20]? with
    | none => decide
    | some columns => exact hall columns (List.mem_of_getElem? hget)
  · decide

theorem drawText_paints (hm : fb.Mapped) {text : String}
    (hx : x + text.toList.length * advance < 2 ^ 64) (hy : y + glyphHeight ≤ 2 ^ 64) :
    Paints (canvas fb) (drawText fb x y text c : Attempt Screen ε Unit) ()
      (plain (Written text x y) c) := by
  have hloop : Paints (canvas fb) (text.toList.foldlM (fun cursor character => do
      (glyph character).zipIdx.forM fun (bits, column) => do
        let x ← sum 64 cursor column
        drawColumn fb x y bits c
      sum 64 cursor advance) (x + 0 * advance) : Attempt Screen ε ℕ)
      (x + text.toList.length * advance)
      (stack (text.toList.zipIdx.map fun c' => plain (Inked c'.1 (x + c'.2 * advance) y) c)) := by
    refine Paints.foldlM (m := fun i => x + i * advance) (g := fun character i =>
      plain (Inked character (x + i * advance) y) c) fun character i hi => ?_
    have hlt := (List.getElem?_eq_some_iff.mp hi).1
    have hglyph := glyph_length character
    have hnext : x + i * advance + advance = x + (i + 1) * advance := by
      rw [Nat.succ_mul, Nat.add_assoc]
    have hle : (i + 1) * advance ≤ text.toList.length * advance := Nat.mul_le_mul_right _ hlt
    rw [← hnext]
    have hcharacter : x + i * advance + (glyph character).length ≤ 2 ^ 64 := by omega
    have hcursor : x + i * advance + advance < 2 ^ 64 := by omega
    exact (glyph_paints hm hcharacter hy).bind_blank (.sum hcursor)
  rw [Nat.zero_mul, Nat.add_zero] at hloop
  exact (hloop.bind_blank (.pure ())).congr fun p _ => stack_plain

/-- The blocks of the signature, by their places. -/
def signatureLayer (fb : Framebuffer) (signature : List Colour) : Layer (ℕ × ℕ) Colour :=
  stack (signature.zipIdx.map fun c => plain (Rect.Has
    ⟨fb.width - (signature.length * (block + gap) + 8) + c.2 * (block + gap), 5, block, 10⟩) c.1)

theorem drawSignature_paints (hm : fb.Mapped) {signature : List Colour}
    (hx : fb.width + signature.length * (block + gap) < 2 ^ 64) :
    Paints (canvas fb) (drawSignature fb signature : Attempt Screen ε Unit) ()
      (signatureLayer fb signature) := by
  generalize hstart : fb.width - (signature.length * (block + gap) + 8) = start
  have hblock : block = 10 := rfl
  have hgap : gap = 3 := rfl
  have hloop : Paints (canvas fb) (signature.foldlM (fun x colour => do
      fillRect fb x 5 block 10 colour
      sum 64 x (block + gap)) (start + 0 * (block + gap)) : Attempt Screen ε ℕ)
      (start + signature.length * (block + gap))
      (stack (signature.zipIdx.map fun c => plain (Rect.Has
        ⟨start + c.2 * (block + gap), 5, block, 10⟩) c.1)) := by
    refine Paints.foldlM (m := fun i => start + i * (block + gap)) (g := fun colour i =>
      plain (Rect.Has ⟨start + i * (block + gap), 5, block, 10⟩) colour) fun colour i hi => ?_
    have hlt := (List.getElem?_eq_some_iff.mp hi).1
    have hnext : start + i * (block + gap) + (block + gap) = start + (i + 1) * (block + gap) := by
      rw [Nat.succ_mul, Nat.add_assoc]
    have hle : (i + 1) * (block + gap) ≤ signature.length * (block + gap) :=
      Nat.mul_le_mul_right _ hlt
    rw [← hnext]
    have hright : start + i * (block + gap) + block < 2 ^ 64 := by omega
    have hcursor : start + i * (block + gap) + (block + gap) < 2 ^ 64 := by omega
    have hbottom : 5 + 10 < 2 ^ 64 := by decide
    exact (fillRect_paints hm hright hbottom).bind_blank (.sum hcursor)
  rw [Nat.zero_mul, Nat.add_zero] at hloop
  rw [drawSignature, hstart]
  refine (hloop.bind_blank (.pure ())).congr fun p _ => ?_
  rw [signatureLayer, hstart]

end Shapes

section Parts

variable {ε : Type} {fb : Framebuffer} {theme : Theme} {s : Surface} {content : Rect} {x y : ℕ}

/-- A pixel of the wedge, by its row and column. -/
def Pointed (row column : ℕ) : Prop := row < 12 ∧ column < 12 - row ∧ column ≤ row + 6

instance (row column : ℕ) : Decidable (Pointed row column) :=
  inferInstanceAs (Decidable (_ ∧ _ ∧ _))

def pointerColour (theme : Theme) (row column : ℕ) : Colour :=
  if column = 0 ∨ column = 11 - row ∨ row = 11 then theme.pointerEdge else theme.pointerFill

def pointerLayer (theme : Theme) (x y : ℕ) : Layer (ℕ × ℕ) Colour := fun p =>
  if x ≤ p.1 ∧ y ≤ p.2 ∧ Pointed (p.2 - y) (p.1 - x) then
    some (pointerColour theme (p.2 - y) (p.1 - x))
  else none

theorem drawPointer_paints (hm : fb.Mapped) (theme : Theme) {x y : ℕ} (hx : x + 12 ≤ 2 ^ 64)
    (hy : y + 12 ≤ 2 ^ 64) :
    Paints (canvas fb) (drawPointer fb theme x y : Attempt Screen ε Unit) ()
      (pointerLayer theme x y) := by
  have hdot : ∀ row ∈ List.range 12, ∀ column ∈ List.range (12 - row), Paints (canvas fb)
      (if column > row + 6 then pure () else (do
        let right ← sum 64 x column
        let below ← sum 64 y row
        setPixel fb right below <|
          if column = 0 ∨ column = 11 - row ∨ row = 11 then theme.pointerEdge
          else theme.pointerFill) : Attempt Screen ε Unit) ()
      (plain (fun p => column ≤ row + 6 ∧ p = (x + column, y + row))
        (pointerColour theme row column)) := by
    intro row hrow column hcolumn
    rw [List.mem_range] at hrow hcolumn
    by_cases hcut : column > row + 6
    · rw [if_pos hcut]
      exact (Paints.pure ()).congr fun p _ => (if_neg fun h => Nat.not_le.mpr hcut h.1).symm
    · rw [if_neg hcut]
      refine (Paints.sum_bind (by omega) (Paints.sum_bind (by omega)
        (setPixel_paints hm (x + column) (y + row) _))).congr fun p _ => ?_
      exact plain_congr (and_iff_right (Nat.le_of_not_lt hcut)).symm
  refine (Paints.forM fun row hrow => Paints.forM fun column hcolumn =>
    hdot row hrow column hcolumn).congr fun p _ => ?_
  rw [pointerLayer]
  by_cases hin : x ≤ p.1 ∧ y ≤ p.2 ∧ Pointed (p.2 - y) (p.1 - x)
  · rw [if_pos hin]
    refine stack_stack_some (fun row _ column _ => ?_) ?_
    · by_cases hhere : column ≤ row + 6 ∧ p = (x + column, y + row)
      · rw [plain, if_pos hhere, hhere.2]
        dsimp only
        rw [Nat.add_sub_cancel_left, Nat.add_sub_cancel_left]
        exact Or.inr rfl
      · exact Or.inl (if_neg hhere)
    · obtain ⟨hpx, hpy, hrow, hcolumn, hcut⟩ := hin
      refine ⟨p.2 - y, List.mem_range.mpr hrow, p.1 - x, List.mem_range.mpr hcolumn, ?_⟩
      exact if_pos ⟨hcut, Prod.ext (Nat.add_sub_cancel' hpx).symm (Nat.add_sub_cancel' hpy).symm⟩
  · rw [if_neg hin]
    refine stack_stack_none fun row hrow column hcolumn => if_neg ?_
    rintro ⟨hcut, rfl⟩
    rw [List.mem_range] at hrow hcolumn
    dsimp only at hin
    rw [Nat.add_sub_cancel_left, Nat.add_sub_cancel_left] at hin
    exact hin ⟨Nat.le_add_right _ _, Nat.le_add_right _ _, hrow, hcolumn, hcut⟩

/-- The part of a surface inside the content region, and a border if it is a window. -/
def Surface.layer (theme : Theme) (content : Rect) (s : Surface) : Layer (ℕ × ℕ) Colour :=
  above (if s.mode = .windowed then
      plain (s.clip content).Edge (theme.accentForRealm s.realmKind) else fun _ => none)
    fun p => if (s.clip content).Has p then s.pixelAt (p.1 - s.x) (p.2 - s.y) else none

/-- The ends of a surface, and the indices of its pixels, are numbers of the machine. -/
structure Surface.Addressed (s : Surface) : Prop where
  right : s.x + s.width < 2 ^ 64
  bottom : s.y + s.height < 2 ^ 64
  area : s.width * s.height < 2 ^ 64

theorem pixelAt_lt (hsized : s.Sized) {pixel : Colour} (h : s.pixelAt x y = some pixel) :
    y * s.width + x < s.width * s.height := by
  rw [Surface.pixelAt] at h
  have hindex := (Option.ite_none_right_eq_some.mp h).1
  rw [hsized.2.2] at hindex
  omega

/-- A pixel of a surface, put in its place. -/
theorem surfacePixel_paints (hm : fb.Mapped) (hsized : s.Sized) (ha : s.Addressed) {row column : ℕ}
    {pixel : Colour} (h : s.pixelAt (column - s.x) (row - s.y) = some pixel) :
    Paints (canvas fb) (do
      demand ((row - s.y) * s.width + (column - s.x) < 2 ^ 64)
      match s.pixelAt (column - s.x) (row - s.y) with
      | none => abort
      | some pixel => setPixel fb column row pixel : Attempt Screen ε Unit) ()
      (plain (· = (column, row)) pixel) := by
  refine .demand_bind ((pixelAt_lt hsized h).trans ha.area) ?_
  rw [h]
  exact setPixel_paints hm column row pixel

theorem surfacePixels_paints (hm : fb.Mapped) (hsized : s.Sized) (ha : s.Addressed) :
    let clip := s.clip (contentRegion fb)
    Paints (canvas fb) ((List.range' clip.y clip.height).forM fun row =>
      (List.range' clip.x clip.width).forM fun column => do
        demand ((row - s.y) * s.width + (column - s.x) < 2 ^ 64)
        match s.pixelAt (column - s.x) (row - s.y) with
        | none => abort
        | some pixel => setPixel fb column row pixel : Attempt Screen ε Unit) ()
      fun p => if clip.Has p then s.pixelAt (p.1 - s.x) (p.2 - s.y) else none := by
  intro clip
  have hdot : ∀ row ∈ List.range' clip.y clip.height, ∀ column ∈ List.range' clip.x clip.width,
      Paints (canvas fb) (do
        demand ((row - s.y) * s.width + (column - s.x) < 2 ^ 64)
        match s.pixelAt (column - s.x) (row - s.y) with
        | none => abort
        | some pixel => setPixel fb column row pixel : Attempt Screen ε Unit) ()
      (fun p => if p = (column, row) then s.pixelAt (column - s.x) (row - s.y) else none) := by
    intro row hrow column hcolumn
    obtain ⟨pixel, hpixel⟩ := Option.isSome_iff_exists.mp
      (hsized.inRange fb row hrow column hcolumn)
    refine (surfacePixel_paints hm hsized ha hpixel).congr fun p _ => ?_
    rw [hpixel]
    rfl
  refine (Paints.forM fun row hrow => Paints.forM fun column hcolumn =>
    hdot row hrow column hcolumn).congr fun p _ => ?_
  by_cases hin : clip.Has p
  · rw [if_pos hin]
    have hrow : p.2 ∈ List.range' clip.y clip.height := List.mem_range'_1.mpr hin.2
    have hcolumn : p.1 ∈ List.range' clip.x clip.width := List.mem_range'_1.mpr hin.1
    obtain ⟨pixel, hpixel⟩ := Option.isSome_iff_exists.mp
      (hsized.inRange fb p.2 hrow p.1 hcolumn)
    rw [hpixel]
    refine stack_stack_some (fun row _ column _ => ?_) ⟨p.2, hrow, p.1, hcolumn, ?_⟩
    · by_cases hhere : p = (column, row)
      · subst hhere
        exact Or.inr ((if_pos rfl).trans hpixel)
      · exact Or.inl (if_neg hhere)
    · exact (if_pos rfl).trans hpixel
  · rw [if_neg hin]
    refine stack_stack_none fun row hrow column hcolumn => if_neg ?_
    rintro rfl
    exact hin ⟨List.mem_range'_1.mp hcolumn, List.mem_range'_1.mp hrow⟩

theorem drawSurface_paints (hm : fb.Mapped) (hsized : s.Sized) (ha : s.Addressed) :
    Paints (canvas fb) (drawSurface fb theme s : Attempt Screen ε Unit) ()
      (s.layer theme (contentRegion fb)) := by
  refine .demand_bind ⟨ha.right, ha.bottom⟩ ((surfacePixels_paints hm hsized ha).bind ?_)
  generalize hclip : s.clip (contentRegion fb) = clip
  have hright : clip.x + clip.width < 2 ^ 64 := by
    have hend := ha.right
    subst hclip
    simp only [Surface.clip]
    omega
  have hbottom : clip.y + clip.height < 2 ^ 64 := by
    have hend := ha.bottom
    have htop : (contentRegion fb).y = 20 := rfl
    subst hclip
    simp only [Surface.clip, htop]
    omega
  by_cases hmode : s.mode = .windowed
  · rw [if_pos hmode]
    by_cases hshown : 0 < clip.width ∧ 0 < clip.height
    · rw [if_pos ⟨hmode, hshown⟩]
      exact strokeRect_paints hm hright hbottom
    · rw [if_neg fun h => hshown h.2]
      refine (Paints.pure ()).congr fun p _ => (if_neg ?_).symm
      rintro ⟨⟨hpx, hpy⟩, -⟩
      omega
  · rw [if_neg hmode, if_neg fun h => hmode h.1]
    exact .pure ()

/-- The strip with its line, the swatch and the name of the realm, and the signature. -/
def trustBarLayer (fb : Framebuffer) (theme : Theme) (focusedRealm : Option ℕ)
    (signature : List Colour) : Layer (ℕ × ℕ) Colour :=
  let (label, accent) := match focusedRealm with
    | some kind => (realmLabel kind, theme.accentForRealm kind)
    | none => ("NAJM OS", theme.trustBarText)
  stack [plain (Rect.Has ⟨0, 0, fb.width, trustBarHeight⟩) theme.trustBar,
    plain (Rect.Has ⟨0, trustBarHeight - 1, fb.width, 1⟩) theme.trustBarEdge,
    plain (Rect.Has ⟨6, 5, 10, 10⟩) accent,
    plain (Written label 22 7) theme.trustBarText,
    signatureLayer fb signature]

theorem realmLabel_length (kind : ℕ) : (realmLabel kind).toList.length ≤ 32 := by
  unfold realmLabel
  split <;> decide

theorem drawTrustBar_paints (hm : fb.Mapped) {focusedRealm : Option ℕ} {signature : List Colour}
    (hx : fb.width + signature.length * (block + gap) < 2 ^ 64) :
    Paints (canvas fb) (drawTrustBar fb theme focusedRealm signature : Attempt Screen ε Unit) ()
      (trustBarLayer fb theme focusedRealm signature) := by
  have hwidth : 0 + fb.width < 2 ^ 64 := by omega
  have hstrip : ∀ c, Paints (canvas fb) (fillRect fb 0 0 fb.width trustBarHeight c :
      Attempt Screen ε Unit) () (plain (Rect.Has ⟨0, 0, fb.width, trustBarHeight⟩) c) :=
    fun c => fillRect_paints hm hwidth (by decide)
  have hline : ∀ c, Paints (canvas fb) (fillRect fb 0 (trustBarHeight - 1) fb.width 1 c :
      Attempt Screen ε Unit) () (plain (Rect.Has ⟨0, trustBarHeight - 1, fb.width, 1⟩) c) :=
    fun c => fillRect_paints hm hwidth (by decide)
  have hswatch : ∀ c, Paints (canvas fb) (fillRect fb 6 5 10 10 c : Attempt Screen ε Unit) ()
      (plain (Rect.Has ⟨6, 5, 10, 10⟩) c) := fun c => fillRect_paints hm (by decide) (by decide)
  have hlabel : ∀ label : String, label.toList.length ≤ 32 → ∀ c, Paints (canvas fb)
      (drawText fb 22 7 label c : Attempt Screen ε Unit) () (plain (Written label 22 7) c) := by
    intro label hlabel c
    have hend : 22 + label.toList.length * advance < 2 ^ 64 := by
      rw [show advance = 6 from rfl]
      omega
    exact drawText_paints hm hend (by decide)
  have hblocks := drawSignature_paints (ε := ε) hm hx
  cases focusedRealm with
  | none =>
    exact (hstrip _).bind ((hline _).bind ((hswatch _).bind
      ((hlabel _ (by decide) _).bind hblocks)))
  | some kind =>
    exact (hstrip _).bind ((hline _).bind ((hswatch _).bind
      ((hlabel _ (realmLabel_length kind) _).bind hblocks)))

end Parts

section Frames

variable {ε : Type} {fb : Framebuffer} {c : State} {pointer : ℕ × ℕ} {p : ℕ × ℕ}

/-- The desktop, the surfaces from the oldest to the newest, the pointer, and the trust bar. -/
def frameLayer (fb : Framebuffer) (c : State) (pointer : ℕ × ℕ) : Layer (ℕ × ℕ) Colour :=
  stack ([plain (contentRegion fb).Has c.theme.desktop] ++
    c.surfaces.map (Surface.layer c.theme (contentRegion fb)) ++
    [pointerLayer c.theme pointer.1 pointer.2,
      trustBarLayer fb c.theme (focusedRealm c) c.signature])

/-- What a frame can be drawn of. -/
structure Drawable (fb : Framebuffer) (c : State) : Prop where
  sized : ∀ s ∈ c.surfaces, s.Sized
  addressed : ∀ s ∈ c.surfaces, s.Addressed
  width : fb.width + c.signature.length * (block + gap) < 2 ^ 64
  height : trustBarHeight + fb.height < 2 ^ 64

theorem drawFrame_paints (hm : fb.Mapped) (hc : Drawable fb c) (hx : pointer.1 + 12 ≤ 2 ^ 64)
    (hy : pointer.2 + 12 ≤ 2 ^ 64) :
    Paints (canvas fb) (drawFrame fb c pointer : Attempt Screen ε Unit) ()
      (frameLayer fb c pointer) := by
  have hwidth := hc.width
  have hheight := hc.height
  have hregion : contentRegion fb = ⟨0, trustBarHeight, fb.width, fb.height - trustBarHeight⟩ := rfl
  have hdesktop : Paints (canvas fb) (fillRect fb 0 (contentRegion fb).y (contentRegion fb).width
      (contentRegion fb).height c.theme.desktop : Attempt Screen ε Unit) ()
      (plain (contentRegion fb).Has c.theme.desktop) :=
    fillRect_paints hm (by simp only [hregion]; omega) (by simp only [hregion]; omega)
  have hsurfaces : Paints (canvas fb) (c.surfaces.forM (drawSurface fb c.theme) :
      Attempt Screen ε Unit) () (stack (c.surfaces.map (Surface.layer c.theme (contentRegion fb)))) :=
    .forM fun s hs => drawSurface_paints hm (hc.sized s hs) (hc.addressed s hs)
  refine (hdesktop.bind (hsurfaces.bind ((drawPointer_paints hm c.theme hx hy).bind
    (drawTrustBar_paints hm hwidth)))).congr fun p _ => ?_
  rw [frameLayer, stack_append, stack_append, above_assoc]
  rfl

/-- What is seen of a frame at a pixel: the highest thing that shows there. -/
def frameColour (fb : Framebuffer) (c : State) (pointer p : ℕ × ℕ) : Colour :=
  (frameLayer fb c pointer p).getD c.theme.desktop

theorem plain_isSome {shape : ℕ × ℕ → Prop} [DecidablePred shape] {colour : Colour} (h : shape p) :
    (plain shape colour p).isSome = true := by
  rw [plain, if_pos h]
  rfl

/-- A frame leaves no pixel as it was. -/
theorem frameLayer_covers (hx : p.1 < fb.width) (hy : p.2 < fb.height) :
    (frameLayer fb c pointer p).isSome = true := by
  rw [frameLayer]
  by_cases hstrip : p.2 < trustBarHeight
  · have hbar : trustBarLayer fb c.theme (focusedRealm c) c.signature ∈
        [plain (contentRegion fb).Has c.theme.desktop] ++
          c.surfaces.map (Surface.layer c.theme (contentRegion fb)) ++
          [pointerLayer c.theme pointer.1 pointer.2,
            trustBarLayer fb c.theme (focusedRealm c) c.signature] :=
      List.mem_append_right _ (List.mem_cons_of_mem _ List.mem_cons_self)
    refine stack_covers hbar ?_
    have hhas : Rect.Has ⟨0, 0, fb.width, trustBarHeight⟩ p := by
      rw [has_mk]
      omega
    exact stack_covers List.mem_cons_self (plain_isSome hhas)
  · have hhas : (contentRegion fb).Has p := by
      rw [contentRegion, has_mk]
      omega
    exact stack_covers (List.mem_append_left _ (List.mem_append_left _ List.mem_cons_self))
      (plain_isSome hhas)

theorem drawFrame_shows (hm : fb.Mapped) (hc : Drawable fb c) (hx : pointer.1 + 12 ≤ 2 ^ 64)
    (hy : pointer.2 + 12 ≤ 2 ^ 64) (s : Screen) : ∃ s',
    (drawFrame fb c pointer : Attempt Screen ε Unit).run s = some (.ok (), s') ∧
      ∀ p : ℕ × ℕ, p.1 < fb.width → p.2 < fb.height →
        colourAt fb s' p.1 p.2 = fb.packed (frameColour fb c pointer p) := by
  obtain ⟨s', hrun, hview⟩ := drawFrame_paints (ε := ε) hm hc hx hy s
  refine ⟨s', hrun, fun p hx hy => ?_⟩
  obtain ⟨colour, hcolour⟩ := Option.isSome_iff_exists.mp (frameLayer_covers hx hy)
  rw [frameColour, hcolour]
  have hp := hview p ⟨hx, hy⟩
  rw [hcolour] at hp
  exact hp

end Frames

end Compositor
