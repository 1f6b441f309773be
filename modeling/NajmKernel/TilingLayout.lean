import Mathlib.Data.List.Pairwise
import Mathlib.Data.Nat.Log
import NajmKernel.Compositor

/-! The tiling layout: how many windows a screen has room for, and where they come to lie. -/
namespace Compositor

open Framebuffers
open Attempts Attempt

section Splits

/-- How often a side can be halved before the gap no longer fits into it. -/
def splits (side : ℕ) : ℕ :=
  if side < tileGap then 0 else Nat.log 2 ((side + 5) / 11) + 1

/-- What is left of a side when the first half and the gap are taken off. -/
def rest (side : ℕ) : ℕ := side - ((side - tileGap) / 2 + tileGap)

theorem rest_eq (side : ℕ) : rest side = (side - 5) / 2 := by
  unfold rest tileGap
  omega

theorem splits_rest {side : ℕ} (h : tileGap ≤ side) : splits side = splits (rest side) + 1 := by
  rw [splits, if_neg (Nat.not_lt.mpr h), splits, rest_eq]
  unfold tileGap at h ⊢
  by_cases hsmall : (side - 5) / 2 < 6
  · rw [if_pos hsmall, Nat.log_of_lt (show (side + 5) / 11 < 2 by omega)]
  · have hhalf : ((side - 5) / 2 + 5) / 11 = (side + 5) / 11 / 2 := by
      rw [Nat.div_div_eq_div_mul, Nat.mul_comm 11 2, ← Nat.div_div_eq_div_mul]
      congr 1
      omega
    rw [if_neg hsmall, hhalf, ← Nat.log_of_one_lt_of_le Nat.one_lt_two
      (show 2 ≤ (side + 5) / 11 by omega)]

theorem splits_eq_zero {side : ℕ} : splits side = 0 ↔ side < tileGap := by
  unfold splits
  split
  · simp [*]
  · simp [*]

/-- How often an area can be split. -/
def Rect.splits (r : Rect) : ℕ := Compositor.splits r.width + Compositor.splits r.height

end Splits

section Tiles

def Surface.rect (s : Surface) : Rect := ⟨s.x, s.y, s.width, s.height⟩

/-- The places of the windowed surfaces. -/
def windows (surfaces : List Surface) : List Rect :=
  (surfaces.filter fun s => s.mode == .windowed).map Surface.rect

def Rect.Disjoint (r q : Rect) : Prop :=
  r.x + r.width ≤ q.x ∨ q.x + q.width ≤ r.x ∨ r.y + r.height ≤ q.y ∨ q.y + q.height ≤ r.y

def Rect.Positive (r : Rect) : Prop := 0 < r.width ∧ 0 < r.height

def Rect.Inside (r q : Rect) : Prop :=
  q.x ≤ r.x ∧ r.x + r.width ≤ q.x + q.width ∧ q.y ≤ r.y ∧ r.y + r.height ≤ q.y + q.height

/-- An area with a tile's least size added to it. -/
def Rect.widened (r : Rect) : Rect := { r with width := r.width + 1, height := r.height + 1 }

/-- What a surface takes of an area: no side of it is empty. -/
def Rect.shown (r : Rect) : Rect := { r with width := max r.width 1, height := max r.height 1 }

theorem Rect.shown_positive (r : Rect) : r.shown.Positive :=
  ⟨Nat.lt_of_lt_of_le Nat.one_pos (le_max_right _ _),
    Nat.lt_of_lt_of_le Nat.one_pos (le_max_right _ _)⟩

variable {σ ε : Type} {s s' : σ} {left place other : Rect} {last : Bool}

/-- A split: the half that is taken, and the rest behind the gap. -/
inductive Split (left : Rect) : Rect → Rect → Prop
  | vertical (longer : left.height ≤ left.width) (fits : tileGap ≤ left.width) :
      Split left { left with width := (left.width - tileGap) / 2 }
        { left with x := left.x + (left.width - tileGap) / 2 + tileGap, width := rest left.width }
  | horizontal (longer : left.width < left.height) (fits : tileGap ≤ left.height) :
      Split left { left with height := (left.height - tileGap) / 2 }
        { left with
          y := left.y + (left.height - tileGap) / 2 + tileGap, height := rest left.height }

theorem tile_last : (tile true left : Attempt σ ε (Rect × Rect)).run s =
    some (.ok (left, left), s) := rfl

theorem tile_split (h : (tile false left : Attempt σ ε (Rect × Rect)).run s =
    some (.ok (place, other), s')) : s' = s ∧ Split left place other := by
  rw [tile, if_neg Bool.false_ne_true] at h
  by_cases hlonger : left.height ≤ left.width
  · rw [if_pos hlonger, run_demand_bind] at h
    split at h
    · obtain ⟨hpair, rfl⟩ := Prod.mk.inj (Option.some.inj h)
      obtain ⟨rfl, rfl⟩ := Prod.mk.inj (Except.ok.inj hpair)
      exact ⟨rfl, .vertical hlonger ‹_›⟩
    · exact absurd h nofun
  · rw [if_neg hlonger, run_demand_bind] at h
    split at h
    · obtain ⟨hpair, rfl⟩ := Prod.mk.inj (Option.some.inj h)
      obtain ⟨rfl, rfl⟩ := Prod.mk.inj (Except.ok.inj hpair)
      exact ⟨rfl, .horizontal (Nat.lt_of_not_le hlonger) ‹_›⟩
    · exact absurd h nofun

theorem tile_exists (h : 0 < left.splits) : ∃ place other,
    (tile false left : Attempt σ ε (Rect × Rect)).run s = some (.ok (place, other), s) := by
  have hfits : tileGap ≤ max left.width left.height := by
    by_contra hsmall
    have hw : splits left.width = 0 := splits_eq_zero.mpr (by omega)
    have hh : splits left.height = 0 := splits_eq_zero.mpr (by omega)
    rw [Rect.splits, hw, hh] at h
    exact absurd h (Nat.lt_irrefl 0)
  rw [tile, if_neg Bool.false_ne_true]
  by_cases hlonger : left.height ≤ left.width
  · rw [max_eq_left hlonger] at hfits
    rw [if_pos hlonger, run_demand_bind, if_pos hfits]
    exact ⟨_, _, rfl⟩
  · rw [max_eq_right (Nat.le_of_not_le hlonger)] at hfits
    rw [if_neg hlonger, run_demand_bind, if_pos hfits]
    exact ⟨_, _, rfl⟩

theorem Split.splits (h : Split left place other) : left.splits = other.splits + 1 := by
  cases h with
  | vertical longer fits =>
    rw [Rect.splits, splits_rest fits, Nat.add_right_comm]
    rfl
  | horizontal longer fits =>
    rw [Rect.splits, splits_rest fits, ← Nat.add_assoc]
    rfl

theorem Split.inside (h : Split left place other) : place.shown.Inside left.widened := by
  cases h <;> simp only [Rect.Inside, Rect.shown, Rect.widened, tileGap] <;> omega

theorem Split.rest_inside (h : Split left place other) : other.widened.Inside left.widened := by
  cases h <;> simp only [Rect.Inside, Rect.widened, rest, tileGap] at * <;> omega

theorem Split.disjoint (h : Split left place other) {r : Rect} (hr : r.Inside other.widened) :
    place.shown.Disjoint r := by
  cases h <;> simp only [Rect.Inside, Rect.Disjoint, Rect.shown, Rect.widened, tileGap] at * <;>
    omega

theorem Rect.Inside.trans {p q r : Rect} (h : p.Inside q) (h' : q.Inside r) : p.Inside r := by
  unfold Rect.Inside at *
  omega

end Tiles

section Loops

variable {σ ε : Type} {u u' : σ} {s s' : Surface} {l l' : List Surface} {left : Rect}
  {width height : ℕ}

theorem windows_cons_windowed (h : s.mode = .windowed) : windows (s :: l) = s.rect :: windows l := by
  simp [windows, h]

theorem windows_cons_other (h : s.mode ≠ .windowed) : windows (s :: l) = windows l := by
  simp [windows, h]

theorem windows_eq_nil : windows l = [] ↔ (l.all fun t => t.mode != .windowed) = true := by
  simp [windows, List.filter_eq_nil_iff]

theorem resize_ok (h : (s.resize width height : Attempt σ ε Surface).run u = some (.ok s', u')) :
    u' = u ∧ (s' = s ∧ s.width = width ∧ s.height = height ∨ s' = { s with
      width := width, height := height, pixels := List.replicate (width * height * 4) 0 }) := by
  rw [Surface.resize] at h
  split at h
  · obtain ⟨hs, rfl⟩ := Prod.mk.inj (Option.some.inj h)
    exact ⟨rfl, Or.inl ⟨(Except.ok.inj hs).symm, ‹_›⟩⟩
  · rw [run_demand_bind] at h
    split at h
    · obtain ⟨hs, rfl⟩ := Prod.mk.inj (Option.some.inj h)
      exact ⟨rfl, Or.inr (Except.ok.inj hs).symm⟩
    · exact absurd h nofun

theorem resize_rect (h : (s.resize width height : Attempt σ ε Surface).run u = some (.ok s', u')) :
    u' = u ∧ s'.mode = s.mode ∧ s'.rect = ⟨s.x, s.y, width, height⟩ := by
  obtain ⟨rfl, ⟨rfl, rfl, rfl⟩ | rfl⟩ := resize_ok h
  · exact ⟨rfl, rfl, rfl⟩
  · exact ⟨rfl, rfl, rfl⟩

theorem resize_exists (h : width * height < 2 ^ 64) :
    ∃ s', (s.resize width height : Attempt σ ε Surface).run u = some (.ok s', u) := by
  rw [Surface.resize]
  split
  · exact ⟨_, rfl⟩
  · rw [run_demand_bind, if_pos h]
    exact ⟨_, rfl⟩

/-- The windows lie in the area, apart from one another. -/
structure Laid (left : Rect) (places : List Rect) : Prop where
  inside : ∀ r ∈ places, r.Inside left.widened
  positive : ∀ r ∈ places, r.Positive
  disjoint : places.Pairwise Rect.Disjoint

/-- The surface at the front of the loop, its tile, and the loop behind it. -/
theorem tileSurfaces_cons (hs : s.mode = .windowed) (h : (tileSurfaces (s :: l) left :
      Attempt σ ε (List Surface)).run u = some (.ok l', u')) :
    ∃ place other placed rest, (tile (l.all fun t => t.mode != .windowed) left :
        Attempt σ ε (Rect × Rect)).run u = some (.ok (place, other), u) ∧
      ({ s with x := place.x, y := place.y }.resize (max place.width 1) (max place.height 1) :
        Attempt σ ε Surface).run u = some (.ok placed, u) ∧
      (tileSurfaces l other : Attempt σ ε (List Surface)).run u = some (.ok rest, u') ∧
      l' = placed :: rest := by
  rw [tileSurfaces, if_pos hs] at h
  obtain ⟨⟨place, other⟩, v, htile, hplaced⟩ := run_bind_ok.mp h
  have hv : v = u := by
    cases hlast : l.all fun t => t.mode != .windowed with
    | true =>
      rw [hlast, tile_last] at htile
      exact (Prod.mk.inj (Option.some.inj htile)).2.symm
    | false =>
      rw [hlast] at htile
      exact (tile_split htile).1
  subst hv
  obtain ⟨placed, w, hresize, hloop⟩ := run_bind_ok.mp hplaced
  obtain rfl := (resize_ok hresize).1
  obtain ⟨rest, w, hrest, hend⟩ := run_bind_ok.mp hloop
  obtain ⟨hl, rfl⟩ := Prod.mk.inj (Option.some.inj hend)
  exact ⟨place, other, placed, rest, htile, hresize, hrest, (Except.ok.inj hl).symm⟩

theorem tileSurfaces_cons_other (hs : s.mode ≠ .windowed) (h : (tileSurfaces (s :: l) left :
      Attempt σ ε (List Surface)).run u = some (.ok l', u')) :
    ∃ rest, (tileSurfaces l left : Attempt σ ε (List Surface)).run u = some (.ok rest, u') ∧
      l' = s :: rest := by
  rw [tileSurfaces, if_neg hs] at h
  obtain ⟨rest, w, hrest, h⟩ := run_bind_ok.mp h
  obtain ⟨hl, rfl⟩ := Prod.mk.inj (Option.some.inj h)
  exact ⟨rest, hrest, (Except.ok.inj hl).symm⟩

/-- Where the loop comes to its end, every window has its tile. -/
theorem tileSurfaces_laid (h : (tileSurfaces l left : Attempt σ ε (List Surface)).run u =
      some (.ok l', u')) :
    u' = u ∧ (windows l').length = (windows l).length ∧ Laid left (windows l') := by
  induction l generalizing left l' with
  | nil =>
    obtain ⟨hl, rfl⟩ := Prod.mk.inj (Option.some.inj h)
    obtain rfl := Except.ok.inj hl
    exact ⟨rfl, rfl, nofun, nofun, .nil⟩
  | cons s l ih =>
    by_cases hs : s.mode = .windowed
    · obtain ⟨place, other, placed, rest, htile, hresize, hrest, rfl⟩ := tileSurfaces_cons hs h
      obtain ⟨-, hmode, hrect⟩ := resize_rect hresize
      obtain ⟨rfl, hlen, hlaid⟩ := ih hrest
      have hrect : placed.rect = place.shown := hrect
      rw [windows_cons_windowed (hmode.trans hs), windows_cons_windowed hs, hrect]
      refine ⟨rfl, by rw [List.length_cons, List.length_cons, hlen], ?_⟩
      cases hlast : l.all fun t => t.mode != .windowed with
      | true =>
        rw [hlast, tile_last] at htile
        obtain ⟨rfl, -⟩ := Prod.mk.inj (Except.ok.inj (Prod.mk.inj (Option.some.inj htile)).1)
        rw [windows_eq_nil.mpr hlast, List.length_nil, List.length_eq_zero_iff] at hlen
        rw [hlen]
        refine ⟨fun r hr => ?_, fun r hr => ?_, List.pairwise_singleton _ _⟩
        · rw [List.mem_singleton.mp hr]
          simp only [Rect.Inside, Rect.shown, Rect.widened]
          omega
        · rw [List.mem_singleton.mp hr]
          exact left.shown_positive
      | false =>
        rw [hlast] at htile
        obtain ⟨-, hsplit⟩ := tile_split htile
        refine ⟨fun r hr => ?_, fun r hr => ?_, ?_⟩
        · rcases List.mem_cons.mp hr with rfl | hr
          · exact hsplit.inside
          · exact (hlaid.inside r hr).trans hsplit.rest_inside
        · rcases List.mem_cons.mp hr with rfl | hr
          · exact place.shown_positive
          · exact hlaid.positive r hr
        · rw [List.pairwise_cons]
          exact ⟨fun r hr => hsplit.disjoint (hlaid.inside r hr), hlaid.disjoint⟩
    · obtain ⟨rest, hrest, rfl⟩ := tileSurfaces_cons_other hs h
      rw [windows_cons_other hs, windows_cons_other hs]
      exact ih hrest

theorem tileSurfaces_no_window (h : windows l = []) :
    (tileSurfaces l left : Attempt σ ε (List Surface)).run u = some (.ok l, u) := by
  induction l with
  | nil => rfl
  | cons s l ih =>
    have hs : s.mode ≠ .windowed := by
      intro hs
      rw [windows_cons_windowed hs] at h
      exact absurd h nofun
    rw [windows_cons_other hs] at h
    rw [tileSurfaces, if_neg hs]
    exact run_bind_ok.mpr ⟨_, _, ih h, rfl⟩

/-- The loop comes to its end where the area can be split often enough. -/
theorem tileSurfaces_exists (hroom : (windows l).length ≤ left.splits + 1)
    (hsize : left.shown.width * left.shown.height < 2 ^ 64) :
    ∃ l', (tileSurfaces l left : Attempt σ ε (List Surface)).run u = some (.ok l', u) := by
  induction l generalizing left with
  | nil => exact ⟨[], rfl⟩
  | cons s l ih =>
    rw [tileSurfaces]
    by_cases hs : s.mode = .windowed
    · rw [windows_cons_windowed hs, List.length_cons, Nat.add_le_add_iff_right] at hroom
      rw [if_pos hs]
      cases hlast : l.all fun t => t.mode != .windowed with
      | true =>
        obtain ⟨placed, hplaced⟩ := resize_exists (ε := ε) (u := u)
          (s := { s with x := left.x, y := left.y }) hsize
        have hnone : (windows l).length ≤ left.splits + 1 := by
          rw [windows_eq_nil.mpr hlast]
          exact Nat.zero_le _
        obtain ⟨rest, hrest⟩ := ih hnone hsize
        exact ⟨placed :: rest, run_bind_ok.mpr ⟨_, _, tile_last, run_bind_ok.mpr ⟨_, _, hplaced,
          run_bind_ok.mpr ⟨_, _, hrest, rfl⟩⟩⟩⟩
      | false =>
        have hpos : 0 < (windows l).length := by
          rw [List.length_pos_iff]
          intro hnil
          rw [windows_eq_nil.mp hnil] at hlast
          exact absurd hlast nofun
        obtain ⟨place, other, htile⟩ := tile_exists (ε := ε) (s := u) (hpos.trans_le hroom)
        have hsplit := (tile_split htile).2
        have hle : place.shown.width ≤ left.shown.width ∧ place.shown.height ≤ left.shown.height ∧
            other.shown.width ≤ left.shown.width ∧ other.shown.height ≤ left.shown.height := by
          cases hsplit <;> simp only [Rect.shown, rest, tileGap] <;> omega
        obtain ⟨placed, hplaced⟩ := resize_exists (ε := ε) (u := u)
          (s := { s with x := place.x, y := place.y })
          ((Nat.mul_le_mul hle.1 hle.2.1).trans_lt hsize)
        rw [hsplit.splits] at hroom
        obtain ⟨rest, hrest⟩ := ih hroom ((Nat.mul_le_mul hle.2.2.1 hle.2.2.2).trans_lt hsize)
        exact ⟨placed :: rest, run_bind_ok.mpr ⟨_, _, htile, run_bind_ok.mpr ⟨_, _, hplaced,
          run_bind_ok.mpr ⟨_, _, hrest, rfl⟩⟩⟩⟩
    · rw [windows_cons_other hs] at hroom
      rw [if_neg hs]
      obtain ⟨rest, hrest⟩ := ih hroom hsize
      exact ⟨s :: rest, run_bind_ok.mpr ⟨_, _, hrest, rfl⟩⟩

/-- The loop underflows where the area cannot be split often enough. -/
theorem tileSurfaces_room (h : (tileSurfaces l left : Attempt σ ε (List Surface)).run u =
      some (.ok l', u')) : (windows l).length ≤ left.splits + 1 := by
  induction l generalizing left l' with
  | nil => exact Nat.zero_le _
  | cons s l ih =>
    by_cases hs : s.mode = .windowed
    · obtain ⟨place, other, placed, rest, htile, -, hrest, -⟩ := tileSurfaces_cons hs h
      rw [windows_cons_windowed hs, List.length_cons, Nat.add_le_add_iff_right]
      cases hlast : l.all fun t => t.mode != .windowed with
      | true =>
        rw [windows_eq_nil.mpr hlast]
        exact Nat.zero_le _
      | false =>
        rw [hlast] at htile
        rw [(tile_split htile).2.splits]
        exact ih hrest
    · obtain ⟨rest, hrest, -⟩ := tileSurfaces_cons_other hs h
      rw [windows_cons_other hs]
      exact ih hrest

end Loops

section Layouts

variable {ε : Type} {c : State} {fb : Framebuffer}

/-- Where the tiling starts. -/
def tilingArea (fb : Framebuffer) : Rect :=
  ⟨tileGap, trustBarHeight + tileGap, fb.width - tileGap * 2,
    (fb.height - trustBarHeight) - tileGap * 2⟩

/-- The layout comes to its end, and the windows lie in the content region, apart from one
another and none of them empty. -/
def TilesWell (c : State) (fb : Framebuffer) : Prop :=
  ∃ c', (relayout : Attempt State Unit Unit).run c = some (.ok (), c') ∧
    (∀ r ∈ windows c'.surfaces, r.Inside (contentRegion fb) ∧ r.Positive) ∧
    (windows c'.surfaces).Pairwise Rect.Disjoint

/-- No window, or a screen with room for one and with enough splits for those behind it. -/
def HasRoom (fb : Framebuffer) (count : ℕ) : Prop :=
  count = 0 ∨ 7 ≤ fb.width ∧ 27 ≤ fb.height ∧
    count ≤ splits (fb.width - 12) + splits (fb.height - 32) + 1

theorem tilingArea_splits (fb : Framebuffer) :
    (tilingArea fb).splits = splits (fb.width - 12) + splits (fb.height - 32) := by
  have hheight : (tilingArea fb).height = fb.height - 32 := by
    change fb.height - 20 - 12 = _
    omega
  rw [Rect.splits, hheight]
  rfl

theorem relayout_floating (hfb : c.framebuffer = some fb)
    (hlayout : c.layout = .floating) :
    (relayout : Attempt State ε Unit).run c = some (.ok (), { c with
      surfaces := c.surfaces.map fun s =>
        if s.mode = .windowed then { s with y := max s.y trustBarHeight } else s }) := by
  rw [relayout, run_bind_of_ok (run_of _)]
  split
  · next hnone => exact absurd (hfb.symm.trans hnone) nofun
  · rw [if_pos hlayout]
    rfl

theorem relayout_tiling (hfb : c.framebuffer = some fb) (hlayout : c.layout = .tiling) :
    (relayout : Attempt State ε Unit).run c =
      (do
        let surfaces ← tileSurfaces c.surfaces (tilingArea fb)
        of fun c => some (.ok (), { c with surfaces := surfaces }) : Attempt State ε Unit).run c := by
  rw [relayout, run_bind_of_ok (run_of _), hfb, hlayout]
  rfl

theorem inside_tilingArea {r : Rect} (hpos : r.Positive) (h : r.Inside (tilingArea fb).widened) :
    r.Inside (contentRegion fb) ↔ 7 ≤ fb.width ∧ 27 ≤ fb.height := by
  simp only [Rect.Inside, Rect.Positive, Rect.widened, tilingArea, contentRegion, trustBarHeight,
    tileGap] at *
  omega

theorem tilingArea_size (hmapped : fb.Mapped) (hwidth : 7 ≤ fb.width) (hheight : 27 ≤ fb.height) :
    (tilingArea fb).shown.width * (tilingArea fb).shown.height < 2 ^ 64 := by
  refine (Nat.mul_le_mul (?_ : _ ≤ fb.width) (?_ : _ ≤ fb.height)).trans_lt hmapped.size
  · simp only [tilingArea, Rect.shown, tileGap]
    omega
  · simp only [tilingArea, Rect.shown, trustBarHeight, tileGap]
    omega

/-- The tiling works for as many windows as the screen can be split for, and for no more. -/
theorem tiles_well_iff (hfb : c.framebuffer = some fb) (hlayout : c.layout = .tiling)
    (hmapped : fb.Mapped) : TilesWell c fb ↔ HasRoom fb (windows c.surfaces).length := by
  unfold TilesWell
  simp only [relayout_tiling hfb hlayout, run_bind_ok]
  constructor
  · rintro ⟨c', ⟨surfaces, u, htiles, hset⟩, hinside, -⟩
    obtain ⟨-, hc⟩ := Prod.mk.inj (Option.some.inj hset)
    have hsurfaces : c'.surfaces = surfaces := by rw [← hc]
    rw [hsurfaces] at hinside
    obtain ⟨-, hlen, hlaid⟩ := tileSurfaces_laid htiles
    have hroom := tileSurfaces_room htiles
    rw [tilingArea_splits] at hroom
    rcases List.eq_nil_or_concat (windows surfaces) with hnil | ⟨rest, r, hr⟩
    · rw [hnil, List.length_nil] at hlen
      exact Or.inl hlen.symm
    · have hmem : r ∈ windows surfaces := by
        rw [hr, List.concat_eq_append]
        exact List.mem_append_right _ (List.mem_singleton_self r)
      obtain ⟨hin, hpos⟩ := hinside r hmem
      obtain ⟨hwidth, hheight⟩ := (inside_tilingArea hpos (hlaid.inside r hmem)).mp hin
      exact Or.inr ⟨hwidth, hheight, hroom⟩
  · rintro (hzero | ⟨hwidth, hheight, hroom⟩)
    · rw [List.length_eq_zero_iff] at hzero
      refine ⟨c, ⟨c.surfaces, c, tileSurfaces_no_window hzero, rfl⟩, ?_, ?_⟩
      · rw [hzero]
        exact nofun
      · rw [hzero]
        exact .nil
    · rw [← tilingArea_splits] at hroom
      obtain ⟨surfaces, htiles⟩ := tileSurfaces_exists (u := c) (ε := Unit) hroom
        (tilingArea_size hmapped hwidth hheight)
      obtain ⟨-, -, hlaid⟩ := tileSurfaces_laid htiles
      refine ⟨{ c with surfaces := surfaces }, ⟨surfaces, c, htiles, rfl⟩, fun r hr => ?_,
        hlaid.disjoint⟩
      have hpos := hlaid.positive r hr
      exact ⟨(inside_tilingArea hpos (hlaid.inside r hr)).mpr ⟨hwidth, hheight⟩, hpos⟩

theorem windows_append (k l : List Surface) : windows (k ++ l) = windows k ++ windows l := by
  rw [windows, windows, windows, List.filter_append, List.map_append]

theorem windows_floating (l : List Surface) :
    (windows (l.map fun s =>
      if s.mode = .windowed then { s with y := max s.y trustBarHeight } else s)).length =
      (windows l).length := by
  induction l with
  | nil => rfl
  | cons s l ih =>
    rw [List.map_cons]
    by_cases hs : s.mode = .windowed
    · rw [if_pos hs, windows_cons_windowed (by exact hs), windows_cons_windowed hs,
        List.length_cons, List.length_cons, ih]
    · rw [if_neg hs, windows_cons_other hs, windows_cons_other hs, ih]

/-- A window that the screen has pixels for is created, in the layout that leaves it its size. -/
theorem createSurface_window (pid realmKind width height : ℕ) (hfb : c.framebuffer = some fb)
    (hlayout : c.layout = .floating) (hwidth : 0 < width ∧ width ≤ fb.width)
    (hheight : 0 < height ∧ height ≤ fb.height - trustBarHeight)
    (hcap : width * height ≤ maxSurfacePixels) (hcount : c.surfaces.length < 2 ^ 32)
    (hnext : c.nextSurfaceId < 2 ^ 32) :
    ∃ c', (createSurface pid realmKind width height .windowed : Attempt State ε (Option ℕ)).run c =
        some (.ok (some c.nextSurfaceId), c') ∧ c'.framebuffer = some fb ∧ c'.layout = .floating ∧
      c'.surfaces.length = c.surfaces.length + 1 ∧ c'.nextSurfaceId = c.nextSurfaceId + 1 ∧
      (windows c'.surfaces).length = (windows c.surfaces).length + 1 := by
  have hlt : width * height < 2 ^ 64 := Nat.lt_of_le_of_lt hcap (by decide)
  obtain ⟨place, hplace, hw, hh⟩ : ∃ place : Rect,
      (placement (contentRegion fb) c.surfaces.length width height .windowed :
        Attempt State ε Rect).run c = some (.ok place, c) ∧
      place.width = width ∧ place.height = height := by
    rw [placement, run_demand_bind, if_pos]
    · exact ⟨_, rfl, min_eq_left hwidth.2, min_eq_left hheight.2⟩
    · simp only [contentRegion, trustBarHeight]
      omega
  rw [createSurface, run_bind_of_ok (run_of _)]
  split
  · next hnone => exact absurd (hfb.symm.trans hnone) nofun
  next hsome =>
  obtain rfl := Option.some.inj (hfb.symm.trans hsome)
  rw [run_bind_of_ok hplace, hw, hh, if_neg (by omega), if_neg (Nat.not_le.mpr hlt),
    if_neg (Nat.not_lt.mpr hcap), run_sum_bind (by omega), run_bind_of_ok (run_of _)]
  refine ⟨_, run_bind_of_ok (relayout_floating hfb hlayout), hfb, hlayout, ?_, rfl, ?_⟩
  · rw [List.length_map, List.length_append, List.length_singleton]
  · rw [windows_floating, windows_append, List.length_append, windows_cons_windowed rfl]
    rfl

/-- A screen of 640 by 480 pixels. -/
def vga : Framebuffer := ⟨640, 480, 2560, 4, .bgr, 1228800⟩

/-- Windows of one pixel, created one after the other. -/
def smallWindows : ℕ → Attempt State Unit Unit
  | 0 => pure ()
  | count + 1 => do
    discard (createSurface 1 0 1 1 .windowed)
    smallWindows count

theorem smallWindows_run (count : ℕ) {c : State} (hfb : c.framebuffer = some vga)
    (hlayout : c.layout = .floating) (hcount : c.surfaces.length + count < 2 ^ 32)
    (hnext : c.nextSurfaceId + count < 2 ^ 32) :
    ∃ c', (smallWindows count).run c = some (.ok (), c') ∧ c'.framebuffer = some vga ∧
      (windows c'.surfaces).length = (windows c.surfaces).length + count := by
  induction count generalizing c with
  | zero => exact ⟨c, rfl, hfb, rfl⟩
  | succ count ih =>
    obtain ⟨d, hcreate, hdfb, hdlayout, hdcount, hdnext, hdwindows⟩ :=
      createSurface_window (ε := Unit) 1 0 1 1 hfb hlayout (by decide) (by decide) (by decide)
        (by omega) (by omega)
    obtain ⟨c', hrest, hfb', hwindows⟩ := ih hdfb hdlayout (by omega) (by omega)
    refine ⟨c', ?_, hfb', by omega⟩
    have hdone : (discard (createSurface 1 0 1 1 .windowed) : Attempt State Unit Unit).run c =
        some (.ok (), d) := run_bind_of_ok hcreate
    rw [smallWindows, run_bind_of_ok hdone, hrest]

/-- The state with no surface on a screen of 640 by 480. -/
def emptyScreen : State := ⟨some vga, [], 1, none, .default, .floating, [], 0, 0, 0⟩

theorem emptyScreen_windows {count : ℕ} (h : count < 2 ^ 31) : ∃ c,
    (smallWindows count).run emptyScreen = some (.ok (), c) ∧ c.framebuffer = some vga ∧
      (windows c.surfaces).length = count := by
  obtain ⟨c, hrun, hfb, hwindows⟩ := smallWindows_run count (c := emptyScreen) rfl rfl
    (by simp only [emptyScreen, List.length_nil]; omega) (by simp only [emptyScreen]; omega)
  exact ⟨c, hrun, hfb, hwindows.trans (Nat.zero_add count)⟩

theorem tiles_well_iff_thirteen : ∃ c,
    (smallWindows 13).run emptyScreen = some (.ok (), c) ∧
      TilesWell { c with layout := .tiling } vga := by
  obtain ⟨c, hrun, hfb, hwindows⟩ := emptyScreen_windows (show 13 < 2 ^ 31 by decide)
  refine ⟨c, hrun, (tiles_well_iff (c := { c with layout := .tiling }) hfb rfl ?_).mpr ?_⟩
  · exact ⟨by decide, by decide, by decide, by decide⟩
  · rw [hwindows]
    exact Or.inr (by decide)

/-- The layout underflows for the fourteenth window. -/
theorem fourteenth_window_underflows : ∃ c,
    (smallWindows 14).run emptyScreen = some (.ok (), c) ∧
      (relayout : Attempt State Empty Unit).run { c with layout := .tiling } = none := by
  obtain ⟨c, hrun, hfb, hwindows⟩ := emptyScreen_windows (show 14 < 2 ^ 31 by decide)
  refine ⟨c, hrun, ?_⟩
  cases hlaid : (relayout : Attempt State Empty Unit).run { c with layout := .tiling } with
  | none => rfl
  | some laid =>
    obtain ⟨⟨⟨⟩⟩ | ⟨⟨⟩⟩, d⟩ := laid
    rw [relayout_tiling (c := { c with layout := .tiling }) hfb rfl] at hlaid
    obtain ⟨surfaces, u, htiles, -⟩ := run_bind_ok.mp hlaid
    have hroom := tileSurfaces_room htiles
    rw [tilingArea_splits, hwindows] at hroom
    exact absurd hroom (by decide)

end Layouts

end Compositor
