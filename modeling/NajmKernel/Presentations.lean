import NajmKernel.FramePictures

/-! What a presentation puts on the screen, in any run of the compositor. -/
namespace Compositor

open Framebuffers Layers UserMemory
open Attempts Attempt TransitionSystem

section Bounds

/-- A surface lies below the strip, and ends on the screen or little beyond it. -/
structure Surface.Bounded (fb : Framebuffer) (s : Surface) : Prop where
  top : trustBarHeight ≤ s.y
  right : s.x + s.width ≤ fb.width + 7
  bottom : s.y + s.height ≤ fb.height + 27
  area : s.width * s.height < 2 ^ 64

def signatureBlocks : ℕ := 6

structure Bounded (fb : Framebuffer) (c : State) : Prop where
  framebuffer : c.framebuffer = some fb
  signature : c.signature.length ≤ signatureBlocks
  surfaces : ∀ s ∈ c.surfaces, s.Bounded fb

/-- A step keeps the bounds. -/
def KeepsBounds (fb : Framebuffer) (c c' : State) : Prop := Bounded fb c → Bounded fb c'

instance (fb : Framebuffer) : IsPreorder State (KeepsBounds fb) where
  refl _ h := h
  trans _ _ _ h h' hc := h' (h hc)

variable {σ ε : Type} {u u' : σ} {fb : Framebuffer} {c c' : State} {s s' : Surface}
  {l l' : List Surface} {left : Rect} {width height : ℕ}

theorem resize_area (harea : s.width * s.height < 2 ^ 64)
    (h : (s.resize width height : Attempt σ ε Surface).run u = some (.ok s', u')) :
    s'.width * s'.height < 2 ^ 64 := by
  rw [Surface.resize] at h
  split at h
  · obtain ⟨hs, -⟩ := Prod.mk.inj (Option.some.inj h)
    exact Except.ok.inj hs ▸ harea
  · rw [run_demand_bind] at h
    obtain ⟨hfits, hs⟩ := Option.ite_none_right_eq_some.mp h
    obtain ⟨hs, -⟩ := Prod.mk.inj (Option.some.inj hs)
    exact Except.ok.inj hs ▸ hfits

/-- A surface of the tiling has its tile, or is as it was. -/
theorem tileSurfaces_mem (harea : ∀ s ∈ l, s.width * s.height < 2 ^ 64)
    (h : (tileSurfaces l left : Attempt σ ε (List Surface)).run u = some (.ok l', u')) :
    ∀ s' ∈ l', s'.width * s'.height < 2 ^ 64 ∧ (s'.mode = .windowed ∨ s' ∈ l) := by
  induction l generalizing left l' with
  | nil =>
    obtain rfl := Except.ok.inj (Prod.mk.inj (Option.some.inj h)).1
    intro s' hs'
    cases hs'
  | cons s l ih =>
    obtain ⟨hs, hl⟩ := List.forall_mem_cons.mp harea
    by_cases hmode : s.mode = .windowed
    · obtain ⟨place, other, placed, rest, -, hresize, hrest, rfl⟩ := tileSurfaces_cons hmode h
      intro s' hs'
      rcases List.mem_cons.mp hs' with rfl | hs'
      · have harea := resize_area (s := { s with x := place.x, y := place.y }) hs hresize
        exact ⟨harea, Or.inl ((resize_rect hresize).2.1.trans hmode)⟩
      · obtain ⟨hfits, hkind⟩ := ih hl hrest s' hs'
        exact ⟨hfits, hkind.imp_right (List.mem_cons_of_mem _)⟩
    · obtain ⟨rest, hrest, rfl⟩ := tileSurfaces_cons_other hmode h
      intro s' hs'
      rcases List.mem_cons.mp hs' with rfl | hs'
      · exact ⟨hs, Or.inr List.mem_cons_self⟩
      · obtain ⟨hfits, hkind⟩ := ih hl hrest s' hs'
        exact ⟨hfits, hkind.imp_right (List.mem_cons_of_mem _)⟩

theorem tileSurfaces_bounded (hl : ∀ s ∈ l, s.Bounded fb)
    (h : (tileSurfaces l (tilingArea fb) : Attempt σ ε (List Surface)).run u =
      some (.ok l', u')) : ∀ s' ∈ l', s'.Bounded fb := by
  intro s' hs'
  obtain ⟨harea, hmode | hold⟩ := tileSurfaces_mem (fun s hs => (hl s hs).area) h s' hs'
  · have hrect : s'.rect ∈ windows l' :=
      List.mem_map_of_mem (List.mem_filter.mpr ⟨hs', beq_iff_eq.mpr hmode⟩)
    obtain ⟨-, hright, htop, hbottom⟩ := (tileSurfaces_laid h).2.2.inside _ hrect
    simp only [Surface.rect, Rect.widened, tilingArea, trustBarHeight, tileGap]
      at hright htop hbottom
    exact ⟨by unfold trustBarHeight; omega, by omega, by omega, harea⟩
  · exact hl s' hold

theorem relayout_bounds : Leads (KeepsBounds fb) (relayout : Attempt State ε Unit) c := by
  intro r c' hrun hc
  obtain hlayout | hlayout := c.layout.floating_or_tiling
  · rw [relayout_floating hc.framebuffer hlayout] at hrun
    obtain ⟨-, rfl⟩ := Prod.mk.inj (Option.some.inj hrun)
    refine ⟨hc.framebuffer, hc.signature, fun s' hs' => ?_⟩
    obtain ⟨s, hs, rfl⟩ := List.mem_map.mp hs'
    have hbounded := hc.surfaces s hs
    split
    · exact { hbounded with
        top := le_max_right _ _
        bottom := by
          rw [max_eq_left hbounded.top]
          exact hbounded.bottom }
    · exact hbounded
  · rw [relayout_tiling hc.framebuffer hlayout] at hrun
    have hlaid : Leads (KeepsBounds fb) (do
        let surfaces ← tileSurfaces c.surfaces (tilingArea fb)
        of fun c => some (.ok (), { c with surfaces := surfaces }) : Attempt State ε Unit) c := by
      refine Leads.bind (leads_tileSurfaces _ _) fun l u hl => Leads.of_run (run_of _) ?_
      obtain rfl := (tileSurfaces_laid hl).1
      exact fun hu => ⟨hu.framebuffer, hu.signature, tileSurfaces_bounded hu.surfaces hl⟩
    exact hlaid r c' hrun hc

theorem placement_bounded {place : Rect} {index pid realmKind id : ℕ} {mode : SurfaceMode}
    {pixels : List UInt8} (harea : place.width * place.height < 2 ^ 64)
    (h : (placement (contentRegion fb) index width height mode : Attempt σ ε Rect).run u =
      some (.ok place, u')) :
    Surface.Bounded fb ⟨id, pid, realmKind, place.x, place.y, place.width, place.height, mode,
      pixels⟩ := by
  have hregion : contentRegion fb = ⟨0, 20, fb.width, fb.height - 20⟩ := rfl
  have htop : (contentRegion fb).y ≤ place.y := (placement_below h).2
  refine ⟨htop, ?_, ?_, harea⟩
  all_goals
    cases mode with
    | fullscreen =>
      obtain rfl := Except.ok.inj (Prod.mk.inj (Option.some.inj h)).1
      simp only [hregion]
      omega
    | windowed =>
      simp only [placement, run_demand_bind] at h
      obtain ⟨-, hplace⟩ := Option.ite_none_right_eq_some.mp h
      obtain rfl := Except.ok.inj (Prod.mk.inj (Option.some.inj hplace)).1
      simp only [hregion]
      omega

theorem leads_placement {R : σ → σ → Prop} [IsPreorder σ R] (content : Rect)
    (index width height : ℕ) (mode : SurfaceMode) :
    Leads R (placement content index width height mode : Attempt σ ε Rect) u := by
  cases mode with
  | fullscreen => exact Leads.pure _
  | windowed => exact Leads.demand_bind fun _ => Leads.pure _

theorem createSurface_bounds {pid realmKind : ℕ} {mode : SurfaceMode} :
    Leads (KeepsBounds fb)
      (createSurface pid realmKind width height mode : Attempt State ε (Option ℕ)) c := by
  refine Leads.bind_of_ok (run_of _) ?_
  cases hfb : c.framebuffer with
  | none => exact Leads.pure _
  | some fb' =>
    refine Leads.bind (leads_placement _ _ _ _ _) fun place u hplace => ?_
    obtain rfl := (placement_below hplace).1
    refine Leads.ite (fun _ => Leads.pure _) fun _ => Leads.ite (fun _ => Leads.pure _) fun harea =>
      Leads.ite (fun _ => Leads.pure _) fun _ => Leads.sum_bind ?_
    refine Leads.bind (Leads.of_run (run_of _) fun hu => ?_) fun _ _ _ =>
      Leads.bind relayout_bounds fun _ _ _ => Leads.pure _
    obtain rfl := Option.some.inj (hu.framebuffer.symm.trans hfb)
    refine ⟨hu.framebuffer, hu.signature, fun s hs => ?_⟩
    rcases List.mem_append.mp hs with hs | hs
    · exact hu.surfaces s hs
    · rw [List.mem_singleton.mp hs]
      exact placement_bounded (Nat.lt_of_not_le harea) hplace

theorem commitSurfaceFromUser_bounds {id pid len : ℕ} {data : Option (List UInt8)} :
    Leads (KeepsBounds fb) (commitSurfaceFromUser id pid len data : Attempt State ε Bool) c := by
  refine Leads.bind_of_ok (run_of _) ?_
  cases c.surfaces.find? fun s => s.id == id with
  | none => exact Leads.pure _
  | some surface =>
    dsimp only
    split
    · exact Leads.sum_bind (Leads.of_run (run_of _) fun hc =>
        ⟨hc.framebuffer, hc.signature, hc.surfaces⟩)
    next bytes _ =>
      refine Leads.of_run (run_of _) fun hc => ⟨hc.framebuffer, hc.signature, fun s hs => ?_⟩
      obtain ⟨t, ht, rfl⟩ := List.mem_map.mp hs
      have hbounded := hc.surfaces t ht
      split
      · exact ⟨hbounded.top, hbounded.right, hbounded.bottom, hbounded.area⟩
      · exact hbounded

theorem setLayout_bounds {mode : LayoutMode} :
    Leads (KeepsBounds fb) (setLayout mode : Attempt State ε Unit) c :=
  Leads.bind_of_ok (run_of _) (Leads.ite (fun _ => Leads.pure _) fun _ =>
    Leads.bind (Leads.of_run (run_of _) fun hc => ⟨hc.framebuffer, hc.signature, hc.surfaces⟩)
      fun _ _ _ => relayout_bounds)

theorem toggleLayout_bounds : Leads (KeepsBounds fb) (toggleLayout : Attempt State ε Unit) c :=
  Leads.bind_of_ok (run_of _) setLayout_bounds

theorem removeSurfacesFor_bounds {pid : ℕ} :
    Leads (KeepsBounds fb) (removeSurfacesFor pid : Attempt State ε Unit) c :=
  Leads.bind (Leads.of_run (run_of _) fun hc => ⟨hc.framebuffer, hc.signature, fun s hs =>
    hc.surfaces s (List.mem_of_mem_filter hs)⟩) fun _ _ _ => relayout_bounds

theorem present_bounds {toggle : Bool} :
    Leads (KeepsBounds fb) (present toggle : Attempt State ε Unit) c := by
  refine Leads.ite (fun _ => Leads.bind toggleLayout_bounds fun _ u _ => ?_) fun _ => ?_
  all_goals
    refine Leads.bind_of_ok (run_of _) ?_
    split
    · exact Leads.pure _
    · exact Leads.sum_bind (Leads.of_run (run_of _) fun hc =>
        ⟨hc.framebuffer, hc.signature, hc.surfaces⟩)

theorem perform_bounds (e : Event) : Leads (KeepsBounds fb) (perform e) c := by
  cases e with
  | create pid realmKind width height mode =>
    exact Leads.bind createSurface_bounds fun _ _ _ => Leads.pure _
  | commit id pid ptr len space =>
    exact Leads.bind commitSurfaceFromUser_bounds fun _ _ _ => Leads.pure _
  | setLayout mode => exact Leads.bind setLayout_bounds fun _ _ _ => Leads.pure _
  | toggleLayout => exact Leads.bind toggleLayout_bounds fun _ _ _ => Leads.pure _
  | removeSurfacesFor pid => exact Leads.bind removeSurfacesFor_bounds fun _ _ _ => Leads.pure _
  | present toggle => exact Leads.bind present_bounds fun _ _ _ => Leads.pure _

end Bounds

section Presenting

variable {ε : Type} {fb : Framebuffer} {c u : State} {x y : Session} {es : List Event}
  {toggle : Bool} {pointer : ℕ × ℕ}

/-- Whatever the processes do, the surfaces stay bounded. -/
theorem session_bounded (hfb : c.framebuffer = some fb)
    (hsignature : c.signature.length ≤ signatureBlocks) (hempty : c.surfaces = [])
    (hx : exec next (begin c) es = some x) : Bounded fb x.state := by
  have hstep : Preserves next Any fun x => Bounded fb x.state := by
    intro x e y hx _ hy
    obtain ⟨answer, c, hrun, rfl⟩ := next_ok hy
    rw [record_state]
    exact perform_bounds e _ _ hrun hx
  refine exec_invariant hstep ⟨hfb, hsignature, fun s hs => ?_⟩ (meets_any next _ es) hx
  rw [begin, hempty] at hs
  cases hs

/-- The three channels of a pixel, as the self-tests read them back. -/
def readPixel (fb : Framebuffer) (s : Screen) (x y : ℕ) : Option (UInt8 × UInt8 × UInt8) :=
  if fb.width ≤ x ∨ fb.height ≤ y then none
  else
    let offset := fb.offset x y
    let second := if 1 < fb.bytesPerPixel then s (offset + 1) else 0
    let third := if 2 < fb.bytesPerPixel then s (offset + 2) else 0
    some (if fb.format = .bgr then (third, second, s offset) else (s offset, second, third))

/-- Where all three channels are stored, they are read back. -/
theorem readPixel_colour {s : Screen} {x y : ℕ} {colour : Colour}
    (hformat : fb.format = .rgb ∨ fb.format = .bgr) (hdepth : 3 ≤ fb.bytesPerPixel)
    (hx : x < fb.width) (hy : y < fb.height) (h : colourAt fb s x y = fb.packed colour) :
    readPixel fb s x y = some (colour.r, colour.g, colour.b) := by
  have hdots : colourAt fb s x y = [s (fb.offset x y), s (fb.offset x y + 1),
      s (fb.offset x y + 2)] := by
    have hthree : channels fb = 3 := by
      unfold channels
      obtain hformat | hformat := hformat
      · rw [hformat]
        exact Nat.min_eq_right hdepth
      · rw [hformat]
        exact Nat.min_eq_right hdepth
    rw [colourAt, hthree]
    rfl
  have htake : ∀ a b : UInt8, [a, b].take (fb.bytesPerPixel - 1) = [a, b] := by
    intro a b
    refine List.take_of_length_le ?_
    rw [List.length_cons, List.length_singleton]
    omega
  rw [hdots, Framebuffer.packed] at h
  rw [readPixel, if_neg (show ¬ (fb.width ≤ x ∨ fb.height ≤ y) by omega)]
  dsimp only
  rw [if_pos (show 1 < fb.bytesPerPixel by omega), if_pos (show 2 < fb.bytesPerPixel by omega)]
  obtain hformat | hformat := hformat
  all_goals
    rw [hformat] at h ⊢
    simp only [htake, List.cons.injEq, and_true] at h
    rw [h.1, h.2.1, h.2.2]
    rfl

theorem Bounded.drawable (hc : Bounded fb c) (hwidth : fb.width < 2 ^ 63)
    (hheight : fb.height < 2 ^ 63) (hsized : ∀ s ∈ c.surfaces, s.Sized) : Drawable fb c := by
  refine ⟨hsized, fun s hs => ?_, ?_, ?_⟩
  · obtain ⟨-, hright, hbottom, harea⟩ := hc.surfaces s hs
    exact ⟨by omega, by omega, harea⟩
  · have hblocks := Nat.mul_le_mul_right (block + gap) hc.signature
    rw [show signatureBlocks * (block + gap) = 78 from rfl] at hblocks
    omega
  · unfold trustBarHeight
    omega

/-- A presentation returns, counts its frame, and shows it. -/
theorem presentOn_draws (hm : fb.Mapped) (hwidth : fb.width < 2 ^ 63) (hheight : fb.height < 2 ^ 63)
    (hc : Bounded fb c) (hsized : ∀ s ∈ c.surfaces, s.Sized) (hframes : c.frames + 1 < 2 ^ 64)
    (hpointer : pointer.1 ≤ fb.width ∧ pointer.2 ≤ fb.height) (s : Screen) : ∃ s',
    (presentOn false pointer : Attempt (State × Screen) ε Unit).run (c, s) =
      some (.ok (), ({ c with frames := c.frames + 1 }, s')) ∧
      ∀ p : ℕ × ℕ, p.1 < fb.width → p.2 < fb.height →
        colourAt fb s' p.1 p.2 = fb.packed (frameColour fb c pointer p) := by
  obtain ⟨s', hdraw, hshown⟩ := drawFrame_shows (ε := ε) hm (hc.drawable hwidth hheight hsized)
    (show pointer.1 + 12 ≤ 2 ^ 64 by omega) (show pointer.2 + 12 ≤ 2 ^ 64 by omega) s
  refine ⟨s', ?_, hshown⟩
  have hread : (onState (of fun c => some (.ok c, c)) : Attempt (State × Screen) ε State).run (c, s) =
      some (.ok c, (c, s)) := rfl
  have hpresent : (presentOn false pointer : Attempt (State × Screen) ε Unit).run (c, s) =
      (do
        onScreen (drawFrame fb c pointer)
        onState do
          let frames ← sum 64 c.frames 1
          of fun c => some (.ok (), { c with frames := frames })).run (c, s) := by
    rw [presentOn, if_neg Bool.false_ne_true]
    refine (run_bind_of_ok hread).trans ?_
    rw [hc.framebuffer]
  rw [hpresent]
  refine run_bind_ok.mpr ⟨(), (c, s'), onScreen_ok.mpr ⟨hdraw, rfl⟩, onState_ok.mpr ⟨?_, rfl⟩⟩
  rw [run_sum_bind hframes]
  rfl

/-- In any run of the compositor, a presentation whose switch of the layout returns and whose count
of frames has room shows a frame of what it then has: each pixel the highest thing there, the trust
bar over the pointer over the surfaces, and no pixel what was on the screen before. -/
theorem frame_shown (hm : fb.Mapped) (hwidth : fb.width < 2 ^ 63) (hheight : fb.height < 2 ^ 63)
    (hfb : c.framebuffer = some fb) (hsignature : c.signature.length ≤ signatureBlocks)
    (hempty : c.surfaces = []) (hx : exec next (begin c) es = some x)
    (hu : (if toggle then toggleLayout else pure () : Attempt State Empty Unit).run x.state =
      some (.ok (), u)) (hframes : u.frames + 1 < 2 ^ 64)
    (hpointer : pointer.1 ≤ fb.width ∧ pointer.2 ≤ fb.height) (s : Screen) : ∃ s',
    (presentOn toggle pointer : Attempt (State × Screen) Empty Unit).run (x.state, s) =
      some (.ok (), ({ u with frames := u.frames + 1 }, s')) ∧
    ∀ p : ℕ × ℕ, p.1 < fb.width → p.2 < fb.height →
      colourAt fb s' p.1 p.2 = fb.packed (frameColour fb u pointer p) ∧
        (fb.format = .rgb ∨ fb.format = .bgr → 3 ≤ fb.bytesPerPixel →
          readPixel fb s' p.1 p.2 = some ((frameColour fb u pointer p).r,
            (frameColour fb u pointer p).g, (frameColour fb u pointer p).b)) := by
  have hlawful := surfaces_owned hempty hx
  have hbounded := session_bounded hfb hsignature hempty hx
  have htoggled : Bounded fb u ∧ ∀ s ∈ u.surfaces, s.Sized := by
    cases toggle with
    | false =>
      obtain ⟨-, rfl⟩ := Prod.mk.inj (Option.some.inj hu)
      exact ⟨hbounded, hlawful.sized⟩
    | true =>
      refine ⟨toggleLayout_bounds _ _ hu hbounded, fun s hs => ?_⟩
      obtain ⟨mode, l, rfl, hl⟩ := toggleLayout_moved hu
      obtain ⟨t, ht, hmoved⟩ := moved_mem hl hs
      exact hmoved.sized (hlawful.sized t ht)
  obtain ⟨s', hrun, hshown⟩ := presentOn_draws (ε := Empty) hm hwidth hheight htoggled.1
    htoggled.2 hframes hpointer s
  refine ⟨s', ?_, fun p hx hy => ⟨hshown p hx hy, fun hformat hdepth =>
    readPixel_colour hformat hdepth hx hy (hshown p hx hy)⟩⟩
  cases toggle with
  | false =>
    obtain ⟨-, rfl⟩ := Prod.mk.inj (Option.some.inj hu)
    exact hrun
  | true =>
    rw [presentOn_true]
    exact run_bind_ok.mpr ⟨(), (u, s), onState_ok.mpr ⟨hu, rfl⟩, hrun⟩

def smallScreen : Framebuffer := ⟨8, 30, 32, 4, .rgb, 960⟩

theorem smallScreen_mapped : smallScreen.Mapped := ⟨by decide, by decide, by decide, by decide⟩

theorem frame_shown_blank : ∃ x u s', exec next (begin blankScreen)
    [.create 1 0 2 1 .windowed, .create 2 1 0 0 .fullscreen] = some x ∧
    (presentOn true (3, 4) : Attempt (State × Screen) Empty Unit).run (x.state, fun _ => 0) =
      some (.ok (), ({ u with frames := u.frames + 1 }, s')) ∧
    ∀ p : ℕ × ℕ, p.1 < 8 → p.2 < 30 →
      colourAt smallScreen s' p.1 p.2 = smallScreen.packed (frameColour smallScreen u (3, 4) p) := by
  have hrun : ((exec next (begin blankScreen)
      [.create 1 0 2 1 .windowed, .create 2 1 0 0 .fullscreen]).bind fun x =>
        ((toggleLayout : Attempt State Empty Unit).run x.state).map fun r => r.2.frames) = some 0 := by
    decide +kernel
  obtain ⟨x, hx, htoggle⟩ := Option.bind_eq_some_iff.mp hrun
  obtain ⟨⟨⟨⟨⟩⟩ | ⟨⟨⟩⟩, u⟩, hu, hframes⟩ := Option.map_eq_some_iff.mp htoggle
  have hframes : u.frames = 0 := hframes
  have htoggled : (if true then toggleLayout else pure () : Attempt State Empty Unit).run x.state =
      some (.ok (), u) := hu
  have hpointer : ((3, 4) : ℕ × ℕ).1 ≤ 8 ∧ ((3, 4) : ℕ × ℕ).2 ≤ 30 := by decide
  obtain ⟨s', hrun, hshown⟩ := frame_shown smallScreen_mapped (by decide) (by decide) rfl (by decide)
    rfl hx htoggled (by omega) hpointer fun _ => 0
  exact ⟨x, u, s', hx, hrun, fun p hx hy => (hshown p hx hy).1⟩

/-- Nothing of the trust bar is below the strip. -/
theorem trustBarLayer_below {theme : Theme} {realm : Option ℕ} {signature : List Colour}
    {p : ℕ × ℕ} (hp : trustBarHeight ≤ p.2) : trustBarLayer fb theme realm signature p = none := by
  have hbar : trustBarHeight = 20 := rfl
  have hrect : ∀ (r : Rect) (colour : Colour), r.y + r.height ≤ trustBarHeight →
      plain r.Has colour p = none := by
    intro r colour hend
    refine if_neg fun h => ?_
    have hrow := h.2.2
    omega
  have htext : ∀ label, plain (Written label 22 7) theme.trustBarText p = none := by
    intro label
    refine if_neg ?_
    rintro ⟨c, -, ⟨-, -, hrow⟩, -⟩
    have hglyph : glyphHeight = 7 := rfl
    omega
  have hblocks : signatureLayer fb signature p = none :=
    stack_none fun c _ => hrect _ _ (show 5 + 10 ≤ trustBarHeight by decide)
  have hall : ∀ label accent, stack [plain (Rect.Has ⟨0, 0, fb.width, trustBarHeight⟩) theme.trustBar,
      plain (Rect.Has ⟨0, trustBarHeight - 1, fb.width, 1⟩) theme.trustBarEdge,
      plain (Rect.Has ⟨6, 5, 10, 10⟩) accent, plain (Written label 22 7) theme.trustBarText,
      signatureLayer fb signature] p = none := by
    intro label accent
    refine stack_blank ?_
    simp only [List.forall_mem_cons, List.not_mem_nil, false_imp_iff, forall_const, and_true]
    exact ⟨hrect _ _ (show 0 + trustBarHeight ≤ trustBarHeight by decide),
      hrect _ _ (show trustBarHeight - 1 + 1 ≤ trustBarHeight by decide),
      hrect _ _ (show 5 + 10 ≤ trustBarHeight by decide), htext label, hblocks⟩
  cases realm with
  | none => exact hall _ _
  | some kind => exact hall _ _

/-- Where no later surface and no pointer is, a surface shows its own pixel, or its border. -/
theorem frameColour_surface {before after : List Surface} {t : Surface} {p : ℕ × ℕ} {pixel : Colour}
    (hsplit : c.surfaces = before ++ t :: after)
    (hin : (t.clip (contentRegion fb)).Has p)
    (hborder : t.mode = .windowed → ¬ (t.clip (contentRegion fb)).Edge p)
    (hcovered : ∀ s ∈ after, ¬ (s.clip (contentRegion fb)).Has p)
    (hpointer : pointerLayer c.theme pointer.1 pointer.2 p = none)
    (hpixel : t.pixelAt (p.1 - t.x) (p.2 - t.y) = some pixel) :
    frameColour fb c pointer p = pixel := by
  have hbelow : trustBarHeight ≤ p.2 := (le_max_right _ _).trans hin.2.1
  have hown : t.layer c.theme (contentRegion fb) p = some pixel := by
    rw [Surface.layer, above, if_pos hin, hpixel]
    by_cases hmode : t.mode = .windowed
    · rw [if_pos hmode, plain, if_neg (hborder hmode)]
      rfl
    · rw [if_neg hmode]
      rfl
  have hhigher : ∀ layer ∈ after.map (Surface.layer c.theme (contentRegion fb)) ++
      [pointerLayer c.theme pointer.1 pointer.2,
        trustBarLayer fb c.theme (focusedRealm c) c.signature], layer p = none := by
    intro layer hlayer
    rcases List.mem_append.mp hlayer with hlayer | hlayer
    · obtain ⟨s, hs, rfl⟩ := List.mem_map.mp hlayer
      rw [Surface.layer, above, if_neg (hcovered s hs), Option.or_none]
      split
      · rw [plain, if_neg]
        exact fun hedge => hcovered s hs hedge.1
      · rfl
    · simp only [List.mem_cons, List.not_mem_nil, or_false] at hlayer
      rcases hlayer with rfl | rfl
      · exact hpointer
      · exact trustBarLayer_below hbelow
  have hseen : frameLayer fb c pointer p = some pixel := by
    rw [frameLayer, hsplit, List.map_append, ← List.append_assoc, List.append_assoc]
    exact stack_seen hown hhigher
  rw [frameColour, hseen]
  rfl

/-- What a process has committed since its surface was last resized is what a presentation that
switches no layout shows of it, where nothing covers it: the pixel of the process's own bytes, four
for each, blue in the lowest. -/
theorem commit_shown {before after : List Surface} {t : Surface} {pid : ℕ} {data : List UInt8}
    {p : ℕ × ℕ} (hm : fb.Mapped) (hwidth : fb.width < 2 ^ 63) (hheight : fb.height < 2 ^ 63)
    (hfb : c.framebuffer = some fb) (hsignature : c.signature.length ≤ signatureBlocks)
    (hempty : c.surfaces = []) (hx : exec next (begin c) es = some x)
    (hframes : x.state.frames + 1 < 2 ^ 64)
    (hpointer : pointer.1 ≤ fb.width ∧ pointer.2 ≤ fb.height)
    (hsplit : x.state.surfaces = before ++ t :: after)
    (hcommitted : x.committed t.id = some (pid, data))
    (hin : (t.clip (contentRegion fb)).Has p)
    (hborder : t.mode = .windowed → ¬ (t.clip (contentRegion fb)).Edge p)
    (hcovered : ∀ s ∈ after, ¬ (s.clip (contentRegion fb)).Has p)
    (hclear : ¬ (pointer.1 ≤ p.1 ∧ pointer.2 ≤ p.2 ∧ Pointed (p.2 - pointer.2) (p.1 - pointer.1)))
    (s : Screen) : ∃ s' : Screen, pid = t.pid ∧
      (presentOn false pointer : Attempt (State × Screen) Empty Unit).run (x.state, s) =
        some (.ok (), ({ x.state with frames := x.state.frames + 1 }, s')) ∧
      let i := ((p.2 - t.y) * t.width + (p.1 - t.x)) * 4
      i + 3 < data.length ∧ colourAt fb s' p.1 p.2 =
        fb.packed ⟨data.getD (i + 2) 0, data.getD (i + 1) 0, data.getD i 0⟩ := by
  have hlawful := surfaces_owned hempty hx
  have ht : t ∈ x.state.surfaces := hsplit ▸ List.mem_append_right _ List.mem_cons_self
  have hheld := hlawful.authored t ht
  rw [hcommitted] at hheld
  obtain ⟨rfl, rfl⟩ := hheld
  have hrow : p.2 ∈ List.range' (t.clip (contentRegion fb)).y (t.clip (contentRegion fb)).height :=
    List.mem_range'_1.mpr hin.2
  have hcolumn : p.1 ∈ List.range' (t.clip (contentRegion fb)).x
      (t.clip (contentRegion fb)).width := List.mem_range'_1.mpr hin.1
  obtain ⟨pixel, hpixel⟩ := Option.isSome_iff_exists.mp
    (hlawful.inRange t ht fb p.2 hrow p.1 hcolumn)
  obtain ⟨s', hrun, hshown⟩ := presentOn_draws (ε := Empty) hm hwidth hheight
    (session_bounded hfb hsignature hempty hx) hlawful.sized hframes hpointer s
  have honX : p.1 < fb.width := by
    have hstart := hin.1.1
    have hend := hin.1.2
    have hregion : (contentRegion fb).width = fb.width := rfl
    simp only [Surface.clip, hregion] at hstart hend
    omega
  have honY : p.2 < fb.height := by
    have hstart := hin.2.1
    have hend := hin.2.2
    have hregion : (contentRegion fb).height = fb.height - 20 := rfl
    have htop : (contentRegion fb).y = 20 := rfl
    simp only [Surface.clip, hregion, htop] at hstart hend
    omega
  have hcolour := frameColour_surface hsplit hin hborder hcovered (if_neg hclear) hpixel
  rw [Surface.pixelAt] at hpixel
  obtain ⟨hindex, hchannels⟩ := Option.ite_none_right_eq_some.mp hpixel
  refine ⟨s', rfl, hrun, hindex, ?_⟩
  rw [hshown p honX honY, hcolour, ← Option.some.inj hchannels]

theorem commit_shown_full : ∃ x s', exec next (begin blankScreen)
    [.create 1 0 0 0 .fullscreen,
      .commit 1 1 0x400000 320 ⟨fun _ => true, fun _ => true, fun _ => 0x61⟩] = some x ∧
    (presentOn false (0, 0) : Attempt (State × Screen) Empty Unit).run (x.state, fun _ => 0) =
      some (.ok (), ({ x.state with frames := x.state.frames + 1 }, s')) ∧
    colourAt smallScreen s' 3 25 = [0x61, 0x61, 0x61] := by
  have hrun : ((exec next (begin blankScreen) [.create 1 0 0 0 .fullscreen,
      .commit 1 1 0x400000 320 ⟨fun _ => true, fun _ => true, fun _ => 0x61⟩]).map fun x =>
        (x.state.surfaces, x.committed 1, x.state.frames)) =
      some ([⟨1, 1, 0, 0, 20, 8, 10, .fullscreen, List.replicate 320 0x61⟩],
        some (1, List.replicate 320 0x61), 0) := by decide +kernel
  obtain ⟨x, hx, hstate⟩ := Option.map_eq_some_iff.mp hrun
  obtain ⟨hsurfaces, hstate⟩ := Prod.mk.inj hstate
  obtain ⟨hcommitted, hframes⟩ := Prod.mk.inj hstate
  have hpointer : ((0, 0) : ℕ × ℕ).1 ≤ 8 ∧ ((0, 0) : ℕ × ℕ).2 ≤ 30 := by decide
  have hsplit : x.state.surfaces =
      [] ++ ⟨1, 1, 0, 0, 20, 8, 10, .fullscreen, List.replicate 320 0x61⟩ :: [] := hsurfaces
  obtain ⟨s', -, hrun, -, hcolour⟩ := commit_shown (p := (3, 25)) smallScreen_mapped (by decide)
    (by decide) rfl (by decide) rfl hx (by rw [hframes]; decide) hpointer hsplit hcommitted
    (by decide) (by decide) (fun s hs => absurd hs List.not_mem_nil) (by decide) fun _ => 0
  exact ⟨x, s', hx, hrun, hcolour⟩

end Presenting

end Compositor
