import NajmKernel.SurfaceOwnership

/-! How much of the kernel heap the surfaces' pixels take: what each call makes of it, and which
runs stay within it. -/
namespace Compositor

open Framebuffers UserMemory
open Attempts Attempt TransitionSystem

section Shares

def kernelHeapSize : ℕ := 16 * 1024 * 1024

/-- The modes of the surfaces, and the bytes of their buffers. -/
def shares (surfaces : List Surface) : List (SurfaceMode × ℕ) :=
  surfaces.map fun s => (s.mode, s.pixels.length)

def total (l : List (SurfaceMode × ℕ)) : ℕ := (l.map (·.2)).sum

def Rect.bytes (r : Rect) : ℕ := r.width * r.height * 4

/-- The half of an area that a tile takes, and the rest behind the gap. -/
def Rect.halves (r : Rect) : Rect × Rect :=
  if r.height ≤ r.width then
    ({ r with width := (r.width - tileGap) / 2 },
      { r with x := r.x + (r.width - tileGap) / 2 + tileGap, width := rest r.width })
  else
    ({ r with height := (r.height - tileGap) / 2 },
      { r with y := r.y + (r.height - tileGap) / 2 + tileGap, height := rest r.height })

/-- What the buffers of so many tiles of an area take. -/
def tileBytes : ℕ → Rect → ℕ
  | 0, _ => 0
  | 1, left => left.shown.bytes
  | count + 2, left => left.halves.1.shown.bytes + tileBytes (count + 1) left.halves.2

/-- What the surfaces take once they are laid out: a tile each for the windows, or what they had. -/
def taken (framebuffer : Option Framebuffer) (layout : LayoutMode)
    (l : List (SurfaceMode × ℕ)) : ℕ :=
  match framebuffer, layout with
  | some fb, .tiling => total (l.filter fun s => s.1 != .windowed) +
    tileBytes (l.countP fun s => s.1 == .windowed) (tilingArea fb)
  | _, _ => total l

variable {σ ε : Type} {u u' : σ} {l l' : List Surface} {left place other : Rect} {c c' : State}
  {s : Surface}

@[simp] theorem total_cons (s : SurfaceMode × ℕ) (l : List (SurfaceMode × ℕ)) :
    total (s :: l) = s.2 + total l := rfl

theorem total_append (k l : List (SurfaceMode × ℕ)) : total (k ++ l) = total k + total l := by
  rw [total, List.map_append, List.sum_append]
  rfl

theorem taken_floating (framebuffer : Option Framebuffer) (l : List (SurfaceMode × ℕ)) :
    taken framebuffer .floating l = total l := by
  cases framebuffer <;> rfl

@[simp] theorem shares_cons (s : Surface) (l : List Surface) :
    shares (s :: l) = (s.mode, s.pixels.length) :: shares l := rfl

theorem shares_append (k l : List Surface) : shares (k ++ l) = shares k ++ shares l :=
  List.map_append

theorem Split.halves (h : Split left place other) : left.halves = (place, other) := by
  cases h with
  | vertical longer fits => rw [Rect.halves, if_pos longer]
  | horizontal longer fits => rw [Rect.halves, if_neg (Nat.not_le.mpr longer)]

theorem countP_windowed : ((shares l).countP fun s => s.1 == .windowed) = (windows l).length := by
  rw [shares, List.countP_map, windows, List.length_map, List.countP_eq_length_filter]
  rfl

/-- The buffers of the surfaces after the tiling loop. -/
theorem tileSurfaces_total (hsized : ∀ s ∈ l, s.Sized) (hleft : trustBarHeight ≤ left.y)
    (h : (tileSurfaces l left : Attempt σ ε (List Surface)).run u = some (.ok l', u')) :
    total (shares l') = total ((shares l).filter fun s => s.1 != .windowed) +
      tileBytes (windows l).length left := by
  induction l generalizing left l' with
  | nil =>
    obtain rfl := Except.ok.inj (Prod.mk.inj (Option.some.inj h)).1
    rfl
  | cons s l ih =>
    have hrestSized : ∀ s ∈ l, s.Sized := fun s hs => hsized s (List.mem_cons_of_mem _ hs)
    by_cases hs : s.mode = .windowed
    · obtain ⟨place, other, placed, rest, htile, hresize, hrest, rfl⟩ := tileSurfaces_cons hs h
      obtain ⟨hplace, hother⟩ := tile_y htile
      have htotal := ih hrestSized (hleft.trans hother) hrest
      have hbytes : placed.pixels.length = place.shown.bytes := by
        have hmoved : s.Moved placed := resize_moved (Nat.lt_of_lt_of_le Nat.one_pos
          (le_max_right _ _)) (Nat.lt_of_lt_of_le Nat.one_pos (le_max_right _ _))
          (hleft.trans hplace) hresize
        have hrect : placed.rect = place.shown := (resize_rect hresize).2.2
        rw [(hmoved.sized (hsized s List.mem_cons_self)).2.2, ← hrect]
        rfl
      have hskip : ((shares (s :: l)).filter fun s => s.1 != .windowed) =
          (shares l).filter fun s => s.1 != .windowed := by
        rw [shares_cons, hs]
        rfl
      rw [shares_cons, total_cons, hbytes, htotal, hskip, windows_cons_windowed hs,
        List.length_cons]
      cases hlast : l.all fun t => t.mode != .windowed with
      | true =>
        rw [hlast, tile_last] at htile
        obtain ⟨rfl, -⟩ := Prod.mk.inj (Except.ok.inj (Prod.mk.inj (Option.some.inj htile)).1)
        rw [windows_eq_nil.mpr hlast, List.length_nil, tileBytes, tileBytes]
        omega
      | false =>
        rw [hlast] at htile
        have hhalves := (tile_split htile).2.halves
        obtain ⟨r, places, hcons⟩ : ∃ r places, windows l = r :: places := by
          refine List.exists_cons_of_ne_nil fun hnil => ?_
          rw [windows_eq_nil.mp hnil] at hlast
          exact absurd hlast nofun
        rw [hcons, List.length_cons, tileBytes, hhalves]
        exact Nat.add_left_comm _ _ _
    · obtain ⟨rest, hrest, rfl⟩ := tileSurfaces_cons_other hs h
      have hkeep : ((shares (s :: l)).filter fun s => s.1 != .windowed) =
          (s.mode, s.pixels.length) :: (shares l).filter fun s => s.1 != .windowed := by
        rw [shares_cons, List.filter_cons_of_pos (by simpa using hs)]
      rw [shares_cons, total_cons, ih hrestSized hleft hrest, hkeep, total_cons,
        windows_cons_other hs, Nat.add_assoc]

theorem total_floating (l : List Surface) : total (shares (l.map fun s =>
    if s.mode = .windowed then { s with y := max s.y trustBarHeight } else s)) =
      total (shares l) := by
  rw [shares, List.map_map]
  congr 1
  apply List.map_congr_left
  intro s _
  rw [Function.comp_apply]
  split <;> rfl

/-- The buffers after the layout. -/
theorem relayout_total (hsized : ∀ s ∈ c.surfaces, s.Sized)
    (h : (relayout : Attempt State ε Unit).run c = some (.ok (), c')) :
    total (shares c'.surfaces) = taken c.framebuffer c.layout (shares c.surfaces) := by
  obtain hfb | ⟨fb, hfb⟩ := Option.eq_none_or_eq_some c.framebuffer
  · rw [relayout_none hfb] at h
    obtain ⟨-, rfl⟩ := Prod.mk.inj (Option.some.inj h)
    rw [hfb]
    rfl
  · obtain hlayout | hlayout := c.layout.floating_or_tiling
    · rw [relayout_floating hfb hlayout] at h
      obtain ⟨-, rfl⟩ := Prod.mk.inj (Option.some.inj h)
      rw [hfb, hlayout, total_floating]
      rfl
    · rw [relayout_tiling hfb hlayout] at h
      obtain ⟨l, u, htiles, hset⟩ := run_bind_ok.mp h
      obtain ⟨-, rfl⟩ := Prod.mk.inj (Option.some.inj hset)
      rw [hfb, hlayout, taken, countP_windowed]
      exact tileSurfaces_total hsized (Nat.le_add_right _ _) htiles

end Shares

section Calls

variable {ε : Type} {c c' : State} {r : Option ℕ}

def LayoutMode.other : LayoutMode → LayoutMode
  | .floating => .tiling
  | .tiling => .floating

/-- The size of a new surface. -/
def requested (fb : Framebuffer) (width height : ℕ) : SurfaceMode → ℕ × ℕ
  | .fullscreen => ((contentRegion fb).width, (contentRegion fb).height)
  | .windowed => (min width (contentRegion fb).width, min height (contentRegion fb).height)

/-- The sizes that a new surface may have. -/
def Granted (size : ℕ × ℕ) : Prop :=
  0 < size.1 ∧ 0 < size.2 ∧ size.1 * size.2 ≤ maxSurfacePixels

theorem placement_size {σ : Type} {place : Rect} {index width height : ℕ}
    {mode : SurfaceMode} {fb : Framebuffer} {u u' : σ}
    (h : (placement (contentRegion fb) index width height mode : Attempt σ ε Rect).run u =
      some (.ok place, u')) : (place.width, place.height) = requested fb width height mode := by
  cases mode with
  | fullscreen =>
    obtain rfl := Except.ok.inj (Prod.mk.inj (Option.some.inj h)).1
    rfl
  | windowed =>
    simp only [placement, run_demand_bind] at h
    split at h
    · obtain rfl := Except.ok.inj (Prod.mk.inj (Option.some.inj h)).1
      rfl
    · cases h

theorem createSurface_none {pid realmKind width height : ℕ} {mode : SurfaceMode}
    (hfb : c.framebuffer = none)
    (h : (createSurface pid realmKind width height mode : Attempt State ε (Option ℕ)).run c =
      some (.ok r, c')) : c' = c := by
  rw [createSurface, run_bind_of_ok (run_of _), hfb] at h
  exact (Prod.mk.inj (Option.some.inj h)).2.symm

/-- A creation of a granted size adds its share before the layout, any other changes nothing. -/
theorem createSurface_total {pid realmKind width height : ℕ} {mode : SurfaceMode}
    {fb : Framebuffer} (hfb : c.framebuffer = some fb) (hsized : ∀ s ∈ c.surfaces, s.Sized)
    (h : (createSurface pid realmKind width height mode : Attempt State ε (Option ℕ)).run c =
      some (.ok r, c')) :
    let size := requested fb width height mode
    Granted size ∧ total (shares c'.surfaces) = taken c.framebuffer c.layout
      (shares c.surfaces ++ [(mode, size.1 * size.2 * 4)]) ∨ ¬ Granted size ∧ c' = c := by
  rw [createSurface, run_bind_of_ok (run_of _)] at h
  split at h
  · next hnone => cases hfb.symm.trans hnone
  next hsome =>
  obtain rfl := Option.some.inj (hfb.symm.trans hsome)
  obtain ⟨place, u, hplace, h⟩ := run_bind_ok.mp h
  obtain ⟨rfl, -⟩ := placement_below hplace
  rw [← placement_size hplace]
  have hrefused : (pure none : Attempt State ε (Option ℕ)).run u = some (.ok r, c') → c' = u :=
    fun h => (Prod.mk.inj (Option.some.inj h)).2.symm
  have hsmall : maxSurfacePixels < 2 ^ 64 := by decide
  split at h
  · next hempty =>
    refine Or.inr ⟨?_, hrefused h⟩
    rintro ⟨hw, hh, -⟩
    exact hempty.elim hw.ne' hh.ne'
  next hpos =>
  split at h
  · next hoverflow =>
    refine Or.inr ⟨?_, hrefused h⟩
    rintro ⟨-, -, hle⟩
    exact absurd (hoverflow.trans hle) (Nat.not_le.mpr hsmall)
  split at h
  · next hlarge => exact Or.inr ⟨fun hgranted => Nat.not_le.mpr hlarge hgranted.2.2, hrefused h⟩
  next hcap =>
  obtain ⟨-, h⟩ := run_sum_bind_ok.mp h
  rw [run_bind_of_ok (run_of _)] at h
  obtain ⟨⟨⟩, v, hlayout, h⟩ := run_bind_ok.mp h
  obtain ⟨-, rfl⟩ := Prod.mk.inj (Option.some.inj h)
  have hgranted : Granted (place.width, place.height) := by
    rw [not_or] at hpos
    exact ⟨Nat.pos_of_ne_zero hpos.1, Nat.pos_of_ne_zero hpos.2, Nat.le_of_not_lt hcap⟩
  refine Or.inl ⟨hgranted, ?_⟩
  rw [relayout_total ?_ hlayout]
  · rw [shares_append]
    simp only [shares, List.map_cons, List.map_nil, List.length_replicate]
  · intro s hs
    rcases List.mem_append.mp hs with hs | hs
    · exact hsized s hs
    · rw [List.mem_singleton.mp hs]
      exact ⟨hgranted.1, hgranted.2.1, List.length_replicate⟩

theorem commitSurfaceFromUser_total {id pid ptr len : ℕ} {space : UserSpace} {accepted : Bool}
    (hdistinct : (c.surfaces.map (·.id)).Nodup)
    (h : (commitSurfaceFromUser id pid len (copyFromUserInto space ptr len) :
      Attempt State ε Bool).run c = some (.ok accepted, c')) :
    shares c'.surfaces = shares c.surfaces := by
  obtain ⟨-, rejected, rfl⟩ | ⟨s, bytes, -, hs, rfl, -, rfl, hdata, rfl⟩ :=
    commitSurfaceFromUser_ok h
  · rfl
  · obtain rfl := copyFromUserInto_some hdata
    rw [shares, List.map_map]
    apply List.map_congr_left
    intro t ht
    rw [Function.comp_apply]
    by_cases hid : t.id = s.id
    · obtain rfl := List.inj_on_of_nodup_map hdistinct ht hs hid
      simp [UserSpace.read]
    · rw [if_neg hid]

theorem setLayout_total {mode : LayoutMode} (hsized : ∀ s ∈ c.surfaces, s.Sized)
    (h : (setLayout mode : Attempt State ε Unit).run c = some (.ok (), c')) :
    c.layout = mode ∧ c' = c ∨ c.layout ≠ mode ∧
      total (shares c'.surfaces) = taken c.framebuffer mode (shares c.surfaces) := by
  rw [setLayout, run_bind_of_ok (run_of _)] at h
  split at h
  · next hmode => exact Or.inl ⟨hmode, (Prod.mk.inj (Option.some.inj h)).2.symm⟩
  · next hmode =>
    rw [run_bind_of_ok (run_of _)] at h
    exact Or.inr ⟨hmode, relayout_total (c := { c with layout := mode }) hsized h⟩

theorem toggleLayout_total (hsized : ∀ s ∈ c.surfaces, s.Sized)
    (h : (toggleLayout : Attempt State ε Unit).run c = some (.ok (), c')) :
    total (shares c'.surfaces) = taken c.framebuffer c.layout.other (shares c.surfaces) := by
  rw [toggleLayout, run_bind_of_ok (run_of _)] at h
  have hset : (setLayout c.layout.other : Attempt State ε Unit).run c = some (.ok (), c') := h
  obtain ⟨hsame, -⟩ | ⟨-, htotal⟩ := setLayout_total hsized hset
  · cases hlayout : c.layout <;> rw [hlayout] at hsame <;> cases hsame
  · exact htotal

theorem removeSurfacesFor_total {pid : ℕ} (hsized : ∀ s ∈ c.surfaces, s.Sized)
    (h : (removeSurfacesFor pid : Attempt State ε Unit).run c = some (.ok (), c')) :
    total (shares c'.surfaces) = taken c.framebuffer c.layout
      (shares (c.surfaces.filter fun s => s.pid != pid)) := by
  rw [removeSurfacesFor, run_bind_of_ok (run_of _)] at h
  exact relayout_total (fun s hs => hsized s (List.mem_of_mem_filter hs)) h

theorem present_total {toggle : Bool} (hsized : ∀ s ∈ c.surfaces, s.Sized)
    (h : (Compositor.present toggle : Attempt State ε Unit).run c = some (.ok (), c')) :
    toggle = false ∧ c'.surfaces = c.surfaces ∨ toggle = true ∧
      total (shares c'.surfaces) = taken c.framebuffer c.layout.other (shares c.surfaces) := by
  cases toggle with
  | false =>
    obtain ⟨frames, rfl⟩ := present_counts h
    exact Or.inl ⟨rfl, rfl⟩
  | true =>
    obtain ⟨d, htoggle, hrest⟩ := present_toggled h
    obtain ⟨frames, rfl⟩ := present_counts hrest
    have htotal := toggleLayout_total hsized htoggle
    exact Or.inr ⟨rfl, htotal⟩

end Calls

section Budgets

variable {x y : Session} {c : State}

/-- The buffers of the live surfaces take no more than the heap has. -/
def FitsHeap (x : Session) : Prop := total (shares x.state.surfaces) ≤ kernelHeapSize

/-- The heap has room for what a call leaves behind: the surfaces that it keeps, the one that it
adds, and the sizes that the layout then gives them. -/
def Affordable (x : Session) : Event → Prop
  | .create _ _ width height mode => ∀ fb, x.state.framebuffer = some fb →
    let size := requested fb width height mode
    Granted size → taken x.state.framebuffer x.state.layout
      (shares x.state.surfaces ++ [(mode, size.1 * size.2 * 4)]) ≤ kernelHeapSize
  | .commit _ _ _ _ _ => True
  | .setLayout mode => x.state.layout ≠ mode →
    taken x.state.framebuffer mode (shares x.state.surfaces) ≤ kernelHeapSize
  | .toggleLayout =>
    taken x.state.framebuffer x.state.layout.other (shares x.state.surfaces) ≤ kernelHeapSize
  | .removeSurfacesFor pid => taken x.state.framebuffer x.state.layout
      (shares (x.state.surfaces.filter fun s => s.pid != pid)) ≤ kernelHeapSize
  | .present toggle => toggle = true →
    taken x.state.framebuffer x.state.layout.other (shares x.state.surfaces) ≤ kernelHeapSize

/-- A call that leaves room was one that the heap had room for, and such calls leave room. -/
theorem next_fits {e : Event} (h : Kept x) (hy : next x e = some y) :
    (FitsHeap y → Affordable x e) ∧ (Affordable x e → FitsHeap x → FitsHeap y) := by
  obtain ⟨answer, c, hrun, rfl⟩ := next_ok hy
  unfold FitsHeap
  rw [record_state]
  cases e with
  | create pid realmKind width height mode =>
    obtain ⟨r, hcreate, -⟩ := answered hrun
    obtain hfb | ⟨fb, hfb⟩ := Option.eq_none_or_eq_some x.state.framebuffer
    · obtain rfl := createSurface_none hfb hcreate
      exact ⟨fun _ fb hsome => absurd (hfb.symm.trans hsome) nofun, fun _ hfits => hfits⟩
    · simp only [Affordable, hfb, Option.some.injEq, forall_eq']
      obtain ⟨hgranted, htotal⟩ | ⟨hrefused, rfl⟩ := createSurface_total hfb h.sized hcreate
      · rw [htotal, hfb]
        exact ⟨fun hroom _ => hroom, fun hroom _ => hroom hgranted⟩
      · exact ⟨fun _ hgranted => absurd hgranted hrefused, fun _ hfits => hfits⟩
  | commit id pid ptr len space =>
    obtain ⟨accepted, hcommit, -⟩ := answered hrun
    rw [commitSurfaceFromUser_total h.distinct hcommit]
    exact ⟨fun _ => trivial, fun _ hfits => hfits⟩
  | setLayout mode =>
    obtain ⟨⟨⟩, hset, -⟩ := answered hrun
    obtain ⟨hsame, rfl⟩ | ⟨hother, htotal⟩ := setLayout_total h.sized hset
    · exact ⟨fun _ hother => absurd hsame hother, fun _ hfits => hfits⟩
    · rw [htotal]
      exact ⟨fun hroom _ => hroom, fun hroom _ => hroom hother⟩
  | toggleLayout =>
    obtain ⟨⟨⟩, htoggle, -⟩ := answered hrun
    rw [toggleLayout_total h.sized htoggle]
    exact ⟨fun hroom => hroom, fun hroom _ => hroom⟩
  | removeSurfacesFor pid =>
    obtain ⟨⟨⟩, hremove, -⟩ := answered hrun
    rw [removeSurfacesFor_total h.sized hremove]
    exact ⟨fun hroom => hroom, fun hroom _ => hroom⟩
  | present toggle =>
    obtain ⟨⟨⟩, hpresent, -⟩ := answered hrun
    obtain ⟨rfl, hsame⟩ | ⟨rfl, htotal⟩ := present_total h.sized hpresent
    · rw [hsame]
      exact ⟨fun _ htoggle => absurd htoggle Bool.false_ne_true, fun _ hfits => hfits⟩
    · rw [htotal]
      exact ⟨fun hroom _ => hroom, fun hroom _ => hroom rfl⟩

/-- A screen of 1280 by 800 pixels, with nothing on it. -/
def wideScreen : State :=
  ⟨some ⟨1280, 800, 5120, 4, .bgr, 4096000⟩, [], 1, none, .default, .floating, [], 0, 0, 0⟩

/-- Windows of the whole width and height, one after the other. -/
theorem full_windows (count : ℕ) (h : Kept x)
    (hfb : x.state.framebuffer = some ⟨1280, 800, 5120, 4, .bgr, 4096000⟩)
    (hlayout : x.state.layout = .floating) (hcount : x.state.surfaces.length + count < 2 ^ 32)
    (hnext : x.state.nextSurfaceId + count < 2 ^ 32) :
    ∃ y, exec next x (List.replicate count (.create 1 0 1280 780 .windowed)) = some y ∧
      total (shares y.state.surfaces) = total (shares x.state.surfaces) + count * 3993600 := by
  induction count generalizing x with
  | zero => exact ⟨x, rfl, by omega⟩
  | succ count ih =>
    obtain ⟨d, hcreate, hdfb, hdlayout, hdcount, hdnext, -⟩ :=
      createSurface_window (ε := Empty) 1 0 1280 780 hfb hlayout (by decide) (by decide)
        (by decide) (by omega) (by omega)
    have hstep : next x (.create 1 0 1280 780 .windowed) =
        some (x.record d (.create 1 0 1280 780 .windowed) (.created (some x.state.nextSurfaceId))) := by
      rw [next, perform, run_bind_of_ok hcreate]
      rfl
    have hstate : (x.record d (.create 1 0 1280 780 .windowed)
        (.created (some x.state.nextSurfaceId))).state = d := record_state
    obtain ⟨y, hy, htotal⟩ := ih (next_kept h hstep) (hstate ▸ hdfb) (hstate ▸ hdlayout)
      (by rw [hstate]; omega) (by rw [hstate]; omega)
    refine ⟨y, exec_cons.mpr ⟨_, hstep, hy⟩, ?_⟩
    rw [hstate] at htotal
    obtain ⟨-, hadded⟩ | ⟨-, rfl⟩ := createSurface_total hfb h.sized hcreate
    · have hsize : requested ⟨1280, 800, 5120, 4, .bgr, 4096000⟩ 1280 780 .windowed = (1280, 780) :=
        by decide
      have hone : total [(SurfaceMode.windowed, 1280 * 780 * 4)] = 3993600 := by decide
      rw [htotal, hadded, hlayout, taken_floating, total_append, hsize, hone]
      omega
    · exact absurd hdcount (Nat.lt_succ_self _).ne

end Budgets

end Compositor
