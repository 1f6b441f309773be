import NajmKernel.Presentations

/-! The sums of the compositor and what they stay below, and the layouts that there is room for: which
calls return, and which states can be drawn. -/
namespace Compositor

open Framebuffers
open Attempts Attempt

/-- After `n` steps: the surfaces are as a session of the compositor keeps them, and each number
that only ever rises is at most what `n` steps can make of it. -/
structure Counted (fb : Framebuffer) (n : ℕ) (c : State) : Prop where
  kept : ∃ issued committed, Kept ⟨c, issued, committed⟩
  bounded : Bounded fb c
  surfaces : c.surfaces.length ≤ n
  nextSurfaceId : c.nextSurfaceId ≤ n + 1
  frames : c.frames ≤ n
  rejectedCommits : c.rejectedCommits ≤ n

/-- The windows that the tiling can put next to each other. -/
def tiles (fb : Framebuffer) : ℕ := (tilingArea fb).splits + 1

variable {ε : Type} {fb : Framebuffer} {n : ℕ} {c c' : State}

theorem Counted.mono {m : ℕ} (hmn : m ≤ n) (hc : Counted fb m c) : Counted fb n c :=
  ⟨hc.kept, hc.bounded, hc.surfaces.trans hmn, hc.nextSurfaceId.trans (by omega),
    hc.frames.trans hmn, hc.rejectedCommits.trans hmn⟩

theorem Counted.presenting {tick : ℕ} (hc : Counted fb n c) :
    Counted fb n { c with lastPresentTick := tick } := by
  obtain ⟨issued, committed, hkept⟩ := hc.kept
  exact ⟨⟨_, _, hkept.moved (List.Sublist.refl _) (forall₂_moved _) rfl rfl hkept.focused⟩,
    ⟨hc.bounded.framebuffer, hc.bounded.signature, hc.bounded.surfaces⟩, hc.surfaces,
    hc.nextSurfaceId, hc.frames, hc.rejectedCommits⟩

/-- A screen without surfaces, where nothing has been counted. -/
theorem counted_blank (hfb : c.framebuffer = some fb)
    (hsignature : c.signature.length ≤ signatureBlocks)
    (hempty : c.surfaces = []) (hid : c.nextSurfaceId = 1) (hframes : c.frames = 0)
    (hrejected : c.rejectedCommits = 0) : Counted fb 0 c where
  kept := ⟨[], fun _ => none, begin_kept hempty⟩
  bounded := ⟨hfb, hsignature, fun s hs => absurd hs (hempty ▸ List.not_mem_nil)⟩
  surfaces := by rw [hempty, List.length_nil]
  nextSurfaceId := hid.le
  frames := hframes.le
  rejectedCommits := hrejected.le

section Steps

theorem createSurface_counted {pid realmKind width height : ℕ} {mode : SurfaceMode} {r : Option ℕ}
    (hc : Counted fb n c)
    (h : (createSurface pid realmKind width height mode : Attempt State ε (Option ℕ)).run c =
      some (.ok r, c')) : Counted fb (n + 1) c' := by
  have hbounded := createSurface_bounds _ _ h hc.bounded
  obtain ⟨issued, committed, hkept⟩ := hc.kept
  obtain ⟨-, rfl⟩ | ⟨s, l, -, hid, -, hblank, hl, rfl⟩ := createSurface_ok h
  · exact hc.mono (Nat.le_succ n)
  · have hlen := hl.length_eq
    rw [List.length_append, List.length_singleton] at hlen
    exact ⟨⟨_, _, hkept.created hid hblank hl⟩, hbounded, hlen ▸ Nat.succ_le_succ hc.surfaces,
      Nat.succ_le_succ hc.nextSurfaceId, hc.frames.trans (Nat.le_succ n),
      hc.rejectedCommits.trans (Nat.le_succ n)⟩

/-- A commit is counted where it is rejected. -/
theorem rejectedCommits_le {id pid len : ℕ} {data : Option (List UInt8)} {accepted : Bool}
    (h : (commitSurfaceFromUser id pid len data : Attempt State ε Bool).run c =
      some (.ok accepted, c')) :
    c'.rejectedCommits ≤ if accepted then c.rejectedCommits else c.rejectedCommits + 1 := by
  rw [commitSurfaceFromUser, run_bind_of_ok (run_of _)] at h
  cases hf : c.surfaces.find? fun s => s.id == id with
  | none =>
    rw [hf] at h
    obtain ⟨hr, rfl⟩ := Prod.mk.inj (Option.some.inj h)
    rw [← Except.ok.inj hr]
    exact Nat.le_succ _
  | some s =>
    simp only [hf] at h
    split at h
    · obtain ⟨-, h⟩ := run_sum_bind_ok.mp h
      obtain ⟨hr, rfl⟩ := Prod.mk.inj (Option.some.inj h)
      rw [← Except.ok.inj hr]
      exact le_rfl
    · obtain ⟨hr, rfl⟩ := Prod.mk.inj (Option.some.inj h)
      rw [← Except.ok.inj hr]
      exact le_rfl

theorem commitSurfaceFromUser_counted {id pid len : ℕ} {data : Option (List UInt8)}
    {accepted : Bool} (hc : Counted fb n c) (hdata : ∀ bytes, data = some bytes → bytes.length = len)
    (h : (commitSurfaceFromUser id pid len data : Attempt State ε Bool).run c =
      some (.ok accepted, c')) :
    Counted fb (if accepted then n else n + 1) c' := by
  have hbounded := commitSurfaceFromUser_bounds _ _ h hc.bounded
  have hcount := rejectedCommits_le h
  obtain ⟨issued, committed, hkept⟩ := hc.kept
  obtain ⟨rfl, rejected, rfl⟩ | ⟨s, bytes, rfl, hs, rfl, rfl, hlen, hbytes, rfl⟩ :=
    commitSurfaceFromUser_ok h
  · exact { hc.mono (Nat.le_succ n) with
      kept := ⟨_, _, hkept.moved (List.Sublist.refl _) (forall₂_moved _) rfl rfl hkept.focused⟩
      bounded := hbounded
      rejectedCommits := hcount.trans (Nat.succ_le_succ hc.rejectedCommits) }
  · exact { hc with
      kept := ⟨_, _, hkept.committed hs ((hdata bytes hbytes).trans hlen)⟩
      bounded := hbounded
      surfaces := (List.length_map _).le.trans hc.surfaces }

/-- A commit leaves the windows where they are. -/
theorem commitSurfaceFromUser_windows {id pid len : ℕ} {data : Option (List UInt8)}
    {accepted : Bool}
    (h : (commitSurfaceFromUser id pid len data : Attempt State ε Bool).run c =
      some (.ok accepted, c')) : c'.layout = c.layout ∧ windows c'.surfaces = windows c.surfaces := by
  obtain ⟨-, rejected, rfl⟩ | ⟨s, bytes, -, -, -, -, -, -, rfl⟩ := commitSurfaceFromUser_ok h
  · exact ⟨rfl, rfl⟩
  · refine ⟨rfl, ?_⟩
    induction c.surfaces with
    | nil => rfl
    | cons t l ih =>
      have hsame : (if t.id = id then { t with pixels := bytes } else t).mode = t.mode ∧
          (if t.id = id then { t with pixels := bytes } else t).rect = t.rect := by
        split
        · exact ⟨rfl, rfl⟩
        · exact ⟨rfl, rfl⟩
      rw [List.map_cons]
      by_cases ht : t.mode = .windowed
      · rw [windows_cons_windowed (hsame.1.trans ht), windows_cons_windowed ht, hsame.2, ih]
      · rw [windows_cons_other (fun h => ht (hsame.1 ▸ h)), windows_cons_other ht, ih]

theorem removeSurfacesFor_counted {pid : ℕ} (hc : Counted fb n c)
    (h : (removeSurfacesFor pid : Attempt State ε Unit).run c = some (.ok (), c')) :
    Counted fb n c' := by
  have hbounded := removeSurfacesFor_bounds _ _ h hc.bounded
  obtain ⟨issued, committed, hkept⟩ := hc.kept
  obtain ⟨l, hl, rfl⟩ := removeSurfacesFor_ok h
  refine ⟨⟨_, _, hkept.moved List.filter_sublist hl rfl rfl
    (hkept.focus_left List.filter_sublist)⟩, hbounded, ?_, hc.nextSurfaceId, hc.frames,
    hc.rejectedCommits⟩
  exact hl.length_eq ▸ (List.length_filter_le _ _).trans hc.surfaces

theorem frames_le (h : (Compositor.present false : Attempt State ε Unit).run c = some (.ok (), c')) :
    c'.frames ≤ c.frames + 1 := by
  rw [Compositor.present, if_neg Bool.false_ne_true, run_bind_of_ok (run_of _)] at h
  split at h
  · obtain ⟨-, rfl⟩ := Prod.mk.inj (Option.some.inj h)
    exact Nat.le_succ _
  · obtain ⟨-, h⟩ := run_sum_bind_ok.mp h
    obtain ⟨-, rfl⟩ := Prod.mk.inj (Option.some.inj h)
    exact le_rfl

theorem present_counted {toggle : Bool} (hc : Counted fb n c)
    (h : (Compositor.present toggle : Attempt State ε Unit).run c = some (.ok (), c')) :
    Counted fb (n + 1) c' := by
  have hbounded := present_bounds _ _ h hc.bounded
  have hframes : c'.frames ≤ n + 1 := by
    cases toggle with
    | false => exact (frames_le h).trans (Nat.succ_le_succ hc.frames)
    | true =>
      obtain ⟨d, htoggle, hrest⟩ := present_toggled h
      obtain ⟨mode, l, rfl, -⟩ := toggleLayout_moved htoggle
      exact (frames_le hrest).trans (Nat.succ_le_succ hc.frames)
  obtain ⟨issued, committed, hkept⟩ := hc.kept
  obtain ⟨mode, l, frames, rfl, hl⟩ := present_ok h
  exact ⟨⟨_, _, hkept.moved (List.Sublist.refl _) hl rfl rfl hkept.focused⟩, hbounded,
    hl.length_eq ▸ hc.surfaces.trans (Nat.le_succ n), hc.nextSurfaceId.trans (Nat.le_succ _),
    hframes, hc.rejectedCommits.trans (Nat.le_succ n)⟩

end Steps

section Failures

variable {σ : Type}

theorem tileSurfaces_unfailing (l : List Surface) (left : Rect) :
    Unfailing (tileSurfaces l left : Attempt σ ε (List Surface)) := by
  induction l generalizing left with
  | nil => exact Unfailing.pure _
  | cons s l ih =>
    refine Unfailing.ite ?_ (Unfailing.bind (ih left) fun _ => Unfailing.pure _)
    refine Unfailing.bind ?_ fun place => Unfailing.bind ?_ fun placed =>
      Unfailing.bind (ih _) fun _ => Unfailing.pure _
    · exact Unfailing.ite (Unfailing.pure _) (Unfailing.ite
        (Unfailing.bind Unfailing.demand fun _ => Unfailing.pure _)
        (Unfailing.bind Unfailing.demand fun _ => Unfailing.pure _))
    · exact Unfailing.ite (Unfailing.pure _)
        (Unfailing.bind Unfailing.demand fun _ => Unfailing.pure _)

/-- The compositor has no errors to give: a call of it returns or panics. -/
theorem relayout_unfailing : Unfailing (relayout : Attempt State ε Unit) := by
  refine Unfailing.bind (Unfailing.of (by simp)) fun c => ?_
  split
  · exact Unfailing.pure _
  · refine Unfailing.ite (Unfailing.bind (Unfailing.pure _) fun l => ?_)
      (Unfailing.bind (tileSurfaces_unfailing _ _) fun l => ?_)
    all_goals exact Unfailing.of (by simp)

theorem createSurface_unfailing {pid realmKind width height : ℕ} {mode : SurfaceMode} :
    Unfailing (createSurface pid realmKind width height mode : Attempt State ε (Option ℕ)) := by
  refine Unfailing.bind (Unfailing.of (by simp)) fun c => ?_
  split
  · exact Unfailing.pure _
  · refine Unfailing.bind ?_ fun place => ?_
    · cases mode with
      | fullscreen => exact Unfailing.pure _
      | windowed => exact Unfailing.bind Unfailing.demand fun _ => Unfailing.pure _
    · refine Unfailing.ite (Unfailing.pure _) (Unfailing.ite (Unfailing.pure _)
        (Unfailing.ite (Unfailing.pure _) ?_))
      exact Unfailing.bind (Unfailing.sum _ _ _) fun _ => Unfailing.bind (Unfailing.of (by simp))
        fun _ => Unfailing.bind relayout_unfailing fun _ => Unfailing.pure _

theorem commitSurfaceFromUser_unfailing {id pid len : ℕ} {data : Option (List UInt8)} :
    Unfailing (commitSurfaceFromUser id pid len data : Attempt State ε Bool) := by
  refine Unfailing.bind (Unfailing.of (by simp)) fun c => ?_
  split
  · exact Unfailing.pure _
  · split
    · exact Unfailing.bind (Unfailing.sum _ _ _) fun _ => Unfailing.of (by simp)
    · exact Unfailing.of (by simp)

theorem removeSurfacesFor_unfailing {pid : ℕ} :
    Unfailing (removeSurfacesFor pid : Attempt State ε Unit) :=
  Unfailing.bind (Unfailing.of (by simp)) fun _ => relayout_unfailing

theorem setLayout_unfailing {mode : LayoutMode} :
    Unfailing (setLayout mode : Attempt State ε Unit) :=
  Unfailing.bind (Unfailing.of (by simp)) fun _ => Unfailing.ite (Unfailing.pure _)
    (Unfailing.bind (Unfailing.of (by simp)) fun _ => relayout_unfailing)

theorem present_unfailing {toggle : Bool} :
    Unfailing (Compositor.present toggle : Attempt State ε Unit) := by
  have hcount : Unfailing (Compositor.present false : Attempt State ε Unit) := by
    rw [Compositor.present, if_neg Bool.false_ne_true]
    refine Unfailing.bind (Unfailing.of (by simp)) fun c => ?_
    split
    · exact Unfailing.pure _
    · exact Unfailing.bind (Unfailing.sum _ _ _) fun _ => Unfailing.of (by simp)
  cases toggle with
  | false => exact hcount
  | true => exact Unfailing.bind (Unfailing.bind (Unfailing.of (by simp)) fun _ =>
      setLayout_unfailing) fun _ => hcount

end Failures

section Room

theorem relayout_returns (hfb : c.framebuffer = some fb) (hwidth : fb.width < 2 ^ 30)
    (hheight : fb.height < 2 ^ 30)
    (hroom : c.layout = .tiling → (windows c.surfaces).length ≤ tiles fb) :
    Returns (relayout : Attempt State ε Unit) c := by
  obtain hlayout | hlayout := c.layout.floating_or_tiling
  · exact Returns.of_run (relayout_floating hfb hlayout)
  · have hshown : (tilingArea fb).shown.width < 2 ^ 30 ∧ (tilingArea fb).shown.height < 2 ^ 30 := by
      simp only [tilingArea, Rect.shown, tileGap, trustBarHeight]
      omega
    have hsize : (tilingArea fb).shown.width * (tilingArea fb).shown.height < 2 ^ 64 :=
      (Nat.mul_le_mul hshown.1.le hshown.2.le).trans_lt (by decide)
    obtain ⟨l, htiles⟩ := tileSurfaces_exists (ε := ε) (u := c) (hroom hlayout) hsize
    exact Returns.of_run (a := ()) (u := { c with surfaces := l })
      ((relayout_tiling hfb hlayout).trans (run_bind_of_ok htiles))

theorem toggleLayout_returns (hfb : c.framebuffer = some fb) (hwidth : fb.width < 2 ^ 30)
    (hheight : fb.height < 2 ^ 30)
    (hroom : c.layout = .floating → (windows c.surfaces).length ≤ tiles fb) :
    Returns (toggleLayout : Attempt State ε Unit) c := by
  have hswitch : ∀ mode, (mode = .tiling → (windows c.surfaces).length ≤ tiles fb) →
      Returns (setLayout mode : Attempt State ε Unit) c := by
    intro mode hmode
    refine Returns.bind_of_ok (run_of _) (Returns.ite (fun _ => Returns.pure _) fun _ => ?_)
    exact Returns.bind_of_ok (run_of _) (relayout_returns hfb hwidth hheight hmode)
  refine Returns.bind_of_ok (run_of _) ?_
  cases hlayout : c.layout with
  | floating => exact hswitch .tiling fun _ => hroom hlayout
  | tiling => exact hswitch .floating fun h => absurd h (by decide)

/-- A creation returns where the tiling has room for one window more. -/
theorem createSurface_returns {pid realmKind width height : ℕ} {mode : SurfaceMode}
    (hc : Counted fb n c) (hn : n * 1000 < 2 ^ 64) (hwidth : fb.width < 2 ^ 30)
    (hheight : fb.height < 2 ^ 30)
    (hroom : c.layout = .tiling → (windows c.surfaces).length + 1 ≤ tiles fb) :
    Returns (createSurface pid realmKind width height mode : Attempt State ε (Option ℕ)) c := by
  have hcount := hc.surfaces
  have hid := hc.nextSurfaceId
  obtain ⟨place, hplace⟩ : ∃ place, (placement (contentRegion fb) c.surfaces.length width height
      mode : Attempt State ε Rect).run c = some (.ok place, c) := by
    cases mode with
    | fullscreen => exact ⟨_, rfl⟩
    | windowed =>
      rw [placement, run_demand_bind, if_pos]
      · exact ⟨_, rfl⟩
      · simp only [contentRegion, trustBarHeight]
        omega
  have hone : ∀ s : Surface, (windows [s]).length ≤ 1 := fun s => by
    rw [windows, List.length_map]
    exact List.length_filter_le _ _
  refine Returns.bind_of_ok (run_of _) ?_
  rw [hc.bounded.framebuffer]
  refine Returns.bind_of_ok hplace ?_
  refine Returns.ite (fun _ => Returns.pure _) fun _ => Returns.ite (fun _ => Returns.pure _)
    fun _ => Returns.ite (fun _ => Returns.pure _) fun _ => Returns.sum_bind (by omega) ?_
  refine Returns.bind_of_ok (run_of _) ?_
  refine Returns.bind (relayout_returns hc.bounded.framebuffer hwidth hheight fun htiling => ?_)
    fun _ _ _ => Returns.pure _
  rw [windows_append, List.length_append]
  exact (Nat.add_le_add_left (hone _) _).trans (hroom htiling)

theorem commitSurfaceFromUser_returns {id pid len : ℕ} {data : Option (List UInt8)}
    (hrejected : c.rejectedCommits + 1 < 2 ^ 64) :
    Returns (commitSurfaceFromUser id pid len data : Attempt State ε Bool) c := by
  refine Returns.bind_of_ok (run_of _) ?_
  split
  · exact Returns.pure _
  · split
    · exact Returns.sum_bind hrejected (Returns.of_run (run_of _))
    · exact Returns.of_run (run_of _)

theorem present_returns {toggle : Bool} (hfb : c.framebuffer = some fb)
    (hframes : c.frames + 1 < 2 ^ 64) (hwidth : fb.width < 2 ^ 30) (hheight : fb.height < 2 ^ 30)
    (hroom : toggle = true → c.layout = .floating → (windows c.surfaces).length ≤ tiles fb) :
    Returns (Compositor.present toggle : Attempt State ε Unit) c := by
  have hcount : ∀ {d : State}, d.frames = c.frames →
      Returns (Compositor.present false : Attempt State ε Unit) d := by
    intro d hd
    rw [Compositor.present, if_neg Bool.false_ne_true]
    refine Returns.bind_of_ok (run_of _) ?_
    split
    · exact Returns.pure _
    · exact Returns.sum_bind (hd ▸ hframes) (Returns.of_run (run_of _))
  cases toggle with
  | false => exact hcount rfl
  | true =>
    refine Returns.bind (toggleLayout_returns hfb hwidth hheight (hroom rfl)) fun _ d hd => ?_
    obtain ⟨mode, l, rfl, -⟩ := toggleLayout_moved hd
    exact hcount rfl

/-- The frame of such a state can be drawn on any screen. -/
theorem Counted.draws {pointer : ℕ × ℕ} (hc : Counted fb n c) (hm : fb.Mapped)
    (hwidth : fb.width < 2 ^ 30) (hheight : fb.height < 2 ^ 30)
    (hpointer : pointer.1 ≤ fb.width ∧ pointer.2 ≤ fb.height) (s : Screen) :
    Returns (drawFrame fb c pointer : Attempt Screen ε Unit) s := by
  obtain ⟨issued, committed, hkept⟩ := hc.kept
  obtain ⟨s', hdrawn, -⟩ := drawFrame_shows (ε := ε) hm
    (hc.bounded.drawable (by omega) (by omega) hkept.sized)
    (show pointer.1 + 12 ≤ 2 ^ 64 by omega) (show pointer.2 + 12 ≤ 2 ^ 64 by omega) s
  exact Returns.of_run hdrawn

end Room

end Compositor
