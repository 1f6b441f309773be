import Mathlib.Data.List.Forall2
import NajmKernel.Effects
import NajmKernel.TilingLayout

/-! What the layout does to the surfaces: it moves them, and empties those that it resizes. -/
namespace Compositor

open Framebuffers
open Attempts Attempt

/-- A surface after the layout: the same pixels, or another size and none of them. -/
structure Surface.Moved (s s' : Surface) : Prop where
  id : s'.id = s.id
  pid : s'.pid = s.pid
  realmKind : s'.realmKind = s.realmKind
  mode : s'.mode = s.mode
  pixels : s'.width = s.width ∧ s'.height = s.height ∧ s'.pixels = s.pixels ∨
    ¬ (s'.width = s.width ∧ s'.height = s.height) ∧ 0 < s'.width ∧ 0 < s'.height ∧
      s'.pixels = List.replicate (s'.width * s'.height * 4) 0
  below : trustBarHeight ≤ s.y → trustBarHeight ≤ s'.y

variable {σ ε : Type} {u u' : σ} {s s' : Surface} {l l' : List Surface} {left : Rect} {c c' : State}
  {r : Except ε Unit}

theorem Surface.Moved.refl (s : Surface) : s.Moved s :=
  ⟨rfl, rfl, rfl, rfl, Or.inl ⟨rfl, rfl, rfl⟩, fun h => h⟩

theorem resize_moved {x y width height : ℕ} (hwidth : 0 < width) (hheight : 0 < height)
    (hy : trustBarHeight ≤ y)
    (h : ({ s with x := x, y := y }.resize width height : Attempt σ ε Surface).run u =
      some (.ok s', u')) : s.Moved s' := by
  rw [Surface.resize] at h
  split at h
  · obtain ⟨hs, -⟩ := Prod.mk.inj (Option.some.inj h)
    obtain rfl := Except.ok.inj hs
    exact ⟨rfl, rfl, rfl, rfl, Or.inl ⟨rfl, rfl, rfl⟩, fun _ => hy⟩
  · next hne =>
    rw [run_demand_bind] at h
    split at h
    · obtain ⟨hs, -⟩ := Prod.mk.inj (Option.some.inj h)
      obtain rfl := Except.ok.inj hs
      exact ⟨rfl, rfl, rfl, rfl,
        Or.inr ⟨fun heq => hne ⟨heq.1.symm, heq.2.symm⟩, hwidth, hheight, rfl⟩, fun _ => hy⟩
    · cases h

theorem tile_y {place other : Rect} {last : Bool} (h : (tile last left :
      Attempt σ ε (Rect × Rect)).run u = some (.ok (place, other), u')) :
    left.y ≤ place.y ∧ left.y ≤ other.y := by
  cases last with
  | true =>
    obtain ⟨rfl, rfl⟩ := Prod.mk.inj (Except.ok.inj (Prod.mk.inj (Option.some.inj h)).1)
    exact ⟨le_rfl, le_rfl⟩
  | false =>
    cases (tile_split h).2 with
    | vertical longer fits => exact ⟨le_rfl, le_rfl⟩
    | horizontal longer fits => exact ⟨le_rfl, by simp only; omega⟩

theorem tileSurfaces_moved (hleft : trustBarHeight ≤ left.y) (h : (tileSurfaces l left :
      Attempt σ ε (List Surface)).run u = some (.ok l', u')) :
    List.Forall₂ Surface.Moved l l' := by
  induction l generalizing left l' with
  | nil =>
    obtain rfl := Except.ok.inj (Prod.mk.inj (Option.some.inj h)).1
    exact .nil
  | cons s l ih =>
    by_cases hs : s.mode = .windowed
    · obtain ⟨place, other, placed, rest, htile, hresize, hrest, rfl⟩ := tileSurfaces_cons hs h
      obtain ⟨hplace, hother⟩ := tile_y htile
      refine .cons (resize_moved ?_ ?_ (hleft.trans hplace) hresize) (ih (hleft.trans hother) hrest)
      · exact Nat.lt_of_lt_of_le Nat.one_pos (le_max_right _ _)
      · exact Nat.lt_of_lt_of_le Nat.one_pos (le_max_right _ _)
    · obtain ⟨rest, hrest, rfl⟩ := tileSurfaces_cons_other hs h
      exact .cons (.refl s) (ih hleft hrest)

theorem relayout_none (hfb : c.framebuffer = none) :
    (relayout : Attempt State ε Unit).run c = some (.ok (), c) := by
  rw [relayout, run_bind_of_ok (run_of _), hfb]
  rfl

theorem floating_moved (s : Surface) :
    s.Moved (if s.mode = .windowed then { s with y := max s.y trustBarHeight } else s) := by
  split
  · exact ⟨rfl, rfl, rfl, rfl, Or.inl ⟨rfl, rfl, rfl⟩, fun _ => le_max_right _ _⟩
  · exact .refl s

theorem forall₂_moved (l : List Surface) : List.Forall₂ Surface.Moved l l :=
  List.forall₂_same.mpr fun s _ => .refl s

theorem LayoutMode.floating_or_tiling (mode : LayoutMode) : mode = .floating ∨ mode = .tiling := by
  cases mode <;> simp

/-- The layout moves the surfaces and changes nothing else. -/
theorem relayout_moved (h : (relayout : Attempt State ε Unit).run c = some (.ok (), c')) :
    ∃ l, c' = { c with surfaces := l } ∧ List.Forall₂ Surface.Moved c.surfaces l := by
  obtain hfb | ⟨fb, hfb⟩ := Option.eq_none_or_eq_some c.framebuffer
  · rw [relayout_none hfb] at h
    exact ⟨c.surfaces, (Prod.mk.inj (Option.some.inj h)).2.symm, forall₂_moved _⟩
  · obtain hlayout | hlayout := c.layout.floating_or_tiling
    · rw [relayout_floating hfb hlayout] at h
      refine ⟨_, (Prod.mk.inj (Option.some.inj h)).2.symm, ?_⟩
      rw [List.forall₂_map_right_iff, List.forall₂_same]
      exact fun s _ => floating_moved s
    · rw [relayout_tiling hfb hlayout] at h
      obtain ⟨l, u, htiles, hset⟩ := run_bind_ok.mp h
      obtain rfl := (tileSurfaces_laid htiles).1
      exact ⟨l, (Prod.mk.inj (Option.some.inj hset)).2.symm,
        tileSurfaces_moved (Nat.le_add_right _ _) htiles⟩

theorem setLayout_moved {mode : LayoutMode}
    (h : (setLayout mode : Attempt State ε Unit).run c = some (.ok (), c')) :
    ∃ l, c' = { c with layout := mode, surfaces := l } ∧
      List.Forall₂ Surface.Moved c.surfaces l := by
  rw [setLayout, run_bind_of_ok (run_of _)] at h
  split at h
  · next hmode =>
    obtain ⟨-, rfl⟩ := Prod.mk.inj (Option.some.inj h)
    exact ⟨c.surfaces, by rw [← hmode], forall₂_moved _⟩
  · rw [run_bind_of_ok (run_of _)] at h
    obtain ⟨l, rfl, hl⟩ := relayout_moved h
    exact ⟨l, rfl, hl⟩

theorem toggleLayout_moved (h : (toggleLayout : Attempt State ε Unit).run c = some (.ok (), c')) :
    ∃ mode l, c' = { c with layout := mode, surfaces := l } ∧
      List.Forall₂ Surface.Moved c.surfaces l := by
  rw [toggleLayout, run_bind_of_ok (run_of _)] at h
  exact ⟨_, setLayout_moved h⟩

section Continuity

/-- Every surface was there, with its id and its owner. -/
def Continues (c c' : State) : Prop :=
  ∀ s ∈ c'.surfaces, ∃ t ∈ c.surfaces, t.id = s.id ∧ t.pid = s.pid

instance : IsPreorder State Continues where
  refl _ s hs := ⟨s, hs, rfl, rfl⟩
  trans _ _ _ h h' s hs := by
    obtain ⟨t, ht, hid, hpid⟩ := h' s hs
    obtain ⟨t', ht', hid', hpid'⟩ := h t ht
    exact ⟨t', ht', hid'.trans hid, hpid'.trans hpid⟩

theorem continues_of_eq {c' : State} (h : c'.surfaces = c.surfaces) : Continues c c' :=
  fun s hs => ⟨s, h ▸ hs, rfl, rfl⟩

theorem moved_mem (h : List.Forall₂ Surface.Moved l l') {s' : Surface} (hs : s' ∈ l') :
    ∃ s ∈ l, s.Moved s' := by
  induction h with
  | nil => exact absurd hs List.not_mem_nil
  | cons hmoved _ ih =>
    rcases List.mem_cons.mp hs with rfl | hs
    · exact ⟨_, List.mem_cons_self, hmoved⟩
    · obtain ⟨s, hs, hmoved⟩ := ih hs
      exact ⟨s, List.mem_cons_of_mem _ hs, hmoved⟩

theorem continues_moved {c' : State} (h : List.Forall₂ Surface.Moved c.surfaces c'.surfaces) :
    Continues c c' := by
  intro s hs
  obtain ⟨t, ht, hmoved⟩ := moved_mem h hs
  exact ⟨t, ht, hmoved.id.symm, hmoved.pid.symm⟩

section Tiles

variable {R : σ → σ → Prop} [IsPreorder σ R]

theorem leads_tile (last : Bool) (left : Rect) :
    Leads R (tile last left : Attempt σ ε (Rect × Rect)) u :=
  Leads.ite (fun _ => Leads.pure _) fun _ =>
    Leads.ite (fun _ => Leads.demand_bind fun _ => Leads.pure _) fun _ =>
      Leads.demand_bind fun _ => Leads.pure _

theorem leads_resize (s : Surface) (width height : ℕ) :
    Leads R (s.resize width height : Attempt σ ε Surface) u :=
  Leads.ite (fun _ => Leads.pure _) fun _ => Leads.demand_bind fun _ => Leads.pure _

theorem leads_tileSurfaces (l : List Surface) (left : Rect) :
    Leads R (tileSurfaces l left : Attempt σ ε (List Surface)) u := by
  induction l generalizing left u with
  | nil => exact Leads.pure _
  | cons s l ih =>
    refine Leads.ite (fun _ => ?_) fun _ => Leads.bind (ih left) fun _ _ _ => Leads.pure _
    refine Leads.bind (leads_tile _ _) ?_
    rintro ⟨place, rest⟩ v -
    refine Leads.bind (leads_resize _ _ _) fun placed w _ => ?_
    exact Leads.bind (ih rest) fun _ _ _ => Leads.pure _

end Tiles

/-- The surfaces are put where the layout has them, or stay where they are. -/
theorem leads_relayout : Leads Continues (relayout : Attempt State ε Unit) c := by
  refine Leads.bind_of_ok (run_of _) ?_
  cases c.framebuffer with
  | none => exact Leads.pure _
  | some fb =>
    refine Leads.ite (fun _ => Leads.bind (Leads.pure _) fun l u hl => Leads.of_run (run_of _) ?_)
      fun _ => Leads.bind (leads_tileSurfaces _ _) fun l u hl => Leads.of_run (run_of _) ?_
    · obtain ⟨hsurfaces, rfl⟩ := Prod.mk.inj (Option.some.inj hl)
      obtain rfl := Except.ok.inj hsurfaces
      refine continues_moved ?_
      rw [List.forall₂_map_right_iff, List.forall₂_same]
      exact fun s _ => floating_moved s
    · obtain rfl := (tileSurfaces_laid hl).1
      exact continues_moved (tileSurfaces_moved (Nat.le_add_right _ _) hl)

theorem leads_commitSurfaceFromUser (id owner len : ℕ) (data : Option (List UInt8)) :
    Leads Continues (commitSurfaceFromUser id owner len data : Attempt State ε Bool) c := by
  refine Leads.bind_of_ok (run_of _) ?_
  cases c.surfaces.find? fun s => s.id == id with
  | none => exact Leads.pure _
  | some surface =>
    simp only
    split
    · exact Leads.sum_bind (Leads.of_run (run_of _) (continues_of_eq rfl))
    next bytes _ =>
      refine Leads.of_run (run_of _) fun s hs => ?_
      obtain ⟨t, ht, rfl⟩ := List.mem_map.mp hs
      refine ⟨t, ht, ?_⟩
      split <;> exact ⟨rfl, rfl⟩

theorem leads_toggleLayout : Leads Continues (toggleLayout : Attempt State ε Unit) c := by
  refine Leads.bind_of_ok (run_of _) (Leads.bind_of_ok (run_of _) ?_)
  refine Leads.ite (fun _ => Leads.pure _) fun _ => ?_
  exact Leads.bind (Leads.of_run (run_of _) (continues_of_eq rfl)) fun _ _ _ => leads_relayout

theorem leads_present (toggle : Bool) :
    Leads Continues (present toggle : Attempt State ε Unit) c := by
  refine Leads.ite (fun _ => Leads.bind leads_toggleLayout fun _ u _ => ?_) fun _ => ?_
  all_goals
    refine Leads.bind_of_ok (run_of _) ?_
    split
    · exact Leads.pure _
    · exact Leads.sum_bind (Leads.of_run (run_of _) (continues_of_eq rfl))

end Continuity

end Compositor
