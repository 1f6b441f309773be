import NajmKernel.Drawing
import NajmKernel.SurfaceMoves
import NajmKernel.TransitionSystem
import NajmKernel.UserMemory

/-! Whose pixels a surface holds: over every run of the compositor, those that its own process
committed at the size it has. -/
namespace Compositor

open Framebuffers UserMemory
open Attempts Attempt TransitionSystem

section Sessions

inductive Event where
  | create (pid realmKind width height : ℕ) (mode : SurfaceMode)
  | commit (id pid ptr len : ℕ) (space : UserSpace)
  | setLayout (mode : LayoutMode)
  | toggleLayout
  | removeSurfacesFor (pid : ℕ)
  | present (toggle : Bool)

inductive Answer where
  | created (id : Option ℕ)
  | committed (accepted : Bool)
  | done
  deriving DecidableEq, Repr

def perform : Event → Attempt State Empty Answer
  | .create pid realmKind width height mode => do
    pure (.created (← createSurface pid realmKind width height mode))
  | .commit id pid ptr len space => do
    pure (.committed (← commitSurfaceFromUser id pid len (copyFromUserInto space ptr len)))
  | .setLayout mode => do
    Compositor.setLayout mode
    pure .done
  | .toggleLayout => do
    Compositor.toggleLayout
    pure .done
  | .removeSurfacesFor pid => do
    Compositor.removeSurfacesFor pid
    pure .done
  | .present toggle => do
    Compositor.present toggle
    pure .done

/-- The surface of this number is new, or has a size that it did not have. -/
def Resized (before after : List Surface) (id : ℕ) : Prop :=
  ∃ s' ∈ after, s'.id = id ∧
    ∀ s ∈ before, s.id = id → ¬ (s'.width = s.width ∧ s'.height = s.height)

instance (before after : List Surface) (id : ℕ) : Decidable (Resized before after id) := by
  unfold Resized
  infer_instance

/-- A run under observation: the numbers given out, and for each the process and the bytes of the
last commit at the size that the surface has. -/
structure Session where
  state : State
  issued : List ℕ
  committed : ℕ → Option (ℕ × List UInt8)

def Session.record (x : Session) (c : State) : Event → Answer → Session
  | .commit id pid ptr len space, .committed true =>
    ⟨c, x.issued, Function.update x.committed id (some (pid, space.read ptr len))⟩
  | _, .created (some id) => ⟨c, x.issued ++ [id],
    fun i => if Resized x.state.surfaces c.surfaces i then none else x.committed i⟩
  | _, _ => ⟨c, x.issued,
    fun i => if Resized x.state.surfaces c.surfaces i then none else x.committed i⟩

def next (x : Session) (e : Event) : Option Session :=
  match (perform e).run x.state with
  | some (.ok answer, c) => some (x.record c e answer)
  | _ => none

def begin (c : State) : Session := ⟨c, [], fun _ => none⟩

variable {x y : Session} {c : State} {e : Event}

theorem next_ok (h : next x e = some y) :
    ∃ answer c, (perform e).run x.state = some (.ok answer, c) ∧ y = x.record c e answer := by
  rw [next] at h
  split at h
  · next answer c hrun => exact ⟨answer, c, hrun, (Option.some.inj h).symm⟩
  · exact absurd h nofun

theorem answered {α : Type} {op : Attempt State Empty α} {f : α → Answer} {answer : Answer}
    {c' : State} (h : (do pure (f (← op)) : Attempt State Empty Answer).run c =
      some (.ok answer, c')) : ∃ a, op.run c = some (.ok a, c') ∧ f a = answer := by
  obtain ⟨a, u, hop, hpure⟩ := run_bind_ok.mp h
  obtain ⟨hanswer, rfl⟩ := Prod.mk.inj (Option.some.inj hpure)
  exact ⟨a, hop, Except.ok.inj hanswer⟩

theorem record_state {answer : Answer} : (x.record c e answer).state = c := by
  unfold Session.record
  split <;> rfl

end Sessions

section Laws

def Surface.Sized (s : Surface) : Prop :=
  0 < s.width ∧ 0 < s.height ∧ s.pixels.length = s.width * s.height * 4

/-- Every pixel that is drawn is one of the surface's. -/
def Surface.InRange (s : Surface) (fb : Framebuffer) : Prop :=
  let clip := s.clip (contentRegion fb)
  ∀ row ∈ List.range' clip.y clip.height, ∀ column ∈ List.range' clip.x clip.width,
    (s.pixelAt (column - s.x) (row - s.y)).isSome

/-- What a surface holds is what its own process committed last, or nothing. -/
def Authored (surfaces : List Surface) (committed : ℕ → Option (ℕ × List UInt8)) : Prop :=
  ∀ s ∈ surfaces, match committed s.id with
    | none => ∀ b ∈ s.pixels, b = 0
    | some (pid, data) => pid = s.pid ∧ s.pixels = data

structure Lawful (x : Session) : Prop where
  sized : ∀ s ∈ x.state.surfaces, s.Sized
  below : ∀ s ∈ x.state.surfaces, trustBarHeight ≤ s.y
  distinct : (x.state.surfaces.map (·.id)).Nodup
  issuedOnce : x.issued.Nodup ∧ ∀ s ∈ x.state.surfaces, s.id ∈ x.issued
  focused : x.state.surfaces ≠ [] → ∃ s ∈ x.state.surfaces, x.state.focused = some s.id
  inRange : ∀ s ∈ x.state.surfaces, ∀ fb, s.InRange fb
  authored : Authored x.state.surfaces x.committed
  refused : ∀ id pid ptr len space c,
    (perform (.commit id pid ptr len space)).run x.state = some (.ok (.committed false), c) →
    c.surfaces = x.state.surfaces

end Laws

section Operations

theorem copyFromUserInto_some {space : UserSpace} {ptr len : ℕ} {bytes : List UInt8}
    (h : copyFromUserInto space ptr len = some bytes) : bytes = space.read ptr len := by
  rw [copyFromUserInto] at h
  split at h
  · exact (Option.some.inj h).symm
  · exact absurd h nofun

variable {ε : Type} {c c' : State} {fb : Framebuffer} {r : Option ℕ} {accepted : Bool}

/-- A surface before anything is committed to it. -/
def Surface.Blank (s : Surface) : Prop :=
  s.Sized ∧ trustBarHeight ≤ s.y ∧ ∀ b ∈ s.pixels, b = 0

theorem Surface.Moved.sized {s s' : Surface} (h : s.Moved s') (hs : s.Sized) : s'.Sized := by
  obtain ⟨hw, hh, hp⟩ | ⟨-, hw, hh, hp⟩ := h.pixels
  · unfold Surface.Sized
    rw [hw, hh, hp]
    exact hs
  · refine ⟨hw, hh, ?_⟩
    rw [hp, List.length_replicate]

theorem Surface.Moved.blank {s s' : Surface} (h : s.Moved s') (hs : s.Blank) : s'.Blank := by
  refine ⟨h.sized hs.1, h.below hs.2.1, ?_⟩
  obtain ⟨-, -, hp⟩ | ⟨-, -, -, hp⟩ := h.pixels
  · rw [hp]
    exact hs.2.2
  · rw [hp]
    exact fun b hb => (List.mem_replicate.mp hb).2

theorem placement_below {content place : Rect} {index width height : ℕ} {mode : SurfaceMode}
    {σ : Type} {u u' : σ}
    (h : (placement content index width height mode : Attempt σ ε Rect).run u =
      some (.ok place, u')) : u' = u ∧ content.y ≤ place.y := by
  cases mode with
  | fullscreen =>
    obtain ⟨hp, rfl⟩ := Prod.mk.inj (Option.some.inj h)
    obtain rfl := Except.ok.inj hp
    exact ⟨rfl, le_rfl⟩
  | windowed =>
    simp only [placement, run_demand_bind] at h
    split at h
    · obtain ⟨hp, rfl⟩ := Prod.mk.inj (Option.some.inj h)
      obtain rfl := Except.ok.inj hp
      refine ⟨rfl, ?_⟩
      simp only
      omega
    · cases h

/-- A creation is refused, or a blank surface gets the next number and the focus. -/
theorem createSurface_ok {pid realmKind width height : ℕ} {mode : SurfaceMode}
    (h : (createSurface pid realmKind width height mode : Attempt State ε (Option ℕ)).run c =
      some (.ok r, c')) :
    r = none ∧ c' = c ∨ ∃ s l, r = some c.nextSurfaceId ∧ s.id = c.nextSurfaceId ∧ s.pid = pid ∧
      s.Blank ∧ List.Forall₂ Surface.Moved (c.surfaces ++ [s]) l ∧
      c' = { c with
        nextSurfaceId := c.nextSurfaceId + 1, surfaces := l, focused := some c.nextSurfaceId } := by
  rw [createSurface, run_bind_of_ok (run_of _)] at h
  obtain hfb | ⟨fb, hfb⟩ := Option.eq_none_or_eq_some c.framebuffer
  · rw [hfb] at h
    obtain ⟨hr, rfl⟩ := Prod.mk.inj (Option.some.inj h)
    exact Or.inl ⟨(Except.ok.inj hr).symm, rfl⟩
  rw [hfb] at h
  obtain ⟨place, u, hplace, h⟩ := run_bind_ok.mp h
  obtain ⟨rfl, hbelow⟩ := placement_below hplace
  have hrefused : (pure none : Attempt State ε (Option ℕ)).run u = some (.ok r, c') →
      r = none ∧ c' = u := by
    intro h
    obtain ⟨hr, rfl⟩ := Prod.mk.inj (Option.some.inj h)
    exact ⟨(Except.ok.inj hr).symm, rfl⟩
  split at h
  · exact Or.inl (hrefused h)
  · next hpos =>
    split at h
    · exact Or.inl (hrefused h)
    · split at h
      · exact Or.inl (hrefused h)
      · obtain ⟨-, h⟩ := run_sum_bind_ok.mp h
        rw [run_bind_of_ok (run_of _)] at h
        obtain ⟨⟨⟩, v, hlayout, h⟩ := run_bind_ok.mp h
        obtain ⟨l, rfl, hl⟩ := relayout_moved hlayout
        obtain ⟨hr, rfl⟩ := Prod.mk.inj (Option.some.inj h)
        refine Or.inr ⟨_, l, (Except.ok.inj hr).symm, rfl, rfl, ?_, hl, rfl⟩
        rw [not_or] at hpos
        refine ⟨⟨Nat.pos_of_ne_zero hpos.1, Nat.pos_of_ne_zero hpos.2, ?_⟩, hbelow, ?_⟩
        · rw [List.length_replicate]
        · exact fun b hb => (List.mem_replicate.mp hb).2

/-- A commit is refused and no surface changes, or the caller's own surface gets all its bytes. -/
theorem commitSurfaceFromUser_ok {id pid len : ℕ} {data : Option (List UInt8)}
    (h : (commitSurfaceFromUser id pid len data : Attempt State ε Bool).run c =
      some (.ok accepted, c')) :
    accepted = false ∧ (∃ rejected, c' = { c with rejectedCommits := rejected }) ∨
    ∃ s bytes, accepted = true ∧ s ∈ c.surfaces ∧ s.id = id ∧ s.pid = pid ∧
      len = s.pixels.length ∧ data = some bytes ∧ c' = { c with
        surfaces := c.surfaces.map fun s => if s.id = id then { s with pixels := bytes } else s } := by
  rw [commitSurfaceFromUser, run_bind_of_ok (run_of _)] at h
  cases hf : c.surfaces.find? fun s => s.id == id with
  | none =>
    rw [hf] at h
    obtain ⟨hr, rfl⟩ := Prod.mk.inj (Option.some.inj h)
    exact Or.inl ⟨(Except.ok.inj hr).symm, _, rfl⟩
  | some s =>
    simp only [hf] at h
    split at h
    · obtain ⟨-, h⟩ := run_sum_bind_ok.mp h
      obtain ⟨hr, rfl⟩ := Prod.mk.inj (Option.some.inj h)
      exact Or.inl ⟨(Except.ok.inj hr).symm, _, rfl⟩
    · next bytes hdata =>
      split at hdata
      · exact absurd hdata nofun
      · next hown =>
        rw [not_or, not_not, not_not] at hown
        obtain ⟨hr, rfl⟩ := Prod.mk.inj (Option.some.inj h)
        exact Or.inr ⟨s, bytes, (Except.ok.inj hr).symm, List.mem_of_find?_eq_some hf,
          by simpa using List.find?_some hf, hown.1, hown.2, hdata, rfl⟩

theorem removeSurfacesFor_ok {pid : ℕ}
    (h : (removeSurfacesFor pid : Attempt State ε Unit).run c = some (.ok (), c')) :
    ∃ l, List.Forall₂ Surface.Moved (c.surfaces.filter fun s => s.pid != pid) l ∧
      c' = { c with
        surfaces := l
        focused := c.focused.bind fun id =>
          if (c.surfaces.filter fun s => s.pid != pid).any fun s => s.id == id then some id
          else (c.surfaces.filter fun s => s.pid != pid).getLast?.map (·.id) } := by
  rw [removeSurfacesFor, run_bind_of_ok (run_of _)] at h
  obtain ⟨l, rfl, hl⟩ := relayout_moved h
  exact ⟨l, hl, rfl⟩

theorem present_counts (h : (Compositor.present false : Attempt State ε Unit).run c =
      some (.ok (), c')) : ∃ frames, c' = { c with frames := frames } := by
  rw [Compositor.present, if_neg Bool.false_ne_true, run_bind_of_ok (run_of _)] at h
  split at h
  · obtain ⟨-, rfl⟩ := Prod.mk.inj (Option.some.inj h)
    exact ⟨c.frames, rfl⟩
  · obtain ⟨-, h⟩ := run_sum_bind_ok.mp h
    obtain ⟨-, rfl⟩ := Prod.mk.inj (Option.some.inj h)
    exact ⟨_, rfl⟩

theorem present_toggled (h : (Compositor.present true : Attempt State ε Unit).run c =
      some (.ok (), c')) :
    ∃ d, (toggleLayout : Attempt State ε Unit).run c = some (.ok (), d) ∧
      (Compositor.present false : Attempt State ε Unit).run d = some (.ok (), c') := by
  have htoggled : (do toggleLayout; Compositor.present false : Attempt State ε Unit).run c =
    some (.ok (), c') := h
  obtain ⟨⟨⟩, d, htoggle, hrest⟩ := run_bind_ok.mp htoggled
  exact ⟨d, htoggle, hrest⟩

theorem present_ok {toggle : Bool}
    (h : (Compositor.present toggle : Attempt State ε Unit).run c = some (.ok (), c')) :
    ∃ mode l frames, c' = { c with layout := mode, surfaces := l, frames := frames } ∧
      List.Forall₂ Surface.Moved c.surfaces l := by
  cases toggle with
  | false =>
    obtain ⟨frames, rfl⟩ := present_counts h
    exact ⟨c.layout, c.surfaces, frames, rfl, forall₂_moved _⟩
  | true =>
    obtain ⟨d, htoggle, hrest⟩ := present_toggled h
    obtain ⟨mode, l, rfl, hl⟩ := toggleLayout_moved htoggle
    obtain ⟨frames, rfl⟩ := present_counts hrest
    exact ⟨mode, l, frames, rfl, hl⟩

end Operations

section Invariants

variable {x y : Session} {c : State} {k l l' : List Surface}
  {held : ℕ → Option (ℕ × List UInt8)} {id : ℕ}

structure Kept (x : Session) : Prop where
  sized : ∀ s ∈ x.state.surfaces, s.Sized
  below : ∀ s ∈ x.state.surfaces, trustBarHeight ≤ s.y
  distinct : (x.state.surfaces.map (·.id)).Nodup
  issued : ∀ s ∈ x.state.surfaces, s.id ∈ x.issued
  issuedOnce : x.issued.Nodup
  issuedBefore : ∀ id ∈ x.issued, id < x.state.nextSurfaceId
  focused : x.state.surfaces ≠ [] → ∃ s ∈ x.state.surfaces, x.state.focused = some s.id
  authored : Authored x.state.surfaces x.committed

theorem moved_ids (h : List.Forall₂ Surface.Moved k l) : l.map (·.id) = k.map (·.id) := by
  induction h with
  | nil => rfl
  | cons hmoved _ ih => rw [List.map_cons, List.map_cons, hmoved.id, ih]

theorem moved_nil (h : List.Forall₂ Surface.Moved k l) : l = [] ↔ k = [] := by
  rw [← List.length_eq_zero_iff, ← List.length_eq_zero_iff, h.length_eq]

/-- Surfaces that have been moved hold what they held, or nothing since they were resized. -/
theorem Authored.moved (h : Authored l held) (hl : (l.map (·.id)).Nodup)
    (hk : (k.map (·.id)).Nodup) (hmoved : List.Forall₂ Surface.Moved k l')
    (hfrom : ∀ s ∈ k, s ∈ l ∨ s.Blank ∧ ∀ t ∈ l, t.id ≠ s.id) :
    Authored l' fun i => if Resized l l' i then none else held i := by
  intro s' hs'
  obtain ⟨s, hs, hm⟩ := moved_mem hmoved hs'
  have hsame : ∀ t ∈ l', t.id = s'.id → t = s' := fun t ht heq =>
    List.inj_on_of_nodup_map (moved_ids hmoved ▸ hk) ht hs' heq
  by_cases hresized : Resized l l' s'.id
  · simp only [if_pos hresized]
    rcases hfrom s hs with hold | ⟨hblank, -⟩
    · obtain ⟨hw, hh, -⟩ | ⟨-, -, -, hp⟩ := hm.pixels
      · obtain ⟨t, ht, heq, hdiffers⟩ := hresized
        rw [hsame t ht heq] at hdiffers
        exact absurd ⟨hw, hh⟩ (hdiffers s hold hm.id.symm)
      · rw [hp]
        exact fun b hb => (List.mem_replicate.mp hb).2
    · exact (hm.blank hblank).2.2
  · simp only [if_neg hresized]
    have hkept : ∃ t ∈ l, t.id = s'.id ∧ s'.width = t.width ∧ s'.height = t.height := by
      by_contra hnone
      refine hresized ⟨s', hs', rfl, fun t ht heq hdims => hnone ⟨t, ht, heq, hdims⟩⟩
    obtain ⟨t, ht, heq, hdims⟩ := hkept
    rcases hfrom s hs with hold | ⟨-, hnew⟩
    · obtain rfl := List.inj_on_of_nodup_map hl ht hold (heq.trans hm.id)
      obtain ⟨-, -, hp⟩ | ⟨hdiffers, -⟩ := hm.pixels
      · rw [hm.id, hm.pid, hp]
        exact h t ht
      · exact absurd hdims hdiffers
    · exact absurd (heq.trans hm.id) (hnew t ht)

/-- A drawn pixel lies inside the buffer. -/
theorem Surface.Sized.inRange {s : Surface} (h : s.Sized) (fb : Framebuffer) : s.InRange fb := by
  intro row hrow column hcolumn
  rw [List.mem_range'_1] at hrow hcolumn
  simp only [Surface.clip] at hrow hcolumn
  have hr : row - s.y + 1 ≤ s.height := by omega
  have hc : column - s.x < s.width := by omega
  have hindex : (row - s.y) * s.width + (column - s.x) < s.width * s.height := by
    have hle := Nat.mul_le_mul_right s.width hr
    rw [Nat.add_mul, Nat.one_mul, Nat.mul_comm s.height] at hle
    omega
  rw [Surface.pixelAt, if_pos (by rw [h.2.2]; omega)]
  rfl

theorem Kept.lawful (h : Kept x) : Lawful x where
  sized := h.sized
  below := h.below
  distinct := h.distinct
  issuedOnce := ⟨h.issuedOnce, h.issued⟩
  focused := h.focused
  inRange s hs fb := (h.sized s hs).inRange fb
  authored := h.authored
  refused id pid ptr len space c hrun := by
    obtain ⟨accepted, u, hcommit, hanswer⟩ := run_bind_ok.mp hrun
    obtain ⟨ha, rfl⟩ := Prod.mk.inj (Option.some.inj hanswer)
    obtain ⟨-, rejected, rfl⟩ | ⟨s, bytes, rfl, -⟩ := commitSurfaceFromUser_ok hcommit
    · rfl
    · exact absurd (Except.ok.inj ha) (by decide)

/-- Surfaces are gone or have moved, and nothing else of them changes. -/
theorem Kept.moved (h : Kept x) (hk : k.Sublist x.state.surfaces)
    (hmoved : List.Forall₂ Surface.Moved k l) (hl : c.surfaces = l)
    (hnext : c.nextSurfaceId = x.state.nextSurfaceId)
    (hfocused : k ≠ [] → ∃ s ∈ k, c.focused = some s.id) :
    Kept ⟨c, x.issued, fun i => if Resized x.state.surfaces l i then none else x.committed i⟩ := by
  subst hl
  have hdistinct : (k.map (·.id)).Nodup := h.distinct.sublist (hk.map _)
  constructor
  · intro s' hs'
    obtain ⟨s, hs, hm⟩ := moved_mem hmoved hs'
    exact hm.sized (h.sized s (hk.subset hs))
  · intro s' hs'
    obtain ⟨s, hs, hm⟩ := moved_mem hmoved hs'
    exact hm.below (h.below s (hk.subset hs))
  · exact moved_ids hmoved ▸ hdistinct
  · intro s' hs'
    obtain ⟨s, hs, hm⟩ := moved_mem hmoved hs'
    exact hm.id ▸ h.issued s (hk.subset hs)
  · exact h.issuedOnce
  · exact fun id hid => hnext ▸ h.issuedBefore id hid
  · intro hne
    obtain ⟨s, hs, hfocus⟩ := hfocused fun hnil => hne ((moved_nil hmoved).mpr hnil)
    have hid : s.id ∈ c.surfaces.map (·.id) := moved_ids hmoved ▸ List.mem_map_of_mem hs
    obtain ⟨s', hs', heq⟩ := List.mem_map.mp hid
    exact ⟨s', hs', hfocus.trans (congrArg some heq.symm)⟩
  · exact h.authored.moved h.distinct hdistinct hmoved fun s hs => Or.inl (hk.subset hs)

/-- A blank surface joins under the next number, and gets the focus. -/
theorem Kept.created (h : Kept x) {s : Surface} (hid : s.id = x.state.nextSurfaceId)
    (hblank : s.Blank) (hmoved : List.Forall₂ Surface.Moved (x.state.surfaces ++ [s]) l) :
    Kept ⟨{ x.state with
        nextSurfaceId := x.state.nextSurfaceId + 1
        surfaces := l
        focused := some x.state.nextSurfaceId }, x.issued ++ [x.state.nextSurfaceId],
      fun i => if Resized x.state.surfaces l i then none else x.committed i⟩ := by
  have hnew : ∀ t ∈ x.state.surfaces, t.id ≠ s.id := by
    intro t ht heq
    have hlt := h.issuedBefore t.id (h.issued t ht)
    omega
  have hbase : ∀ t ∈ x.state.surfaces ++ [s], t ∈ x.state.surfaces ∨ t = s := fun t ht =>
    (List.mem_append.mp ht).imp (fun h => h) List.mem_singleton.mp
  have hdistinct : ((x.state.surfaces ++ [s]).map (·.id)).Nodup := by
    rw [List.map_append, List.nodup_append]
    refine ⟨h.distinct, List.nodup_singleton _, ?_⟩
    intro a ha b hb
    obtain ⟨t, ht, rfl⟩ := List.mem_map.mp ha
    rw [List.map_singleton, List.mem_singleton] at hb
    exact hb ▸ hnew t ht
  constructor
  · intro s' hs'
    obtain ⟨t, ht, hm⟩ := moved_mem hmoved hs'
    rcases hbase t ht with ht | rfl
    · exact hm.sized (h.sized t ht)
    · exact hm.sized hblank.1
  · intro s' hs'
    obtain ⟨t, ht, hm⟩ := moved_mem hmoved hs'
    rcases hbase t ht with ht | rfl
    · exact hm.below (h.below t ht)
    · exact hm.below hblank.2.1
  · exact moved_ids hmoved ▸ hdistinct
  · intro s' hs'
    obtain ⟨t, ht, hm⟩ := moved_mem hmoved hs'
    rw [hm.id]
    rcases hbase t ht with ht | rfl
    · exact List.mem_append_left _ (h.issued t ht)
    · exact List.mem_append_right _ (List.mem_singleton.mpr hid)
  · rw [List.nodup_append]
    refine ⟨h.issuedOnce, List.nodup_singleton _, ?_⟩
    intro a ha b hb heq
    rw [List.mem_singleton.mp hb] at heq
    exact absurd (h.issuedBefore a ha) (by omega)
  · intro id hid
    rcases List.mem_append.mp hid with hid | hid
    · exact (h.issuedBefore id hid).trans (Nat.lt_succ_self _)
    · rw [List.mem_singleton.mp hid]
      exact Nat.lt_succ_self _
  · intro _
    have hmem : s.id ∈ l.map (·.id) := by
      rw [moved_ids hmoved]
      exact List.mem_map_of_mem (List.mem_append_right _ (List.mem_singleton_self s))
    obtain ⟨s', hs', heq⟩ := List.mem_map.mp hmem
    exact ⟨s', hs', congrArg some (hid.symm.trans heq.symm)⟩
  · refine h.authored.moved h.distinct hdistinct hmoved fun t ht => ?_
    rcases hbase t ht with ht | rfl
    · exact Or.inl ht
    · exact Or.inr ⟨hblank, hnew⟩

/-- The caller's own surface gets its bytes, and no other changes. -/
theorem Kept.committed (h : Kept x) {s : Surface} {bytes : List UInt8}
    (hs : s ∈ x.state.surfaces) (hlen : bytes.length = s.pixels.length) :
    Kept ⟨{ x.state with surfaces := x.state.surfaces.map fun t =>
        if t.id = s.id then { t with pixels := bytes } else t }, x.issued,
      Function.update x.committed s.id (some (s.pid, bytes))⟩ := by
  have hfrom : ∀ t' ∈ x.state.surfaces.map (fun t =>
      if t.id = s.id then { t with pixels := bytes } else t),
      ∃ t ∈ x.state.surfaces, t = s ∧ t' = { s with pixels := bytes } ∨ t.id ≠ s.id ∧ t' = t := by
    intro t' ht'
    obtain ⟨t, ht, rfl⟩ := List.mem_map.mp ht'
    by_cases hid : t.id = s.id
    · obtain rfl := List.inj_on_of_nodup_map h.distinct ht hs hid
      exact ⟨t, ht, Or.inl ⟨rfl, if_pos rfl⟩⟩
    · exact ⟨t, ht, Or.inr ⟨hid, if_neg hid⟩⟩
  have hids : (x.state.surfaces.map fun t =>
      if t.id = s.id then { t with pixels := bytes } else t).map (·.id) =
      x.state.surfaces.map (·.id) := by
    rw [List.map_map]
    apply List.map_congr_left
    intro t _
    rw [Function.comp_apply]
    split <;> rfl
  constructor
  · intro t' ht'
    obtain ⟨t, ht, ⟨rfl, rfl⟩ | ⟨-, rfl⟩⟩ := hfrom t' ht'
    · obtain ⟨hw, hh, hp⟩ := h.sized t ht
      exact ⟨hw, hh, hlen.trans hp⟩
    · exact h.sized t' ht
  · intro t' ht'
    obtain ⟨t, ht, ⟨rfl, rfl⟩ | ⟨-, rfl⟩⟩ := hfrom t' ht'
    · exact h.below t ht
    · exact h.below t' ht
  · exact hids ▸ h.distinct
  · intro t' ht'
    obtain ⟨t, ht, ⟨rfl, rfl⟩ | ⟨-, rfl⟩⟩ := hfrom t' ht'
    · exact h.issued t ht
    · exact h.issued t' ht
  · exact h.issuedOnce
  · exact h.issuedBefore
  · intro _
    obtain ⟨t, ht, hfocus⟩ := h.focused (List.ne_nil_of_mem hs)
    have hmem : t.id ∈ (x.state.surfaces.map fun t =>
        if t.id = s.id then { t with pixels := bytes } else t).map (·.id) :=
      hids ▸ List.mem_map_of_mem ht
    obtain ⟨t', ht', heq⟩ := List.mem_map.mp hmem
    exact ⟨t', ht', hfocus.trans (congrArg some heq.symm)⟩
  · intro t' ht'
    obtain ⟨t, ht, ⟨rfl, rfl⟩ | ⟨hne, rfl⟩⟩ := hfrom t' ht'
    · simp only [Function.update_self, and_self]
    · simp only [Function.update_of_ne hne]
      exact h.authored t' ht

/-- The focus goes to a surface that is left, where one is. -/
theorem Kept.focus_left (h : Kept x) (hk : k.Sublist x.state.surfaces) (hne : k ≠ []) :
    ∃ s ∈ k, (x.state.focused.bind fun id =>
      if k.any fun s => s.id == id then some id else k.getLast?.map (·.id)) = some s.id := by
  obtain ⟨s, hs⟩ := List.exists_mem_of_ne_nil k hne
  obtain ⟨t, -, hfocus⟩ := h.focused (List.ne_nil_of_mem (hk.subset hs))
  rw [hfocus, Option.bind_some]
  split
  · next hany =>
    obtain ⟨s, hs, heq⟩ := List.any_eq_true.mp hany
    exact ⟨s, hs, congrArg some (beq_iff_eq.mp heq).symm⟩
  · exact ⟨k.getLast hne, List.getLast_mem hne, by rw [List.getLast?_eq_getLast_of_ne_nil hne]; rfl⟩

theorem next_kept {e : Event} (h : Kept x) (hy : next x e = some y) : Kept y := by
  obtain ⟨answer, c, hrun, rfl⟩ := next_ok hy
  cases e with
  | create pid realmKind width height mode =>
    obtain ⟨r, hcreate, rfl⟩ := answered hrun
    rcases createSurface_ok hcreate with ⟨rfl, rfl⟩ | ⟨s, l, rfl, hid, -, hblank, hl, rfl⟩
    · exact h.moved (List.Sublist.refl _) (forall₂_moved _) rfl rfl h.focused
    · exact h.created hid hblank hl
  | commit id pid ptr len space =>
    obtain ⟨accepted, hcommit, rfl⟩ := answered hrun
    obtain ⟨rfl, rejected, rfl⟩ | ⟨s, bytes, rfl, hs, rfl, rfl, rfl, hdata, rfl⟩ :=
      commitSurfaceFromUser_ok hcommit
    · exact h.moved (List.Sublist.refl _) (forall₂_moved _) rfl rfl h.focused
    · obtain rfl := copyFromUserInto_some hdata
      exact h.committed hs (by simp [UserSpace.read])
  | setLayout mode =>
    obtain ⟨⟨⟩, hset, rfl⟩ := answered hrun
    obtain ⟨l, rfl, hl⟩ := setLayout_moved hset
    exact h.moved (List.Sublist.refl _) hl rfl rfl h.focused
  | toggleLayout =>
    obtain ⟨⟨⟩, hset, rfl⟩ := answered hrun
    obtain ⟨mode, l, rfl, hl⟩ := toggleLayout_moved hset
    exact h.moved (List.Sublist.refl _) hl rfl rfl h.focused
  | removeSurfacesFor pid =>
    obtain ⟨⟨⟩, hremove, rfl⟩ := answered hrun
    obtain ⟨l, hl, rfl⟩ := removeSurfacesFor_ok hremove
    exact h.moved List.filter_sublist hl rfl rfl (h.focus_left List.filter_sublist)
  | present toggle =>
    obtain ⟨⟨⟩, hpresent, rfl⟩ := answered hrun
    obtain ⟨mode, l, frames, rfl, hl⟩ := present_ok hpresent
    exact h.moved (List.Sublist.refl _) hl rfl rfl h.focused

theorem begin_kept (hempty : c.surfaces = []) : Kept (begin c) := by
  have hnone : ∀ s, s ∉ (begin c).state.surfaces := by
    intro s hs
    rw [begin, hempty] at hs
    exact absurd hs List.not_mem_nil
  refine ⟨fun s hs => absurd hs (hnone s), fun s hs => absurd hs (hnone s), ?_,
    fun s hs => absurd hs (hnone s), List.nodup_nil, nofun, fun hne => absurd hempty hne,
    fun s hs => absurd hs (hnone s)⟩
  rw [begin, hempty]
  exact List.nodup_nil

/-- In every run that starts without surfaces, each holds its own process's pixels alone. -/
theorem surfaces_owned {es : List Event} (hempty : c.surfaces = [])
    (hx : exec next (begin c) es = some x) : Lawful x := by
  have hstep : Preserves next Any Kept := fun _ _ _ h _ hy => next_kept h hy
  exact (exec_invariant hstep (begin_kept hempty) (meets_any next _ es) hx).lawful

/-- A screen of eight pixels by thirty, with nothing on it. -/
def blankScreen : State :=
  ⟨some ⟨8, 30, 32, 4, .rgb, 960⟩, [], 1, none, .default, .floating, [], 0, 0, 0⟩

theorem surfaces_owned_committed : ∃ x, exec next (begin blankScreen)
    [.create 1 0 2 1 .windowed,
      .commit 1 1 0x400000 8 ⟨fun _ => true, fun _ => true, fun _ => 0x61⟩,
      .commit 1 2 0x400000 8 ⟨fun _ => true, fun _ => true, fun _ => 0x62⟩] = some x ∧
    x.state.surfaces.map (·.pixels) = [List.replicate 8 0x61] ∧ Lawful x := by
  obtain ⟨x, hx, hpixels⟩ : ∃ x, exec next (begin blankScreen)
    [.create 1 0 2 1 .windowed,
      .commit 1 1 0x400000 8 ⟨fun _ => true, fun _ => true, fun _ => 0x61⟩,
      .commit 1 2 0x400000 8 ⟨fun _ => true, fun _ => true, fun _ => 0x62⟩] = some x ∧
    x.state.surfaces.map (·.pixels) = [List.replicate 8 0x61] := ⟨_, rfl, rfl⟩
  exact ⟨x, hx, hpixels, surfaces_owned rfl hx⟩

end Invariants

end Compositor
