import NajmKernel.AddressSpaces

/-! What each operation on an address space does to the pages in it: the leaf entry of every page
and the frame behind it, and to memory outside the space. -/
namespace AddressSpaces

open PhysicalMemory PageTables PhysicalFrames

/-- A space whose tables form a tree, built from frames the allocator does not hold. -/
structure Holds (s : System) (space : AddressSpace) (place : Placement) (w : Bool) : Prop where
  tree : TableTree s.bytes space.root place w
  fresh : ∀ f ∈ s.frames.upcoming, place f = none
  nodup : s.frames.upcoming.Nodup

/-- The leaf entry of a page. -/
def AddressSpace.leaf (space : AddressSpace) (m : Memory) (page : ℕ) : Option Entry :=
  walk m 4 space.root page

/-- A space that has only grown, by frames from the allocator. -/
structure Extended (s s' : System) (space space' : AddressSpace) (place place' : Placement) :
    Prop where
  root : space'.root = space.root
  old : ∀ {g x}, place g = some x → place' g = some x
  came : ∀ {g}, place' g ≠ none → place g = none → g ∈ s.frames.upcoming
  supply : ∃ gone, s.frames.upcoming = gone ++ s'.frames.upcoming
  outside : ∀ {g}, place' g = none → s'.bytes g = s.bytes g
  leaves : ∀ {g n}, place g = some (0, n) → s'.bytes g = s.bytes g
  upper : ∀ {i}, 256 ≤ i → s'.bytes.word space.root i = s.bytes.word space.root i
  owned : ∃ new, space'.ownedFrames = space.ownedFrames ++ new ∧
    ∀ f ∈ new, place' f ≠ none ∧ place f = none

variable {X : Mapper} {s s' : System} {space space' : AddressSpace} {place place' : Placement}
  {w : Bool} {page q addr len : ℕ} {flags : PageTableFlags} {r : Except MapError Unit}
  {m m' : Memory} {e : Entry} {f g : Frame}

theorem Extended.refl (hsupply : ∃ gone, s.frames.upcoming = gone ++ s'.frames.upcoming)
    (hbytes : s'.bytes = s.bytes) : Extended s s' space space place place where
  root := rfl
  old := id
  came h hn := absurd hn h
  supply := hsupply
  outside _ := by rw [hbytes]
  leaves _ := by rw [hbytes]
  upper _ := by rw [hbytes]
  owned := ⟨[], by simp⟩

theorem page_lt (h : isUserAddress (4096 * page) = true) : page < 2 ^ 35 := by
  have := of_decide_eq_true h
  unfold userSpaceEnd at this
  omega

theorem allocate_some {a a' : FrameAllocator} (h : a.allocateFrame = (some f, a')) :
    a.upcoming = f :: a'.upcoming := supplies.some h

theorem allocate_none {a a' : FrameAllocator} (h : a.allocateFrame = (none, a')) :
    a.upcoming = [] ∧ a'.upcoming = [] := supplies.none h

theorem tracking_supplies :
    Supplies TrackingAllocator.allocateFrame fun t => t.inner.upcoming where
  first t := by
    rcases h : t.inner.allocateFrame with ⟨_ | f, a⟩
    · simp [TrackingAllocator.allocateFrame, h, (allocate_none h).1]
    · simp [TrackingAllocator.allocateFrame, h, allocate_some h]
  rest t := by
    rcases h : t.inner.allocateFrame with ⟨_ | f, a⟩
    · simp [TrackingAllocator.allocateFrame, h, (allocate_none h).1, (allocate_none h).2]
    · simp [TrackingAllocator.allocateFrame, h, allocate_some h]

/-- The tracker records exactly the frames it hands out. -/
theorem tracked {l : ℕ} {t frame : Frame} {a a' : TrackingAllocator}
    {r : Except MapToError Unit}
    (h : MapTo TrackingAllocator.allocateFrame page frame flags l t m a r m' a') :
    ∃ taken, a'.allocated = a.allocated ++ taken ∧
      a.inner.upcoming = taken ++ a'.inner.upcoming := by
  induction h with
  | mapped => exact ⟨[], by simp⟩
  | alreadyMapped => exact ⟨[], by simp⟩
  | @created l t next m m' a a₁ a' added r unused got parent below ih =>
    obtain ⟨taken, hl, hs⟩ := ih
    rcases hx : a.inner.allocateFrame with ⟨_ | f, b⟩ <;>
      rw [TrackingAllocator.allocateFrame, hx] at got
    · cases got
    · simp only [Prod.mk.injEq, Option.some.injEq] at got
      obtain ⟨rfl, rfl⟩ := got
      refine ⟨f :: taken, by simp [hl], ?_⟩
      rw [allocate_some hx, List.cons_append, ← hs]
  | @exhausted l t m a a' unused got =>
    rcases hx : a.inner.allocateFrame with ⟨_ | f, b⟩ <;>
      rw [TrackingAllocator.allocateFrame, hx] at got
    · simp only [Prod.mk.injEq, true_and] at got
      subst got
      exact ⟨[], by simp [(allocate_none hx).1, (allocate_none hx).2]⟩
    · cases got
  | followed used small parent below ih => exact ih
  | huge => exact ⟨[], by simp⟩

/-- The four ways `map_page` can go. -/
theorem mapPage_cases (h : space.mapPage X page flags s = some (r, space', s')) :
    ((isUserAddress (4096 * page) = false ∨ flags.contains .userAccessible = false) ∧
      r ≠ .ok () ∧ space' = space ∧ s' = s) ∨
    (isUserAddress (4096 * page) = true ∧ flags.contains .userAccessible = true ∧
      s.frames.upcoming = [] ∧ r ≠ .ok () ∧ space' = space ∧ s'.bytes = s.bytes ∧
      s'.frames.upcoming = []) ∨
    ∃ frame frames tracker r', isUserAddress (4096 * page) = true ∧
      flags.contains .userAccessible = true ∧ s.frames.allocateFrame = (some frame, frames) ∧
      MapTo TrackingAllocator.allocateFrame page frame flags 4 space.root s.bytes ⟨frames, []⟩ r'
        s'.bytes tracker ∧ s'.frames = tracker.inner ∧ (r = .ok () ↔ r' = .ok ()) ∧
      space' = { space with ownedFrames := space.ownedFrames ++
        (if r' = .ok () then frame :: tracker.allocated else tracker.allocated) } := by
  unfold AddressSpace.mapPage at h
  simp only at h
  split at h
  case isTrue hn =>
    simp only [Option.some.injEq, Prod.mk.injEq] at h
    obtain ⟨rfl, rfl, rfl⟩ := h
    exact Or.inl ⟨Or.inl hn, by simp, rfl, rfl⟩
  case isFalse hn =>
    split at h
    case isTrue hu =>
      simp only [Option.some.injEq, Prod.mk.injEq] at h
      obtain ⟨rfl, rfl, rfl⟩ := h
      exact Or.inl ⟨Or.inr hu, by simp, rfl, rfl⟩
    case isFalse hu =>
      rw [Bool.not_eq_false] at hn hu
      right
      split at h
      case h_1 frames ha =>
        simp only [Option.some.injEq, Prod.mk.injEq] at h
        obtain ⟨rfl, rfl, rfl⟩ := h
        obtain ⟨h1, h2⟩ := allocate_none ha
        exact Or.inl ⟨hn, hu, h1, by simp, rfl, rfl, h2⟩
      case h_2 frame frames ha =>
        right
        split at h
        · cases h
        case h_2 bytes tracker hx =>
          simp only [Option.some.injEq, Prod.mk.injEq] at h
          obtain ⟨rfl, rfl, rfl⟩ := h
          exact ⟨frame, frames, tracker, _, hn, hu, ha, X.mapTo_spec hx, rfl, by simp, by simp⟩
        case h_3 err bytes tracker hx =>
          simp only [Option.some.injEq, Prod.mk.injEq] at h
          obtain ⟨rfl, rfl, rfl⟩ := h
          exact ⟨frame, frames, tracker, _, hn, hu, ha, X.mapTo_spec hx, rfl, by simp, by simp⟩

/-- `map_page` refuses the request before it takes a frame. -/
def refused (page : ℕ) (flags : PageTableFlags) : Prop :=
  isUserAddress (4096 * page) = false ∨ flags.contains .userAccessible = false

/-- Every frame that leaves the allocator during `map_page` goes to the space, but for the page's
own frame where the mapping fails. -/
theorem mapPage_frames (h : space.mapPage X page flags s = some (r, space', s')) :
    ∃ gone, s.frames.upcoming = gone ++ s'.frames.upcoming ∧
      (r = .ok () ∧ space'.ownedFrames = space.ownedFrames ++ gone ∨
        (refused page flags ∨ s.frames.upcoming = []) ∧ r ≠ .ok () ∧ gone = [] ∧
          space'.ownedFrames = space.ownedFrames ∨
        ¬ refused page flags ∧ r ≠ .ok () ∧ ∃ frame taken, gone = frame :: taken ∧
          space'.ownedFrames = space.ownedFrames ++ taken) := by
  rcases mapPage_cases h with ⟨href, hr, rfl, rfl⟩ | ⟨-, -, hempty, hr, rfl, hb, hempty'⟩ |
    ⟨frame, frames, tracker, r', hn, hu, ha, hmap, hframes, hrr, hspace⟩
  · exact ⟨[], rfl, Or.inr (Or.inl ⟨Or.inl href, hr, rfl, rfl⟩)⟩
  · exact ⟨[], by simp [hempty, hempty'], Or.inr (Or.inl ⟨Or.inr hempty, hr, rfl, rfl⟩)⟩
  · obtain ⟨taken, hal, hs⟩ := tracked hmap
    simp only [List.nil_append] at hal hs
    refine ⟨frame :: taken, by rw [allocate_some ha, hs, hframes, List.cons_append], ?_⟩
    by_cases hr : r' = .ok ()
    · exact Or.inl ⟨hrr.mpr hr, by rw [hspace, if_pos hr, hal]⟩
    · refine Or.inr (Or.inr ⟨by simp [refused, hn, hu], fun h => hr (hrr.mp h), frame, taken,
        rfl, ?_⟩)
      rw [hspace, if_neg hr, hal]

/-- `map_page` gives no frame back to the bump allocator. -/
theorem mapPage_unvisited (h : space.mapPage X page flags s = some (r, space', s')) :
    ∀ f ∈ unvisited s'.frames.boot.regions s'.frames.boot.nextAddr,
      f ∈ unvisited s.frames.boot.regions s.frames.boot.nextAddr := by
  rcases mapPage_cases h with ⟨-, -, rfl, rfl⟩ | ⟨-, -, -, -, -, -, hempty'⟩ |
    ⟨frame, frames, tracker, r', -, -, ha, hmap, hframes, -, -⟩
  · exact fun f hf => hf
  · intro f hf
    have hu : f ∈ s'.frames.upcoming := List.mem_append_right _ hf
    rw [hempty'] at hu
    cases hu
  · rw [hframes]
    refine hmap.keeps (P := fun t => ∀ f ∈ unvisited t.inner.boot.regions t.inner.boot.nextAddr,
      f ∈ unvisited s.frames.boot.regions s.frames.boot.nextAddr) ?_ ?_
    · intro t t' x ht hsub f hf
      rcases hx : t.inner.allocateFrame with ⟨_ | g, inner⟩ <;>
        rw [TrackingAllocator.allocateFrame, hx] at ht <;>
        · obtain ⟨-, rfl⟩ := Prod.mk.inj ht
          exact hsub f (unvisited_allocate hx f hf)
    · exact unvisited_allocate ha

/-- What a successful `map_page` adds, and that one that fails leaves every page as it was. -/
structure PageMapped (s s' : System) (space space' : AddressSpace) (place place' : Placement)
    (page : ℕ) (flags : PageTableFlags) : Prop where
  user : isUserAddress (4096 * page) = true
  before : space.leaf s.bytes page = none
  after : ∃ frame, place frame = none ∧ place' frame = some (0, page) ∧
    space'.leaf s'.bytes page = some ⟨frame, flags⟩
  others : ∀ q < 2 ^ 35, q ≠ page → space'.leaf s'.bytes q = space.leaf s.bytes q

theorem mapPage_spec (H : Holds s space place w)
    (hw : w = true → flags.contains .writable = true)
    (h : space.mapPage X page flags s = some (r, space', s')) :
    ∃ place', Holds s' space' place' w ∧ Extended s s' space space' place place' ∧
      (r = .ok () → PageMapped s s' space space' place place' page flags) ∧
      (r ≠ .ok () → ∀ q < 2 ^ 35, space'.leaf s'.bytes q = space.leaf s.bytes q) := by
  rcases mapPage_cases h with ⟨-, hr, rfl, rfl⟩ | ⟨-, -, hempty, hr, rfl, hb, hempty'⟩ |
    ⟨frame, frames, tracker, r', hn, hu, ha, hmap, hframes, hrr, hspace⟩
  · exact ⟨place, H, Extended.refl ⟨[], rfl⟩ rfl, fun h => absurd h hr, fun _ _ _ => rfl⟩
  · refine ⟨place, ⟨?_, by simp [hempty'], by simp [hempty']⟩,
      Extended.refl ⟨[], by simp [hempty, hempty']⟩ hb, fun h => absurd h hr, fun _ _ _ => ?_⟩
    · rw [hb]
      exact H.tree
    · rw [hb]
  · have hp := page_lt hn
    have hsup := allocate_some ha
    have hfresh := H.fresh
    have hnodup := H.nodup
    rw [hsup] at hfresh hnodup
    have hfree : place frame = none := hfresh frame List.mem_cons_self
    have hroot : place space.root = some (4, page / 512 ^ 4) := by
      rw [H.tree.atRoot, Nat.div_eq_of_lt (lt_trans hp (by norm_num))]
    obtain ⟨taken, place', hs, hT, hG⟩ := hmap.grows tracking_supplies hp hu hw
      (List.nodup_cons.mp hnodup).1 (List.nodup_cons.mp hnodup).2 H.tree hroot
      (fun f hf => hfresh f (List.mem_cons_of_mem _ hf)) hfree
    simp only at hs
    obtain ⟨taken', hal, hs'⟩ := tracked hmap
    simp only [List.nil_append] at hal hs'
    obtain rfl : taken' = taken := List.append_cancel_right (hs'.symm.trans hs)
    have hsup' : s.frames.upcoming = (frame :: taken') ++ s'.frames.upcoming := by
      rw [hsup, hs, hframes, List.cons_append]
    have hnd : ((frame :: taken') ++ s'.frames.upcoming).Nodup := hsup' ▸ H.nodup
    have hroot' : space'.root = space.root := by rw [hspace]
    have hHolds : Holds s' space' place' w := by
      refine ⟨by rw [hroot']; exact hT, fun f hf => ?_, (List.nodup_append.mp hnd).2.1⟩
      have hnot : f ∉ frame :: taken' := fun hx => (List.disjoint_of_nodup_append hnd) hx hf
      rw [List.mem_cons, not_or] at hnot
      exact hG.none_iff.mpr ⟨H.fresh f (by rw [hsup']; exact List.mem_append_right _ hf), hnot.2,
        fun _ => hnot.1⟩
    have hother : ∀ q < 2 ^ 35, (q = page → r' ≠ .ok ()) →
        space'.leaf s'.bytes q = space.leaf s.bytes q := by
      intro q hq hne
      rw [AddressSpace.leaf, AddressSpace.leaf, hroot']
      exact hG.walk_other H.tree hT hq hne
    refine ⟨place', hHolds, ?_, ?_, ?_⟩
    · refine ⟨hroot', hG.old, ?_, ⟨_, hsup'⟩, ?_, hG.leaves, hG.upper, ?_⟩
      · intro g hg hn'
        rw [hsup']
        apply List.mem_append_left
        by_contra hx
        rw [List.mem_cons, not_or] at hx
        exact hg (hG.none_iff.mpr ⟨hn', hx.2, fun _ => hx.1⟩)
      · intro g hg
        obtain ⟨h1, h2, -⟩ := hG.none_iff.mp hg
        exact hG.outside h1 h2
      · refine ⟨_, by rw [hspace], ?_⟩
        have htaken : ∀ f ∈ taken', place' f ≠ none ∧ place f = none := by
          intro f hf
          obtain ⟨k, -, hk⟩ := hG.tables f hf
          refine ⟨by simp [hk], hfresh f ?_⟩
          rw [hs]
          exact List.mem_cons_of_mem _ (List.mem_append_left _ hf)
        intro f hf
        split at hf
        case isTrue hr' =>
          rcases List.mem_cons.mp hf with rfl | hf
          · exact ⟨by simp [(hG.leaf hr').1], hfree⟩
          · exact htaken f (hal ▸ hf)
        case isFalse => exact htaken f (hal ▸ hf)
    · intro hr
      obtain rfl := hrr.mp hr
      refine ⟨hn, hG.walk_before H.tree hp, ⟨frame, hfree, (hG.leaf rfl).1, ?_⟩,
        fun q hq hne => hother q hq fun he => absurd he hne⟩
      rw [AddressSpace.leaf, hroot']
      exact hG.walk_after hT hp hu
    · intro hr q hq
      exact hother q hq fun _ he => hr (hrr.mpr he)

/-- `map_page` succeeds where the request is a user page without an entry, and there are frames
for the page and for the tables it misses. -/
def AddressSpace.mappable (space : AddressSpace) (page : ℕ) (flags : PageTableFlags)
    (s : System) : Prop :=
  isUserAddress (4096 * page) = true ∧ flags.contains .userAccessible = true ∧
    space.leaf s.bytes page = none ∧
    missing s.bytes 4 space.root page + 1 ≤ s.frames.upcoming.length

theorem mapPage_ok_iff (H : Holds s space place w)
    (h : space.mapPage X page flags s = some (r, space', s')) :
    r = .ok () ↔ space.mappable page flags s := by
  rcases mapPage_cases h with ⟨hn, hr, rfl, rfl⟩ | ⟨-, -, hempty, hr, rfl, hb, hempty'⟩ |
    ⟨frame, frames, tracker, r', hn, hu, ha, hmap, hframes, hrr, hspace⟩
  · refine ⟨fun h => absurd h hr, fun hm => ?_⟩
    rcases hn with hn | hn
    · exact absurd hm.1 (by simp [hn])
    · exact absurd hm.2.1 (by simp [hn])
  · refine ⟨fun h => absurd h hr, fun hm => ?_⟩
    have := hm.2.2.2
    rw [hempty] at this
    simp at this
  · have hp := page_lt hn
    have hroot : place space.root = some (4, page / 512 ^ 4) := by
      rw [H.tree.atRoot, Nat.div_eq_of_lt (lt_trans hp (by norm_num))]
    have hok := hmap.ok_iff tracking_supplies hp H.tree hroot
    simp only at hok
    rw [hrr, hok, AddressSpace.mappable, allocate_some ha, List.length_cons]
    simp only [hn, hu, true_and, AddressSpace.leaf, Nat.add_le_add_iff_right]

theorem protectPage_spec (H : Holds s space place w)
    (h : space.protectPage X page flags s = (r, s')) :
    Holds s' space place w ∧ s'.frames = s.frames ∧
      (∀ g, (∀ n, place g ≠ some (1, n)) → s'.bytes g = s.bytes g) ∧
      (r = .ok () → isUserAddress (4096 * page) = true ∧
        ∃ frame old, space.leaf s.bytes page = some ⟨frame, old⟩ ∧
          (flags ≠ ⟨0, 0⟩ → space.leaf s'.bytes page = some ⟨frame, flags⟩)) ∧
      ∀ q < 2 ^ 35, (q = page → r ≠ .ok ()) → space.leaf s'.bytes q = space.leaf s.bytes q := by
  unfold AddressSpace.protectPage at h
  simp only at h
  split at h
  case isTrue hn =>
    obtain ⟨rfl, rfl⟩ := Prod.mk.inj h
    exact ⟨H, rfl, fun _ _ => rfl, by simp, fun _ _ _ => rfl⟩
  case isFalse hn =>
    rw [Bool.not_eq_false] at hn
    have hp := page_lt hn
    have hroot : place space.root = some (4, page / 512 ^ 4) := by
      rw [H.tree.atRoot, Nat.div_eq_of_lt (lt_trans hp (by norm_num))]
    have hx : UpdateFlags page flags 4 space.root s.bytes
        (X.updateFlags space.root page flags s.bytes).1
        (X.updateFlags space.root page flags s.bytes).2 := X.updateFlags_spec
    have hcases := hx.leaf hp H.tree hroot
    split at h
    case h_1 bytes he =>
      obtain ⟨rfl, rfl⟩ := Prod.mk.inj h
      rw [he] at hcases
      rcases hcases with ⟨g, -, hg, hu, hm⟩ | ⟨hr, -⟩
      swap
      · exact absurd rfl hr
      simp only at hm
      subst hm
      have hslot : Slot place g 0 (page / 512) (page % 512) :=
        ⟨hg, Nat.mod_lt _ (by decide), by simp⟩
      have hT : TableTree (setEntry s.bytes g (page % 512)
          ⟨(entry s.bytes g (page % 512)).frame, flags⟩) space.root place w :=
        H.tree.reflag hslot hu (by rw [entry_setEntry_same])
          (fun g j _ hc => ⟨entry_setEntry_ne hc, isUnused_setEntry_ne hc⟩)
          (fun hz => absurd rfl hz)
      refine ⟨⟨hT, H.fresh, H.nodup⟩, rfl, ?_, ?_, ?_⟩
      · intro f hf
        apply setEntry_frame_ne
        rintro rfl
        exact hf _ hg
      · intro _
        refine ⟨hn, (entry s.bytes g (page % 512)).frame, (entry s.bytes g (page % 512)).flags,
          (H.tree.walk_root hp).mpr ⟨g, hg, hu, rfl⟩, fun hflags => ?_⟩
        refine (hT.walk_root hp).mpr ⟨g, hg, ?_, by rw [entry_setEntry_same]⟩
        apply used_of_flags
        rw [entry_setEntry_same]
        exact hflags
      · intro q hq hne
        have hqp : q ≠ page := fun he => hne he rfl
        apply Option.ext
        intro e
        rw [AddressSpace.leaf, AddressSpace.leaf, hT.walk_root hq, H.tree.walk_root hq]
        have hcell : ∀ f, place f = some (1, q / 512) → f ≠ g ∨ q % 512 ≠ page % 512 := by
          intro f hf
          by_contra hc
          simp only [ne_eq, not_or, not_not] at hc
          obtain ⟨rfl, hmod⟩ := hc
          rw [hg] at hf
          simp only [Option.some.injEq, Prod.mk.injEq, true_and] at hf
          omega
        constructor
        · rintro ⟨f, hf, hu', rfl⟩
          exact ⟨f, hf, fun hz => hu' ((isUnused_setEntry_ne (hcell f hf)).mpr hz),
            entry_setEntry_ne (hcell f hf)⟩
        · rintro ⟨f, hf, hu', rfl⟩
          exact ⟨f, hf, fun hz => hu' ((isUnused_setEntry_ne (hcell f hf)).mp hz),
            (entry_setEntry_ne (hcell f hf)).symm⟩
    case h_2 err bytes he =>
      obtain ⟨rfl, rfl⟩ := Prod.mk.inj h
      rw [he] at hcases
      rcases hcases with ⟨g, hr, -⟩ | ⟨-, hm, -⟩
      · cases hr
      · simp only at hm
        subst hm
        exact ⟨H, rfl, fun _ _ => rfl, by simp, fun _ _ _ => rfl⟩

/-- Where the walk of `translate` ends, from a table of the tree. -/
theorem translateFrom_eq {l : ℕ} {t : Frame} {root : Frame} (T : TableTree m root place w)
    (hp : page < 2 ^ 35) (ht : place t = some (l + 1, page / 512 ^ (l + 1))) :
    AddressSpace.translateFrom m (l + 1) t page =
      (walk m (l + 1) t page).bind fun e =>
        if e.flags.contains .present then some e.frame else none := by
  induction l generalizing t with
  | zero =>
    by_cases hu : isUnused m t (index 1 page)
    · have hpr : (entry m t (index 1 page)).flags.contains .present = false := by
        rw [← Bool.not_eq_true]
        exact fun h => used_of_present h hu
      simp [AddressSpace.translateFrom, walk, hu, hpr]
    · by_cases hpr : (entry m t (index 1 page)).flags.contains .present = true
      · simp [AddressSpace.translateFrom, walk, hu, hpr]
      · simp [AddressSpace.translateFrom, walk, hu, hpr]
  | succ l ih =>
    by_cases hu : isUnused m t (index (l + 2) page)
    · have hpr : (entry m t (index (l + 2) page)).flags.contains .present = false := by
        rw [← Bool.not_eq_true]
        exact fun h => used_of_present h hu
      rw [AddressSpace.translateFrom, if_pos hpr, walk, if_pos hu]
      rfl
    · have hg := T.parent (TableTree.slot_of_page hp ht) hu
      have hpr : ¬ (entry m t (index (l + 2) page)).flags.contains .present = false := by
        simp [hg.present]
      have hh : ¬ (l + 1 ≠ 0 ∧ (entry m t (index (l + 2) page)).flags.contains .hugePage = true) := by
        simp [hg.huge]
      rw [AddressSpace.translateFrom, if_neg hpr, if_neg hh, walk, if_neg hu]
      exact ih (T.child_of_page hp ht hu)

theorem translate_eq (T : TableTree m space.root place w) (ha : addr < 2 ^ 47) :
    space.translate m addr = (space.leaf m (addr / 4096)).bind fun e =>
      if e.flags.contains .present then some e.frame else none := by
  have hp : addr / 4096 < 2 ^ 35 := by omega
  have hc : isCanonical addr = true := decide_eq_true (Or.inl ha)
  rw [AddressSpace.translate, if_pos hc, AddressSpace.leaf]
  apply translateFrom_eq T hp
  rw [T.atRoot, Nat.div_eq_of_lt (lt_trans hp (by norm_num))]

/-- The frame behind an address of the lower half stands under the number of its page. -/
theorem place_of_translate (T : TableTree m space.root place w) (ha : addr < 2 ^ 47)
    (h : space.translate m addr = some f) : place f = some (0, addr / 4096) := by
  have hp : addr / 4096 < 2 ^ 35 := by omega
  rw [translate_eq T ha, Option.bind_eq_some_iff] at h
  obtain ⟨e, he, hf⟩ := h
  obtain ⟨g, hg, hu, rfl⟩ := (T.walk_root hp).mp he
  have hchild := T.child ⟨hg, Nat.mod_lt _ (by decide), by simp⟩ hu
  rw [Nat.div_add_mod] at hchild
  split at hf
  · rw [← Option.some.inj hf, hchild]
  · cases hf

end AddressSpaces
