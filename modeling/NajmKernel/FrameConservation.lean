import NajmKernel.BootStates

/-! Where the frames go: a frame taken for a space is owned once or back in the pool, in every run
in which no `map_page` fails after it has taken the page's own frame. -/
namespace FrameConservation

open PhysicalMemory PageTables PhysicalFrames AddressSpaces TransitionSystem SpaceRuns

structure Conserved (s : State) : Prop where
  once : ∀ f ∈ s.taken,
    f ∈ s.system.frames.free ∧ (∀ a space, s.spaces a = some space → f ∉ space.frames) ∨
    f ∉ s.system.frames.free ∧ ∃ a space, s.spaces a = some space ∧ space.frames.count f = 1 ∧
      ∀ b other, s.spaces b = some other → f ∈ other.frames → b = a
  emptied : (∀ a, s.spaces a = none) → ∀ f ∈ s.taken, f ∈ s.system.frames.free

/-- A `map_page` that takes a frame is given a page without an entry, and frames for the page and
for all the tables that it misses. -/
def allowed (s : State) : Event → Prop
  | .mapPage id page flags => ∀ space, s.spaces id = some space →
      refused page flags ∨ s.system.frames.upcoming = [] ∨ space.mappable page flags s.system
  | _ => True

structure Accounted (s : State) : Prop where
  covered : ∀ f ∈ s.taken, f ∈ s.system.frames.free ∨
    ∃ a space, s.spaces a = some space ∧ f ∈ space.frames
  nodup : ∀ {a space}, s.spaces a = some space → space.frames.Nodup

variable {X : Mapper} {kernelRoot : Frame} {level : Frame → Option ℕ} {data : Frame → Prop}
  {s₀ s s' : State} {place : ℕ → Placement} {a b id page : ℕ} {f : Frame} {flags : PageTableFlags}
  {space : AddressSpace} {e : Event} {es : List Event}

/-- In an isolated state a frame of a space is in no other space and not in the pool. -/
theorem conserved_of_accounted (I : Isolated kernelRoot level data s₀ s place)
    (h : Accounted s) : Conserved s where
  once f hf := by
    have hfree : ∀ a space, s.spaces a = some space → f ∈ space.frames →
        f ∉ s.system.frames.free := by
      intro a space hs hm hfree
      exact I.frames_placed hs hm (I.fresh (List.mem_append_left _ hfree))
    rcases h.covered f hf with hfr | ⟨a, space, hs, hm⟩
    · exact Or.inl ⟨hfr, fun a space hs hm => hfree a space hs hm hfr⟩
    · refine Or.inr ⟨hfree a space hs hm, a, space, hs,
        List.count_eq_one_of_mem (h.nodup hs) hm, ?_⟩
      intro b other hb hmb
      by_contra hne
      exact I.frames_placed hs hm (I.disjoint hne (I.frames_placed hb hmb))
  emptied hn f hf := by
    rcases h.covered f hf with hfr | ⟨a, space, hs, -⟩
    · exact hfr
    · rw [hn a] at hs
      cases hs

theorem gone_eq {x y : FrameAllocator} {l : List Frame} (h : x.upcoming = l ++ y.upcoming) :
    gone x y = l := by
  simp [gone, h]

/-- What the pool had and has no more went to the one who took from it. -/
theorem mem_free_of_supply {x y : FrameAllocator} {l : List Frame} (hn : x.upcoming.Nodup)
    (hs : x.upcoming = l ++ y.upcoming)
    (hu : ∀ f ∈ unvisited y.boot.regions y.boot.nextAddr,
      f ∈ unvisited x.boot.regions x.boot.nextAddr) (hf : f ∈ x.free) : f ∈ l ∨ f ∈ y.free := by
  have hup : f ∈ l ++ y.upcoming := hs ▸ List.mem_append_left _ hf
  rcases List.mem_append.mp hup with hl | hy
  · exact Or.inl hl
  · refine Or.inr (mem_free_of_upcoming hy fun hv => ?_)
    exact (List.disjoint_of_nodup_append hn) hf (hu f hv)

/-- One space takes frames from the allocator and owns them all. -/
theorem Accounted.take (h : Accounted s) (I : Isolated kernelRoot level data s₀ s place)
    {system : System} {taken : List Frame} {new : Option AddressSpace} {l : List Frame}
    (hs : s.system.frames.upcoming = l ++ system.frames.upcoming)
    (hu : ∀ f ∈ unvisited system.frames.boot.regions system.frames.boot.nextAddr,
      f ∈ unvisited s.system.frames.boot.regions s.system.frames.boot.nextAddr)
    (htaken : ∀ f ∈ taken, f ∈ s.taken ∨ f ∈ l)
    (hold : ∀ space, s.spaces id = some space → ∃ space', new = some space' ∧
      ∀ f ∈ space.frames, f ∈ space'.frames)
    (hnew : ∀ f ∈ l, ∃ space', new = some space' ∧ f ∈ space'.frames)
    (hnodup : ∀ space', new = some space' → space'.frames.Nodup) :
    Accounted ⟨system, Function.update s.spaces id new, taken⟩ where
  covered f hf := by
    have hmine : f ∈ l → ∃ a space, Function.update s.spaces id new a = some space ∧
        f ∈ space.frames := by
      intro hl
      obtain ⟨space', hn, hm⟩ := hnew f hl
      exact ⟨id, space', by rw [Function.update_self, hn], hm⟩
    rcases htaken f hf with ht | hl
    · rcases h.covered f ht with hfree | ⟨a, space, ha, hm⟩
      · rcases mem_free_of_supply I.nodup hs hu hfree with hl | hfree
        · exact Or.inr (hmine hl)
        · exact Or.inl hfree
      · right
        by_cases hid : a = id
        · subst hid
          obtain ⟨space', hn, hsub⟩ := hold space ha
          exact ⟨a, space', by simp only [Function.update_self, hn], hsub f hm⟩
        · exact ⟨a, space, by simp only [Function.update_of_ne hid, ha], hm⟩
    · exact Or.inr (hmine hl)
  nodup {a space} ha := by
    by_cases hid : a = id
    · subst hid
      simp only [Function.update_self] at ha
      exact hnodup space ha
    · simp only [Function.update_of_ne hid] at ha
      exact h.nodup ha

theorem Accounted.create (h : Accounted s) (I : Isolated kernelRoot level data s₀ s place)
    {current : Option ℕ} (hn : s.create kernelRoot id current = some s') : Accounted s' := by
  unfold State.create at hn
  split at hn
  case isTrue => cases hn
  case isFalse hid =>
    rw [Option.not_isSome_iff_eq_none] at hid
    obtain ⟨cr3, -, hn⟩ := Option.bind_eq_some_iff.mp hn
    obtain ⟨⟨made, system⟩, hnew, rfl⟩ := Option.map_eq_some_iff.mp hn
    unfold AddressSpace.new at hnew
    rcases ha : s.system.frames.allocateFrame with ⟨_ | root, frames⟩ <;>
      simp only [ha] at hnew
    · obtain ⟨h1, h2⟩ := allocate_none ha
      simp only [Option.some.injEq, Prod.mk.injEq] at hnew
      obtain ⟨rfl, rfl⟩ := hnew
      have hs : s.system.frames.upcoming = [] ++ frames.upcoming := by simp [h1, h2]
      refine h.take I hs (unvisited_allocate ha) ?_ (by simp [hid]) (by simp) (by simp)
      rw [gone_eq hs, List.append_nil]
      exact fun f hf => Or.inl hf
    · split at hnew
      case isFalse => cases hnew
      case isTrue =>
        simp only [Option.some.injEq, Prod.mk.injEq] at hnew
        obtain ⟨rfl, rfl⟩ := hnew
        have hs : s.system.frames.upcoming = [root] ++ frames.upcoming := allocate_some ha
        refine h.take I hs (unvisited_allocate ha) ?_ (by simp [hid]) ?_ ?_
        · rw [gone_eq hs]
          exact fun f hf => List.mem_append.mp hf
        · intro f hf
          exact ⟨_, rfl, by simpa [AddressSpace.frames] using hf⟩
        · rintro space' hsp
          obtain rfl := Option.some.inj hsp
          simp [AddressSpace.frames]

theorem Accounted.map (h : Accounted s) (I : Isolated kernelRoot level data s₀ s place)
    (ha : allowed s (.mapPage id page flags)) (hn : s.map X id page flags = some s') :
    Accounted s' := by
  obtain ⟨space, hs, hn⟩ := Option.bind_eq_some_iff.mp hn
  obtain ⟨⟨r, space', system⟩, hmap, rfl⟩ := Option.map_eq_some_iff.mp hn
  obtain ⟨l, hsup, hcases⟩ := mapPage_frames hmap
  obtain ⟨mine, -, hE, -⟩ := mapPage_spec (I.holds hs) (by simp) hmap
  have howned : space'.ownedFrames = space.ownedFrames ++ l := by
    rcases hcases with ⟨-, ho⟩ | ⟨-, -, rfl, ho⟩ | ⟨href, hr, frame, taken, rfl, -⟩
    · exact ho
    · rw [ho, List.append_nil]
    · exfalso
      rcases ha space hs with h' | hempty | hm
      · exact href h'
      · rw [hempty] at hsup
        cases hsup
      · exact hr ((mapPage_ok_iff (I.holds hs) hmap).mpr hm)
  have hframes : ∀ f, f ∈ space'.frames ↔ f ∈ space.frames ∨ f ∈ l := by
    intro f
    simp only [AddressSpace.frames, howned, hE.root, List.mem_append]
    tauto
  have hfresh : ∀ f ∈ l, f ∉ space.frames := by
    intro f hf hm
    refine I.frames_placed hs hm (I.fresh ?_)
    rw [hsup]
    exact List.mem_append_left _ hf
  refine h.take I hsup (mapPage_unvisited hmap) ?_ ?_ ?_ ?_
  · rw [gone_eq hsup]
    exact fun f hf => List.mem_append.mp hf
  · rintro u hu
    obtain rfl := Option.some.inj (hs.symm.trans hu)
    exact ⟨space', rfl, fun f hf => (hframes f).mpr (Or.inl hf)⟩
  · exact fun f hf => ⟨space', rfl, (hframes f).mpr (Or.inr hf)⟩
  · rintro u hu
    obtain rfl := Option.some.inj hu
    have hperm : space'.frames.Perm (l ++ space.frames) := by
      rw [AddressSpace.frames, howned, hE.root, AddressSpace.frames, ← List.append_assoc]
      exact List.perm_append_comm.append_right _
    rw [hperm.nodup_iff]
    refine List.nodup_append.mpr ⟨?_, h.nodup hs, ?_⟩
    · exact (List.nodup_append.mp (hsup ▸ I.nodup)).1
    · rintro f hf _ hg rfl
      exact hfresh f hf hg

theorem Accounted.remove (h : Accounted s) (I : Isolated kernelRoot level data s₀ s place)
    (hn : s.remove id = some s') : Accounted s' := by
  obtain ⟨space, hs, rfl⟩ := Option.map_eq_some_iff.mp hn
  obtain ⟨-, -, hfree⟩ := releaseAll_spec I.nodup (I.not_unvisited hs)
  constructor
  · intro f hf
    rcases h.covered f hf with hfr | ⟨a, u, ha, hm⟩
    · exact Or.inl (hfree f (Or.inr hfr))
    · by_cases hid : a = id
      · subst hid
        obtain rfl := Option.some.inj (hs.symm.trans ha)
        exact Or.inl (hfree f (Or.inl hm))
      · exact Or.inr ⟨a, u, by simp only [Function.update_of_ne hid, ha], hm⟩
  · intro a u ha
    by_cases hid : a = id
    · subst hid
      simp at ha
    · simp only [Function.update_of_ne hid] at ha
      exact h.nodup ha

/-- An operation that neither takes nor gives back. -/
theorem Accounted.congr (h : Accounted s) (hsp : s'.spaces = s.spaces) (ht : s'.taken = s.taken)
    (hfr : s'.system.frames = s.system.frames) : Accounted s' where
  covered f hf := by
    rw [hfr, hsp]
    exact h.covered f (ht ▸ hf)
  nodup ha := h.nodup (hsp ▸ ha)

theorem Accounted.step (h : Accounted s) (I : Isolated kernelRoot level data s₀ s place)
    (ha : allowed s e) (hn : next X kernelRoot s e = some s') : Accounted s' := by
  cases e with
  | new id current => exact h.create I hn
  | mapPage id page flags => exact h.map I ha hn
  | protectPage id page flags =>
    obtain ⟨space, hs, rfl⟩ := Option.map_eq_some_iff.mp hn
    rcases hx : space.protectPage X page flags s.system with ⟨r, system⟩
    exact h.congr rfl rfl (protectPage_spec (I.holds hs) hx).2.1
  | writeAt id addr bytes =>
    obtain ⟨space, -, rfl⟩ := Option.map_eq_some_iff.mp hn
    exact h.congr rfl rfl rfl
  | zeroAt id addr len =>
    obtain ⟨space, -, rfl⟩ := Option.map_eq_some_iff.mp hn
    exact h.congr rfl rfl rfl
  | drop id => exact h.remove I hn

/-- A `map_page` that takes its page's frame and fails loses that frame. -/
theorem not_conserved_of_not_allowed (I : Isolated kernelRoot level data s₀ s place)
    (ha : ¬ allowed s e) (hn : next X kernelRoot s e = some s') : ¬ Conserved s' := by
  cases e with
  | mapPage id page flags =>
    simp only [allowed, not_forall, not_or] at ha
    obtain ⟨space, hs, href, hempty, hmappable⟩ := ha
    obtain ⟨u, hu, hn⟩ := Option.bind_eq_some_iff.mp hn
    obtain rfl := Option.some.inj (hs.symm.trans hu)
    obtain ⟨⟨r, space', system⟩, hmap, rfl⟩ := Option.map_eq_some_iff.mp hn
    have hr : r ≠ .ok () := fun hr => hmappable ((mapPage_ok_iff (I.holds hs) hmap).mp hr)
    obtain ⟨l, hsup, hcases⟩ := mapPage_frames hmap
    obtain ⟨mine, -, hE, -⟩ := mapPage_spec (I.holds hs) (by simp) hmap
    rcases hcases with ⟨hr', -⟩ | ⟨hno, -⟩ | ⟨-, -, frame, taken, rfl, howned⟩
    · exact absurd hr' hr
    · exact absurd hno (not_or.mpr ⟨href, hempty⟩)
    · intro hc
      have hup : frame ∈ s.system.frames.upcoming := by
        rw [hsup]
        exact List.mem_cons_self
      have hnd := hsup ▸ I.nodup
      rw [List.cons_append, List.nodup_cons, List.mem_append, not_or] at hnd
      obtain ⟨⟨htaken, hleft⟩, -⟩ := hnd
      have hunowned : ∀ a u, s.spaces a = some u → frame ∉ u.frames :=
        fun a u hu hm => I.frames_placed hu hm (I.fresh hup)
      have hin : frame ∈ s.taken ++ gone s.system.frames system.frames := by
        rw [gone_eq hsup]
        exact List.mem_append_right _ List.mem_cons_self
      rcases hc.once frame hin with ⟨hfree, -⟩ | ⟨-, a, u, hu, hcount, -⟩
      · exact hleft (List.mem_append_left _ hfree)
      · have hm : frame ∈ u.frames := List.count_pos_iff.mp (by omega)
        by_cases hid : a = id
        · subst hid
          simp only [Function.update_self, Option.some.injEq] at hu
          subst hu
          rw [AddressSpace.frames, howned, hE.root, List.append_assoc, List.mem_append,
            List.mem_append] at hm
          have hold := hunowned a space hs
          rw [AddressSpace.frames, List.mem_append, not_or] at hold
          rcases hm with hm | hm | hm
          · exact hold.1 hm
          · exact htaken hm
          · exact hold.2 hm
        · simp only [Function.update_of_ne hid] at hu
          exact hunowned a u hu hm
  | _ => exact absurd trivial ha

theorem Boots.accounted (h : Boots kernelRoot level data s₀) : Accounted s₀ where
  covered f hf := by simp [h.taken] at hf
  nodup ha := by simp [h.spaces] at ha

theorem frames_conserved_iff (hb : Boots kernelRoot level data s₀)
    (hrun : exec (next X kernelRoot) s₀ es = some s) :
    Always (next X kernelRoot) Conserved s₀ es ↔ Meets (next X kernelRoot) allowed s₀ es := by
  constructor
  · intro h
    refine h.meets_of_exec (I := fun s => ∃ place, Isolated kernelRoot level data s₀ s place)
      preserves_isolated ?_ ⟨_, hb.isolated⟩ hrun
    rintro s e u ⟨place, I⟩ hna hu
    exact not_conserved_of_not_allowed I hna hu
  · intro h
    have hstep : Preserves (next X kernelRoot) allowed fun s =>
        (∃ place, Isolated kernelRoot level data s₀ s place) ∧ Accounted s := by
      rintro s e u ⟨⟨place, I⟩, hA⟩ ha hu
      exact ⟨I.step hu, hA.step I ha hu⟩
    refine h.always hstep ?_ ⟨⟨_, hb.isolated⟩, Boots.accounted hb⟩
    rintro s ⟨⟨place, I⟩, hA⟩
    exact conserved_of_accounted I hA

section Example

/-- The same page mapped twice. -/
def mappedTwice : List Event :=
  [.new 0 none, .mapPage 0 0x400 ⟨7#12, 0#12⟩, .mapPage 0 0x400 ⟨7#12, 0#12⟩]

theorem mappedTwice_runs :
    ∃ s, exec (next Mapper.walker 1#40) bootState mappedTwice = some s := by
  apply Option.isSome_iff_exists.mp
  decide +kernel

theorem frames_conserved_iff_mappedTwice : ∃ s,
    exec (next Mapper.walker 1#40) bootState mappedTwice = some s ∧
      (Always (next Mapper.walker 1#40) Conserved bootState mappedTwice ↔
        Meets (next Mapper.walker 1#40) allowed bootState mappedTwice) := by
  obtain ⟨s, hs⟩ := mappedTwice_runs
  exact ⟨s, hs, frames_conserved_iff bootState_boots hs⟩

theorem mappedTwice_not_conserved : Boots 1#40 bootLevel (fun _ => False) bootState ∧
    ∃ s, exec (next Mapper.walker 1#40) bootState mappedTwice = some s ∧ ¬ Conserved s := by
  refine ⟨bootState_boots, ?_⟩
  obtain ⟨s, hs⟩ := mappedTwice_runs
  refine ⟨s, hs, ?_⟩
  have hsplit : mappedTwice = [Event.new 0 none, .mapPage 0 0x400 ⟨7#12, 0#12⟩] ++
      [.mapPage 0 0x400 ⟨7#12, 0#12⟩] := rfl
  obtain ⟨u, hu, hlast⟩ := exec_snoc.mp (hsplit ▸ hs)
  obtain ⟨place, I⟩ := bootState_boots.run hu
  refine not_conserved_of_not_allowed I ?_ hlast
  have hleaf : (exec (next Mapper.walker 1#40) bootState
      [.new 0 none, .mapPage 0 0x400 ⟨7#12, 0#12⟩]).map (fun s =>
        ((s.spaces 0).map fun space => (space.leaf s.system.bytes 0x400).isSome,
          s.system.frames.upcoming.isEmpty)) = some (some true, false) := by decide +kernel
  rw [hu, Option.map_some, Option.some.injEq, Prod.mk.injEq] at hleaf
  obtain ⟨space, hspace, hleaf'⟩ := Option.map_eq_some_iff.mp hleaf.1
  intro ha
  rcases ha space hspace with href | hempty | hm
  · exact absurd href (by unfold refused; decide)
  · simp [hempty] at hleaf
  · simp [hm.2.2.1] at hleaf'

end Example

end FrameConservation
