import NajmKernel.SpaceBuilding

/-! Where the steps of a loader cannot fail: frames enough, pages that are free or mapped as the
step needs them. And where no step panics. -/
namespace SpaceBuilding

open PhysicalMemory PageTables PhysicalFrames AddressSpaces Attempts Attempt

variable {ε : Type} {mapping : MapError → ε} {X : Mapper} {b b' : Building} {page addr len : ℕ}
  {flags : PageTableFlags} {bytes : List UInt8} {space : AddressSpace} {s : System}

/-- How many frames the allocator still has. -/
def Building.frames (b : Building) : ℕ := b.system.frames.upcoming.length

/-- Flags with which a loader maps a page that it then fills. -/
structure Fillable (flags : PageTableFlags) : Prop where
  present : flags.contains .present = true
  small : flags.contains .hugePage = false
  writable : flags.contains .writable = true
  userAccessible : flags.contains .userAccessible = true

theorem loadFlags_fillable : Fillable loadFlags := by
  constructor <;> decide

theorem stackFlags_fillable (nx : Bool) : Fillable (stackFlags nx) := by
  cases nx <;> constructor <;> decide

theorem mapPage_isSome (hflags : Fillable flags) :
    (space.mapPage X page flags s).isSome = true := by
  unfold AddressSpace.mapPage
  simp only
  split
  case isTrue => rfl
  case isFalse =>
    split
    case isTrue => rfl
    case isFalse =>
      rcases s.frames.allocateFrame with ⟨_ | frame, frames⟩
      · rfl
      · have hsome : (X.mapTo TrackingAllocator.allocateFrame space.root page frame flags s.bytes
            ⟨frames, []⟩).isSome = true :=
          X.mapTo_returns hflags.present hflags.small
        obtain ⟨⟨r, m, t⟩, hx⟩ := Option.isSome_iff_exists.mp hsome
        simp only [hx]
        cases r <;> rfl

theorem run_mapPage_ne_none (hflags : Fillable flags) :
    (mapPage mapping X page flags).run b ≠ none := by
  rw [mapPage, run_of, Option.map_eq_none_iff.ne, ← Option.isSome_iff_ne_none]
  exact mapPage_isSome hflags

theorem run_protectPage_ne_none : (protectPage mapping X page flags).run b ≠ none := by
  simp [protectPage]

theorem run_zeroAt_ne_none (h : addr + len ≤ 2 ^ 64) : (zeroAt mapping addr len).run b ≠ none := by
  rw [zeroAt, run_demand_bind, if_pos h, run_of]
  simp

theorem run_writeAt_ne_none (h : addr + bytes.length ≤ 2 ^ 64) :
    (writeAt mapping addr bytes).run b ≠ none := by
  rw [writeAt, run_demand_bind, if_pos h, run_of]
  simp

theorem mapStack_ne_none {nx : Bool} : (mapStack mapping X nx).run b ≠ none := by
  rw [mapStack]
  intro h
  rcases run_bind_none.mp h with h | ⟨_, u, -, h⟩
  · obtain ⟨before, i, after, _, c, hl, -, h⟩ := run_foldlM_none.mp h
    have hi : i < 16 := List.mem_range.mp (by
      rw [show List.range 16 = before ++ i :: after from hl]
      simp)
    have hc : isCanonical (stackBottom + i * 4096) = true := by
      apply decide_eq_true
      left
      rw [stackBottom]
      omega
    rw [virtAddr, run_demand_bind, if_pos hc] at h
    exact run_mapPage_ne_none (stackFlags_fillable nx) h
  · exact run_zeroAt_ne_none (by decide) h

/-- The tables that a page still lacks. -/
def Building.missing (b : Building) (page : ℕ) : ℕ :=
  PageTables.missing b.system.bytes 4 b.space.root page

variable (mapping X) in
/-- A frame for the page and one for each table that it lacks are enough. -/
theorem mapPage_returns (hb : Sound b) (hflags : Fillable flags)
    (huser : isUserAddress (4096 * page) = true) (hfree : b.flagsAt page = none)
    (hframes : b.missing page + 1 ≤ b.frames) :
    ∃ b', (mapPage mapping X page flags).run b = some (.ok (), b') ∧
      b.frames ≤ b'.frames + (b.missing page + 1) := by
  obtain ⟨place, hH⟩ := hb.holds
  have hsome : (b.space.mapPage X page flags b.system).isSome = true := mapPage_isSome hflags
  obtain ⟨⟨r, space, system⟩, hrun⟩ := Option.isSome_iff_exists.mp hsome
  have hlt := page_lt huser
  have hleaf : b.space.leaf b.system.bytes page = none := by
    rw [flagsAt_of_lt hlt, Option.map_eq_none_iff] at hfree
    exact hfree
  have hroot : place b.space.root = some (4, page / 512 ^ 4) := by
    rw [hH.tree.atRoot, Nat.div_eq_of_lt (lt_trans hlt (by norm_num))]
  obtain rfl := (mapPage_ok_iff hH hrun).mpr ⟨huser, hflags.userAccessible, hleaf, hframes⟩
  refine ⟨⟨space, system⟩, run_mapPage_ok.mpr hrun, ?_⟩
  rcases mapPage_cases hrun with ⟨-, hr, -⟩ | ⟨-, -, -, hr, -⟩ |
    ⟨frame, frames, tracker, r', -, -, ha, hmap, hleft, -, -⟩
  · exact absurd rfl hr
  · exact absurd rfl hr
  · have htakes := hmap.takes_missing tracking_supplies hlt hH.tree hroot
    simp only at htakes hleft
    rw [Building.frames, Building.frames, Building.missing, allocate_some ha, List.length_cons,
      hleft]
    omega

/-- A page lacks at most the three tables below the root. -/
theorem Building.missing_le (b : Building) (page : ℕ) : b.missing page ≤ 3 :=
  PageTables.missing_le

/-- A page lacks none where another of its table is mapped. -/
theorem Building.missing_of_mapped {page' : ℕ} (hm : b.flagsAt page ≠ none)
    (hsame : page' / 512 = page / 512) : b.missing page' = 0 := by
  refine missing_of_walk ?_ hsame
  intro hnone
  apply hm
  rw [Building.flagsAt]
  split
  · change Option.map Entry.flags (walk b.system.bytes 4 b.space.root page) = none
    rw [hnone, Option.map_none]
  · rfl

variable (mapping X flags) in
theorem protectPage_returns (hb : Sound b) (huser : isUserAddress (4096 * page) = true)
    (hmapped : (b.flagsAt page).isSome = true) :
    ∃ b', (protectPage mapping X page flags).run b = some (.ok (), b') ∧ b'.frames = b.frames := by
  obtain ⟨place, hH⟩ := hb.holds
  have hlt := page_lt huser
  rcases hx : b.space.protectPage X page flags b.system with ⟨r, system⟩
  obtain ⟨-, hframes, -⟩ := protectPage_spec hH hx
  obtain rfl : r = .ok () := by
    rw [flagsAt_of_lt hlt, Option.isSome_map] at hmapped
    obtain ⟨e, he⟩ := Option.isSome_iff_exists.mp hmapped
    obtain ⟨g, hg, hu, -⟩ := (hH.tree.walk_root hlt).mp he
    have hroot : place b.space.root = some (4, page / 512 ^ 4) := by
      rw [hH.tree.atRoot, Nat.div_eq_of_lt (lt_trans hlt (by norm_num))]
    have hspec : UpdateFlags page flags 4 b.space.root b.system.bytes
        (X.updateFlags b.space.root page flags b.system.bytes).1
        (X.updateFlags b.space.root page flags b.system.bytes).2 := X.updateFlags_spec
    unfold AddressSpace.protectPage at hx
    simp only [huser, Bool.true_eq_false, if_false] at hx
    rcases hspec.leaf hlt hH.tree hroot with ⟨-, hok, -⟩ | ⟨-, -, hnone⟩
    · rcases hy : X.updateFlags b.space.root page flags b.system.bytes with ⟨r', m⟩
      rw [hy] at hok hx
      simp only at hok
      subst hok
      exact (Prod.mk.inj hx).1.symm
    · exact absurd (hnone g hg) hu
  exact ⟨⟨b.space, system⟩, run_protectPage_ok.mpr ⟨hx, rfl⟩, by
    rw [Building.frames, Building.frames, hframes]⟩

/-- A transfer to mapped pages goes through. -/
theorem transfer_ok {m : Memory} {place : Placement} {w : Bool} {content : ℕ → ℕ → List UInt8}
    {data : ℕ → UInt8} (T : TableTree m space.root place w) (hrange : addr + len ≤ 2 ^ 47)
    (hprov : Provides len content data)
    (hmapped : ∀ a, addr ≤ a → a < addr + len → space.translate m a ≠ none) :
    (space.transfer addr len content len 0 m).1 = .ok () := by
  obtain ⟨stop, -, -, -, ⟨hok, -⟩ | ⟨-, hlt, hnone⟩⟩ :=
    (steady_of_tree T hrange).transfer hprov (Nat.zero_le _) le_rfl
  · exact hok
  · exact absurd hnone (hmapped _ (Nat.le_add_right _ _) (by omega))

theorem translate_ne_none (hb : Sound b) (ha : addr < 2 ^ 47)
    (hm : (b.flagsAt (addr / 4096)).isSome = true) :
    b.space.translate b.system.bytes addr ≠ none := by
  have hp : addr / 4096 < 2 ^ 35 := by omega
  rw [hb.translate ha]
  rw [flagsAt_of_lt hp, Option.isSome_map] at hm
  rw [ne_eq, Option.map_eq_none_iff]
  exact Option.isSome_iff_ne_none.mp hm

/-- The frames for some pages side by side, the first at this place in its table. -/
def rangeFrames (place n : ℕ) : ℕ := if n = 0 then 0 else n + 3 * ((place + n + 511) / 512)

theorem rangeFrames_succ (place n : ℕ) (hplace : place < 512) :
    rangeFrames place n + 1 ≤ rangeFrames place (n + 1) ∧
      ((place + n) % 512 = 0 ∨ n = 0 → rangeFrames place n + 4 ≤ rangeFrames place (n + 1)) := by
  simp only [rangeFrames, if_neg (Nat.succ_ne_zero n)]
  split
  · omega
  · omega

theorem rangeFrames_mono (place : ℕ) {n m : ℕ} (h : n ≤ m) :
    rangeFrames place n ≤ rangeFrames place m := by
  simp only [rangeFrames]
  split
  · exact Nat.zero_le _
  · rw [if_neg (by omega)]
    omega

section Returns

variable (hb : Sound b)
include hb

variable (mapping addr len) in
theorem zeroAt_returns (hrange : addr + len ≤ 2 ^ 47)
    (hmapped : ∀ a, addr ≤ a → a < addr + len → (b.flagsAt (a / 4096)).isSome = true) :
    ∃ b', (zeroAt mapping addr len).run b = some (.ok (), b') ∧ b'.frames = b.frames := by
  obtain ⟨place, hH⟩ := hb.holds
  have hok : (b.space.zeroAt addr len b.system.bytes).1 = .ok () :=
    transfer_ok hH.tree hrange (provides_zero len) fun a h1 h2 =>
      translate_ne_none hb (by omega) (hmapped a h1 h2)
  rw [zeroAt, run_demand_bind, if_pos (by omega), run_of]
  refine ⟨⟨b.space, { b.system with bytes := (b.space.zeroAt addr len b.system.bytes).2 }⟩, ?_, rfl⟩
  simp only [hok]
  rfl

variable (mapping addr bytes) in
theorem writeAt_returns (hrange : addr + bytes.length ≤ 2 ^ 47)
    (hmapped : ∀ a, addr ≤ a → a < addr + bytes.length → (b.flagsAt (a / 4096)).isSome = true) :
    ∃ b', (writeAt mapping addr bytes).run b = some (.ok (), b') ∧ b'.frames = b.frames := by
  obtain ⟨place, hH⟩ := hb.holds
  have hok : (b.space.writeAt addr bytes b.system.bytes).1 = .ok () :=
    transfer_ok hH.tree hrange (provides_write bytes) fun a h1 h2 =>
      translate_ne_none hb (by omega) (hmapped a h1 h2)
  rw [writeAt, run_demand_bind, if_pos (by omega), run_of]
  refine ⟨⟨b.space, { b.system with bytes := (b.space.writeAt addr bytes b.system.bytes).2 }⟩, ?_,
    rfl⟩
  simp only [hok]
  rfl

variable (mapping X) in
/-- Pages side by side go through with a frame for each and three for each table they come to. -/
theorem mappedRange_returns (start n : ℕ) (hflags : Fillable flags)
    (hstart : start % 4096 = 0) (hend : start + n * 4096 ≤ userSpaceEnd)
    (hfree : ∀ i < n, b.flagsAt ((start + i * 4096) / 4096) = none)
    (hframes : rangeFrames (start / 4096 % 512) n ≤ b.frames) :
    ∃ b', ((List.range n).foldlM (fun _ i => do
        virtAddr (start + i * 4096)
        mapPage mapping X ((start + i * 4096) / 4096) flags) ()).run b = some (.ok (), b') ∧
      Sound b' ∧ MappedAll b b' ((List.range n).map fun i => (start + i * 4096) / 4096) flags ∧
      b.frames ≤ b'.frames + rangeFrames (start / 4096 % 512) n := by
  obtain ⟨_, b', hloop, hs, hall, hleft⟩ := run_foldlM_returns (l := List.range n)
    (g := fun _ i => do
      virtAddr (start + i * 4096)
      mapPage mapping X ((start + i * 4096) / 4096) flags)
    (I := fun done _ c => Sound c ∧ MappedAll b c
      (done.map fun i => (start + i * 4096) / 4096) flags ∧
      b.frames ≤ c.frames + rangeFrames (start / 4096 % 512) done.length)
    (d := []) (b := ()) (s := b) (by
    rintro before i after _ c hl ⟨hc, hall, hleft⟩
    rw [List.nil_append] at hall hleft
    obtain ⟨hdone, hi⟩ := range_split hl
    have hlength : before.length = i := by rw [hdone, List.length_range]
    rw [userSpaceEnd] at hend
    have hcan : isCanonical (start + i * 4096) = true := decide_eq_true (Or.inl (by omega))
    have huser : isUserAddress (4096 * ((start + i * 4096) / 4096)) = true := by
      apply decide_eq_true
      rw [userSpaceEnd]
      omega
    have hnew : c.flagsAt ((start + i * 4096) / 4096) = none := by
      rw [hall.flagsAt, if_neg, hfree i hi]
      rw [hdone]
      intro hin
      obtain ⟨k, hk, he⟩ := List.mem_map.mp hin
      have hk := List.mem_range.mp hk
      omega
    have hplace : start / 4096 % 512 < 512 := Nat.mod_lt _ (by decide)
    obtain ⟨hone, hfour⟩ := rangeFrames_succ (start / 4096 % 512) i hplace
    have hmono : rangeFrames (start / 4096 % 512) (i + 1) ≤ rangeFrames (start / 4096 % 512) n :=
      rangeFrames_mono _ hi
    have hthree := c.missing_le ((start + i * 4096) / 4096)
    -- past the first page of a table the one before has brought every table
    have hneeds : rangeFrames (start / 4096 % 512) i + (c.missing ((start + i * 4096) / 4096) + 1) ≤
        rangeFrames (start / 4096 % 512) (i + 1) := by
      by_cases hfirst : (start / 4096 % 512 + i) % 512 = 0 ∨ i = 0
      · have := hfour hfirst
        omega
      · have hbefore : c.flagsAt ((start + (i - 1) * 4096) / 4096) ≠ none := by
          rw [hall.flagsAt, if_pos]
          · exact Option.some_ne_none _
          · rw [hdone]
            exact List.mem_map.mpr ⟨i - 1, List.mem_range.mpr (by omega), rfl⟩
        have hzero := Building.missing_of_mapped hbefore
          (show (start + i * 4096) / 4096 / 512 = (start + (i - 1) * 4096) / 4096 / 512 by omega)
        omega
    rw [hlength] at hleft
    obtain ⟨c', hrun, hframes'⟩ := mapPage_returns mapping X hc hflags huser hnew (by omega)
    obtain ⟨hs', hm⟩ := mapped_of_ok hc hflags.writable hflags.present hrun
    refine ⟨(), c', ?_, hs', ?_, ?_⟩
    · rw [virtAddr, run_demand_bind, if_pos hcan, hrun]
    · rw [List.nil_append, List.map_append]
      exact hall.snoc hm
    · rw [List.nil_append, List.length_append, List.length_singleton, hlength]
      omega) ⟨hb, MappedAll.refl b _, by simp⟩
  rw [List.nil_append] at hall hleft
  rw [List.length_range] at hleft
  exact ⟨b', hloop, hs, hall, hleft⟩

variable (mapping X) in
/-- The stack goes through with a frame for each page and three for the tables, where its pages are
free. -/
theorem mapStack_returns (nx : Bool) (hfree : ∀ q ∈ stackRange, b.flagsAt q = none)
    (hframes : 19 ≤ b.frames) : ∃ b', (mapStack mapping X nx).run b = some (.ok (), b') := by
  obtain ⟨b₁, hloop, hs₁, hall, -⟩ := mappedRange_returns mapping X hb stackBottom
    stackPages (stackFlags_fillable nx) (by decide) (by decide)
    (fun i hi => hfree _ (List.mem_map.mpr ⟨i, List.mem_range.mpr hi, rfl⟩)) hframes
  obtain ⟨b', hzero, -⟩ := zeroAt_returns mapping stackBottom (stackPages * 4096) hs₁
    (by decide) (by
      intro a h1 h2
      rw [hall.flagsAt, if_pos]
      · rfl
      · have hmem : a / 4096 ∈ stackRange ↔ _ := mem_stackRange
        refine hmem.mpr ?_
        simp only [stackBottom, stackTop, stackPages] at h1 h2 ⊢
        omega)
  rw [mapStack]
  exact ⟨b', run_bind_ok.mpr ⟨_, b₁, hloop, hzero⟩⟩

end Returns

section Start

variable {cr3 : Frame} {e : ε}

theorem newSpace_ne_none (hk : 0 < AddressSpace.kernelEntries s.bytes cr3) :
    (newSpace cr3 e).run s ≠ none := by
  rw [newSpace, run_of, Option.map_eq_none_iff.ne]
  unfold AddressSpace.new
  rcases s.frames.allocateFrame with ⟨_ | root, frames⟩
  · simp
  · simp [hk]

variable (cr3 e) in
theorem newSpace_returns (hk : 0 < AddressSpace.kernelEntries s.bytes cr3)
    (hf : s.frames.upcoming ≠ []) : ∃ space s', (newSpace cr3 e).run s = some (.ok space, s') ∧
      s.frames.upcoming.length = s'.frames.upcoming.length + 1 := by
  rw [newSpace, run_of]
  unfold AddressSpace.new
  rcases ha : s.frames.allocateFrame with ⟨_ | root, frames⟩
  · exact absurd (allocate_none ha).1 hf
  · refine ⟨⟨root, []⟩, ⟨_, frames⟩, by simp only [if_pos hk]; rfl, ?_⟩
    rw [allocate_some ha, List.length_cons]

end Start

end SpaceBuilding
