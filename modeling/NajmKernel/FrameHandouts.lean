import NajmKernel.PhysicalFrames
import NajmKernel.TransitionSystem

/-! The frame allocator with its cursor over the boot memory map, over whole runs of allocations and
releases: its loops come to an end, and no frame is handed out that somebody still has. -/
namespace FrameHandouts

open PhysicalMemory PageTables PhysicalFrames TransitionSystem

/-- `region_index` and `next_addr`. -/
structure Cursor where
  regionIndex : ℕ
  nextAddr : ℕ
  deriving DecidableEq, Repr

/-- A boot memory map: its usable regions start at page boundaries, lie in the physical address
space, and have no address in common. -/
structure UsableMap (regions : List MemoryRegion) : Prop where
  aligned : ∀ region ∈ regions, region.kind = .usable → 4096 ∣ region.start
  bounded : ∀ region ∈ regions, region.kind = .usable →
    region.start ≤ 2 ^ 52 ∧ region.endAddr ≤ 2 ^ 52
  disjoint : regions.Pairwise fun r t => r.kind = .usable → t.kind = .usable →
    ∀ addr, ¬ ((r.start ≤ addr ∧ addr < r.endAddr) ∧ t.start ≤ addr ∧ addr < t.endAddr)

section Loops

variable (regions : List MemoryRegion)

/-- The `while` of `skip_to_usable_region`, for so many turns. -/
def Cursor.skipToUsableRegion : ℕ → Cursor → Option Cursor
  | 0, _ => none
  | turns + 1, c => match regions[c.regionIndex]? with
    | none => some c
    | some region =>
      if region.kind = .usable then some { c with nextAddr := region.start }
      else skipToUsableRegion turns { c with regionIndex := c.regionIndex + 1 }

/-- The `loop` of `allocate_frame`, for so many turns; a sum past 64 bits and a physical address
past 52 bits panic. -/
def Cursor.bump : ℕ → Cursor → Option (Option Frame × Cursor)
  | 0, _ => none
  | turns + 1, c => match regions[c.regionIndex]? with
    | none => some (none, c)
    | some region =>
      if region.kind = .usable ∧ 2 ^ 64 ≤ c.nextAddr + 4096 then none
      else if region.kind ≠ .usable ∨ c.nextAddr + 4096 > region.endAddr then
        (skipToUsableRegion regions turns { c with regionIndex := c.regionIndex + 1 }).bind
          (bump turns)
      else if 2 ^ 52 ≤ c.nextAddr then none
      else some (some (frameOf c.nextAddr), { c with nextAddr := c.nextAddr + 4096 })

/-- The allocator that the cursor stands for. -/
def Cursor.boot (c : Cursor) : BootInfoFrameAllocator := ⟨regions.drop c.regionIndex, c.nextAddr⟩

variable {regions} {rest : List MemoryRegion} {c : Cursor} {n next : ℕ}

open BootInfoFrameAllocator (enter)

theorem bump_skipToUsableRegion :
    BootInfoFrameAllocator.bump (BootInfoFrameAllocator.skipToUsableRegion rest next).regions
      (BootInfoFrameAllocator.skipToUsableRegion rest next).nextAddr =
    BootInfoFrameAllocator.bump rest (enter rest next) := by
  induction rest with
  | nil => rfl
  | cons region rest ih =>
    rw [BootInfoFrameAllocator.skipToUsableRegion, enter]
    by_cases hkind : region.kind = .usable
    · rw [if_pos hkind, if_pos hkind]
    · rw [if_neg hkind, if_neg hkind, ih, BootInfoFrameAllocator.bump,
        if_neg fun h => hkind h.1]

/-- With more turns than regions are left, the cursor stands at the next usable one. -/
theorem skip_spec (hm : UsableMap regions) (hn : regions.length ≤ c.regionIndex + n) :
    ∃ d, (∀ turns > n, Cursor.skipToUsableRegion regions turns c = some d) ∧
      d.boot regions = BootInfoFrameAllocator.skipToUsableRegion (regions.drop c.regionIndex)
        c.nextAddr ∧
      c.regionIndex ≤ d.regionIndex ∧ (c.nextAddr ≤ 2 ^ 52 → d.nextAddr ≤ 2 ^ 52) := by
  induction n generalizing c with
  | zero =>
    rw [Nat.add_zero] at hn
    refine ⟨c, fun turns hturns => ?_, ?_, le_rfl, id⟩
    · obtain ⟨turns, rfl⟩ := Nat.exists_eq_succ_of_ne_zero hturns.ne'
      rw [Cursor.skipToUsableRegion, List.getElem?_eq_none hn]
    · rw [Cursor.boot, List.drop_eq_nil_of_le hn]
      rfl
  | succ n ih =>
    by_cases hend : regions.length ≤ c.regionIndex
    · obtain ⟨d, hturns, hd⟩ := ih (c := c) (by omega)
      exact ⟨d, fun turns h => hturns turns (by omega), hd⟩
    have hlt := not_le.mp hend
    rw [List.drop_eq_getElem_cons hlt, BootInfoFrameAllocator.skipToUsableRegion]
    by_cases hkind : regions[c.regionIndex].kind = .usable
    · rw [if_pos hkind]
      refine ⟨{ c with nextAddr := regions[c.regionIndex].start }, fun turns hturns => ?_, ?_,
        le_rfl, fun _ => (hm.bounded _ (List.getElem_mem hlt) hkind).1⟩
      · obtain ⟨turns, rfl⟩ := Nat.exists_eq_succ_of_ne_zero (Nat.ne_zero_of_lt hturns)
        rw [Cursor.skipToUsableRegion, List.getElem?_eq_getElem hlt]
        exact if_pos hkind
      · rw [Cursor.boot, List.drop_eq_getElem_cons hlt]
    · rw [if_neg hkind]
      obtain ⟨d, hturns, hd, hindex, hnext⟩ :=
        ih (c := { c with regionIndex := c.regionIndex + 1 }) (by dsimp only; omega)
      refine ⟨d, fun turns h => ?_, hd, (Nat.le_succ _).trans hindex, hnext⟩
      obtain ⟨turns, rfl⟩ := Nat.exists_eq_succ_of_ne_zero (Nat.ne_zero_of_lt h)
      rw [Cursor.skipToUsableRegion, List.getElem?_eq_getElem hlt]
      exact (if_neg hkind).trans (hturns turns (by omega))

/-- The loop ends without a panic, and hands out what the regions from the cursor on have. -/
theorem bump_turns (hm : UsableMap regions) (hn : regions.length ≤ c.regionIndex + n)
    (hnext : c.nextAddr ≤ 2 ^ 52) :
    ∃ r d, (∀ turns > n, Cursor.bump regions turns c = some (r, d)) ∧
      (r, d.boot regions) = BootInfoFrameAllocator.bump (regions.drop c.regionIndex) c.nextAddr ∧
      d.nextAddr ≤ 2 ^ 52 := by
  induction n generalizing c with
  | zero =>
    rw [Nat.add_zero] at hn
    refine ⟨none, c, fun turns hturns => ?_, ?_, hnext⟩
    · obtain ⟨turns, rfl⟩ := Nat.exists_eq_succ_of_ne_zero hturns.ne'
      rw [Cursor.bump, List.getElem?_eq_none hn]
    · rw [Cursor.boot, List.drop_eq_nil_of_le hn]
      rfl
  | succ n ih =>
    by_cases hend : regions.length ≤ c.regionIndex
    · obtain ⟨r, d, hturns, hd⟩ := ih (c := c) (by omega) hnext
      exact ⟨r, d, fun turns h => hturns turns (by omega), hd⟩
    have hlt := not_le.mp hend
    have hfits : ¬ (regions[c.regionIndex].kind = .usable ∧ 2 ^ 64 ≤ c.nextAddr + 4096) := by
      omega
    rw [List.drop_eq_getElem_cons hlt, BootInfoFrameAllocator.bump]
    by_cases hroom : regions[c.regionIndex].kind = .usable ∧
        c.nextAddr + 4096 ≤ regions[c.regionIndex].endAddr
    · have hend := (hm.bounded _ (List.getElem_mem hlt) hroom.1).2
      have hstays : ¬ (regions[c.regionIndex].kind ≠ .usable ∨
          c.nextAddr + 4096 > regions[c.regionIndex].endAddr) := by
        rintro (hkind | hpast)
        · exact hkind hroom.1
        · omega
      rw [if_pos hroom]
      refine ⟨some (frameOf c.nextAddr), { c with nextAddr := c.nextAddr + 4096 },
        fun turns hturns => ?_, ?_, ?_⟩
      · obtain ⟨turns, rfl⟩ := Nat.exists_eq_succ_of_ne_zero (Nat.ne_zero_of_lt hturns)
        rw [Cursor.bump, List.getElem?_eq_getElem hlt]
        dsimp only
        rw [if_neg hfits, if_neg hstays, if_neg (by omega)]
      · rw [Cursor.boot, List.drop_eq_getElem_cons hlt]
      · dsimp only
        omega
    · have hleaves : regions[c.regionIndex].kind ≠ .usable ∨
          c.nextAddr + 4096 > regions[c.regionIndex].endAddr := by
        by_cases hkind : regions[c.regionIndex].kind = .usable
        · exact Or.inr (not_le.mp fun hle => hroom ⟨hkind, hle⟩)
        · exact Or.inl hkind
      rw [if_neg hroom]
      obtain ⟨b, hskip, hb, hindex, hnext'⟩ :=
        skip_spec (c := { c with regionIndex := c.regionIndex + 1 }) (n := n) hm
          (by dsimp only; omega)
      obtain ⟨r, d, hturns, hd, hdnext⟩ := ih (c := b) (by dsimp only at hindex; omega)
        (hnext' hnext)
      refine ⟨r, d, fun turns h => ?_, ?_, hdnext⟩
      · obtain ⟨turns, rfl⟩ := Nat.exists_eq_succ_of_ne_zero (Nat.ne_zero_of_lt h)
        rw [Cursor.bump, List.getElem?_eq_getElem hlt]
        dsimp only
        rw [if_neg hfits, if_pos hleaves, hskip turns (by omega)]
        exact hturns turns (by omega)
      · rw [hd, ← bump_skipToUsableRegion, ← hb]
        rfl

end Loops

section Runs

/-- The pool of released frames, and the cursor that is asked when it is empty. -/
structure CursorAllocator where
  free : List Frame
  released : ℕ
  cursor : Cursor
  deriving DecidableEq, Repr

namespace CursorAllocator

def abstract (regions : List MemoryRegion) (a : CursorAllocator) : FrameAllocator :=
  ⟨a.free, a.released, a.cursor.boot regions⟩

def allocateFrame (regions : List MemoryRegion) (turns : ℕ) (a : CursorAllocator) :
    Option (Option Frame × CursorAllocator) :=
  match a.free with
  | frame :: rest => some (some frame, { a with free := rest })
  | [] => (a.cursor.bump regions turns).map fun (r, cursor) => (r, { a with cursor := cursor })

def release (a : CursorAllocator) (frame : Frame) : CursorAllocator :=
  if frame ∈ a.free then a
  else { a with free := frame :: a.free, released := a.released + 1 }

end CursorAllocator

/-- `out` are the frames that somebody has, and `given` all that were ever handed out. -/
structure Handouts where
  allocator : CursorAllocator
  out : List Frame
  given : List Frame
  deriving DecidableEq, Repr

inductive Event where
  | allocate
  | release (frame : Frame)

/-- A frame is released by somebody who was given it and does not use it: by the one who has it, or
once more where nobody has it. -/
def next (regions : List MemoryRegion) (v : Handouts) : Event → Option Handouts
  | .allocate => (v.allocator.allocateFrame regions (regions.length + 1)).map fun (r, a) =>
    ⟨a, r.toList ++ v.out, r.toList ++ v.given⟩
  | .release frame =>
    if frame ∈ v.given then some ⟨v.allocator.release frame, v.out.erase frame, v.given⟩ else none

/-- The pages of a map's usable regions, in the order in which they are handed out. -/
def pages (regions : List MemoryRegion) : List Frame :=
  unvisited regions (BootInfoFrameAllocator.enter regions 0)

/-- Every page is with somebody, in the pool or still to come, once. -/
structure Shared (regions : List MemoryRegion) (v : Handouts) : Prop where
  inRange : v.allocator.cursor.nextAddr ≤ 2 ^ 52
  all : (v.out ++ (v.allocator.abstract regions).upcoming).Perm (pages regions)
  given : ∀ f ∈ v.given, f ∈ v.out ∨ f ∈ v.allocator.free
  kept : ∀ f ∈ v.out, f ∈ v.given

variable {regions : List MemoryRegion} {v u : Handouts} {a : CursorAllocator} {frame : Frame}
  {c : Cursor}

/-- The regions but the empty ones. -/
def occupied (regions : List MemoryRegion) : List MemoryRegion :=
  regions.filter fun r => r.start < r.endAddr

theorem unvisited_occupied (n : ℕ) :
    unvisited (occupied regions) (BootInfoFrameAllocator.enter (occupied regions) n) =
      unvisited regions (BootInfoFrameAllocator.enter regions n) := by
  induction regions generalizing n with
  | nil => rfl
  | cons r rest ih =>
    rw [occupied, List.filter_cons]
    by_cases hr : r.start < r.endAddr
    · rw [if_pos (decide_eq_true hr), unvisited, unvisited, ← occupied, ih]
      rfl
    · have hempty (hk : r.kind = .usable) :
          r.frames (BootInfoFrameAllocator.enter (r :: rest) n) = [] := by
        rw [BootInfoFrameAllocator.enter, if_pos hk]
        exact frames_eq_nil (by omega)
      rw [if_neg fun h => hr (of_decide_eq_true h), ← occupied, ih, unvisited]
      split
      case isTrue hk =>
        rw [hempty hk, List.nil_append]
        exact unvisited_enter _ _ _
      case isFalse =>
        rw [List.nil_append]
        exact unvisited_enter _ _ _

theorem UsableMap.occupied (hm : UsableMap regions) : MemoryMap (occupied regions) where
  aligned r hr := hm.aligned r (List.mem_of_mem_filter hr)
  bounded r hr hk := (hm.bounded r (List.mem_of_mem_filter hr) hk).2
  disjoint := by
    refine (List.pairwise_filter.mpr ?_)
    refine hm.disjoint.imp fun hdisjoint hr ht hrk htk => ?_
    have hr' := of_decide_eq_true hr
    have ht' := of_decide_eq_true ht
    by_contra hover
    rename_i r t
    rcases le_total r.start t.start with hle | hle
    · exact hdisjoint hrk htk t.start (by omega)
    · exact hdisjoint hrk htk r.start (by omega)

theorem pages_nodup (hm : UsableMap regions) : (pages regions).Nodup := by
  rw [pages, ← unvisited_occupied]
  refine unvisited_nodup hm.occupied fun region rest he hk => ?_
  rw [he, BootInfoFrameAllocator.enter, if_pos hk]
  exact ⟨le_rfl, hm.occupied.aligned region (he ▸ List.mem_cons_self) hk⟩

theorem mem_pages_of_page {region : MemoryRegion} {page : ℕ} {n : ℕ} (hr : region ∈ regions)
    (hk : region.kind = .usable) (ha : 4096 ∣ region.start) (hs : region.start ≤ 4096 * page)
    (he : 4096 * page + 4096 ≤ region.endAddr) :
    BitVec.ofNat 40 page ∈ unvisited regions (BootInfoFrameAllocator.enter regions n) := by
  induction regions generalizing n with
  | nil => nomatch hr
  | cons r rest ih =>
    rw [unvisited, List.mem_append]
    rcases List.mem_cons.mp hr with rfl | hr
    · left
      rw [BootInfoFrameAllocator.enter, if_pos hk, if_pos hk, MemoryRegion.frames, List.mem_map]
      obtain ⟨first, hfirst⟩ := ha
      refine ⟨page - first, List.mem_range.mpr (by omega), ?_⟩
      rw [frameOf]
      congr 1
      omega
    · exact Or.inr (ih hr)

theorem allocateFrame_turns (hm : UsableMap regions) (hr : a.cursor.nextAddr ≤ 2 ^ 52) :
    ∃ r b, (∀ turns > regions.length, a.allocateFrame regions turns = some (r, b)) ∧
      (r, b.abstract regions) = (a.abstract regions).allocateFrame ∧
      b.cursor.nextAddr ≤ 2 ^ 52 := by
  rcases a with ⟨_ | ⟨f, rest⟩, released, cursor⟩
  · obtain ⟨r, d, hturns, hd, hnext⟩ := bump_turns (c := cursor) (n := regions.length) hm
      (Nat.le_add_left _ _) hr
    refine ⟨r, ⟨[], released, d⟩, fun turns h => ?_, ?_, hnext⟩
    · rw [CursorAllocator.allocateFrame]
      dsimp only
      rw [hturns turns h]
      rfl
    · obtain ⟨hr, hboot⟩ := Prod.mk.inj hd
      rw [hr, CursorAllocator.abstract]
      dsimp only
      rw [hboot]
      rfl
  · exact ⟨some f, ⟨rest, released, cursor⟩, fun _ _ => rfl, rfl, hr⟩

theorem free_allocateFrame {a : FrameAllocator} {f : Frame} (h : f ∈ a.free) :
    a.allocateFrame.1 = some f ∨ f ∈ a.allocateFrame.2.free := by
  rcases a with ⟨_ | ⟨g, rest⟩, released, boot⟩
  · nomatch h
  · rcases List.mem_cons.mp h with rfl | h
    · exact Or.inl rfl
    · exact Or.inr h

/-- The next state after an allocation, by what the allocator behind the cursor does. -/
theorem next_allocate (hm : UsableMap regions) (hr : v.allocator.cursor.nextAddr ≤ 2 ^ 52) :
    ∃ r b, next regions v .allocate = some ⟨b, r.toList ++ v.out, r.toList ++ v.given⟩ ∧
      (r, b.abstract regions) = (v.allocator.abstract regions).allocateFrame ∧
      b.cursor.nextAddr ≤ 2 ^ 52 := by
  obtain ⟨r, b, hturns, hb⟩ := allocateFrame_turns hm hr
  refine ⟨r, b, ?_, hb⟩
  rw [next, hturns _ (Nat.lt_succ_self _)]
  rfl

theorem shared_allocate (hm : UsableMap regions) (h : Shared regions v)
    (hnext : next regions v .allocate = some u) : Shared regions u := by
  obtain ⟨r, b, hu, hb, hrange⟩ := next_allocate hm h.inRange
  obtain rfl := Option.some.inj (hu.symm.trans hnext)
  have hr : r = (v.allocator.abstract regions).allocateFrame.1 := congrArg Prod.fst hb
  have hafter : b.abstract regions = (v.allocator.abstract regions).allocateFrame.2 :=
    congrArg Prod.snd hb
  have hfirst := hr.trans (supplies.first _)
  have hrest := (congrArg FrameAllocator.upcoming hafter).trans (supplies.rest _)
  have hall := h.all
  refine ⟨hrange, ?_, ?_, ?_⟩
  · dsimp only
    rw [hrest]
    cases hup : (v.allocator.abstract regions).upcoming with
    | nil =>
      rw [hup] at hfirst hall
      rw [hfirst]
      exact hall
    | cons f up =>
      rw [hup] at hfirst hall
      rw [hfirst]
      exact List.perm_middle.symm.trans hall
  · intro f hf
    rcases List.mem_append.mp hf with hnew | hold
    · exact Or.inl (List.mem_append_left _ hnew)
    rcases h.given f hold with hout | hfree
    · exact Or.inl (List.mem_append_right _ hout)
    · rcases free_allocateFrame (a := v.allocator.abstract regions) hfree with hgot | hstays
      · left
        dsimp only
        rw [hr, hgot]
        exact List.mem_cons_self
      · right
        rw [← hafter] at hstays
        exact hstays
  · intro f hf
    rcases List.mem_append.mp hf with hnew | hold
    · exact List.mem_append_left _ hnew
    · exact List.mem_append_right _ (h.kept f hold)

/-- A frame that nobody has is in the pool already. -/
theorem release_again (h : Shared regions v) (hgiven : frame ∈ v.given) (hout : frame ∉ v.out) :
    v.allocator.release frame = v.allocator :=
  if_pos ((h.given frame hgiven).resolve_left hout)

theorem not_free_of_out (hm : UsableMap regions) (h : Shared regions v) (hout : frame ∈ v.out) :
    frame ∉ (v.allocator.abstract regions).upcoming := by
  have hnodup := h.all.nodup_iff.mpr (pages_nodup hm)
  exact fun hup => (List.disjoint_of_nodup_append hnodup) hout hup

theorem shared_release (hm : UsableMap regions) (h : Shared regions v)
    (hnext : next regions v (.release frame) = some u) : Shared regions u := by
  rw [next] at hnext
  split at hnext
  swap
  · nomatch hnext
  case isTrue hgiven =>
  obtain rfl := Option.some.inj hnext
  by_cases hout : frame ∈ v.out
  · have hfree : frame ∉ v.allocator.free := fun hmem =>
      not_free_of_out hm h hout (List.mem_append_left _ hmem)
    have hrelease : v.allocator.release frame = { v.allocator with
        free := frame :: v.allocator.free, released := v.allocator.released + 1 } := if_neg hfree
    rw [hrelease]
    refine ⟨h.inRange, ?_, ?_, ?_⟩
    · have hback := ((List.perm_cons_erase hout).symm.append_right
        (v.allocator.abstract regions).upcoming).trans h.all
      exact List.perm_middle.trans hback
    · intro f hf
      by_cases hsame : f = frame
      · exact Or.inr (hsame ▸ List.mem_cons_self)
      · rcases h.given f hf with hold | hold
        · exact Or.inl ((List.mem_erase_of_ne hsame).mpr hold)
        · exact Or.inr (List.mem_cons_of_mem _ hold)
    · exact fun f hf => h.kept f (List.mem_of_mem_erase hf)
  · rw [release_again h hgiven hout, List.erase_of_not_mem hout]
    exact h

theorem shared_run (hm : UsableMap regions) {es : List Event} (h : Shared regions v)
    (hrun : exec (next regions) v es = some u) : Shared regions u := by
  have hstep : Preserves (next regions) Any (Shared regions) := by
    intro v e u h _ hnext
    cases e with
    | allocate => exact shared_allocate hm h hnext
    | release frame => exact shared_release hm h hnext
  exact exec_invariant hstep h (meets_any _ _ _) hrun

/-- What a call of `allocate_frame` may answer. -/
structure Answered (regions : List MemoryRegion) (v : Handouts) (r : Option Frame) : Prop where
  inside : ∀ f, r = some f → ∃ region ∈ regions, region.kind = .usable ∧
    region.start ≤ 4096 * f.toNat ∧ 4096 * f.toNat + 4096 ≤ region.endAddr
  fresh : ∀ f, r = some f → f ∉ v.out
  exhausted : r = none → v.allocator.free = [] ∧
    ∀ region ∈ regions, region.kind = .usable → ∀ page, region.start ≤ 4096 * page →
      4096 * page + 4096 ≤ region.endAddr → BitVec.ofNat 40 page ∈ v.given

/-- A call of `allocate_frame` ends however many turns its loops may take, and one of `release` for
a frame that nobody has changes nothing. -/
structure HandsOut (regions : List MemoryRegion) (v : Handouts) : Prop where
  allocates : ∃ r a, (∀ turns > regions.length,
    v.allocator.allocateFrame regions turns = some (r, a)) ∧ Answered regions v r
  again : ∀ f ∈ v.given, f ∉ v.out → v.allocator.release f = v.allocator

theorem mem_pages (hm : UsableMap regions) (h : frame ∈ pages regions) :
    ∃ region ∈ regions, region.kind = .usable ∧ region.start ≤ 4096 * frame.toNat ∧
      4096 * frame.toNat + 4096 ≤ region.endAddr := by
  rw [pages, ← unvisited_occupied] at h
  obtain ⟨region, hoccupied, hkind, addr, hstart, hend, ⟨page, rfl⟩, rfl⟩ :=
    mem_unvisited hm.occupied h
  have hregion := List.mem_of_mem_filter hoccupied
  have hbound := (hm.bounded region hregion hkind).2
  have hpage : (frameOf (4096 * page)).toNat = page := by
    rw [frameOf, BitVec.toNat_ofNat]
    omega
  rw [hpage]
  exact ⟨region, hregion, hkind, hstart, hend⟩

theorem Shared.handsOut (hm : UsableMap regions) (h : Shared regions v) : HandsOut regions v := by
  obtain ⟨r, a, hturns, ha, -⟩ := allocateFrame_turns hm h.inRange
  have hr : r = (v.allocator.abstract regions).upcoming.head? :=
    (congrArg Prod.fst ha).trans (supplies.first _)
  refine ⟨⟨r, a, hturns, ?_, ?_, ?_⟩, fun f => release_again h⟩
  · intro f hf
    have hmem := List.mem_of_head? (hr.symm.trans hf)
    exact mem_pages hm (h.all.mem_iff.mp (List.mem_append_right _ hmem))
  · intro f hf hout
    exact not_free_of_out hm h hout (List.mem_of_head? (hr.symm.trans hf))
  · intro hnone
    have hempty := List.head?_eq_none_iff.mp (hr.symm.trans hnone)
    refine ⟨(List.append_eq_nil_iff.mp hempty).1, fun region hregion hkind page hstart hend => ?_⟩
    have hall := h.all
    rw [hempty, List.append_nil] at hall
    have hpage := mem_pages_of_page (n := 0) hregion hkind (hm.aligned region hregion hkind) hstart
      hend
    exact h.kept _ (hall.mem_iff.mpr hpage)

/-- The cursor once the map has been given, an empty pool, and no frame handed out. -/
def Handouts.initial (c : Cursor) : Handouts := ⟨⟨[], 0, c⟩, [], []⟩

theorem pages_skipToUsableRegion {rest : List MemoryRegion} {n : ℕ} :
    unvisited (BootInfoFrameAllocator.skipToUsableRegion rest n).regions
      (BootInfoFrameAllocator.skipToUsableRegion rest n).nextAddr =
    unvisited rest (BootInfoFrameAllocator.enter rest n) := by
  induction rest with
  | nil => rfl
  | cons region rest ih =>
    rw [BootInfoFrameAllocator.skipToUsableRegion, BootInfoFrameAllocator.enter]
    by_cases hkind : region.kind = .usable
    · rw [if_pos hkind, if_pos hkind]
    · rw [if_neg hkind, if_neg hkind, ih, unvisited, if_neg hkind, List.nil_append]

theorem shared_initial (hr : c.nextAddr ≤ 2 ^ 52)
    (hc : c.boot regions = BootInfoFrameAllocator.init regions) :
    Shared regions (.initial c) := by
  refine ⟨hr, ?_, fun f hf => (nomatch hf), fun f hf => (nomatch hf)⟩
  have hup : ((Handouts.initial c).allocator.abstract regions).upcoming = pages regions := by
    rw [pages, ← pages_skipToUsableRegion, ← BootInfoFrameAllocator.init, ← hc]
    rfl
  rw [hup]
  exact List.Perm.refl _

/-- For any interleaving of allocations and releases of frames that are no longer used, double
releases among them: allocating ends, answers with a page of a usable region that nobody has, and
with none only when all of them have been handed out. -/
theorem frames_handed_once (hm : UsableMap regions) :
    ∃ c, (∀ turns > regions.length, Cursor.skipToUsableRegion regions turns ⟨0, 0⟩ = some c) ∧
      ∀ es v, exec (next regions) (.initial c) es = some v → HandsOut regions v := by
  obtain ⟨c, hturns, hc, -, hr⟩ := skip_spec (c := ⟨0, 0⟩) (n := regions.length) hm
    (Nat.le_add_left _ _)
  refine ⟨c, hturns, fun es v hrun => ?_⟩
  exact (shared_run hm (shared_initial (hr (Nat.zero_le _)) hc) hrun).handsOut hm

/-- Two pages in two regions around one that is in use. -/
def twoPages : List MemoryRegion :=
  [⟨0x1000, 0x2000, .usable⟩, ⟨0x2000, 0x5000, .reserved⟩, ⟨0x5000, 0x6000, .usable⟩]

theorem twoPages_map : UsableMap twoPages := by
  refine ⟨by decide, by decide, ?_⟩
  rw [twoPages]
  simp only [List.pairwise_cons, List.mem_cons, List.not_mem_nil, or_false, forall_eq_or_imp,
    forall_eq, reduceCtorEq, false_imp_iff, imp_true_iff, true_and, and_true, List.Pairwise.nil]
  omega

/-- Both pages go out, one comes back twice and goes out again, and then there is none. -/
theorem frames_handed_once_two : ∃ c v, exec (next twoPages) (.initial c)
    [.allocate, .allocate, .release 1, .release 1, .allocate, .allocate] = some v ∧
      HandsOut twoPages v := by
  obtain ⟨c, hturns, hruns⟩ := frames_handed_once twoPages_map
  obtain rfl := Option.some.inj ((hturns 4 (by decide)).symm.trans
    (show Cursor.skipToUsableRegion twoPages 4 ⟨0, 0⟩ = some ⟨0, 0x1000⟩ by decide))
  have hsome : (exec (next twoPages) (.initial ⟨0, 0x1000⟩)
      [.allocate, .allocate, .release 1, .release 1, .allocate, .allocate]).isSome := by decide
  obtain ⟨v, hv⟩ := Option.isSome_iff_exists.mp hsome
  exact ⟨_, v, hv, hruns _ v hv⟩

end Runs

end FrameHandouts
