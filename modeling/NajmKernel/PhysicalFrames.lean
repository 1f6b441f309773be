import NajmKernel.TableGrowth

/-! Where frames come from: the bump allocator over the boot memory map and, before it, the pool
of released frames. Together they hand out the frames of one list. -/
namespace PhysicalFrames

open PhysicalMemory PageTables

/-- Every kind but `Usable` is treated alike. -/
inductive MemoryRegionKind where
  | usable
  | reserved
  deriving DecidableEq, Repr

structure MemoryRegion where
  start : ℕ
  endAddr : ℕ
  kind : MemoryRegionKind
  deriving DecidableEq, Repr

/-- `containing_address`. -/
def frameOf (addr : ℕ) : Frame := BitVec.ofNat 40 (addr / 4096)

/-- `regions` are the memory regions from `region_index` on. -/
structure BootInfoFrameAllocator where
  regions : List MemoryRegion
  nextAddr : ℕ
  deriving DecidableEq, Repr

namespace BootInfoFrameAllocator

/-- `next_addr` once the cursor stands at the first of these regions. -/
def enter : List MemoryRegion → ℕ → ℕ
  | [], next => next
  | region :: _, next => if region.kind = .usable then region.start else next

def skipToUsableRegion : List MemoryRegion → ℕ → BootInfoFrameAllocator
  | [], next => ⟨[], next⟩
  | region :: rest, next =>
    if region.kind = .usable then ⟨region :: rest, region.start⟩ else skipToUsableRegion rest next

def init (memoryRegions : List MemoryRegion) : BootInfoFrameAllocator :=
  skipToUsableRegion memoryRegions 0

/-- The loop of `allocate_frame`, a region a turn: an unusable region is skipped by the same
branch that leaves an exhausted one. -/
def bump : List MemoryRegion → ℕ → Option Frame × BootInfoFrameAllocator
  | [], next => (none, ⟨[], next⟩)
  | region :: rest, next =>
    if region.kind = .usable ∧ next + 4096 ≤ region.endAddr then
      (some (frameOf next), ⟨region :: rest, next + 4096⟩)
    else bump rest (enter rest next)

end BootInfoFrameAllocator

/-- `FREE_FRAMES`, the last frame pushed first, and the allocator behind it. -/
structure FrameAllocator where
  free : List Frame
  released : ℕ
  boot : BootInfoFrameAllocator
  deriving DecidableEq, Repr

namespace FrameAllocator

def acquire (a : FrameAllocator) : Option Frame × FrameAllocator :=
  match a.free with
  | [] => (none, a)
  | frame :: rest => (some frame, { a with free := rest })

def allocateFrame (a : FrameAllocator) : Option Frame × FrameAllocator :=
  match a.acquire with
  | (some frame, a) => (some frame, a)
  | (none, a) =>
    let r := BootInfoFrameAllocator.bump a.boot.regions a.boot.nextAddr
    (r.1, { a with boot := r.2 })

def release (a : FrameAllocator) (frame : Frame) : FrameAllocator :=
  if frame ∈ a.free then a
  else { a with free := frame :: a.free, released := a.released + 1 }

end FrameAllocator

/-- The frames of a region from an address on. -/
def MemoryRegion.frames (region : MemoryRegion) (next : ℕ) : List Frame :=
  (List.range ((region.endAddr - next) / 4096)).map fun k => frameOf (next + 4096 * k)

/-- The frames the bump allocator has not handed out yet. -/
def unvisited : List MemoryRegion → ℕ → List Frame
  | [], _ => []
  | region :: rest, next =>
    (if region.kind = .usable then region.frames next else []) ++
      unvisited rest (BootInfoFrameAllocator.enter rest next)

/-- The frames that calls of `allocate_frame` will return, in order. -/
def FrameAllocator.upcoming (a : FrameAllocator) : List Frame :=
  a.free ++ unvisited a.boot.regions a.boot.nextAddr

variable {a : FrameAllocator} {frame : Frame} {region : MemoryRegion}

theorem frames_eq_nil {next : ℕ} (h : ¬ next + 4096 ≤ region.endAddr) :
    region.frames next = [] := by
  have hz : (region.endAddr - next) / 4096 = 0 := by omega
  rw [MemoryRegion.frames, hz]
  rfl

theorem frames_eq_cons {next : ℕ} (h : next + 4096 ≤ region.endAddr) :
    region.frames next = frameOf next :: region.frames (next + 4096) := by
  have hs : (region.endAddr - next) / 4096 = (region.endAddr - (next + 4096)) / 4096 + 1 := by
    omega
  rw [MemoryRegion.frames, hs, List.range_succ_eq_map, List.map_cons, List.map_map,
    MemoryRegion.frames]
  congr 1
  apply List.map_congr_left
  intro k _
  simp only [Function.comp_apply, Nat.succ_eq_add_one]
  congr 1
  omega

/-- Entering the next usable region forgets where the cursor stood. -/
theorem unvisited_enter (regions : List MemoryRegion) (next next' : ℕ) :
    unvisited regions (BootInfoFrameAllocator.enter regions next) =
      unvisited regions (BootInfoFrameAllocator.enter regions next') := by
  induction regions generalizing next next' with
  | nil => rfl
  | cons region rest ih =>
    have henter : ∀ n, BootInfoFrameAllocator.enter (region :: rest) n =
        if region.kind = .usable then region.start else n := fun _ => rfl
    rw [henter, henter]
    by_cases hk : region.kind = .usable
    · rw [if_pos hk, if_pos hk]
    · rw [if_neg hk, if_neg hk, unvisited, unvisited, if_neg hk, if_neg hk, ih next next']

theorem bump_spec (regions : List MemoryRegion) (next : ℕ) :
    (BootInfoFrameAllocator.bump regions next).1 = (unvisited regions next).head? ∧
      unvisited (BootInfoFrameAllocator.bump regions next).2.regions
        (BootInfoFrameAllocator.bump regions next).2.nextAddr = (unvisited regions next).tail := by
  induction regions generalizing next with
  | nil => exact ⟨rfl, rfl⟩
  | cons region rest ih =>
    by_cases hc : region.kind = .usable ∧ next + 4096 ≤ region.endAddr
    · have hu : unvisited (region :: rest) next = frameOf next ::
          (region.frames (next + 4096) ++
            unvisited rest (BootInfoFrameAllocator.enter rest next)) := by
        rw [unvisited, if_pos hc.1, frames_eq_cons hc.2, List.cons_append]
      rw [BootInfoFrameAllocator.bump, if_pos hc, hu]
      refine ⟨rfl, ?_⟩
      rw [unvisited, if_pos hc.1, unvisited_enter rest (next + 4096) next, List.tail_cons]
    · have hu : unvisited (region :: rest) next =
          unvisited rest (BootInfoFrameAllocator.enter rest next) := by
        rw [unvisited]
        by_cases hk : region.kind = .usable
        · rw [if_pos hk, frames_eq_nil fun h => hc ⟨hk, h⟩, List.nil_append]
        · rw [if_neg hk, List.nil_append]
      rw [BootInfoFrameAllocator.bump, if_neg hc, hu]
      exact ih _

theorem supplies : Supplies FrameAllocator.allocateFrame FrameAllocator.upcoming where
  first a := by
    rcases a with ⟨_ | ⟨f, rest⟩, released, boot⟩
    · simp [FrameAllocator.allocateFrame, FrameAllocator.acquire, FrameAllocator.upcoming,
        (bump_spec boot.regions boot.nextAddr).1]
    · rfl
  rest a := by
    rcases a with ⟨_ | ⟨f, rest⟩, released, boot⟩
    · simp [FrameAllocator.allocateFrame, FrameAllocator.acquire, FrameAllocator.upcoming,
        (bump_spec boot.regions boot.nextAddr).2]
    · rfl

theorem unvisited_allocate {a' : FrameAllocator} {x : Option Frame}
    (h : a.allocateFrame = (x, a')) : ∀ f ∈ unvisited a'.boot.regions a'.boot.nextAddr,
      f ∈ unvisited a.boot.regions a.boot.nextAddr := by
  rcases a with ⟨_ | ⟨g, rest⟩, released, boot⟩
  · simp only [FrameAllocator.allocateFrame, FrameAllocator.acquire, Prod.mk.injEq] at h
    obtain ⟨-, rfl⟩ := h
    intro f hf
    simp only [(bump_spec boot.regions boot.nextAddr).2] at hf
    exact List.mem_of_mem_tail hf
  · simp only [FrameAllocator.allocateFrame, FrameAllocator.acquire, Prod.mk.injEq] at h
    obtain ⟨-, rfl⟩ := h
    exact fun f hf => hf

theorem upcoming_release :
    (a.release frame).upcoming = if frame ∈ a.free then a.upcoming else frame :: a.upcoming := by
  unfold FrameAllocator.release
  split <;> rfl

theorem mem_free_of_upcoming (h : frame ∈ a.upcoming)
    (hn : frame ∉ unvisited a.boot.regions a.boot.nextAddr) : frame ∈ a.free :=
  (List.mem_append.mp h).resolve_right hn

theorem boot_release : (a.release frame).boot = a.boot := by
  unfold FrameAllocator.release
  split <;> rfl

theorem mem_free_release : frame ∈ (a.release frame).free := by
  unfold FrameAllocator.release
  split
  · assumption
  · exact List.mem_cons_self

theorem free_subset_release {g : Frame} (h : g ∈ a.free) : g ∈ (a.release frame).free := by
  unfold FrameAllocator.release
  split
  · exact h
  · exact List.mem_cons_of_mem _ h

/-- Frames given back one after the other, none of which the bump allocator still holds. -/
theorem releaseAll_spec {fs : List Frame} (hn : a.upcoming.Nodup)
    (hu : ∀ f ∈ fs, f ∉ unvisited a.boot.regions a.boot.nextAddr) :
    (fs.foldl FrameAllocator.release a).upcoming.Nodup ∧
      (∀ f, f ∈ (fs.foldl FrameAllocator.release a).upcoming ↔ f ∈ fs ∨ f ∈ a.upcoming) ∧
      ∀ f, f ∈ fs ∨ f ∈ a.free → f ∈ (fs.foldl FrameAllocator.release a).free := by
  induction fs generalizing a with
  | nil => exact ⟨hn, by simp, by simp⟩
  | cons g fs ih =>
    have hg := hu g List.mem_cons_self
    have hn' : (a.release g).upcoming.Nodup := by
      rw [upcoming_release]
      split
      case isTrue => exact hn
      case isFalse hf =>
        exact List.nodup_cons.mpr ⟨fun hm => hf (mem_free_of_upcoming hm hg), hn⟩
    have hmem : ∀ f, f ∈ (a.release g).upcoming ↔ f = g ∨ f ∈ a.upcoming := by
      intro f
      rw [upcoming_release]
      split
      case isTrue hf =>
        constructor
        · exact Or.inr
        · rintro (rfl | h)
          · exact List.mem_append_left _ hf
          · exact h
      case isFalse => exact List.mem_cons
    have hu' : ∀ f ∈ fs, f ∉ unvisited (a.release g).boot.regions (a.release g).boot.nextAddr := by
      rw [boot_release]
      exact fun f hf => hu f (List.mem_cons_of_mem _ hf)
    obtain ⟨h1, h2, h3⟩ := ih hn' hu'
    refine ⟨h1, fun f => ?_, fun f hf => ?_⟩
    · rw [List.foldl_cons, h2 f, hmem f, List.mem_cons]
      tauto
    · rw [List.foldl_cons]
      apply h3
      rcases hf with hf | hf
      · rcases List.mem_cons.mp hf with rfl | hf
        · exact Or.inr mem_free_release
        · exact Or.inl hf
      · exact Or.inr (free_subset_release hf)

section MemoryMap

/-- Usable regions of the boot memory map: aligned, inside the physical address space, disjoint. -/
structure MemoryMap (regions : List MemoryRegion) : Prop where
  aligned : ∀ region ∈ regions, region.kind = .usable → 4096 ∣ region.start
  bounded : ∀ region ∈ regions, region.kind = .usable → region.endAddr ≤ 2 ^ 52
  disjoint : regions.Pairwise fun r t => r.kind = .usable → t.kind = .usable →
    r.endAddr ≤ t.start ∨ t.endAddr ≤ r.start

/-- The cursor stands in a region of such a map. -/
structure BootInfoFrameAllocator.Over (boot : BootInfoFrameAllocator) : Prop where
  map : MemoryMap boot.regions
  cursor : ∀ region rest, boot.regions = region :: rest → region.kind = .usable →
    region.start ≤ boot.nextAddr ∧ 4096 ∣ boot.nextAddr

variable {regions rest : List MemoryRegion} {next : ℕ}

theorem MemoryMap.tail (h : MemoryMap (region :: rest)) : MemoryMap rest where
  aligned r hr := h.aligned r (List.mem_cons_of_mem _ hr)
  bounded r hr := h.bounded r (List.mem_cons_of_mem _ hr)
  disjoint := (List.pairwise_cons.mp h.disjoint).2

theorem mem_frames (hn : 4096 ∣ next) (h : frame ∈ region.frames next) :
    ∃ addr, next ≤ addr ∧ addr + 4096 ≤ region.endAddr ∧ 4096 ∣ addr ∧ frame = frameOf addr := by
  rw [MemoryRegion.frames, List.mem_map] at h
  obtain ⟨k, hk, rfl⟩ := h
  have hk' := List.mem_range.mp hk
  exact ⟨next + 4096 * k, by omega, by omega, by omega, rfl⟩

theorem mem_unvisited (hm : MemoryMap regions)
    (h : frame ∈ unvisited regions (BootInfoFrameAllocator.enter regions next)) :
    ∃ region ∈ regions, region.kind = .usable ∧ ∃ addr, region.start ≤ addr ∧
      addr + 4096 ≤ region.endAddr ∧ 4096 ∣ addr ∧ frame = frameOf addr := by
  induction regions generalizing next with
  | nil => cases h
  | cons region rest ih =>
    rw [unvisited, List.mem_append] at h
    rcases h with h | h
    · by_cases hk : region.kind = .usable
      · rw [if_pos hk, BootInfoFrameAllocator.enter, if_pos hk] at h
        exact ⟨region, List.mem_cons_self, hk,
          mem_frames (hm.aligned region List.mem_cons_self hk) h⟩
      · rw [if_neg hk] at h
        cases h
    · obtain ⟨r, hr, hx⟩ := ih hm.tail h
      exact ⟨r, List.mem_cons_of_mem _ hr, hx⟩

theorem frameOf_inj {x y : ℕ} (hx : x < 2 ^ 52) (hy : y < 2 ^ 52) (hxa : 4096 ∣ x) (hya : 4096 ∣ y)
    (h : frameOf x = frameOf y) : x = y := by
  have hn := congrArg BitVec.toNat h
  rw [frameOf, frameOf, BitVec.toNat_ofNat, BitVec.toNat_ofNat] at hn
  omega

theorem frames_nodup (hn : 4096 ∣ next) (hb : region.endAddr ≤ 2 ^ 52) :
    (region.frames next).Nodup := by
  refine List.Nodup.map_on ?_ List.nodup_range
  intro i hi j hj he
  have hi' := List.mem_range.mp hi
  have hj' := List.mem_range.mp hj
  have := frameOf_inj (x := next + 4096 * i) (y := next + 4096 * j) (by omega) (by omega)
    (by omega) (by omega) he
  omega

theorem unvisited_nodup {regions : List MemoryRegion} {next : ℕ} (hm : MemoryMap regions)
    (hc : ∀ region rest, regions = region :: rest → region.kind = .usable →
      region.start ≤ next ∧ 4096 ∣ next) : (unvisited regions next).Nodup := by
  induction regions generalizing next with
  | nil => exact List.nodup_nil
  | cons region rest ih =>
    have hrest : (unvisited rest (BootInfoFrameAllocator.enter rest next)).Nodup := by
      apply ih hm.tail
      intro r t he hk
      rw [he, BootInfoFrameAllocator.enter, if_pos hk]
      exact ⟨le_rfl, hm.tail.aligned r (he ▸ List.mem_cons_self) hk⟩
    rw [unvisited]
    by_cases hk : region.kind = .usable
    · obtain ⟨hs, ha⟩ := hc region rest rfl hk
      have hb := hm.bounded region List.mem_cons_self hk
      rw [if_pos hk]
      refine List.nodup_append.mpr ⟨frames_nodup ha hb, hrest, ?_⟩
      rintro f hf _ hg rfl
      obtain ⟨x, h1, h2, h3, rfl⟩ := mem_frames ha hf
      obtain ⟨r, hr, hrk, y, h4, h5, h6, he⟩ := mem_unvisited hm.tail hg
      have hby := hm.tail.bounded r hr hrk
      have := frameOf_inj (by omega) (by omega) h3 h6 he
      have := (List.pairwise_cons.mp hm.disjoint).1 r hr hk hrk
      omega
    · rw [if_neg hk]
      exact hrest

theorem BootInfoFrameAllocator.Over.nodup {boot : BootInfoFrameAllocator} (h : boot.Over) :
    (unvisited boot.regions boot.nextAddr).Nodup := unvisited_nodup h.map h.cursor

end MemoryMap

end PhysicalFrames
