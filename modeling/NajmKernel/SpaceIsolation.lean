import NajmKernel.BootStates

/-! Address-space isolation: what the lower half of one space reaches, no other space reaches, nor
the pool, nor the kernel; and writing through one space shows in no other. -/
namespace SpaceIsolation

open PhysicalMemory PageTables PhysicalFrames AddressSpaces TransitionSystem SpaceRuns

/-- Frames reached from a root through present entries, in the root those of its lower half. -/
inductive Reaches (m : Memory) (root : Frame) : ℕ → Frame → Prop
  | root : Reaches m root 4 root
  | entry {l : ℕ} {t : Frame} {i : ℕ} (above : Reaches m root (l + 1) t) (index : i < 512)
      (lower : l = 3 → i < 256) (present : (entry m t i).flags.contains .present = true) :
      Reaches m root l (entry m t i).frame

/-- Frames that were not the allocator's when the runs started. -/
def KernelOwned (s₀ : State) (f : Frame) : Prop := f ∉ s₀.system.frames.upcoming

structure Separated (kernelRoot : Frame) (s₀ s : State) : Prop where
  disjoint : ∀ {a b spaceA spaceB}, a ≠ b → s.spaces a = some spaceA → s.spaces b = some spaceB →
    ∀ k l f, Reaches s.system.bytes spaceA.root k f → ¬ Reaches s.system.bytes spaceB.root l f
  apart : ∀ {a space}, s.spaces a = some space → ∀ l f, Reaches s.system.bytes space.root l f →
    f ∉ s.system.frames.free ∧ ¬ KernelOwned s₀ f
  kernel : ∀ i, s.system.bytes.word kernelRoot i = s₀.system.bytes.word kernelRoot i
  upper : ∀ {a space}, s.spaces a = some space → ∀ i, 256 ≤ i → i < 512 →
    s.system.bytes.word space.root i = s₀.system.bytes.word kernelRoot i
  write : ∀ {a b space}, a ≠ b → s.spaces b = some space → ∀ target bytes s',
    s.write a target bytes = some s' → ∀ addr < 2 ^ 47,
      space.byteAt s'.system.bytes addr = space.byteAt s.system.bytes addr
  zero : ∀ {a b space}, a ≠ b → s.spaces b = some space → ∀ target len s',
    s.zero a target len = some s' → ∀ addr < 2 ^ 47,
      space.byteAt s'.system.bytes addr = space.byteAt s.system.bytes addr

variable {X : Mapper} {kernelRoot : Frame} {level : Frame → Option ℕ} {data : Frame → Prop}
  {s₀ s : State} {place : ℕ → Placement} {a l : ℕ} {f : Frame} {space : AddressSpace}
  {es : List Event}

theorem placed_of_reaches (I : Isolated kernelRoot level data s₀ s place)
    (hs : s.spaces a = some space) (h : Reaches s.system.bytes space.root l f) :
    ∃ n, place a f = some (l, n) := by
  induction h with
  | root => exact ⟨0, (I.tree hs).atRoot⟩
  | entry above index lower present ih =>
    obtain ⟨n, hn⟩ := ih
    exact ⟨_, (I.tree hs).child ⟨hn, index, lower⟩ (used_of_present present)⟩

theorem separated_of_isolated (I : Isolated kernelRoot level data s₀ s place) :
    Separated kernelRoot s₀ s where
  disjoint hab ha hb k l f hk hl := by
    obtain ⟨n, hn⟩ := placed_of_reaches I ha hk
    obtain ⟨n', hn'⟩ := placed_of_reaches I hb hl
    rw [I.disjoint hab (by simp [hn])] at hn'
    cases hn'
  apart {a space} ha l f hf := by
    obtain ⟨n, hn⟩ := placed_of_reaches I ha hf
    refine ⟨fun hfree => ?_, fun hk => hk (I.inside (a := a) (by simp [hn]))⟩
    rw [I.fresh (List.mem_append_left _ hfree)] at hn
    cases hn
  kernel i := Memory.word_of_frame_eq (I.kernel (by simp [I.start.kernel.root]))
  upper := I.upper
  write {a b space} hab hb target bytes s' h addr haddr := by
    obtain ⟨u, hu, rfl⟩ := Option.map_eq_some_iff.mp h
    exact I.other_bytes hb hab (fun g hg => I.transfer hu hg) haddr
  zero {a b space} hab hb target len s' h addr haddr := by
    obtain ⟨u, hu, rfl⟩ := Option.map_eq_some_iff.mp h
    exact I.other_bytes hb hab (fun g hg => I.transfer hu hg) haddr

theorem spaces_isolated (hb : Boots kernelRoot level data s₀)
    (hrun : exec (next X kernelRoot) s₀ es = some s) : Separated kernelRoot s₀ s := by
  obtain ⟨place, I⟩ := hb.run hrun
  exact separated_of_isolated I

section Example

/-- Two spaces, the second made while the first is loaded. -/
def twoSpaces : List Event :=
  [.new 0 none, .new 1 (some 0), .mapPage 0 0x400 ⟨7#12, 0#12⟩, .writeAt 0 0x400ffe [1, 2],
    .protectPage 0 0x400 ⟨5#12, 0#12⟩, .mapPage 1 0x7ff ⟨7#12, 0#12⟩, .zeroAt 1 0x7ff000 4096,
    .drop 0]

theorem spaces_isolated_twoSpaces : ∃ s,
    exec (next Mapper.walker 1#40) bootState twoSpaces = some s ∧
      Separated 1#40 bootState s := by
  have h : (exec (next Mapper.walker 1#40) bootState twoSpaces).isSome = true := by
    decide +kernel
  obtain ⟨s, hs⟩ := Option.isSome_iff_exists.mp h
  exact ⟨s, hs, spaces_isolated bootState_boots hs⟩

end Example

end SpaceIsolation
