import Mathlib.Data.List.Nodup
import Mathlib.Data.List.Pairwise
import Mathlib.Data.List.Perm.Basic
import Mathlib.Tactic.Common

/-! Physical frames: the pool of released frames, the allocator that draws from it before it
takes fresh frames, and address spaces with the frames they own. -/
namespace FramePool

structure FrameAllocator where
  free : List ℕ
  nextFrame : ℕ
  deriving DecidableEq

/-- `acquire`, then the bump allocator behind it. -/
def FrameAllocator.allocateFrame (a : FrameAllocator) : ℕ × FrameAllocator :=
  match a.free with
  | frame :: rest => (frame, { a with free := rest })
  | [] => (a.nextFrame, { a with nextFrame := a.nextFrame + 1 })

/-- A second release of a frame that is already in the pool is ignored. -/
def FrameAllocator.release (a : FrameAllocator) (frame : ℕ) : FrameAllocator :=
  if frame ∈ a.free then a else { a with free := frame :: a.free }

/-- `boundTo` names the task whose process context owns the address space. -/
structure AddressSpace where
  root : ℕ
  ownedFrames : List ℕ
  boundTo : Option ℕ
  deriving DecidableEq

/-- The order in which dropping the address space releases them. -/
def AddressSpace.frames (s : AddressSpace) : List ℕ := s.ownedFrames ++ [s.root]

/-- Frames in the pool and frames in use are distinct, and all of them lie between the frame
the kernel keeps for itself and the mark. -/
structure FrameAllocator.Tracks (a : FrameAllocator) (kernelRoot : ℕ) (used : List ℕ) :
    Prop where
  nodup : (a.free ++ used).Nodup
  lt_next : ∀ f ∈ a.free ++ used, f < a.nextFrame
  reserved : ∀ f ∈ a.free ++ used, f ≠ kernelRoot
  kernel_lt : kernelRoot < a.nextFrame

variable {a : FrameAllocator} {kernelRoot frame : ℕ} {used used' : List ℕ}

theorem FrameAllocator.Tracks.perm (h : a.Tracks kernelRoot used) (hp : used.Perm used') :
    a.Tracks kernelRoot used' := by
  have hall := hp.append_left a.free
  exact ⟨hall.nodup_iff.mp h.nodup, fun f hf => h.lt_next f (hall.mem_iff.mpr hf),
    fun f hf => h.reserved f (hall.mem_iff.mpr hf), h.kernel_lt⟩

theorem FrameAllocator.Tracks.allocateFrame (h : a.Tracks kernelRoot used) :
    a.allocateFrame.2.Tracks kernelRoot (a.allocateFrame.1 :: used) := by
  rcases h with ⟨hn, hl, hr, hk⟩
  cases hf : a.free with
  | cons f rest =>
    simp only [FrameAllocator.allocateFrame, hf] at *
    have hp : (rest ++ f :: used).Perm (f :: rest ++ used) := List.perm_middle
    exact ⟨hp.nodup_iff.mpr hn, fun g hg => hl g (hp.mem_iff.mp hg),
      fun g hg => hr g (hp.mem_iff.mp hg), hk⟩
  | nil =>
    simp only [FrameAllocator.allocateFrame, hf, List.nil_append] at *
    refine ⟨List.nodup_cons.mpr ⟨fun hm => Nat.lt_irrefl _ (hl _ hm), hn⟩, ?_, ?_, Nat.lt_succ_of_lt hk⟩
    · intro g hg
      rcases List.mem_cons.mp hg with rfl | hg
      · exact Nat.lt_succ_self _
      · exact Nat.lt_succ_of_lt (hl g hg)
    · intro g hg
      rcases List.mem_cons.mp hg with rfl | hg
      · omega
      · exact hr g hg

/-- A frame in use is not in the pool, so its release is never the ignored second one. -/
theorem FrameAllocator.Tracks.release (h : a.Tracks kernelRoot (frame :: used)) :
    (a.release frame).Tracks kernelRoot used := by
  rcases h with ⟨hn, hl, hr, hk⟩
  have hp : (frame :: a.free ++ used).Perm (a.free ++ frame :: used) := List.perm_middle.symm
  have hfresh : frame ∉ a.free := fun hm =>
    (List.disjoint_of_nodup_append hn) hm List.mem_cons_self
  simp only [FrameAllocator.release, if_neg hfresh]
  exact ⟨hp.nodup_iff.mpr hn, fun g hg => hl g (hp.mem_iff.mp hg),
    fun g hg => hr g (hp.mem_iff.mp hg), hk⟩

/-- A frame may stay in use for something that is no longer followed. -/
theorem FrameAllocator.Tracks.forget {rest : List ℕ} (h : a.Tracks kernelRoot (used ++ rest)) :
    a.Tracks kernelRoot used := by
  rcases h with ⟨hn, hl, hr, hk⟩
  rw [← List.append_assoc] at hn hl hr
  exact ⟨(List.nodup_append.mp hn).1, fun f hf => hl f (List.mem_append_left _ hf),
    fun f hf => hr f (List.mem_append_left _ hf), hk⟩

theorem FrameAllocator.Tracks.releaseAll {frames : List ℕ}
    (h : a.Tracks kernelRoot (frames ++ used)) :
    (frames.foldl FrameAllocator.release a).Tracks kernelRoot used := by
  induction frames generalizing a with
  | nil => exact h
  | cons f rest ih => exact ih h.release

theorem FrameAllocator.Tracks.not_free (h : a.Tracks kernelRoot used) (hm : frame ∈ used) :
    frame ∉ a.free := fun hf => (List.disjoint_of_nodup_append h.nodup) hf hm

theorem FrameAllocator.Tracks.kernelRoot_not_free (h : a.Tracks kernelRoot used) :
    kernelRoot ∉ a.free := fun hf => h.reserved _ (List.mem_append_left _ hf) rfl

section Spaces

variable {spaces : List AddressSpace} {s t : AddressSpace} {rest : List ℕ}

theorem root_mem_frames (s : AddressSpace) : s.root ∈ s.frames := by simp [AddressSpace.frames]

/-- No two address spaces share their root. -/
theorem FrameAllocator.Tracks.roots_nodup
    (h : a.Tracks kernelRoot (spaces.flatMap AddressSpace.frames ++ rest)) :
    (spaces.map AddressSpace.root).Nodup := by
  have hn := (List.nodup_append.mp h.forget.nodup).2.1
  have hp := (List.nodup_flatMap.mp hn).2
  refine List.pairwise_map.mpr (hp.imp ?_)
  intro s t hd he
  exact hd (root_mem_frames s) (he ▸ root_mem_frames t)

theorem FrameAllocator.Tracks.root_injective
    (h : a.Tracks kernelRoot (spaces.flatMap AddressSpace.frames ++ rest)) (hs : s ∈ spaces)
    (ht : t ∈ spaces) (he : s.root = t.root) : s = t :=
  List.inj_on_of_nodup_map h.roots_nodup hs ht he

/-- A frame given to the one address space with this root. -/
def AddressSpace.grow (root frame : ℕ) (s : AddressSpace) : AddressSpace :=
  if s.root = root then { s with ownedFrames := frame :: s.ownedFrames } else s

@[simp] theorem grow_root {root : ℕ} : (s.grow root frame).root = s.root := by
  unfold AddressSpace.grow
  split <;> rfl

@[simp] theorem grow_boundTo {root : ℕ} : (s.grow root frame).boundTo = s.boundTo := by
  unfold AddressSpace.grow
  split <;> rfl

/-- The one address space with this root gets its task. -/
def AddressSpace.bind (root handle : ℕ) (s : AddressSpace) : AddressSpace :=
  if s.root = root then { s with boundTo := some handle } else s

@[simp] theorem bind_root {root handle : ℕ} : (s.bind root handle).root = s.root := by
  unfold AddressSpace.bind
  split <;> rfl

@[simp] theorem bind_frames {root handle : ℕ} : (s.bind root handle).frames = s.frames := by
  unfold AddressSpace.bind
  split <;> rfl

theorem grow_frames (hn : (spaces.map AddressSpace.root).Nodup) (hs : s ∈ spaces) :
    ((spaces.map (AddressSpace.grow s.root frame)).flatMap AddressSpace.frames).Perm
      (frame :: spaces.flatMap AddressSpace.frames) := by
  induction spaces with
  | nil => cases hs
  | cons u rest ih =>
    obtain ⟨hnew, hrest⟩ := List.nodup_cons.mp hn
    simp only [List.map_cons, List.flatMap_cons]
    rcases List.mem_cons.mp hs with rfl | hs
    · have hid : rest.map (AddressSpace.grow s.root frame) = rest := by
        refine (List.map_congr_left fun v hv => ?_).trans (List.map_id _)
        have hne : v.root ≠ s.root := fun he => hnew (he ▸ List.mem_map_of_mem hv)
        exact if_neg hne
      have hgrown : (s.grow s.root frame).frames = frame :: s.frames := by
        simp [AddressSpace.grow, AddressSpace.frames]
      rw [hid, hgrown, List.cons_append]
    · have hne : u.root ≠ s.root := fun he => hnew (he.symm ▸ List.mem_map_of_mem hs)
      have hsame : u.grow s.root frame = u := if_neg hne
      rw [hsame]
      exact ((ih hrest hs).append_left _).trans List.perm_middle

theorem FrameAllocator.Tracks.root_not_free
    (h : a.Tracks kernelRoot (spaces.flatMap AddressSpace.frames ++ rest)) (hs : s ∈ spaces) :
    s.root ∉ a.free :=
  h.not_free (List.mem_append_left _ (List.mem_flatMap.mpr ⟨s, hs, root_mem_frames s⟩))

end Spaces

end FramePool
