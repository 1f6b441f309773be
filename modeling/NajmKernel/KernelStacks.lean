import Mathlib.Data.List.Nodup
import Mathlib.Tactic.Common

/-! Kernel stacks: their fixed virtual slots and the slot allocator. A slot is one
unmapped guard page below the stack itself, so two stacks of different slots are disjoint. -/
namespace KernelStacks

def kernelStackArea : ℕ := 0xffff_d000_0000_0000

def kernelStackSize : ℕ := 16 * 1024

def kernelStackSlot : ℕ := kernelStackSize + 4096

def kernelStackSlots : ℕ := 256

def slotBottom (slot : ℕ) : ℕ := kernelStackArea + slot * kernelStackSlot + 4096

theorem slotBottom_eq (slot : ℕ) : slotBottom slot = 0xffff_d000_0000_1000 + slot * 20480 := by
  unfold slotBottom kernelStackSlot kernelStackArea kernelStackSize
  omega

theorem kernelStackSize_eq : kernelStackSize = 16384 := rfl

/-- A stack handed out by `allocate`; its bounds are those of its slot. -/
structure KernelStack where
  slot : ℕ
  bottom : ℕ
  top : ℕ
  bottom_eq : bottom = slotBottom slot
  top_eq : top = bottom + kernelStackSize
  deriving DecidableEq

/-- The stack of a slot. -/
def KernelStack.ofSlot (slot : ℕ) : KernelStack where
  slot := slot
  bottom := slotBottom slot
  top := slotBottom slot + kernelStackSize
  bottom_eq := rfl
  top_eq := rfl

/-- The addresses RSP can hold while it points into the stack: the empty stack has RSP = top. -/
def KernelStack.Holds (k : KernelStack) (rsp : ℕ) : Prop := k.bottom < rsp ∧ rsp ≤ k.top

instance (k : KernelStack) (rsp : ℕ) : Decidable (k.Holds rsp) :=
  inferInstanceAs (Decidable (_ ∧ _))

theorem KernelStack.slot_injective {k l : KernelStack} (h : k.slot = l.slot) : k = l := by
  rcases k with ⟨s, b, t, hb, ht⟩
  rcases l with ⟨s', b', t', hb', ht'⟩
  simp only at h
  subst h hb ht hb' ht'
  rfl

/-- The bounds as plain numbers, for arithmetic on addresses. -/
theorem KernelStack.bounds (k : KernelStack) :
    k.bottom = 0xffff_d000_0000_1000 + k.slot * 20480 ∧
      k.top = 0xffff_d000_0000_1000 + k.slot * 20480 + 16384 := by
  rw [k.top_eq, k.bottom_eq, slotBottom_eq, kernelStackSize_eq]
  exact ⟨rfl, rfl⟩

/-- A stack pointer tells which slot it points into. -/
theorem KernelStack.holds_unique {k l : KernelStack} {rsp : ℕ} (hk : k.Holds rsp)
    (hl : l.Holds rsp) : k = l := by
  apply KernelStack.slot_injective
  obtain ⟨hkb, hkt⟩ := k.bounds
  obtain ⟨hlb, hlt⟩ := l.bounds
  unfold KernelStack.Holds at hk hl
  omega

/-- Slot size and slot bases are multiples of 16. -/
theorem KernelStack.top_aligned (k : KernelStack) : k.top % 16 = 0 := by
  have := k.bounds.2
  omega

structure Allocator where
  nextSlot : ℕ
  freeSlots : List ℕ
  deriving DecidableEq

def Allocator.initial : Allocator := ⟨0, []⟩

/-- `frames` tells whether the frame allocator can back a fresh slot; when it cannot, the
slot number is consumed all the same. Free slots are popped in LIFO order. -/
def Allocator.allocate (a : Allocator) (frames : Bool) : Allocator × Option KernelStack :=
  match a.freeSlots with
  | slot :: rest => ({ a with freeSlots := rest }, some (.ofSlot slot))
  | [] =>
    if a.nextSlot < kernelStackSlots then
      ({ a with nextSlot := a.nextSlot + 1 },
        if frames then some (.ofSlot a.nextSlot) else none)
    else (a, none)

def Allocator.release (a : Allocator) (k : KernelStack) : Allocator :=
  { a with freeSlots := k.slot :: a.freeSlots }

/-- The slots the allocator has handed out, or may hand out again, are those below the mark;
the free list holds each at most once, and none that is still `used`. -/
structure Allocator.Tracks (a : Allocator) (used : List ℕ) : Prop where
  used_nodup : used.Nodup
  free_nodup : a.freeSlots.Nodup
  used_lt : ∀ i ∈ used, i < a.nextSlot
  free_lt : ∀ i ∈ a.freeSlots, i < a.nextSlot
  disjoint : ∀ i ∈ used, i ∉ a.freeSlots

theorem Allocator.Tracks.perm {a : Allocator} {used used' : List ℕ} (h : a.Tracks used)
    (hp : used.Perm used') : a.Tracks used' where
  used_nodup := hp.nodup_iff.mp h.used_nodup
  free_nodup := h.free_nodup
  used_lt i hi := h.used_lt i (hp.mem_iff.mpr hi)
  free_lt := h.free_lt
  disjoint i hi := h.disjoint i (hp.mem_iff.mpr hi)

theorem Allocator.Tracks.initial : Allocator.initial.Tracks [] := by
  constructor <;> simp [Allocator.initial]

theorem Allocator.Tracks.allocate {a : Allocator} {used : List ℕ} {frames : Bool}
    {k : KernelStack} (h : a.Tracks used) (hk : (a.allocate frames).2 = some k) :
    (a.allocate frames).1.Tracks (k.slot :: used) := by
  rcases h with ⟨hu, hf, hul, hfl, hd⟩
  cases hs : a.freeSlots with
  | cons slot rest =>
    obtain rfl : KernelStack.ofSlot slot = k := by simpa [Allocator.allocate, hs] using hk
    have hmem : slot ∈ a.freeSlots := by simp [hs]
    have hfresh : slot ∉ used := fun hm => hd slot hm hmem
    rw [hs, List.nodup_cons] at hf
    constructor
    · exact List.nodup_cons.mpr ⟨hfresh, hu⟩
    · simpa [Allocator.allocate, hs] using hf.2
    · simpa [Allocator.allocate, hs, KernelStack.ofSlot] using ⟨hfl slot hmem, hul⟩
    · simp only [Allocator.allocate, hs]
      exact fun i hi => hfl i (by simp [hs, hi])
    · simp only [Allocator.allocate, hs, List.mem_cons, forall_eq_or_imp]
      exact ⟨hf.1, fun i hi hr => hd i hi (by simp [hs, hr])⟩
  | nil =>
    by_cases hlt : a.nextSlot < kernelStackSlots
    · cases frames with
      | false => simp [Allocator.allocate, hs, hlt] at hk
      | true =>
        obtain rfl : KernelStack.ofSlot a.nextSlot = k := by
          simpa [Allocator.allocate, hs, hlt] using hk
        constructor
        · exact List.nodup_cons.mpr ⟨fun hm => absurd (hul _ hm) (Nat.lt_irrefl _), hu⟩
        · simp [Allocator.allocate, hs, hlt]
        · intro i hi
          simp only [Allocator.allocate, hs, hlt, if_true]
          rcases List.mem_cons.mp hi with rfl | hi
          · simp [KernelStack.ofSlot]
          · have := hul i hi
            omega
        · simp [Allocator.allocate, hs, hlt]
        · simp [Allocator.allocate, hs, hlt]
    · simp [Allocator.allocate, hs, hlt] at hk

theorem Allocator.Tracks.allocate_none {a : Allocator} {used : List ℕ} {frames : Bool}
    (h : a.Tracks used) (hk : (a.allocate frames).2 = none) :
    (a.allocate frames).1.Tracks used := by
  rcases h with ⟨hu, hf, hul, hfl, hd⟩
  cases hs : a.freeSlots with
  | cons slot rest => simp [Allocator.allocate, hs] at hk
  | nil =>
    by_cases hlt : a.nextSlot < kernelStackSlots
    · simp only [Allocator.allocate, hs, hlt, if_true]
      rw [← hs]
      exact ⟨hu, hf, fun i hi => Nat.lt_succ_of_lt (hul i hi),
        fun i hi => Nat.lt_succ_of_lt (hfl i hi), hd⟩
    · simpa [Allocator.allocate, hs, hlt] using Allocator.Tracks.mk hu hf hul hfl hd

theorem Allocator.Tracks.release {a : Allocator} {used : List ℕ} {k : KernelStack}
    (h : a.Tracks (k.slot :: used)) : (a.release k).Tracks used := by
  rcases h with ⟨hu, hf, hul, hfl, hd⟩
  rw [List.nodup_cons] at hu
  constructor
  · exact hu.2
  · exact List.nodup_cons.mpr ⟨hd _ (by simp), hf⟩
  · exact fun i hi => hul i (by simp [hi])
  · intro i hi
    rcases List.mem_cons.mp hi with rfl | hi
    · exact hul _ (by simp)
    · exact hfl i hi
  · intro i hi hm
    rcases List.mem_cons.mp hm with rfl | hm
    · exact hu.1 hi
    · exact hd i (by simp [hi]) hm

end KernelStacks
