import NajmKernel.KernelStacks
import NajmKernel.PageTables
import NajmKernel.TransitionSystem

/-! Kernel stacks over whole runs: how a fresh slot gets its pages, and what becomes of the slots
when it does not. -/
namespace StackSlots

open PhysicalMemory PageTables KernelStacks TransitionSystem

/-- A mapper and a frame allocator. -/
structure Backing (σ : Type) where
  allocateFrame : σ → Option Frame × σ
  mapTo (page : ℕ) (frame : Frame) (flags : PageTableFlags) : σ → Bool × σ

section Mapping

variable {σ : Type} (X : Backing σ)

/-- The loop over a fresh slot's pages, which gives up at the first that gets no frame or cannot
be mapped. -/
def mapPages (flags : PageTableFlags) : List ℕ → σ → Bool × σ
  | [], s => (true, s)
  | page :: rest, s =>
    match X.allocateFrame s with
    | (none, s) => (false, s)
    | (some frame, s) =>
      match X.mapTo page frame flags s with
      | (false, s) => (false, s)
      | (true, s) => mapPages flags rest s

def stackFlags (nx : Bool) : PageTableFlags :=
  if nx then .present ||| .writable ||| .noExecute else .present ||| .writable

def stackPages (slot : ℕ) : List ℕ :=
  (List.range (kernelStackSize / 4096)).map fun i => (slotBottom slot + i * 4096) / 4096

/-- Whether the slot can be mapped. -/
def backs (nx : Bool) (slot : ℕ) (s : σ) : Bool := (mapPages X (stackFlags nx) (stackPages slot) s).1

/-- A reused slot is mapped already. -/
def allocate (nx : Bool) (a : Allocator) (s : σ) : Option KernelStack × Allocator × σ :=
  match a.freeSlots with
  | slot :: rest => (some (.ofSlot slot), { a with freeSlots := rest }, s)
  | [] =>
    if a.nextSlot < kernelStackSlots then
      let claimed := { a with nextSlot := a.nextSlot + 1 }
      match mapPages X (stackFlags nx) (stackPages a.nextSlot) s with
      | (true, s) => (some (.ofSlot a.nextSlot), claimed, s)
      | (false, s) => (none, claimed, s)
    else (none, a, s)

variable {X} (nx : Bool) (a : Allocator) (s : σ)

/-- The slots depend on whether the pages were mapped, and on nothing else of the loop. -/
theorem allocate_eq : ∃ s', allocate X nx a s =
    ((a.allocate (backs X nx a.nextSlot s)).2, (a.allocate (backs X nx a.nextSlot s)).1, s') := by
  rw [allocate, Allocator.allocate]
  cases a.freeSlots with
  | cons slot rest => exact ⟨s, rfl⟩
  | nil =>
    dsimp only
    by_cases hlt : a.nextSlot < kernelStackSlots
    · rw [if_pos hlt, if_pos hlt, backs]
      rcases mapPages X (stackFlags nx) (stackPages a.nextSlot) s with ⟨_ | _, s'⟩
      · exact ⟨s', rfl⟩
      · exact ⟨s', rfl⟩
    · rw [if_neg hlt, if_neg hlt]
      exact ⟨s, rfl⟩

theorem allocate_stack :
    (allocate X nx a s).1 = (a.allocate (backs X nx a.nextSlot s)).2 := by
  obtain ⟨s', h⟩ := allocate_eq (X := X) nx a s
  rw [h]

theorem allocate_after :
    (allocate X nx a s).2.1 = (a.allocate (backs X nx a.nextSlot s)).1 := by
  obtain ⟨s', h⟩ := allocate_eq (X := X) nx a s
  rw [h]

end Mapping

section Slots

/-- Slots in use, slots ever allocated, and the capacity. -/
def stats (a : Allocator) : ℕ × ℕ × ℕ :=
  (a.nextSlot - a.freeSlots.length, a.nextSlot, kernelStackSlots)

def guardPage (k : KernelStack) : ℕ := k.bottom - 4096

theorem guardPage_add (k : KernelStack) : guardPage k + 4096 = k.bottom := by
  have hle : 4096 ≤ k.bottom := by
    obtain ⟨hbottom, -⟩ := k.bounds
    omega
  exact Nat.sub_add_cancel hle

/-- The slots in use as the allocator sees them. -/
def inUse (a : Allocator) : Set ℕ := { i | i < a.nextSlot ∧ i ∉ a.freeSlots }

/-- The stacks that are held somewhere. -/
structure Stacks where
  allocator : Allocator
  live : List KernelStack
  deriving DecidableEq

def Stacks.initial : Stacks := ⟨.initial, []⟩

/-- A call of `allocate` finds a mapper and a frame allocator in some state; a live stack is given
back by its owner, once. -/
inductive Event (σ : Type) where
  | allocate (nx : Bool) (backing : σ)
  | release (i : ℕ)

variable {σ : Type} (X : Backing σ)

def next (v : Stacks) : Event σ → Option Stacks
  | .allocate nx s =>
    let (stack, allocator, _) := allocate X nx v.allocator s
    some ⟨allocator, stack.toList ++ v.live⟩
  | .release i => match v.live[i]? with
    | none => none
    | some stack => some ⟨v.allocator.release stack, v.live.eraseIdx i⟩

/-- Each slot below the mark is free, or one live stack holds it. -/
structure Partitioned (v : Stacks) : Prop where
  free_nodup : v.allocator.freeSlots.Nodup
  live_lt : ∀ k ∈ v.live, k.slot < v.allocator.nextSlot
  free_lt : ∀ i ∈ v.allocator.freeSlots, i < v.allocator.nextSlot
  either : ∀ i < v.allocator.nextSlot,
    (i ∈ v.allocator.freeSlots ∧ (v.live.map KernelStack.slot).count i = 0) ∨
      (i ∉ v.allocator.freeSlots ∧ (v.live.map KernelStack.slot).count i = 1)

/-- Live stacks overlap neither each other nor the guard page of any slot. -/
structure Separated (v : Stacks) : Prop where
  apart : v.live.Pairwise fun k l => k.top ≤ l.bottom ∨ l.top ≤ k.bottom
  aligned : ∀ k ∈ v.live, k.top % 16 = 0
  guarded : ∀ k ∈ v.live, ∀ l : KernelStack, k.top ≤ guardPage l ∨ guardPage l + 4096 ≤ k.bottom

/-- A call that fails leaves the slots as they were. -/
def FailsWhole (v : Stacks) : Event σ → Prop
  | .allocate nx s => (allocate X nx v.allocator s).1 = none →
    (∀ i, i ∈ (allocate X nx v.allocator s).2.1.freeSlots ↔ i ∈ v.allocator.freeSlots) ∧
      inUse (allocate X nx v.allocator s).2.1 = inUse v.allocator ∧
      stats (allocate X nx v.allocator s).2.1 = stats v.allocator
  | .release _ => True

/-- A fresh slot gets all its pages. -/
def Backed (v : Stacks) : Event σ → Prop
  | .allocate nx s => v.allocator.freeSlots = [] → v.allocator.nextSlot < kernelStackSlots →
    backs X nx v.allocator.nextSlot s = true
  | .release _ => True

variable {X} {v u : Stacks} {e : Event σ} {es : List (Event σ)}

theorem allocate_of_full (hfree : v.allocator.freeSlots = [])
    (hfull : ¬ v.allocator.nextSlot < kernelStackSlots) (frames : Bool) :
    v.allocator.allocate frames = (v.allocator, none) := by
  rw [Allocator.allocate, hfree]
  exact if_neg hfull

theorem allocate_of_fresh (hfree : v.allocator.freeSlots = [])
    (hlt : v.allocator.nextSlot < kernelStackSlots) (frames : Bool) :
    v.allocator.allocate frames = (⟨v.allocator.nextSlot + 1, []⟩,
      if frames then some (.ofSlot v.allocator.nextSlot) else none) := by
  rw [Allocator.allocate, hfree]
  exact if_pos hlt

theorem allocate_of_free {slot : ℕ} {rest : List ℕ} (hfree : v.allocator.freeSlots = slot :: rest)
    (frames : Bool) : v.allocator.allocate frames =
      (⟨v.allocator.nextSlot, rest⟩, some (.ofSlot slot)) := by
  rw [Allocator.allocate, hfree]

theorem failsWhole_iff_backed : FailsWhole X v e ↔ Backed X v e := by
  cases e with
  | release i => exact Iff.rfl
  | allocate nx s =>
    rw [FailsWhole, Backed, allocate_stack, allocate_after]
    cases hfree : v.allocator.freeSlots with
    | cons slot rest =>
      rw [allocate_of_free hfree]
      exact ⟨fun _ hnil => (nomatch hnil), fun _ hnone => (nomatch hnone)⟩
    | nil =>
      by_cases hlt : v.allocator.nextSlot < kernelStackSlots
      · rw [allocate_of_fresh hfree hlt]
        cases hbacks : backs X nx v.allocator.nextSlot s with
        | true => exact ⟨fun _ _ _ => rfl, fun _ hnone => (nomatch hnone)⟩
        | false =>
          constructor
          · -- The slot counts as allocated.
            intro hwhole
            obtain ⟨-, -, hstats⟩ := hwhole rfl
            exact absurd (Prod.mk.inj (Prod.mk.inj hstats).2).1 (Nat.succ_ne_self _)
          · intro hbacked
            nomatch hbacked rfl hlt
      · rw [allocate_of_full hfree hlt]
        exact ⟨fun _ _ h => absurd h hlt, fun _ _ => ⟨fun _ => by rw [hfree], rfl, rfl⟩⟩

end Slots

section Runs

variable {σ : Type} {X : Backing σ} {v u : Stacks} {e : Event σ} {es : List (Event σ)}

/-- The slots in use are those of the live stacks, and no slot below the mark is lost. -/
structure Accounted (v : Stacks) : Prop where
  tracks : v.allocator.Tracks (v.live.map KernelStack.slot)
  known : ∀ i < v.allocator.nextSlot, i ∈ v.allocator.freeSlots ∨ i ∈ v.live.map KernelStack.slot

theorem Accounted.partitioned (h : Accounted v) : Partitioned v where
  free_nodup := h.tracks.free_nodup
  live_lt k hk := h.tracks.used_lt _ (List.mem_map_of_mem hk)
  free_lt := h.tracks.free_lt
  either i hi := by
    rcases h.known i hi with hfree | hlive
    · refine Or.inl ⟨hfree, List.count_eq_zero.mpr fun hlive => ?_⟩
      exact h.tracks.disjoint i hlive hfree
    · exact Or.inr ⟨h.tracks.disjoint i hlive,
        List.count_eq_one_of_mem h.tracks.used_nodup hlive⟩

theorem Accounted.separated (h : Accounted v) : Separated v where
  apart := by
    refine (List.pairwise_map.mp h.tracks.used_nodup).imp ?_
    intro k l hne
    obtain ⟨hkb, hkt⟩ := k.bounds
    obtain ⟨hlb, hlt⟩ := l.bounds
    omega
  aligned k _ := KernelStack.top_aligned k
  guarded k _ l := by
    obtain ⟨hkb, hkt⟩ := k.bounds
    obtain ⟨hlb, hlt⟩ := l.bounds
    have hguard := guardPage_add l
    omega

theorem accounted_initial : Accounted .initial :=
  ⟨.initial, fun _ hi => absurd hi (Nat.not_lt_zero _)⟩

theorem next_allocate {nx : Bool} {s : σ} : next X v (.allocate nx s) =
    some ⟨(v.allocator.allocate (backs X nx v.allocator.nextSlot s)).1,
      (v.allocator.allocate (backs X nx v.allocator.nextSlot s)).2.toList ++ v.live⟩ := by
  rw [next]
  obtain ⟨s', h⟩ := allocate_eq (X := X) nx v.allocator s
  rw [h]

/-- A claimed slot that is backed goes to a live stack, and a released one to the free list. -/
theorem accounted_preserved : Preserves (next X) (Backed X) Accounted := by
  intro v e u h hbacked hnext
  cases e with
  | allocate nx s =>
    rw [next_allocate] at hnext
    obtain rfl := Option.some.inj hnext
    cases hfree : v.allocator.freeSlots with
    | cons slot rest =>
      have htracks := h.tracks.allocate (congrArg Prod.snd (allocate_of_free hfree true))
      rw [allocate_of_free hfree] at htracks ⊢
      refine ⟨htracks, fun i hi => ?_⟩
      rcases h.known i hi with hmem | hmem
      · rw [hfree] at hmem
        rcases List.mem_cons.mp hmem with rfl | hmem
        · exact Or.inr List.mem_cons_self
        · exact Or.inl hmem
      · exact Or.inr (List.mem_cons_of_mem _ hmem)
    | nil =>
      by_cases hlt : v.allocator.nextSlot < kernelStackSlots
      · have hok := hbacked hfree hlt
        rw [hok]
        have htracks := h.tracks.allocate (congrArg Prod.snd (allocate_of_fresh hfree hlt true))
        rw [allocate_of_fresh hfree hlt] at htracks ⊢
        refine ⟨htracks, fun i hi => Or.inr ?_⟩
        rcases Nat.lt_succ_iff_lt_or_eq.mp hi with hold | rfl
        · rcases h.known i hold with hmem | hmem
          · rw [hfree] at hmem
            nomatch hmem
          · exact List.mem_cons_of_mem _ hmem
        · exact List.mem_cons_self
      · rw [allocate_of_full hfree hlt]
        exact h
  | release i =>
    rw [next] at hnext
    cases hlive : v.live[i]? with
    | none =>
      rw [hlive] at hnext
      nomatch hnext
    | some k =>
      rw [hlive] at hnext
      obtain rfl := Option.some.inj hnext
      obtain ⟨hi, rfl⟩ := List.getElem?_eq_some_iff.mp hlive
      have hperm : (v.live.map KernelStack.slot).Perm
          (v.live[i].slot :: (v.live.eraseIdx i).map KernelStack.slot) :=
        (List.getElem_cons_eraseIdx_perm hi).symm.map KernelStack.slot
      refine ⟨(h.tracks.perm hperm).release, fun j hj => ?_⟩
      rcases h.known j hj with hmem | hmem
      · exact Or.inl (List.mem_cons_of_mem _ hmem)
      · rcases List.mem_cons.mp (hperm.mem_iff.mp hmem) with rfl | hmem
        · exact Or.inl List.mem_cons_self
        · exact Or.inr hmem

/-- Failing calls leave the slots alone, and the slots stay partitioned, in just the runs in which
each fresh slot gets all its pages. -/
theorem slots_kept_iff (es : List (Event σ)) :
    (Meets (next X) (FailsWhole X) .initial es ∧
      Always (next X) (fun v => Partitioned v ∧ Separated v) .initial es) ↔
    Meets (next X) (Backed X) .initial es := by
  constructor
  · rintro ⟨hwhole, -⟩
    exact hwhole.mono fun v e => failsWhole_iff_backed.mp
  · intro hbacked
    refine ⟨hbacked.mono fun v e => failsWhole_iff_backed.mpr, ?_⟩
    exact hbacked.always accounted_preserved (fun v h => ⟨h.partitioned, h.separated⟩)
      accounted_initial

/-- So many frames, and then none; what is mapped makes no difference to a slot's first mapping. -/
def counted : Backing ℕ where
  allocateFrame
    | 0 => (none, 0)
    | n + 1 => (some (BitVec.ofNat 40 n), n)
  mapTo _ _ _ s := (true, s)

/-- The frames run out at the third page: a slot counts as in use that no stack holds. -/
theorem slot_lost : ¬ (Meets (next counted) (FailsWhole counted) .initial [.allocate true 2] ∧
    Always (next counted) (fun v => Partitioned v ∧ Separated v) .initial [.allocate true 2]) := by
  intro h
  have hbacked := (Meets.mono (fun _ _ => failsWhole_iff_backed.mp) h.1).1 rfl (by decide)
  revert hbacked
  decide

end Runs

end StackSlots
