import NajmKernel.BootStates

/-! `write_at` and `zero_at` on any space of any run: the loop comes to an end, at the first address
without a page if there is one, and changes the bytes of the range before it and no others. -/
namespace SpaceRuns

open PhysicalMemory PageTables PhysicalFrames AddressSpaces TransitionSystem

variable {X : Mapper} {kernelRoot : Frame} {level : Frame → Option ℕ} {data : Frame → Prop}
  {s₀ s : State} {place : ℕ → Placement} {id a addr len page done turns : ℕ} {f : Frame}
  {space : AddressSpace} {es : List Event} {m m' : Memory} {content : ℕ → ℕ → List UInt8}
  {D : Frame → Prop} {bytes : ℕ → UInt8}

section Kernel

/-- What the kernel's tables are to a space that shares them. -/
def kernelSpace (kernelRoot : Frame) : AddressSpace := ⟨kernelRoot, []⟩

/-- No two 4 KiB pages of the upper half lie in one frame. -/
def PagesApart (kernelRoot : Frame) (m : Memory) : Prop :=
  ∀ a b f, 2 ^ 47 ≤ a → 2 ^ 47 ≤ b → (kernelSpace kernelRoot).translate m a = some f →
    (kernelSpace kernelRoot).translate m b = some f → a / 4096 = b / 4096

theorem KernelHalf.below_congr (K : KernelHalf m kernelRoot level data)
    (hm : ∀ f, level f ≠ none → m' f = m f) {l : ℕ} {t : Frame} (ht : level t = some (l + 1))
    (hl : l < 3) : AddressSpace.translateFrom m' (l + 1) t page =
      AddressSpace.translateFrom m (l + 1) t page := by
  have he : entry m' t (index (l + 1) page) = entry m t (index (l + 1) page) :=
    entry_congr (hm t (by simp [ht]))
  induction l generalizing t with
  | zero => simp only [AddressSpace.translateFrom, he]
  | succ l ih =>
    rw [AddressSpace.translateFrom, he]
    nth_rewrite 2 [AddressSpace.translateFrom]
    split
    case isTrue => rfl
    case isFalse hp =>
      rw [Bool.not_eq_false] at hp
      split
      case isTrue => rfl
      case isFalse hh =>
        rcases (K.child ht (Nat.mod_lt _ (by decide)) (by omega) hp).1 (by omega) with hc | hc
        · exact absurd ⟨by omega, hc⟩ hh
        · exact ih hc (by omega) (entry_congr (hm _ (Option.ne_none_iff_exists'.mpr ⟨_, hc⟩)))

/-- A space with the kernel's upper entries finds the kernel's pages in the upper half. -/
theorem KernelHalf.translate_congr (K : KernelHalf m kernelRoot level data)
    (hupper : ∀ i, 256 ≤ i → i < 512 → m'.word space.root i = m.word kernelRoot i)
    (hm : ∀ f, level f ≠ none → m' f = m f) (ha : 2 ^ 47 ≤ a) :
    space.translate m' a = (kernelSpace kernelRoot).translate m a := by
  rw [AddressSpace.translate, AddressSpace.translate]
  split
  case isFalse => rfl
  case isTrue hc =>
    have hi : 256 ≤ index 4 (a / 4096) := by
      have hc' := of_decide_eq_true hc
      rw [index]
      norm_num
      omega
    have hi' : index 4 (a / 4096) < 512 := Nat.mod_lt _ (by decide)
    have he : entry m' space.root (index 4 (a / 4096)) =
        entry m (kernelSpace kernelRoot).root (index 4 (a / 4096)) := by
      rw [kernelSpace, entry, entry, hupper _ hi hi']
    rw [AddressSpace.translateFrom, he]
    nth_rewrite 2 [AddressSpace.translateFrom]
    split
    case isTrue => rfl
    case isFalse hp =>
      rw [Bool.not_eq_false] at hp
      split
      case isTrue => rfl
      case isFalse hh =>
        rcases (K.child K.root hi' (fun _ => hi) hp).1 (by omega) with hx | hx
        · exact absurd ⟨by omega, hx⟩ hh
        · exact K.below_congr hm hx (by omega)

end Kernel

namespace Isolated

/-- The frames that a transfer through a space may write to. -/
def Reach (place : ℕ → Placement) (data : Frame → Prop) (a : ℕ) (g : Frame) : Prop :=
  (∃ n, place a g = some (0, n)) ∨ data g

variable (I : Isolated kernelRoot level data s₀ s place)
include I

theorem placed_kept (hm : ∀ g, ¬ Reach place data id g → m g = s.system.bytes g) {l n : ℕ}
    (hf : place id f = some (l + 1, n)) : m f = s.system.bytes f := by
  apply hm
  rintro (⟨k, hk⟩ | hd)
  · rw [hf] at hk
    simp at hk
  · exact I.not_page (a := id) (by simp [hf]) hd

variable (hs : s.spaces id = some space)
include hs

theorem translate_upper (hm : ∀ g, ¬ Reach place data id g → m g = s.system.bytes g)
    (ha : 2 ^ 47 ≤ a) :
    space.translate m a = (kernelSpace kernelRoot).translate s₀.system.bytes a := by
  refine I.start.kernel.translate_congr (fun i h1 h2 => ?_) (fun f hf => ?_) ha
  · rw [← I.upper hs i h1 h2]
    exact Memory.word_of_frame_eq (I.placed_kept hm (I.tree hs).atRoot)
  · rw [hm, I.kernel hf]
    rintro (⟨n, hn⟩ | hd)
    · exact hf (I.not_table (a := id) (by simp [hn]))
    · exact hf (I.start.kernel.apart hd)

/-- What a transfer may write leads nowhere: every address keeps its frame. -/
theorem translate_kept (hm : ∀ g, ¬ Reach place data id g → m g = s.system.bytes g) (a : ℕ) :
    space.translate m a = space.translate s.system.bytes a := by
  by_cases ha : a < 2 ^ 47
  · exact AddressSpaces.translate_congr (I.tree hs) (fun f l n hf => I.placed_kept hm hf) ha
  · rw [I.translate_upper hs hm (Nat.not_lt.mp ha),
      I.translate_upper hs (fun _ _ => rfl) (Nat.not_lt.mp ha)]

theorem page_kernel (ha : 2 ^ 47 ≤ a) (hf : space.translate s.system.bytes a = some f) :
    data f := by
  rw [I.translate_upper hs (fun _ _ => rfl) ha] at hf
  exact I.start.kernel.translate (fun _ _ _ => rfl) (Nat.not_lt.mpr ha) hf

theorem steady (hkernel : 2 ^ 47 < addr + len → PagesApart kernelRoot s₀.system.bytes) :
    Steady space addr len (Reach place data id) s.system.bytes where
  pages {k f} hk hf := by
    by_cases ha : addr + k < 2 ^ 47
    · exact Or.inl ⟨_, place_of_translate (I.tree hs) ha hf⟩
    · exact Or.inr (I.page_kernel hs (Nat.not_lt.mp ha) hf)
  apart {j k f} hj hk hf hf' := by
    have hmixed : ∀ {x y}, x < 2 ^ 47 → 2 ^ 47 ≤ y → space.translate s.system.bytes x = some f →
        space.translate s.system.bytes y = some f → False := fun hx hy h h' =>
      I.not_page (a := id) (by simp [place_of_translate (I.tree hs) hx h]) (I.page_kernel hs hy h')
    rcases Nat.lt_or_ge (addr + j) (2 ^ 47) with hlow | hhigh
    · rcases Nat.lt_or_ge (addr + k) (2 ^ 47) with hlow' | hhigh'
      · have h := place_of_translate (I.tree hs) hlow hf
        rw [place_of_translate (I.tree hs) hlow' hf'] at h
        simp only [Option.some.injEq, Prod.mk.injEq, true_and] at h
        exact h.symm
      · exact (hmixed hlow hhigh' hf hf').elim
    · rcases Nat.lt_or_ge (addr + k) (2 ^ 47) with hlow' | hhigh'
      · exact (hmixed hlow' hhigh hf' hf).elim
      · rw [I.translate_upper hs (fun _ _ => rfl) hhigh] at hf
        rw [I.translate_upper hs (fun _ _ => rfl) hhigh'] at hf'
        exact hkernel (by omega) _ _ _ hhigh hhigh' hf hf'
  stable h k _ := I.translate_kept hs h _

end Isolated

section Loops

/-- The loop of `write_at` and `zero_at`, as long as it takes, with its addresses in 64 bits. -/
inductive Loop (space : AddressSpace) (addr len : ℕ) (content : ℕ → ℕ → List UInt8) :
    ℕ → Memory → Except MapError Unit × Memory → Prop
  | finished {done : ℕ} {m : Memory} (hd : ¬ done < len) :
      Loop space addr len content done m (.ok (), m)
  | unmapped {done : ℕ} {m : Memory} (hd : done < len) (hsum : addr + done < 2 ^ 64)
      (hf : space.translate m (addr + done) = none) :
      Loop space addr len content done m (.error (.notMapped (addr + done)), m)
  | moved {done chunk : ℕ} {m : Memory} {frame : Frame} {r : Except MapError Unit × Memory}
      (hd : done < len) (hsum : addr + done < 2 ^ 64)
      (hchunk : chunk = min (4096 - (addr + done) % 4096) (len - done))
      (hf : space.translate m (addr + done) = some frame)
      (rest : Loop space addr len content (done + chunk)
        (m.write frame ((addr + done) % 4096) (content done chunk)) r) :
      Loop space addr len content done m r

/-- The last address of all is not one that the loop goes beyond. -/
def Fits (space : AddressSpace) (m : Memory) (addr len : ℕ) : Prop :=
  addr < 2 ^ 64 ∧ (addr + len ≤ 2 ^ 64 ∨ space.translate m (2 ^ 64 - 1) = none)

theorem Fits.sum_lt (h : Fits space m addr len) (hd : done < len)
    (hmapped : ∀ k < done, space.translate m (addr + k) ≠ none) : addr + done < 2 ^ 64 := by
  obtain ⟨haddr, hend | hlast⟩ := h
  · omega
  · by_contra hge
    refine hmapped (2 ^ 64 - 1 - addr) (by omega) ?_
    rw [Nat.add_sub_cancel' (by omega)]
    exact hlast

theorem loop_of_transfer (S : Steady space addr len D m) (hfits : Fits space m addr len)
    (hm : ∀ g, ¬ D g → m' g = m g)
    (hmapped : ∀ k < done, space.translate m (addr + k) ≠ none) (hturns : len - done ≤ turns) :
    Loop space addr len content done m' (space.transfer addr len content turns done m') := by
  induction turns generalizing done m' with
  | zero => exact .finished (by omega)
  | succ turns ih =>
    rw [AddressSpace.transfer]
    split
    case isFalse hd => exact .finished hd
    case isTrue hd =>
      have hsum := hfits.sum_lt hd hmapped
      simp only
      split
      case h_1 hf => exact .unmapped hd hsum hf
      case h_2 frame hf =>
        have hf' : space.translate m (addr + done) = some frame := by
          rw [← S.stable hm done hd]
          exact hf
        refine .moved hd hsum rfl hf (ih (fun g hg => ?_) (fun k hk => ?_) (by omega))
        · rw [Memory.write_frame_ne, hm g hg]
          rintro rfl
          exact hg (S.pages hd hf')
        · by_cases hk' : k < done
          · exact hmapped k hk'
          · rw [translate_page space m (show (addr + k) / 4096 = (addr + done) / 4096 by omega),
              hf']
            exact Option.some_ne_none frame

end Loops

/-- What a transfer comes to: `r` is its result and the memory that it leaves. -/
structure Performs (space : AddressSpace) (addr len : ℕ) (content : ℕ → ℕ → List UInt8)
    (bytes : ℕ → UInt8) (m : Memory) (r : Except MapError Unit × Memory) : Prop where
  ends : Loop space addr len content 0 m r
  kept : ∀ a, space.translate r.2 a = space.translate m a
  mapped : (∀ k < len, space.translate m (addr + k) ≠ none) →
    r.1 = .ok () ∧ ∀ k < len, space.byteAt r.2 (addr + k) = some (bytes k)
  unmapped : ∀ k < len, space.translate m (addr + k) = none →
    (∀ j < k, space.translate m (addr + j) ≠ none) →
      r.1 = .error (.notMapped (addr + k)) ∧
        ∀ j < k, space.byteAt r.2 (addr + j) = some (bytes j)
  others : ∀ f o, (∀ k < len, (∀ j ≤ k, space.translate m (addr + j) ≠ none) →
    ¬ (space.translate m (addr + k) = some f ∧ o = (addr + k) % 4096)) → r.2 f o = m f o

theorem performs_of_steady (S : Steady space addr len D m) (hprov : Provides len content bytes)
    (hfits : Fits space m addr len)
    (hkept : ∀ {m'}, (∀ g, ¬ D g → m' g = m g) → ∀ a, space.translate m' a = space.translate m a) :
    Performs space addr len content bytes m (space.transfer addr len content len 0 m) := by
  obtain ⟨stop, -, hstop, hput, hend⟩ := S.transfer hprov (Nat.zero_le _)
    (Nat.sub_le len 0)
  have hsame := hkept (S.frames hput hstop)
  have hbefore : ∀ k < stop, space.translate m (addr + k) ≠ none := fun k hk => by
    obtain ⟨f, hf, -⟩ := hput.inside (Nat.zero_le _) hk
    rw [hf]
    exact Option.some_ne_none f
  have hbytes : ∀ k < stop, space.byteAt (space.transfer addr len content len 0 m).2 (addr + k) =
      some (bytes k) := fun k hk => by
    obtain ⟨f, hf, hv⟩ := hput.inside (Nat.zero_le _) hk
    rw [AddressSpace.byteAt, hsame, hf, Option.map_some, hv]
  refine ⟨loop_of_transfer S hfits (fun _ _ => rfl) (fun _ hk => absurd hk (Nat.not_lt_zero _))
    le_rfl, hsame, fun hall => ?_, fun k hk hnone hfirst => ?_, fun f o hno => ?_⟩
  · rcases hend with ⟨hok, rfl⟩ | ⟨-, hlt, hnone⟩
    · exact ⟨hok, hbytes⟩
    · exact absurd hnone (hall stop hlt)
  · rcases hend with ⟨-, rfl⟩ | ⟨herr, hlt, hnone'⟩
    · exact absurd hnone (hbefore k hk)
    · obtain rfl : k = stop := by
        rcases Nat.lt_trichotomy k stop with h | h | h
        · exact absurd hnone (hbefore k h)
        · exact h
        · exact absurd hnone' (hfirst stop h)
      exact ⟨herr, hbytes⟩
  · refine hput.outside fun k _ hk => hno k (by omega) fun j hj => hbefore j (by omega)

/-- The kernel's half comes from before the first run; the condition on it is for ranges that
reach beyond the lower half. -/
theorem transfers_exact (hb : Boots kernelRoot level data s₀)
    (hrun : exec (next X kernelRoot) s₀ es = some s) (hs : s.spaces id = some space) (addr : ℕ) :
    (∀ bytes : List UInt8, Fits space s.system.bytes addr bytes.length →
      (2 ^ 47 < addr + bytes.length → PagesApart kernelRoot s₀.system.bytes) →
      Performs space addr bytes.length (fun start count => (bytes.drop start).take count)
        (fun k => bytes[k]?.getD 0) s.system.bytes (space.writeAt addr bytes s.system.bytes)) ∧
    ∀ len, Fits space s.system.bytes addr len →
      (2 ^ 47 < addr + len → PagesApart kernelRoot s₀.system.bytes) →
      Performs space addr len (fun _ count => List.replicate count 0) (fun _ => 0)
        s.system.bytes (space.zeroAt addr len s.system.bytes) := by
  obtain ⟨place, I⟩ := hb.run hrun
  exact ⟨fun bytes hfits hkernel => performs_of_steady (I.steady hs hkernel)
      (provides_write bytes) hfits (I.translate_kept hs),
    fun len hfits hkernel => performs_of_steady (I.steady hs hkernel) (provides_zero len) hfits
      (I.translate_kept hs)⟩

/-- One page, and a slice that runs on from its end. -/
def onePage : List Event := [.new 0 none, .mapPage 0 0x400 ⟨7#12, 0#12⟩]

theorem onePage_run : ((exec (next Mapper.walker 1#40) bootState onePage).bind fun s =>
    (s.spaces 0).map fun space => (space.writeAt 0x400ffe [1, 2, 3, 4] s.system.bytes).1) =
      some (.error (.notMapped 0x401000)) := by decide +kernel

theorem transfers_exact_onePage : ∃ s space,
    exec (next Mapper.walker 1#40) bootState onePage = some s ∧
    (space.writeAt 0x400ffe [1, 2, 3, 4] s.system.bytes).1 = .error (.notMapped 0x401000) ∧
    Performs space 0x400ffe 4 (fun start count => ([1, 2, 3, 4].drop start).take count)
      (fun k => [1, 2, 3, 4][k]?.getD 0) s.system.bytes
      (space.writeAt 0x400ffe [1, 2, 3, 4] s.system.bytes) := by
  obtain ⟨s, hs, h⟩ := Option.bind_eq_some_iff.mp onePage_run
  obtain ⟨space, hspace, herr⟩ := Option.map_eq_some_iff.mp h
  exact ⟨s, space, hs, herr, (transfers_exact bootState_boots hs hspace 0x400ffe).1 [1, 2, 3, 4]
    ⟨by decide, Or.inl (by decide)⟩ fun h => absurd h (by decide)⟩

end SpaceRuns
