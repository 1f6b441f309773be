import NajmKernel.SpaceViews

/-! Bytes written through an address space: which frames a transfer touches, and what every
address of the lower half shows after it. -/
namespace AddressSpaces

open PhysicalMemory PageTables PhysicalFrames

variable {s s' : System} {space : AddressSpace} {place : Placement} {w : Bool}
  {addr len turns done start mid stop count : ℕ} {content : ℕ → ℕ → List UInt8}
  {m m' m₀ : Memory} {f g frame : Frame}
  {r : Except MapError Unit} {data : ℕ → UInt8}

/-- A transfer stays in any set of frames that all its addresses lead to, if changing frames of
the set cannot redirect them. -/
theorem transfer_outside {D : Frame → Prop}
    (hstable : ∀ m, (∀ g, ¬ D g → m g = m₀ g) →
      ∀ a, addr ≤ a → a < addr + len → ∀ f, space.translate m a = some f → D f)
    (hm : ∀ g, ¬ D g → m g = m₀ g) (hg : ¬ D g) :
    (space.transfer addr len content turns done m).2 g = m₀ g := by
  induction turns generalizing done m with
  | zero => exact hm g hg
  | succ turns ih =>
    rw [AddressSpace.transfer]
    split
    case isFalse => exact hm g hg
    case isTrue hd =>
      simp only
      split
      case h_1 => exact hm g hg
      case h_2 frame hf =>
        have hD := hstable m hm (addr + done) (by omega) (by omega) frame hf
        apply ih
        intro g' hg'
        rw [Memory.write_frame_ne, hm g' hg']
        rintro rfl
        exact hg' hD

/-- No table of the tree changes. -/
def TablesKept (place : Placement) (m m' : Memory) : Prop :=
  ∀ f l n, place f = some (l + 1, n) → m' f = m f

theorem tablesKept_of_leaves (h : ∀ g, (∀ n, place g ≠ some (0, n)) → m' g = m g) :
    TablesKept place m m' := by
  intro f l n hf
  apply h
  intro k hk
  rw [hf] at hk
  simp at hk

/-- Where the tables stay, every page keeps its entry. -/
theorem leaf_congr (T : TableTree m space.root place w) (hm : TablesKept place m m') {q : ℕ}
    (hq : q < 2 ^ 35) : space.leaf m' q = space.leaf m q := by
  have hroot : place space.root = some (3 + 1, q / 512 ^ (3 + 1)) := by
    rw [T.atRoot, Nat.div_eq_of_lt (lt_trans hq (by norm_num))]
  exact (T.below_congr hq hroot fun f k n hf _ => hm f k n hf).1

theorem translate_congr (T : TableTree m space.root place w) (hm : TablesKept place m m') {a : ℕ}
    (ha : a < 2 ^ 47) : space.translate m' a = space.translate m a := by
  rw [translate_eq T ha, translate_eq (T.congr hm) ha, leaf_congr T hm (by omega)]

/-- The bytes put at a place are those of a sequence. -/
def Provides (len : ℕ) (content : ℕ → ℕ → List UInt8) (data : ℕ → UInt8) : Prop :=
  ∀ start count, start + count ≤ len → (content start count).length = count ∧
    ∀ k < count, (content start count)[k]? = some (data (start + k))

theorem provides_write (bytes : List UInt8) :
    Provides bytes.length (fun start count => (bytes.drop start).take count)
      fun k => bytes[k]?.getD 0 := by
  intro start count h
  refine ⟨by simp; omega, fun k hk => ?_⟩
  have hb : start + k < bytes.length := by omega
  simp [hk, hb]

theorem provides_zero (len : ℕ) :
    Provides len (fun _ count => List.replicate count 0) fun _ => 0 := by
  intro start count _
  refine ⟨List.length_replicate, fun k hk => ?_⟩
  simp [hk]

/-- The bytes of a range from `start` up to `stop` hold the data, and no other byte has changed. -/
structure Put (space : AddressSpace) (addr start stop : ℕ) (data : ℕ → UInt8) (m m' : Memory) :
    Prop where
  inside : ∀ {k}, start ≤ k → k < stop → ∃ f, space.translate m (addr + k) = some f ∧
    m' f ((addr + k) % 4096) = data k
  outside : ∀ {f o}, (∀ k, start ≤ k → k < stop →
    ¬ (space.translate m (addr + k) = some f ∧ o = (addr + k) % 4096)) → m' f o = m f o

/-- The pages of a range lie in frames of their own, all in `D`, and no frame in `D` leads to
them. -/
structure Steady (space : AddressSpace) (addr len : ℕ) (D : Frame → Prop) (m : Memory) : Prop where
  pages : ∀ {k f}, k < len → space.translate m (addr + k) = some f → D f
  apart : ∀ {j k f}, j < len → k < len → space.translate m (addr + j) = some f →
    space.translate m (addr + k) = some f → (addr + j) / 4096 = (addr + k) / 4096
  stable : ∀ {m'}, (∀ g, ¬ D g → m' g = m g) →
    ∀ k < len, space.translate m' (addr + k) = space.translate m (addr + k)

theorem translate_page (space : AddressSpace) (m : Memory) {a b : ℕ} (h : a / 4096 = b / 4096) :
    space.translate m a = space.translate m b := by
  have hc : isCanonical a = isCanonical b := by
    rw [isCanonical, isCanonical, decide_eq_decide]
    omega
  rw [AddressSpace.translate, AddressSpace.translate, hc, h]

theorem Put.refl (space : AddressSpace) (addr start : ℕ) (data : ℕ → UInt8) (m : Memory) :
    Put space addr start start data m m := ⟨fun _ _ => by omega, fun _ => rfl⟩

/-- A chunk that stays in one page. -/
theorem put_chunk (hprov : Provides len content data)
    (hf : space.translate m (addr + start) = some frame)
    (hfit : (addr + start) % 4096 + count ≤ 4096) (hlen : start + count ≤ len) :
    Put space addr start (start + count) data m
      (m.write frame ((addr + start) % 4096) (content start count)) := by
  obtain ⟨hl, hdata⟩ := hprov start count hlen
  have hsame : ∀ k, start ≤ k → k < start + count → space.translate m (addr + k) = some frame :=
    fun k h1 h2 => (translate_page space m (by omega)).trans hf
  refine ⟨fun {k} h1 h2 => ⟨frame, hsame k h1 h2, ?_⟩, fun {f o} hno => ?_⟩
  · have hk : k - start < (content start count).length := by omega
    have ho : (addr + k) % 4096 = (addr + start) % 4096 + (k - start) := by omega
    have hd := hdata (k - start) (by omega)
    rw [List.getElem?_eq_getElem hk, Option.some.injEq] at hd
    rw [ho, Memory.write_at hk, hd]
    congr 1
    omega
  · by_cases hff : f = frame
    · subst hff
      by_cases hlo : o < (addr + start) % 4096
      · exact Memory.write_below hlo
      · by_cases hhi : o < (addr + start) % 4096 + count
        · have hk : start + (o - (addr + start) % 4096) < start + count := by omega
          exact absurd ⟨hsame _ (Nat.le_add_right _ _) hk, by omega⟩
            (hno _ (Nat.le_add_right _ _) hk)
        · exact Memory.write_above (by omega)
    · rw [Memory.write_frame_ne hff]

namespace Steady

variable {D : Frame → Prop} (S : Steady space addr len D m)
include S

theorem after (h : ∀ g, ¬ D g → m' g = m g) : Steady space addr len D m' where
  pages {k f} hk hf := S.pages hk (by rw [← S.stable h k hk]; exact hf)
  apart {j k f} hj hk hf hf' := by
    rw [S.stable h j hj] at hf
    rw [S.stable h k hk] at hf'
    exact S.apart hj hk hf hf'
  stable {m''} h' k hk := by
    rw [S.stable h k hk]
    exact S.stable (fun g hg => (h' g hg).trans (h g hg)) k hk

theorem frames (h : Put space addr start stop data m m') (hstop : stop ≤ len) :
    ∀ g, ¬ D g → m' g = m g := by
  intro g hg
  funext o
  exact h.outside fun k _ hk hf => hg (S.pages (by omega) hf.1)

theorem append (h : Put space addr start mid data m m₀) (h' : Put space addr mid stop data m₀ m')
    (hmid : start ≤ mid) (hle : mid ≤ stop) (hstop : stop ≤ len) :
    Put space addr start stop data m m' := by
  have hsame := S.stable (S.frames h (hle.trans hstop))
  refine ⟨fun {k} h1 h2 => ?_, fun {f o} hno => ?_⟩
  · by_cases hk : k < mid
    · obtain ⟨f, hf, hv⟩ := h.inside h1 hk
      refine ⟨f, hf, ?_⟩
      rw [h'.outside, hv]
      rintro j hj1 hj2 ⟨hj, ho⟩
      rw [hsame j (by omega)] at hj
      have := S.apart (by omega) (by omega) hf hj
      omega
    · obtain ⟨f, hf, hv⟩ := h'.inside (Nat.not_lt.mp hk) h2
      rw [hsame k (by omega)] at hf
      exact ⟨f, hf, hv⟩
  · rw [h'.outside, h.outside]
    · exact fun k h1 h2 => hno k h1 (by omega)
    · intro k h1 h2
      rw [hsame k (by omega)]
      exact hno k (by omega) h2

/-- A transfer goes on to the first address without a page, or to the end of the range. -/
theorem transfer (hprov : Provides len content data) (hdone : done ≤ len)
    (hturns : len - done ≤ turns) : ∃ stop, done ≤ stop ∧ stop ≤ len ∧
      Put space addr done stop data m (space.transfer addr len content turns done m).2 ∧
      ((space.transfer addr len content turns done m).1 = .ok () ∧ stop = len ∨
        (space.transfer addr len content turns done m).1 = .error (.notMapped (addr + stop)) ∧
          stop < len ∧ space.translate m (addr + stop) = none) := by
  induction turns generalizing done m with
  | zero =>
    obtain rfl : done = len := by omega
    exact ⟨done, le_rfl, le_rfl, Put.refl _ _ _ _ _, Or.inl ⟨rfl, rfl⟩⟩
  | succ turns ih =>
    rw [AddressSpace.transfer]
    split
    case isFalse hd =>
      obtain rfl : done = len := by omega
      exact ⟨done, le_rfl, le_rfl, Put.refl _ _ _ _ _, Or.inl ⟨rfl, rfl⟩⟩
    case isTrue hd =>
      simp only
      split
      case h_1 hf => exact ⟨done, le_rfl, hdone, Put.refl _ _ _ _ _, Or.inr ⟨rfl, hd, hf⟩⟩
      case h_2 frame hf =>
        have hpos : 0 < min (4096 - (addr + done) % 4096) (len - done) := by omega
        have hlen : done + min (4096 - (addr + done) % 4096) (len - done) ≤ len := by omega
        have hput := put_chunk hprov hf (by omega) hlen
        have hkept := S.frames hput hlen
        obtain ⟨stop, h1, h2, hrest, hend⟩ := ih (S.after hkept) hlen (by omega)
        refine ⟨stop, by omega, h2, S.append hput hrest (Nat.le_add_right _ _) h1 h2, ?_⟩
        refine hend.imp id fun ⟨hr, hlt, hnone⟩ => ⟨hr, hlt, ?_⟩
        rw [← S.stable hkept stop hlt]
        exact hnone

end Steady

theorem steady_of_tree (T : TableTree m space.root place w) (hrange : addr + len ≤ 2 ^ 47) :
    Steady space addr len (fun g => ∃ n, place g = some (0, n)) m where
  pages {k f} hk hf := ⟨_, place_of_translate T (by omega) hf⟩
  apart {j k f} hj hk hf hf' := by
    have h := place_of_translate T (by omega) hf
    rw [place_of_translate T (by omega) hf'] at h
    simp only [Option.some.injEq, Prod.mk.injEq, true_and] at h
    exact h.symm
  stable {m'} h k hk := translate_congr T (tablesKept_of_leaves fun g hg =>
    h g fun ⟨n, hn⟩ => hg n hn) (by omega)

/-- What a completed transfer leaves: the data at its addresses, every other byte as it was. -/
structure Transferred (space : AddressSpace) (place : Placement) (addr : ℕ) (start len : ℕ)
    (data : ℕ → UInt8) (m m' : Memory) : Prop where
  frames : ∀ {g}, (∀ n, place g ≠ some (0, n)) → m' g = m g
  inside : ∀ {k}, start ≤ k → k < len → ∃ f, space.translate m (addr + k) = some f ∧
    m' f ((addr + k) % 4096) = data k
  outside : ∀ {f o}, (∀ k, start ≤ k → k < len →
    ¬ (space.translate m (addr + k) = some f ∧ o = (addr + k) % 4096)) → m' f o = m f o

theorem transfer_spec (T : TableTree m space.root place w) (hprov : Provides len content data)
    (hrange : addr + len ≤ 2 ^ 47) (hdone : done ≤ len) (hturns : len - done ≤ turns)
    (h : space.transfer addr len content turns done m = (.ok (), m')) :
    Transferred space place addr done len data m m' := by
  have S := steady_of_tree T hrange
  obtain ⟨stop, -, -, hput, ⟨-, rfl⟩ | ⟨herr, -⟩⟩ := S.transfer hprov hdone hturns
  · rw [h] at hput
    exact ⟨fun hg => S.frames hput le_rfl _ fun ⟨n, hn⟩ => hg n hn, hput.inside, hput.outside⟩
  · rw [h] at herr
    cases herr

/-- The byte an address of the lower half shows. -/
def AddressSpace.byteAt (space : AddressSpace) (m : Memory) (a : ℕ) : Option UInt8 :=
  (space.translate m a).map fun f => m f (a % 4096)

theorem Transferred.byteAt (h : Transferred space place addr 0 len data m m')
    (T : TableTree m space.root place w) (hrange : addr + len ≤ 2 ^ 47) {a : ℕ}
    (ha : a < 2 ^ 47) : space.byteAt m' a =
      if addr ≤ a ∧ a < addr + len then some (data (a - addr)) else space.byteAt m a := by
  have hkept : TablesKept place m m' := tablesKept_of_leaves fun g hg => h.frames hg
  rw [AddressSpace.byteAt, AddressSpace.byteAt, translate_congr T hkept ha]
  split
  case isTrue hin =>
    obtain ⟨f, ht, hv⟩ := h.inside (k := a - addr) (by omega) (by omega)
    have he : addr + (a - addr) = a := by omega
    rw [he] at ht hv
    rw [ht, Option.map_some, hv]
  case isFalse hout =>
    cases ht : space.translate m a with
    | none => rfl
    | some f =>
      rw [Option.map_some, Option.map_some, h.outside]
      rintro k - hk ⟨ht', ho⟩
      have h1 := place_of_translate T (by omega) ht'
      rw [place_of_translate T ha ht] at h1
      simp only [Option.some.injEq, Prod.mk.injEq, true_and] at h1
      omega

end AddressSpaces
