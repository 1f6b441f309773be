import NajmKernel.TransferExactness
import NajmKernel.UserPointers

/-! The memory of one program, as its pages and the flags of these: what the hardware makes of the
tables of a space, and how the operations on a space show in its pages. -/
namespace PageTables.TableTree

open PhysicalMemory

variable {m : Memory} {root f : Frame} {place place' : Placement} {w w' : Bool} {l n k : ℕ}

/-- Two placements agree on the tables. -/
theorem agree (T : TableTree m root place w) (U : TableTree m root place' w') (hl : l + k = 3)
    (h : place f = some (l + 1, n)) : place' f = some (l + 1, n) := by
  induction k generalizing f l n with
  | zero =>
    obtain rfl : l = 3 := hl
    obtain rfl := T.top h
    rw [T.atRoot] at h
    rw [U.atRoot, h]
  | succ k ih =>
    obtain ⟨g, hs, hu, rfl⟩ := T.linked h (by omega)
    have hchild := U.child ⟨ih (by omega) hs.1, hs.2⟩ hu
    rwa [Nat.div_add_mod] at hchild

/-- What one placement shows of the entries holds for any other. -/
theorem grantedBy (T : TableTree m root place w) (U : TableTree m root place' w') :
    TableTree m root place w' where
  atRoot := T.atRoot
  top := T.top
  level_le := T.level_le
  injective := T.injective
  child := T.child
  parent {f l n i} hs hu := by
    have hle := T.level_le hs.1
    exact U.parent ⟨T.agree U (k := 2 - l) (by omega) hs.1, hs.2⟩ hu
  linked := T.linked

end PageTables.TableTree

namespace ProgramMemories

open PhysicalMemory PageTables PhysicalFrames AddressSpaces
open UserPointers (permits permits_iff)

/-- The bytes of a page are known by their offsets. -/
structure Page where
  flags : PageTableFlags
  bytes : ℕ → UInt8

/-- The pages of the lower half by their numbers. -/
abbrev ProgramMemory := ℕ → Option Page

namespace ProgramMemory

variable (v : ProgramMemory) (addr : ℕ)

def present : Bool := (v (addr / 4096)).any fun p => p.flags.contains .present

/-- Whether a program may load, or store, at an address. -/
def grants (store : Bool) : Bool := (v (addr / 4096)).any fun p => permits store p.flags

def load : Option UInt8 :=
  if v.grants addr false then (v (addr / 4096)).map fun p => p.bytes (addr % 4096) else none

/-- The bytes from `addr + start` up to `addr + stop` are replaced. -/
def put (start stop : ℕ) (data : ℕ → UInt8) : ProgramMemory := fun page =>
  (v page).map fun p => ⟨p.flags, fun o =>
    if o < 4096 ∧ addr + start ≤ 4096 * page + o ∧ 4096 * page + o < addr + stop then
      data (4096 * page + o - addr)
    else p.bytes o⟩

/-- How far the pages of a range are present. -/
def extent (len : ℕ) : ℕ := ((List.range len).takeWhile fun k => v.present (addr + k)).length

variable {v addr} {start mid stop len : ℕ} {data : ℕ → UInt8}

@[simp] theorem present_put (a : ℕ) : (v.put addr start stop data).present a = v.present a := by
  unfold present put
  cases v (a / 4096) <;> rfl

@[simp] theorem put_same : v.put addr start start data = v := by
  funext page
  rw [put]
  cases v page with
  | none => rfl
  | some p =>
    have hno : ∀ o, ¬ (o < 4096 ∧ addr + start ≤ 4096 * page + o ∧
        4096 * page + o < addr + start) := by
      intro o
      omega
    simp only [hno, if_false, Option.map_some]

theorem put_put (h : start ≤ mid) (h' : mid ≤ stop) :
    (v.put addr start mid data).put addr mid stop data = v.put addr start stop data := by
  funext page
  simp only [put]
  cases v page with
  | none => rfl
  | some p =>
    simp only [Option.map_some, Option.some.injEq, Page.mk.injEq, true_and]
    funext o
    by_cases h1 : o < 4096 ∧ addr + mid ≤ 4096 * page + o ∧ 4096 * page + o < addr + stop
    · rw [if_pos h1, if_pos (by omega)]
    · rw [if_neg h1]
      by_cases h2 : o < 4096 ∧ addr + start ≤ 4096 * page + o ∧ 4096 * page + o < addr + mid
      · rw [if_pos h2, if_pos (by omega)]
      · rw [if_neg h2, if_neg (by omega)]

/-- The extent is where the first page is absent, or the end of the range. -/
theorem extent_eq (hle : stop ≤ len) (hall : ∀ k < stop, v.present (addr + k) = true)
    (hend : stop = len ∨ v.present (addr + stop) = false) : v.extent addr len = stop := by
  obtain ⟨rest, rfl⟩ := Nat.exists_eq_add_of_le hle
  rw [extent, List.range_add, List.takeWhile_append_of_pos, List.length_append, List.length_range]
  · rcases hend with hend | hend
    · obtain rfl : rest = 0 := by omega
      simp
    · cases rest with
      | zero => simp
      | succ rest => simp [List.range_succ_eq_map, hend]
  · intro k hk
    exact hall k (List.mem_range.mp hk)

end ProgramMemory

/-! What the hardware does with the tables of a space. -/

/-- The walk of the hardware for an access by a program, from a table of level `l`. Where its
page-size bit is set, an entry of level 2 or 3 leads to a large page; in the root the bit is
reserved. -/
def mmuWalk (m : Memory) (store : Bool) (page : ℕ) : ℕ → Frame → Option Frame
  | 0, frame => some frame
  | l + 1, table =>
    let e := entry m table (index (l + 1) page)
    if permits store e.flags = false then none
    else if l ≠ 0 ∧ e.flags.contains .hugePage = true then
      if l = 3 then none
      else some (BitVec.ofNat 40 (e.frame.toNat / 512 ^ l * 512 ^ l + page % 512 ^ l))
    else mmuWalk m store page l e.frame

/-- The frame that the hardware lets a program access at an address, if it does not fault. -/
def mmu (m : Memory) (store : Bool) (root : Frame) (addr : ℕ) : Option Frame :=
  if isCanonical addr then mmuWalk m store (addr / 4096) 4 root else none

/-- The pages of a space, with what lies in their frames. -/
def pagesOf (space : AddressSpace) (m : Memory) : ProgramMemory := fun page =>
  if page < 2 ^ 35 then (space.leaf m page).map fun e => ⟨e.flags, m e.frame⟩ else none

variable {X : Mapper} {place : Placement} {w store : Bool} {addr len page l start o : ℕ}
  {f root t : Frame} {space space' : AddressSpace} {flags : PageTableFlags} {e : Entry}
  {m m' : Memory}

theorem permits_of_grants (h : Grants w flags) (hw : store = true → w = true) :
    permits store flags = true :=
  permits_iff.mpr ⟨h.present, h.userAccessible, fun hs => h.writable (hw hs)⟩

/-- The hardware comes to the page that the tree has, where its leaf entry permits the access. -/
theorem mmuWalk_some (T : TableTree m root place w) (hp : page < 2 ^ 35)
    (ht : place t = some (l + 1, page / 512 ^ (l + 1)))
    (h : mmuWalk m store page (l + 1) t = some f) :
    ∃ e, walk m (l + 1) t page = some e ∧ permits store e.flags = true ∧ e.frame = f := by
  induction l generalizing t with
  | zero =>
    simp only [mmuWalk, ne_eq, not_true_eq_false, false_and, ite_false] at h
    split at h
    case isTrue => cases h
    case isFalse hperm =>
      rw [Bool.not_eq_false] at hperm
      have hu := used_of_present (permits_iff.mp hperm).present
      exact ⟨_, by rw [walk, if_neg hu], hperm, Option.some.inj h⟩
  | succ l ih =>
    rw [mmuWalk] at h
    split at h
    case isTrue => cases h
    case isFalse hperm =>
      rw [Bool.not_eq_false] at hperm
      have hu := used_of_present (permits_iff.mp hperm).present
      have hg := T.parent (TableTree.slot_of_page hp ht) hu
      rw [if_neg (by simp [hg.huge])] at h
      obtain ⟨e, he, hrest⟩ := ih (T.child_of_page hp ht hu) h
      exact ⟨e, by rw [walk, if_neg hu, he], hrest⟩

/-- Tables that grant every access leave it to the leaf entry. -/
theorem mmuWalk_of_walk (T : TableTree m root place w) (hw : store = true → w = true)
    (hp : page < 2 ^ 35) (ht : place t = some (l + 1, page / 512 ^ (l + 1)))
    (h : walk m (l + 1) t page = some e) (hperm : permits store e.flags = true) :
    mmuWalk m store page (l + 1) t = some e.frame := by
  induction l generalizing t with
  | zero =>
    rw [walk] at h
    split at h
    case isTrue => cases h
    case isFalse =>
      obtain rfl := Option.some.inj h
      simp [mmuWalk, hperm]
  | succ l ih =>
    rw [walk] at h
    split at h
    case isTrue => cases h
    case isFalse hu =>
      have hg := T.parent (TableTree.slot_of_page hp ht) hu
      rw [mmuWalk, if_neg (by simp [permits_of_grants hg hw]), if_neg (by simp [hg.huge])]
      exact ih (T.child_of_page hp ht hu) h

theorem mmu_some (T : TableTree m root place w) (ha : addr < 2 ^ 47)
    (h : mmu m store root addr = some f) :
    ∃ e, walk m 4 root (addr / 4096) = some e ∧ permits store e.flags = true ∧ e.frame = f := by
  have hp : addr / 4096 < 2 ^ 35 := by omega
  have hc : isCanonical addr = true := decide_eq_true (Or.inl ha)
  rw [mmu, if_pos hc] at h
  exact mmuWalk_some T hp (by rw [T.atRoot, Nat.div_eq_of_lt (lt_trans hp (by norm_num))]) h

theorem mmu_of_walk (T : TableTree m root place w) (hw : store = true → w = true)
    (ha : addr < 2 ^ 47) (h : walk m 4 root (addr / 4096) = some e)
    (hperm : permits store e.flags = true) : mmu m store root addr = some e.frame := by
  have hp : addr / 4096 < 2 ^ 35 := by omega
  have hc : isCanonical addr = true := decide_eq_true (Or.inl ha)
  rw [mmu, if_pos hc]
  exact mmuWalk_of_walk T hw hp (by rw [T.atRoot, Nat.div_eq_of_lt (lt_trans hp (by norm_num))]) h
    hperm

/-! What changes the pages of a space, and what does not. -/

theorem pagesOf_lt (h : page < 2 ^ 35) :
    pagesOf space m page = (space.leaf m page).map fun e => ⟨e.flags, m e.frame⟩ := if_pos h

theorem pagesOf_ge (h : ¬ page < 2 ^ 35) : pagesOf space m page = none := if_neg h

/-- The frame behind a page stands under its number. -/
theorem leaf_placed (T : TableTree m space.root place w) (hp : page < 2 ^ 35)
    (h : space.leaf m page = some e) : place e.frame = some (0, page) := by
  obtain ⟨g, hg, hu, rfl⟩ := (T.walk_root hp).mp h
  have hchild := T.child ⟨hg, Nat.mod_lt _ (by decide), by simp⟩ hu
  rwa [Nat.div_add_mod] at hchild

theorem pagesOf_leaf (hl : space'.leaf m' page = space.leaf m page)
    (hf : ∀ e, space.leaf m page = some e → m' e.frame = m e.frame) :
    pagesOf space' m' page = pagesOf space m page := by
  by_cases hp : page < 2 ^ 35
  · rw [pagesOf_lt hp, pagesOf_lt hp, hl]
    cases h : space.leaf m page with
    | none => rfl
    | some e => rw [Option.map_some, Option.map_some, hf e h]
  · rw [pagesOf_ge hp, pagesOf_ge hp]

theorem pagesOf_congr (T : TableTree m space.root place w)
    (h : ∀ f, place f ≠ none → m' f = m f) : pagesOf space m' = pagesOf space m := by
  funext page
  by_cases hp : page < 2 ^ 35
  · apply pagesOf_leaf
    · exact leaf_congr T (fun f l n hf => h f (by simp [hf])) hp
    · intro e he
      exact h _ (by simp [leaf_placed T hp he])
  · rw [pagesOf_ge hp, pagesOf_ge hp]

/-- Bytes written to the frame of a page show in that page alone. -/
theorem pagesOf_write (T : TableTree m space.root place w) {bytes : ℕ → UInt8} {bs : List UInt8}
    (hp : page < 2 ^ 35) (hl : space.leaf m page = some e) (hfit : o + bs.length ≤ 4096)
    (haddr : addr + start = 4096 * page + o)
    (hbytes : ∀ k < bs.length, bs[k]? = some (bytes (start + k))) :
    pagesOf space (m.write e.frame o bs) =
      (pagesOf space m).put addr start (start + bs.length) bytes := by
  have hplaced := leaf_placed T hp hl
  have hkept : TablesKept place m (m.write e.frame o bs) := by
    intro f l n hf
    apply Memory.write_frame_ne
    rintro rfl
    rw [hplaced] at hf
    simp at hf
  funext q
  rw [ProgramMemory.put]
  by_cases hq : q < 2 ^ 35
  swap
  · rw [pagesOf_ge hq, pagesOf_ge hq, Option.map_none]
  rw [pagesOf_lt hq, pagesOf_lt hq, leaf_congr T hkept hq]
  by_cases hqp : q = page
  · subst hqp
    rw [hl]
    simp only [Option.map_some, Option.some.injEq, Page.mk.injEq, true_and]
    funext i
    by_cases hlow : i < o
    · rw [Memory.write_below hlow, if_neg (by omega)]
    · by_cases hhigh : i < o + bs.length
      · obtain ⟨k, rfl⟩ := Nat.exists_eq_add_of_le (Nat.not_lt.mp hlow)
        have hk : k < bs.length := by omega
        have hb := hbytes k hk
        rw [List.getElem?_eq_getElem hk, Option.some.injEq] at hb
        rw [Memory.write_at hk, hb, if_pos (by omega)]
        congr 1
        omega
      · rw [Memory.write_above (by omega), if_neg (by omega)]
  · cases hlq : space.leaf m q with
    | none => rfl
    | some e' =>
      have hne : e'.frame ≠ e.frame := by
        intro he
        have hplaced' := leaf_placed T hq hlq
        rw [he, hplaced] at hplaced'
        simp only [Option.some.injEq, Prod.mk.injEq, true_and] at hplaced'
        exact hqp hplaced'.symm
      have hno : ∀ i, ¬ (i < 4096 ∧ addr + start ≤ 4096 * q + i ∧
          4096 * q + i < addr + (start + bs.length)) := by
        intro i
        omega
      simp only [Option.map_some, Memory.write_frame_ne hne, hno, if_false]

/-- The kernel finds a frame where the page is present. -/
theorem present_pagesOf (T : TableTree m space.root place w) (ha : addr < 2 ^ 47) :
    (pagesOf space m).present addr = (space.translate m addr).isSome := by
  have hp : addr / 4096 < 2 ^ 35 := by omega
  rw [ProgramMemory.present, pagesOf_lt hp, translate_eq T ha]
  cases space.leaf m (addr / 4096) with
  | none => rfl
  | some e => cases hpr : e.flags.contains .present <;> simp [hpr]

/-- A transfer that starts in the lower half goes on to the first page that is not present. The
first address beyond the lower half is not canonical. -/
theorem transfer_pages (T : TableTree m space.root place w) {content : ℕ → ℕ → List UInt8}
    {bytes : ℕ → UInt8} (hprov : Provides len content bytes) {turns done : ℕ} (hdone : done ≤ len)
    (hlow : addr + done ≤ 2 ^ 47) (hturns : len - done ≤ turns) :
    ∃ stop, done ≤ stop ∧ stop ≤ len ∧
      (∀ k, done ≤ k → k < stop → (pagesOf space m).present (addr + k) = true) ∧
      (stop = len ∨ (pagesOf space m).present (addr + stop) = false) ∧
      pagesOf space (space.transfer addr len content turns done m).2 =
        (pagesOf space m).put addr done stop bytes := by
  induction turns generalizing done m with
  | zero =>
    refine ⟨done, le_rfl, hdone, by omega, Or.inl (by omega), ?_⟩
    rw [AddressSpace.transfer, ProgramMemory.put_same]
  | succ turns ih =>
    rw [AddressSpace.transfer]
    split
    case isFalse hd =>
      refine ⟨done, le_rfl, hdone, by omega, Or.inl (by omega), ?_⟩
      rw [ProgramMemory.put_same]
    case isTrue hd =>
      simp only
      split
      case h_1 hf =>
        refine ⟨done, le_rfl, hdone, by omega, Or.inr ?_, by rw [ProgramMemory.put_same]⟩
        by_cases ha : addr + done < 2 ^ 47
        · rw [present_pagesOf T ha, hf]
          rfl
        · rw [ProgramMemory.present, pagesOf_ge (by omega)]
          rfl
      case h_2 frame hf =>
        have ha : addr + done < 2 ^ 47 := by
          by_contra hge
          have hc : ¬ isCanonical (addr + done) = true := by
            rw [isCanonical, decide_eq_true_eq]
            omega
          rw [AddressSpace.translate, if_neg hc] at hf
          cases hf
        -- the rest of the page, or of the range
        have hp : (addr + done) / 4096 < 2 ^ 35 := by omega
        obtain ⟨chunk, hchunk⟩ : ∃ n, n = min (4096 - (addr + done) % 4096) (len - done) := ⟨_, rfl⟩
        rw [← hchunk]
        obtain ⟨hlen, hbytes⟩ := hprov done chunk (by omega)
        have hpresent : ∀ k, done ≤ k → k < done + chunk →
            (pagesOf space m).present (addr + k) = true := by
          intro k h1 h2
          rw [present_pagesOf T (by omega),
            translate_page space m (show (addr + k) / 4096 = (addr + done) / 4096 by omega), hf]
          rfl
        have htranslate := hf
        rw [translate_eq T ha, Option.bind_eq_some_iff] at htranslate
        obtain ⟨e, he, hframe⟩ := htranslate
        split at hframe
        case isFalse => cases hframe
        case isTrue =>
          obtain rfl := Option.some.inj hframe
          have hput : pagesOf space (m.write e.frame ((addr + done) % 4096) (content done chunk)) =
              (pagesOf space m).put addr done (done + (content done chunk).length) bytes :=
            pagesOf_write T hp he (by omega) (Nat.div_add_mod (addr + done) 4096).symm
              fun k hk => hbytes k (hlen ▸ hk)
          have hplaced := leaf_placed T hp he
          have T' : TableTree (m.write e.frame ((addr + done) % 4096) (content done chunk))
              space.root place w := by
            apply T.congr
            intro f l n hf
            apply Memory.write_frame_ne
            rintro rfl
            rw [hplaced] at hf
            simp at hf
          rw [hlen] at hput
          obtain ⟨stop, h1, h2, hmid, hend, hrest⟩ := ih T' (show done + chunk ≤ len by omega)
            (by omega) (by omega)
          rw [hput] at hrest hmid hend
          simp only [ProgramMemory.present_put] at hmid hend
          refine ⟨stop, by omega, h2, fun k hk hk' => ?_, hend, ?_⟩
          · by_cases hin : k < done + chunk
            · exact hpresent k hk hin
            · exact hmid k (by omega) hk'
          · rw [hrest, ProgramMemory.put_put (by omega) h1]

theorem grants_pagesOf : (pagesOf space m).grants addr store = true ↔
    addr < 2 ^ 47 ∧ ∃ e, space.leaf m (addr / 4096) = some e ∧ permits store e.flags = true := by
  by_cases ha : addr < 2 ^ 47
  · rw [ProgramMemory.grants, pagesOf_lt (by omega)]
    simp only [ha, true_and]
    cases space.leaf m (addr / 4096) <;> simp
  · rw [ProgramMemory.grants, pagesOf_ge (by omega)]
    simp only [ha, false_and, iff_false]
    simp

/-- Other flags in the entry of a page show in that page alone. -/
theorem pagesOf_reflag {g : Frame} (T : TableTree m space.root place w)
    (T' : TableTree m' space.root place w) (hp : page < 2 ^ 35)
    (hg : place g = some (1, page / 512)) (hu : ¬ isUnused m g (page % 512))
    (hm : m' = setEntry m g (page % 512) ⟨(entry m g (page % 512)).frame, flags⟩)
    (hothers : ∀ q < 2 ^ 35, q ≠ page → space.leaf m' q = space.leaf m q) :
    ∃ p, pagesOf space m page = some p ∧
      (pagesOf space m' = Function.update (pagesOf space m) page (some { p with flags }) ∨
        flags = ⟨0, 0⟩ ∧ pagesOf space m' = Function.update (pagesOf space m) page none) := by
  have hleaf : space.leaf m page = some (entry m g (page % 512)) :=
    (T.walk_root hp).mpr ⟨g, hg, hu, rfl⟩
  have hframe : ∀ q < 2 ^ 35, ∀ e, space.leaf m q = some e → m' e.frame = m e.frame := by
    intro q hq e he
    rw [hm]
    apply setEntry_frame_ne
    rintro rfl
    rw [leaf_placed T hq he] at hg
    simp at hg
  have hrest : ∀ x, pagesOf space m' page = x →
      pagesOf space m' = Function.update (pagesOf space m) page x := by
    rintro x rfl
    funext q
    by_cases hq : q = page
    · rw [hq, Function.update_self]
    · rw [Function.update_of_ne hq]
      by_cases hlt : q < 2 ^ 35
      · exact pagesOf_leaf (hothers q hlt hq) (hframe q hlt)
      · rw [pagesOf_ge hlt, pagesOf_ge hlt]
  refine ⟨_, by rw [pagesOf_lt hp, hleaf, Option.map_some], ?_⟩
  have hentry : entry m' g (page % 512) = ⟨(entry m g (page % 512)).frame, flags⟩ := by
    rw [hm, entry_setEntry_same]
  by_cases hu' : isUnused m' g (page % 512)
  · refine Or.inr ⟨?_, hrest _ ?_⟩
    · by_contra hflags
      exact used_of_flags (by rw [hentry]; exact hflags) hu'
    · rw [pagesOf_lt hp, Option.map_eq_none_iff, Option.eq_none_iff_forall_ne_some]
      intro e he
      obtain ⟨g', hg', hused, -⟩ := (T'.walk_root hp).mp he
      obtain rfl := T.injective hg hg'
      exact hused hu'
  · refine Or.inl (hrest _ ?_)
    have hleaf' : space.leaf m' page = some (entry m' g (page % 512)) :=
      (T'.walk_root hp).mpr ⟨g, hg, hu', rfl⟩
    rw [pagesOf_lt hp, hleaf', Option.map_some, hentry, hframe page hp _ hleaf]

theorem protect_pages {system system' : System} {r : Except MapError Unit}
    (H : Holds system space place w)
    (h : space.protectPage X page flags system = (r, system')) :
    (isUserAddress (4096 * page) = false ∨ pagesOf space system.bytes page = none) ∧
        pagesOf space system'.bytes = pagesOf space system.bytes ∨
      isUserAddress (4096 * page) = true ∧ ∃ p, pagesOf space system.bytes page = some p ∧
        (pagesOf space system'.bytes =
            Function.update (pagesOf space system.bytes) page (some { p with flags }) ∨
          flags = ⟨0, 0⟩ ∧
            pagesOf space system'.bytes = Function.update (pagesOf space system.bytes) page none) := by
  obtain ⟨H', -, -, -, hothers⟩ := protectPage_spec H h
  unfold AddressSpace.protectPage at h
  simp only at h
  split at h
  case isTrue hn =>
    obtain ⟨-, rfl⟩ := Prod.mk.inj h
    exact Or.inl ⟨Or.inl hn, rfl⟩
  case isFalse hn =>
    rw [Bool.not_eq_false] at hn
    have hp := page_lt hn
    have hroot : place space.root = some (4, page / 512 ^ 4) := by
      rw [H.tree.atRoot, Nat.div_eq_of_lt (lt_trans hp (by norm_num))]
    have hupdate : UpdateFlags page flags 4 space.root system.bytes
        (X.updateFlags space.root page flags system.bytes).1
        (X.updateFlags space.root page flags system.bytes).2 := X.updateFlags_spec
    have hbytes : system'.bytes = (X.updateFlags space.root page flags system.bytes).2 := by
      split at h <;>
        next he =>
          obtain ⟨-, rfl⟩ := Prod.mk.inj h
          rw [he]
    rcases hupdate.leaf hp H.tree hroot with ⟨g, -, hg, hu, hm⟩ | ⟨-, hm, hnone⟩
    · exact Or.inr ⟨hn, pagesOf_reflag H.tree H'.tree hp hg hu (hbytes.trans hm)
        fun q hq hne => hothers q hq fun he => absurd he hne⟩
    · refine Or.inl ⟨Or.inr ?_, by rw [hbytes, hm]⟩
      rw [pagesOf_lt hp, Option.map_eq_none_iff, Option.eq_none_iff_forall_ne_some]
      intro e he
      obtain ⟨g, hg, hu, -⟩ := (H.tree.walk_root hp).mp he
      exact hu (hnone g hg)

end ProgramMemories
