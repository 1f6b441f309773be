import NajmKernel.MirageProgress

/-! The relocations of a PE image: what the image is before them, and that each of them adds the
distance between the two bases to its slot, whatever their order. -/
namespace Mirage

open LittleEndian PhysicalMemory PageTables PhysicalFrames AddressSpaces Attempts Attempt
  SpaceBuilding PeParser SpaceRuns TransitionSystem
open ElfLoader (LoadedImage)

variable {X : Mapper} {nx : Bool} {bytes : List UInt8} {image : Image} {b b' c : Building}
  {k r a addr delta headersSize : ℕ} {t : Section} {rs rs' done : List ℕ} {v : UInt8}
  {space : AddressSpace} {m m' m'' : Memory} {place : Placement} {w : Bool} {f : Frame}

section Filling

def covers (k : ℕ) (t : Section) : Bool :=
  decide (t.virtualAddress ≤ k ∧ k < t.virtualAddress + t.rawSize)

/-- The header, with the raw data of the sections over it in their order, and zeros elsewhere. -/
def overlay (bytes : List UInt8) (headersSize : ℕ) (sections : List Section) (k : ℕ) : UInt8 :=
  match (sections.filter (covers k)).getLast? with
  | some t => bytes[t.rawOffset + (k - t.virtualAddress)]?.getD 0
  | none => if k < headersSize then bytes[k]?.getD 0 else 0

def imageByte (bytes : List UInt8) (image : Image) : ℕ → UInt8 :=
  overlay bytes image.headersSize image.sections

theorem overlay_snoc {sections : List Section} :
    overlay bytes headersSize (sections ++ [t]) k =
      if t.virtualAddress ≤ k ∧ k < t.virtualAddress + t.rawSize then
        bytes[t.rawOffset + (k - t.virtualAddress)]?.getD 0
      else overlay bytes headersSize sections k := by
  rw [overlay, List.filter_append]
  by_cases hk : t.virtualAddress ≤ k ∧ k < t.virtualAddress + t.rawSize
  · simp [covers, hk]
  · simp [covers, hk, overlay]

/-- The image as the file has it, in pages of the new space. -/
def fillImage (X : Mapper) (bytes : List UInt8) (image : Image) :
    Attempt Building MirageError Unit := do
  mapImage X image
  writeAt .mapping mirageImageBase (← slice bytes 0 (min image.headersSize bytes.length))
  image.sections.foldlM (fun _ t => copySection bytes t) ()

/-- What comes after the relocations. -/
def finishImage (X : Mapper) (nx : Bool) (image : Image) : Attempt Building MirageError Unit := do
  bindImports X image
  image.sections.foldlM (fun _ t => protectSection X nx t) ()
  mapStack .mapping X nx

theorem buildImage_eq : buildImage X nx bytes image = (do
    fillImage X bytes image
    applyRelocations image
    finishImage X nx image) := by
  simp only [buildImage, fillImage, finishImage, bind_assoc]

theorem fillImage_ok (hi : Bounded image) (hb : Sound b)
    (h : (fillImage X bytes image).run b = some (.ok (), b')) :
    Sound b' ∧ ∀ k < imagePages image * 4096,
      b'.byteAt (mirageImageBase + k) = some (imageByte bytes image k) := by
  rw [fillImage] at h
  obtain ⟨_, b₁, hmap, h⟩ := run_bind_ok.mp h
  obtain ⟨hin, h⟩ := run_slice_bind_ok.mp h
  obtain ⟨_, b₂, hheaders, hcopy⟩ := run_bind_ok.mp h
  obtain ⟨hs₁, -, -, hzero⟩ := mapImage_ok hi hb hmap
  have hlen : ((bytes.drop 0).take (min image.headersSize bytes.length - 0)).length =
      min image.headersSize bytes.length := by
    rw [List.length_take, List.length_drop]
    omega
  obtain ⟨hs₂, hw⟩ := written_of_ok hs₁ (by
    have hlt := hi.headers
    rw [hlen, mirageImageBase]
    omega) hheaders
  refine run_foldlM_ok (I := fun done _ c => Sound c ∧ ∀ k < imagePages image * 4096,
    c.byteAt (mirageImageBase + k) = some (overlay bytes image.headersSize done k)) (d := [])
    ?_ hcopy ⟨hs₂, fun k hk => ?_⟩
  · rintro before t after _ c _ c' hl ⟨hc, hbytes⟩ hstep
    have hsplit : image.sections = before ++ t :: after := hl
    have ht : t ∈ image.sections := by
      rw [hsplit]
      simp
    obtain ⟨hs, -, hnew⟩ := copySection_ok hi ht hc hstep
    refine ⟨hs, fun k hk => ?_⟩
    rw [hnew, overlay_snoc, hbytes k hk]
    split
    · rfl
    · rfl
  · rw [hw.byteAt, hlen, hzero k hk, overlay]
    simp only [List.filter_nil, List.getLast?_nil, Nat.add_sub_cancel_left, List.drop_zero,
      Nat.sub_zero]
    by_cases hk' : k < min image.headersSize bytes.length
    · rw [if_pos ⟨by omega, by omega⟩, if_pos (by omega), List.getElem?_take_of_lt hk']
    · rw [if_neg (by omega)]
      split
      · rw [List.getElem?_eq_none (by omega)]
        rfl
      · rfl

end Filling

section Assigned

/-- Memory in which each address of `A` shows the byte that it has there, and nothing else has
changed. -/
structure Assigned (A : ℕ → UInt8 → Prop) (space : AddressSpace) (m m' : Memory) : Prop where
  inside : ∀ {a v}, A a v → ∃ f, space.translate m a = some f ∧ m' f (a % 4096) = v
  outside : ∀ {f o}, (∀ a v, A a v → ¬ (space.translate m a = some f ∧ o = a % 4096)) →
    m' f o = m f o

variable {A : ℕ → UInt8 → Prop}

theorem Assigned.unique (h : Assigned A space m m') (h' : Assigned A space m m'') : m' = m'' := by
  funext f o
  by_cases hin : ∃ a v, A a v ∧ space.translate m a = some f ∧ o = a % 4096
  · obtain ⟨a, v, hA, hf, rfl⟩ := hin
    obtain ⟨g, hg, hv⟩ := h.inside hA
    obtain ⟨g', hg', hv'⟩ := h'.inside hA
    obtain rfl := Option.some.inj (hf.symm.trans hg)
    obtain rfl := Option.some.inj (hf.symm.trans hg')
    rw [hv, hv']
  · have hno : ∀ a v, A a v → ¬ (space.translate m a = some f ∧ o = a % 4096) :=
      fun a v hA hx => hin ⟨a, v, hA, hx⟩
    rw [h.outside hno, h'.outside hno]

theorem assigned_refl (h : ∀ {a v}, ¬ A a v) (space : AddressSpace) (m : Memory) :
    Assigned A space m m := ⟨fun ha => absurd ha h, fun _ => rfl⟩

/-- Two addresses of the lower half that lead to one byte are the same. -/
theorem address_eq {x y : ℕ} (T : TableTree m space.root place w) (hx : x < 2 ^ 47)
    (hy : y < 2 ^ 47) (hf : space.translate m x = some f) (hf' : space.translate m y = some f)
    (ho : x % 4096 = y % 4096) : x = y := by
  have h := place_of_translate T hx hf
  rw [place_of_translate T hy hf'] at h
  simp only [Option.some.injEq, Prod.mk.injEq, true_and] at h
  omega

variable (T : TableTree m space.root place w) (hA : ∀ {a v}, A a v → a < 2 ^ 47)
include T hA

theorem Assigned.kept (h : Assigned A space m m') : TablesKept place m m' :=
  tablesKept_of_leaves fun g hg => by
    funext o
    exact h.outside fun a v ha ⟨hf, _⟩ => hg _ (place_of_translate T (hA ha) hf)

theorem Assigned.byteAt_inside (h : Assigned A space m m') (ha : A a v) :
    space.byteAt m' a = some v := by
  obtain ⟨f, hf, hv⟩ := h.inside ha
  rw [AddressSpace.byteAt, translate_congr T (h.kept T hA) (hA ha), hf, Option.map_some, hv]

theorem Assigned.byteAt_outside (h : Assigned A space m m') (ha : a < 2 ^ 47)
    (hno : ∀ v, ¬ A a v) : space.byteAt m' a = space.byteAt m a := by
  rw [AddressSpace.byteAt, AddressSpace.byteAt, translate_congr T (h.kept T hA) ha]
  cases hf : space.translate m a with
  | none => rfl
  | some f =>
    rw [Option.map_some, Option.map_some, h.outside]
    rintro x v hx ⟨hf', ho⟩
    obtain rfl := address_eq T ha (hA hx) hf hf' ho
    exact hno v hx

/-- A write in one page to addresses that have not been assigned yet. -/
theorem Assigned.write {data : List UInt8} (h : Assigned A space m m')
    (hf : space.translate m addr = some f) (hfit : addr % 4096 + data.length ≤ 4096)
    (hlt : addr < 2 ^ 47)
    (hnew : ∀ a v, A a v → a < addr ∨ addr + data.length ≤ a) :
    Assigned (fun a v => A a v ∨ addr ≤ a ∧ data[a - addr]? = some v) space m
      (m'.write f (addr % 4096) data) := by
  have hrange : ∀ {a v}, addr ≤ a → data[a - addr]? = some v →
      a < addr + data.length ∧ space.translate m a = some f ∧
        a % 4096 = addr % 4096 + (a - addr) := fun h1 h2 => by
    obtain ⟨hk, -⟩ := List.getElem?_eq_some_iff.mp h2
    exact ⟨by omega, (translate_page space m (by omega)).trans hf, by omega⟩
  refine ⟨?_, fun {g o} hno => ?_⟩
  · rintro a v (ha | ⟨h1, h2⟩)
    · obtain ⟨g, hg, hv⟩ := h.inside ha
      refine ⟨g, hg, ?_⟩
      by_cases hgf : g = f
      · subst hgf
        have hpages : addr / 4096 = a / 4096 := by
          have hp := place_of_translate T hlt hf
          rw [place_of_translate T (hA ha) hg] at hp
          simp only [Option.some.injEq, Prod.mk.injEq, true_and] at hp
          exact hp.symm
        rcases hnew a v ha with hbelow | habove
        · rw [Memory.write_below (by omega), hv]
        · rw [Memory.write_above (by omega), hv]
      · rw [Memory.write_frame_ne hgf, hv]
    · obtain ⟨hlt', hfa, ho⟩ := hrange h1 h2
      refine ⟨f, hfa, ?_⟩
      obtain ⟨hk, hv⟩ := List.getElem?_eq_some_iff.mp h2
      rw [ho, Memory.write_at hk, hv]
  · have hold := h.outside fun a v ha => hno a v (Or.inl ha)
    by_cases hgf : g = f
    · subst hgf
      by_cases hlo : o < addr % 4096
      · rw [Memory.write_below hlo, hold]
      · by_cases hhi : o < addr % 4096 + data.length
        · have hk : addr + (o - addr % 4096) - addr < data.length := by omega
          refine absurd ⟨(translate_page space m (by omega)).trans hf, by omega⟩
            (hno (addr + (o - addr % 4096)) (data.get ⟨_, hk⟩)
              (Or.inr ⟨Nat.le_add_right _ _, List.getElem?_eq_getElem hk⟩))
        · rw [Memory.write_above (by omega), hold]
    · rw [Memory.write_frame_ne hgf, hold]

end Assigned

section Words

/-- The little-endian number that eight addresses of the lower half show. -/
def wordAt (b : Building) (addr : ℕ) : Option ℕ :=
  if ∀ k < 8, (b.byteAt (addr + k)).isSome = true then
    some (ofBytes ((List.range 8).map fun k => (b.byteAt (addr + k)).getD 0))
  else none

theorem wordAt_eq {data : List UInt8} (hl : data.length = 8)
    (h : ∀ k < 8, b.byteAt (addr + k) = data[k]?) : wordAt b addr = some (ofBytes data) := by
  have hdata : ((List.range 8).map fun k => (b.byteAt (addr + k)).getD 0) = data := by
    apply List.ext_getElem (by simp [hl])
    intro k hk hk'
    rw [List.getElem_map, List.getElem_range, h k (by omega), List.getElem?_eq_getElem hk',
      Option.getD_some]
  rw [wordAt, if_pos fun k hk => ?_, hdata]
  rw [h k hk, List.getElem?_eq_getElem (by omega)]
  rfl

theorem wordAt_lt (h : wordAt b addr = some k) : k < 2 ^ 64 := by
  rw [wordAt] at h
  split at h
  case isTrue =>
    have hlt : ofBytes ((List.range 8).map fun k => (b.byteAt (addr + k)).getD 0) < 256 ^ 8 :=
      ofBytes_lt_of_length (by simp)
    rw [← Option.some.inj h]
    exact hlt.trans_eq (by norm_num)
  case isFalse => cases h

end Words

section Relocations

/-- Eight addresses of the image from a relocation on. -/
def Slot (r a : ℕ) : Prop := mirageImageBase + r ≤ a ∧ a < mirageImageBase + r + 8

/-- The slots of two relocations have no byte in common. -/
def SlotsApart (r r' : ℕ) : Prop := r + 8 ≤ r' ∨ r' + 8 ≤ r

/-- What a slot holds after its relocation. -/
def slotData (b : Building) (delta r : ℕ) : List UInt8 :=
  toBytes 8 ((wordAt b (mirageImageBase + r)).getD 0 + delta)

/-- The bytes of the slots of some relocations. -/
def slotBytes (b : Building) (delta : ℕ) (rs : List ℕ) (a : ℕ) (v : UInt8) : Prop :=
  ∃ r ∈ rs, mirageImageBase + r ≤ a ∧ (slotData b delta r)[a - (mirageImageBase + r)]? = some v

/-- A relocation that goes through. -/
def Reaches (b : Building) (r : ℕ) : Prop :=
  b.space.translate b.system.bytes (mirageImageBase + r) ≠ none ∧
    (mirageImageBase + r) % 4096 ≤ 4096 - 8

/-- The space under construction over another memory. -/
def backed (b : Building) (m : Memory) : Building := ⟨b.space, { b.system with bytes := m }⟩

theorem slotBytes_slot (h : slotBytes b delta rs a v) : ∃ r ∈ rs, Slot r a := by
  obtain ⟨r, hr, h1, h2⟩ := h
  obtain ⟨hlt, -⟩ := List.getElem?_eq_some_iff.mp h2
  rw [slotData, length_toBytes] at hlt
  exact ⟨r, hr, h1, by omega⟩

theorem slotBytes_lt (hrs : ∀ r ∈ rs, r < 2 ^ 32) (h : slotBytes b delta rs a v) : a < 2 ^ 47 := by
  obtain ⟨r, hr, -, hlt⟩ := slotBytes_slot h
  have := hrs r hr
  rw [mirageImageBase] at hlt
  omega

theorem slotBytes_perm (h : rs'.Perm rs) : slotBytes b delta rs' = slotBytes b delta rs := by
  funext a v
  exact propext ⟨fun ⟨r, hr, hx⟩ => ⟨r, h.mem_iff.mp hr, hx⟩,
    fun ⟨r, hr, hx⟩ => ⟨r, h.mem_iff.mpr hr, hx⟩⟩

theorem slotBytes_nil : ¬ slotBytes b delta [] a v := by
  simp [slotBytes]

theorem slotBytes_snoc : slotBytes b delta (done ++ [r]) = fun a v =>
    slotBytes b delta done a v ∨
      mirageImageBase + r ≤ a ∧ (slotData b delta r)[a - (mirageImageBase + r)]? = some v := by
  funext a v
  simp only [slotBytes, List.mem_append, List.mem_singleton, or_and_right, exists_or,
    exists_eq_left]

theorem run_relocate : (relocate delta r).run b =
    match b.space.translate b.system.bytes (mirageImageBase + r) with
    | none => some (.error (.malformed "a relocation points outside the mapped image"), b)
    | some frame =>
      if (mirageImageBase + r) % 4096 > 4096 - 8 then
        some (.error (.malformed "a relocation straddles a page boundary"), b)
      else some (.ok (), backed b (b.system.bytes.write frame ((mirageImageBase + r) % 4096)
        (toBytes 8 (ofBytes (b.system.bytes.read frame ((mirageImageBase + r) % 4096) 8) +
          delta)))) := by
  rw [relocate, run_bind, run_of]
  cases b.space.translate b.system.bytes (mirageImageBase + r) with
  | none => rfl
  | some frame =>
    simp only [run_ensure_bind, run_of]
    by_cases hin : (mirageImageBase + r) % 4096 > 4096 - 8
    · rw [if_neg (not_not.mpr hin), if_pos hin]
    · rw [if_pos hin, if_neg hin, backed]

theorem turns_before {before after : List ℕ} (hrs : ∀ r ∈ rs, r < 2 ^ 32)
    (hd : rs.Pairwise SlotsApart) (hl : rs = before ++ r :: after) :
    r < 2 ^ 32 ∧ (∀ r' ∈ before, r' < 2 ^ 32) ∧ ∀ r' ∈ before, SlotsApart r' r := by
  rw [hl] at hrs hd
  refine ⟨hrs r (by simp), fun r' hr' => hrs r' (List.mem_append_left _ hr'), fun r' hr' => ?_⟩
  exact (List.pairwise_append.mp hd).2.2 r' hr' r List.mem_cons_self

variable (hb : Sound b) (hrs : ∀ r ∈ rs, r < 2 ^ 32) (hd : rs.Pairwise SlotsApart)
include hb

theorem translate_assigned (hdone : ∀ r ∈ done, r < 2 ^ 32)
    (hA : Assigned (slotBytes b delta done) b.space b.system.bytes m) (ha : a < 2 ^ 47) :
    b.space.translate m a = b.space.translate b.system.bytes a := by
  obtain ⟨place, hH⟩ := hb.holds
  exact translate_congr hH.tree (hA.kept hH.tree (slotBytes_lt hdone)) ha

/-- What a slot not yet relocated holds, read in the frame of its page. -/
theorem read_slot (hr : r < 2 ^ 32) (hdone : ∀ r ∈ done, r < 2 ^ 32)
    (hnew : ∀ r' ∈ done, SlotsApart r' r)
    (hA : Assigned (slotBytes b delta done) b.space b.system.bytes m)
    (hf : b.space.translate b.system.bytes (mirageImageBase + r) = some f)
    (hin : (mirageImageBase + r) % 4096 ≤ 4096 - 8) :
    wordAt b (mirageImageBase + r) =
      some (ofBytes (m.read f ((mirageImageBase + r) % 4096) 8)) := by
  obtain ⟨place, hH⟩ := hb.holds
  refine wordAt_eq Memory.length_read fun k hk => ?_
  have hlt : mirageImageBase + r + k < 2 ^ 47 := by
    rw [mirageImageBase]
    omega
  have hoff : (mirageImageBase + r + k) % 4096 = (mirageImageBase + r) % 4096 + k := by omega
  have hfk : b.space.translate b.system.bytes (mirageImageBase + r + k) = some f :=
    (translate_page _ _ (by omega)).trans hf
  have hold : b.space.byteAt m (mirageImageBase + r + k) =
      b.space.byteAt b.system.bytes (mirageImageBase + r + k) := by
    refine hA.byteAt_outside hH.tree (slotBytes_lt hdone) hlt fun v hv => ?_
    obtain ⟨r', hr', h1, h2⟩ := slotBytes_slot hv
    rcases hnew r' hr' with h | h
    · omega
    · omega
  rw [Building.byteAt, if_pos hlt, ← hold, AddressSpace.byteAt,
    translate_assigned hb hdone hA hlt, hfk, Option.map_some, hoff, Memory.getElem?_read hk]

theorem relocate_reaches (hr : r < 2 ^ 32) (hdone : ∀ r ∈ done, r < 2 ^ 32)
    (hnew : ∀ r' ∈ done, SlotsApart r' r)
    (hA : Assigned (slotBytes b delta done) b.space b.system.bytes m) (hreach : Reaches b r) :
    ∃ m', (relocate delta r).run (backed b m) = some (.ok (), backed b m') ∧
      Assigned (slotBytes b delta (done ++ [r])) b.space b.system.bytes m' := by
  obtain ⟨place, hH⟩ := hb.holds
  obtain ⟨hmapped, hin⟩ := hreach
  obtain ⟨f, hf⟩ := Option.ne_none_iff_exists'.mp hmapped
  have hlt : mirageImageBase + r < 2 ^ 47 := by
    rw [mirageImageBase]
    omega
  have hword := read_slot hb hr hdone hnew hA hf hin
  have hdata : slotData b delta r =
      toBytes 8 (ofBytes (m.read f ((mirageImageBase + r) % 4096) 8) + delta) := by
    rw [slotData, hword, Option.getD_some]
  refine ⟨m.write f ((mirageImageBase + r) % 4096) (slotData b delta r), ?_, ?_⟩
  · rw [run_relocate, backed, translate_assigned hb hdone hA hlt, hf, hdata]
    simp only
    rw [if_neg (Nat.not_lt.mpr hin)]
    rfl
  · rw [slotBytes_snoc]
    refine hA.write hH.tree (slotBytes_lt hdone) hf ?_ hlt fun a v hv => ?_
    · rw [slotData, length_toBytes]
      omega
    · obtain ⟨r', hr', h1, h2⟩ := slotBytes_slot hv
      rw [slotData, length_toBytes]
      rcases hnew r' hr' with h | h
      · omega
      · omega

theorem reaches_of_ok (hr : r < 2 ^ 32) (hdone : ∀ r ∈ done, r < 2 ^ 32)
    (hA : Assigned (slotBytes b delta done) b.space b.system.bytes m)
    (h : (relocate delta r).run (backed b m) = some (.ok (), c)) : Reaches b r := by
  have hlt : mirageImageBase + r < 2 ^ 47 := by
    rw [mirageImageBase]
    omega
  rw [run_relocate, backed, translate_assigned hb hdone hA hlt] at h
  cases hf : b.space.translate b.system.bytes (mirageImageBase + r) with
  | none => simp [hf] at h
  | some f =>
    rw [hf] at h
    simp only at h
    split at h
    case isTrue => simp at h
    case isFalse hin => exact ⟨by simp [hf], Nat.not_lt.mp hin⟩

include hrs hd

theorem relocations_reach (hreach : ∀ r ∈ rs, Reaches b r) :
    ∃ m, (rs.foldlM (fun _ r => relocate delta r) ()).run b = some (.ok (), backed b m) ∧
      Assigned (slotBytes b delta rs) b.space b.system.bytes m := by
  obtain ⟨_, _, hrun, m, rfl, hA⟩ := run_foldlM_returns (l := rs)
    (g := fun _ r => relocate delta r) (I := fun done _ c => ∃ m, c = backed b m ∧
      Assigned (slotBytes b delta done) b.space b.system.bytes m) (d := []) (b := ()) (s := b) (by
    rintro before r after _ _ hl ⟨m, rfl, hA⟩
    obtain ⟨hr, hdone, hnew⟩ := turns_before hrs hd hl
    obtain ⟨m', hrun, hA'⟩ := relocate_reaches hb hr hdone hnew hA (hreach r (by rw [hl]; simp))
    exact ⟨(), _, hrun, m', rfl, hA'⟩) ⟨b.system.bytes, rfl,
      assigned_refl slotBytes_nil _ _⟩
  exact ⟨m, hrun, hA⟩

theorem relocations_ok
    (h : (rs.foldlM (fun _ r => relocate delta r) ()).run b = some (.ok (), b')) :
    ∀ r ∈ rs, Reaches b r := by
  refine (run_foldlM_ok (I := fun done _ c => (∃ m, c = backed b m ∧
    Assigned (slotBytes b delta done) b.space b.system.bytes m) ∧ ∀ r ∈ done, Reaches b r)
    (d := []) ?_ h ⟨⟨b.system.bytes, rfl, assigned_refl slotBytes_nil _ _⟩, by simp⟩).2
  rintro before r after _ _ _ c' hl ⟨⟨m, rfl, hA⟩, hall⟩ hstep
  obtain ⟨hr, hdone, hnew⟩ := turns_before hrs hd hl
  have hreach := reaches_of_ok hb hr hdone hA hstep
  obtain ⟨m', hrun, hA'⟩ := relocate_reaches hb hr hdone hnew hA hreach
  obtain ⟨-, rfl⟩ := Prod.mk.inj (Option.some.inj (hstep.symm.trans hrun))
  refine ⟨⟨m', rfl, hA'⟩, fun x hx => ?_⟩
  rcases List.mem_append.mp hx with hx | hx
  · exact hall x hx
  · exact List.mem_singleton.mp hx ▸ hreach

end Relocations

section Images

theorem ImageIs.base_lt (hi : ImageIs bytes image) : image.preferredBase < 2 ^ 64 := by
  obtain ⟨-, -, -, -, -, -, hbase, -⟩ := hi
  rw [hbase, headersOf]
  exact field_lt _ _ _

/-- What the relocations of an image do to the space: `b` is the space before them. -/
structure Relocated (image : Image) (b b' : Building) : Prop where
  slots : ∀ r ∈ image.relocations, wordAt b' (mirageImageBase + r) =
    (wordAt b (mirageImageBase + r)).map fun v =>
      (((v : ℤ) + mirageImageBase - image.preferredBase) % 2 ^ 64).toNat
  others : ∀ a, (∀ r ∈ image.relocations, ¬ Slot r a) → b'.byteAt a = b.byteAt a
  anyOrder : ∀ rs, rs.Perm image.relocations →
    (applyRelocations { image with relocations := rs }).run b = some (.ok (), b')

/-- The sum of the code, which takes the distance modulo 2 ^ 64 first. -/
theorem add_delta {base preferred v : ℕ} (h : preferred < 2 ^ 64) :
    (v + (base + (2 ^ 64 - preferred)) % 2 ^ 64) % 2 ^ 64 =
      (((v : ℤ) + base - preferred) % 2 ^ 64).toNat := by
  omega

/-- The slots hold the sums, and the bytes outside of them are as they were. -/
theorem assigned_bytes (hb : Sound b) (hrs : ∀ r ∈ rs, r < 2 ^ 32)
    (hreach : ∀ r ∈ rs, Reaches b r)
    (hA : Assigned (slotBytes b delta rs) b.space b.system.bytes m) :
    (∀ r ∈ rs, wordAt (backed b m) (mirageImageBase + r) =
      (wordAt b (mirageImageBase + r)).map fun v => (v + delta) % 2 ^ 64) ∧
    ∀ a, (∀ r ∈ rs, ¬ Slot r a) → (backed b m).byteAt a = b.byteAt a := by
  obtain ⟨place, hH⟩ := hb.holds
  refine ⟨fun r hr => ?_, fun a ha => ?_⟩
  · have hlt := hrs r hr
    obtain ⟨hmapped, hin⟩ := hreach r hr
    obtain ⟨f, hf⟩ := Option.ne_none_iff_exists'.mp hmapped
    have hnone : Assigned (slotBytes b delta []) b.space b.system.bytes b.system.bytes :=
      assigned_refl slotBytes_nil _ _
    have hword := read_slot hb hlt (by simp) (by simp) hnone hf hin
    have hnew : wordAt (backed b m) (mirageImageBase + r) = some (ofBytes (slotData b delta r)) := by
      refine wordAt_eq (by rw [slotData, length_toBytes]) fun k hk => ?_
      have hk' : k < (slotData b delta r).length := by
        rw [slotData, length_toBytes]
        exact hk
      have hlow : mirageImageBase + r + k < 2 ^ 47 := by
        rw [mirageImageBase]
        omega
      rw [Building.byteAt, if_pos hlow, List.getElem?_eq_getElem hk']
      refine hA.byteAt_inside hH.tree (slotBytes_lt hrs) ⟨r, hr, Nat.le_add_right _ _, ?_⟩
      rw [Nat.add_sub_cancel_left, List.getElem?_eq_getElem hk']
    rw [hnew, slotData, hword, Option.getD_some, Option.map_some, ofBytes_toBytes]
    norm_num
  · by_cases hlow : a < 2 ^ 47
    · rw [Building.byteAt, Building.byteAt, if_pos hlow, if_pos hlow]
      refine hA.byteAt_outside hH.tree (slotBytes_lt hrs) hlow fun v hv => ?_
      obtain ⟨r, hr, hslot⟩ := slotBytes_slot hv
      exact ha r hr hslot
    · rw [Building.byteAt, Building.byteAt, if_neg hlow, if_neg hlow]

theorem applyRelocations_exact (hb : Sound b) (hi : ImageIs bytes image)
    (hd : image.relocations.Pairwise SlotsApart)
    (h : (applyRelocations image).run b = some (.ok (), b')) : Relocated image b b' := by
  have hbase := ImageIs.base_lt hi
  have hrs := hi.bounded.relocations
  rw [applyRelocations] at h
  split at h
  case isTrue hskip =>
    obtain ⟨-, rfl⟩ := Prod.mk.inj (Option.some.inj h)
    refine ⟨fun r hr => ?_, fun _ _ => rfl, fun rs hperm => ?_⟩
    · have hzero := hskip.resolve_right fun hnil => by
        rw [hnil] at hr
        cases hr
      cases hv : wordAt b (mirageImageBase + r) with
      | none => rfl
      | some v =>
        have hlt := wordAt_lt hv
        rw [Option.map_some, ← add_delta hbase, hzero, Nat.add_zero, Nat.mod_eq_of_lt hlt]
    · rw [applyRelocations]
      simp only
      rw [if_pos (hskip.imp id fun hnil => List.perm_nil.mp (hnil ▸ hperm)), run_pure]
  case isFalse hgo =>
    rw [not_or] at hgo
    have hreach := relocations_ok hb hrs hd h
    obtain ⟨m, hrun, hA⟩ := relocations_reach hb hrs hd hreach
    obtain ⟨-, rfl⟩ := Prod.mk.inj (Option.some.inj (h.symm.trans hrun))
    obtain ⟨hslots, hothers⟩ := assigned_bytes hb hrs hreach hA
    refine ⟨fun r hr => ?_, hothers, fun rs hperm => ?_⟩
    · rw [hslots r hr]
      congr 1
      funext v
      exact add_delta hbase
    · obtain ⟨m', hrun', hA'⟩ := relocations_reach hb
        (fun r hr => hrs r (hperm.mem_iff.mp hr)) (hd.perm hperm.symm fun h => h.symm)
        (fun r hr => hreach r (hperm.mem_iff.mp hr))
      rw [slotBytes_perm hperm] at hA'
      have hnil : rs ≠ [] := fun hnil => hgo.2 (List.perm_nil.mp (hnil ▸ hperm.symm))
      rw [applyRelocations]
      simp only
      rw [if_neg (not_or.mpr ⟨hgo.1, hnil⟩), hrun', hA.unique hA']

/-- The stages of a load: the space before the relocations, behind them, and in the end. -/
structure Stages (X : Mapper) (cr3 : Frame) (nx : Bool) (bytes : List UInt8) (sys : System)
    (image : Image) (b b' c : Building) : Prop where
  parsed : (parse bytes).run sys = some (.ok image, sys)
  filled : ∃ space u, (newSpace cr3 MirageError.outOfMemory).run sys = some (.ok space, u) ∧
    (fillImage X bytes image).run ⟨space, u⟩ = some (.ok (), b)
  relocated : (applyRelocations image).run b = some (.ok (), b')
  finished : (finishImage X nx image).run b' = some (.ok (), c)

theorem relocation_exact {kernelRoot cr3 : Frame} {level : Frame → Option ℕ} {data : Frame → Prop}
    {s₀ s : State} {es : List Event} {name : String} {loaded : LoadedImage} {sys' : System}
    (hb : Boots kernelRoot level data s₀) (hrun : exec (next X kernelRoot) s₀ es = some s)
    (h : (loadImage X cr3 nx bytes name).run s.system = some (.ok loaded, sys')) :
    ∃ image b b', Stages X cr3 nx bytes s.system image b b' ⟨loaded.addressSpace, sys'⟩ ∧
      (∀ k < imagePages image * 4096,
        b.byteAt (mirageImageBase + k) = some (imageByte bytes image k)) ∧
      (image.relocations.Pairwise SlotsApart → Relocated image b b') := by
  obtain ⟨place, I⟩ := hb.run hrun
  rw [loadImage] at h
  obtain ⟨image, u, hparse, h₁⟩ := run_bind_ok.mp h
  obtain ⟨_, v, hcheck, h₂⟩ := run_bind_ok.mp h₁
  obtain ⟨space, w, hnew, h₃⟩ := run_bind_ok.mp h₂
  obtain ⟨⟨⟨⟩, space'⟩, x, hbuild, h₄⟩ := run_bind_ok.mp h₃
  obtain ⟨hi, hu⟩ := parse_outcome.run_ok.mp hparse
  have hv : v = u := by
    refine run_foldlM_ok (I := fun _ _ c => c = u) (d := []) ?_ hcheck rfl
    intro before i after _ c _ c' _ hc hstep
    exact (run_ensure_ok.mp hstep).2.trans hc
  rw [hv, hu] at hnew
  rw [hu] at hparse
  obtain ⟨hs, -, -⟩ := run_newSpace_ok I.nodup hnew
  rw [run_pure, Option.some.injEq, Prod.mk.injEq, Except.ok.injEq] at h₄
  obtain ⟨rfl, rfl⟩ := h₄
  have hwork := run_building_ok.mp hbuild
  rw [buildImage_eq] at hwork
  obtain ⟨_, b, hfill, hwork⟩ := run_bind_ok.mp hwork
  obtain ⟨_, b', hreloc, hfinish⟩ := run_bind_ok.mp hwork
  obtain ⟨hs', hbytes⟩ := fillImage_ok hi.bounded hs hfill
  exact ⟨image, b, b', ⟨hparse, ⟨space, w, hnew, hfill⟩, hreloc, hfinish⟩, hbytes,
    fun hd => applyRelocations_exact hs' hi hd hreloc⟩

/-- A header page with two relocations in it. -/
def twoSlots : List UInt8 :=
  encode 0 4096 260 [(0, 0), (0, 0), (0, 0), (0, 0), (0, 0), (248, 12)] []
    (toBytes 4 0 ++ toBytes 4 12 ++ toBytes 2 0xA020 ++ toBytes 2 0xA010)

theorem twoSlots_read : parsed twoSlots = some ⟨0, 0, 4096, 260, [], [], [0x20, 0x10]⟩ ∧
    Loadable twoSlots ⟨0, 0, 4096, 260, [], [], [0x20, 0x10]⟩ := by decide +kernel

theorem relocation_exact_twoSlots : ∃ loaded sys' b b',
    (loadImage .walker 1#40 true twoSlots "slots.exe").run (bootWith 0x40000).system =
      some (.ok loaded, sys') ∧
    Stages .walker 1#40 true twoSlots (bootWith 0x40000).system
      ⟨0, 0, 4096, 260, [], [], [0x20, 0x10]⟩ b b' ⟨loaded.addressSpace, sys'⟩ ∧
    Relocated ⟨0, 0, 4096, 260, [], [], [0x20, 0x10]⟩ b b' := by
  obtain ⟨hparsed, hl⟩ := twoSlots_read
  have hi := imageIs_of_parsed hparsed
  have hloads : ∃ loaded sys', (loadImage .walker 1#40 true twoSlots "slots.exe").run
      (bootWith 0x40000).system = some (.ok loaded, sys') :=
    bootWith_loads _ (by decide) hi hl (by decide)
  obtain ⟨loaded, sys', h⟩ := hloads
  have hboots : Boots 1#40 bootLevel (fun _ => False) (bootWith 0x40000) :=
    bootWith_boots (by decide)
  obtain ⟨image, b, b', hstages, -, hrelocated⟩ :=
    relocation_exact (X := .walker) hboots (exec_nil _ _) h
  obtain rfl := hi.unique (parse_outcome.run_ok.mp hstages.parsed).1
  refine ⟨loaded, sys', b, b', h, hstages, hrelocated ?_⟩
  simp [SlotsApart]

end Images

end Mirage
