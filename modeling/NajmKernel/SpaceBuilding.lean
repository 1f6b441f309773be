import NajmKernel.Attempts
import NajmKernel.SpaceRuns

/-! A loader at work on the space it builds: each step by what it does to the flags of every page
and to the byte at every address of the lower half. -/
namespace SpaceBuilding

open PhysicalMemory PageTables PhysicalFrames AddressSpaces Attempts Attempt

/-- Ranges of pages of the paging library. Moving on from a page may panic (`none`) only where the
next address is not canonical. -/
structure PageRange where
  advance : ℕ → Option Unit
  advance_canonical {page : ℕ} : isCanonical (4096 * (page + 1)) = true → advance page = some ()

/-- Ranges that step by an addition to the address. -/
def PageRange.stepping : PageRange where
  advance page := if isCanonical (4096 * (page + 1)) then some () else none
  advance_canonical h := if_pos h

structure Building where
  space : AddressSpace
  system : System

section Operations

variable {ε : Type}

/-- The space under construction is dropped where the work on it fails. -/
def building {α : Type} (space : AddressSpace) (work : Attempt Building ε α) :
    Attempt System ε (α × AddressSpace) := of fun s =>
  (work.run ⟨space, s⟩).map fun
    | (.ok a, b) => (.ok (a, b.space), b.system)
    | (.error e, b) => (.error e, b.space.drop b.system)

def newSpace (cr3 : Frame) (outOfMemory : ε) : Attempt System ε AddressSpace := of fun s =>
  (AddressSpace.new cr3 s).map fun
    | (some space, s) => (.ok space, s)
    | (none, s) => (.error outOfMemory, s)

variable (mapping : MapError → ε)

def mapPage (X : Mapper) (page : ℕ) (flags : PageTableFlags) : Attempt Building ε Unit :=
  of fun b => (b.space.mapPage X page flags b.system).map fun r =>
    (r.1.mapError mapping, ⟨r.2.1, r.2.2⟩)

def protectPage (X : Mapper) (page : ℕ) (flags : PageTableFlags) : Attempt Building ε Unit :=
  of fun b =>
    let r := b.space.protectPage X page flags b.system
    some (r.1.mapError mapping, ⟨b.space, r.2⟩)

/-- The addresses of a transfer are sums, formed in 64 bits. -/
def zeroAt (addr len : ℕ) : Attempt Building ε Unit := do
  demand (addr + len ≤ 2 ^ 64)
  of fun b =>
    let r := b.space.zeroAt addr len b.system.bytes
    some (r.1.mapError mapping, ⟨b.space, { b.system with bytes := r.2 }⟩)

def writeAt (addr : ℕ) (bytes : List UInt8) : Attempt Building ε Unit := do
  demand (addr + bytes.length ≤ 2 ^ 64)
  of fun b =>
    let r := b.space.writeAt addr bytes b.system.bytes
    some (r.1.mapError mapping, ⟨b.space, { b.system with bytes := r.2 }⟩)

/-- `VirtAddr::new`. -/
def virtAddr (addr : ℕ) : Attempt Building ε Unit := demand (isCanonical addr = true)

def stackBottom : ℕ := 0x7fffefff0000

def stackTop : ℕ := 0x7ffff0000000

def stackPages : ℕ := 16

def loadFlags : PageTableFlags := .present ||| .writable ||| .userAccessible

def stackFlags (nx : Bool) : PageTableFlags := if nx then loadFlags ||| .noExecute else loadFlags

/-- The stack, mapped and zeroed as both loaders do it. -/
def mapStack (X : Mapper) (nx : Bool) : Attempt Building ε Unit := do
  (List.range stackPages).foldlM (fun _ i => do
    virtAddr (stackBottom + i * 4096)
    mapPage mapping X ((stackBottom + i * 4096) / 4096) (stackFlags nx)) ()
  zeroAt mapping stackBottom (stackPages * 4096)

end Operations

/-- The flags in the leaf entry of a page of the lower half. -/
def Building.flagsAt (b : Building) (page : ℕ) : Option PageTableFlags :=
  if page < 2 ^ 35 then (b.space.leaf b.system.bytes page).map Entry.flags else none

/-- The byte that an address of the lower half shows. -/
def Building.byteAt (b : Building) (addr : ℕ) : Option UInt8 :=
  if addr < 2 ^ 47 then b.space.byteAt b.system.bytes addr else none

structure Sound (b : Building) : Prop where
  holds : ∃ place, Holds b.system b.space place true
  present : ∀ {page flags}, b.flagsAt page = some flags → flags.contains .present = true

variable {ε : Type} {mapping : MapError → ε} {X : Mapper} {b b' : Building} {page addr len : ℕ}
  {flags : PageTableFlags} {bytes : List UInt8}

theorem flagsAt_of_lt (h : page < 2 ^ 35) :
    b.flagsAt page = (b.space.leaf b.system.bytes page).map Entry.flags := if_pos h

theorem flagsAt_eq {f : ℕ → Option PageTableFlags}
    (hlt : ∀ q < 2 ^ 35, (b.space.leaf b.system.bytes q).map Entry.flags = f q)
    (hge : ∀ q, 2 ^ 35 ≤ q → f q = none) : b.flagsAt = f := by
  funext q
  by_cases hq : q < 2 ^ 35
  · rw [flagsAt_of_lt hq, hlt q hq]
  · rw [Building.flagsAt, if_neg hq, hge q (by omega)]

/-- Every page of a sound space shows its frame. -/
theorem Sound.translate (h : Sound b) (ha : addr < 2 ^ 47) : b.space.translate b.system.bytes addr =
    (b.space.leaf b.system.bytes (addr / 4096)).map Entry.frame := by
  obtain ⟨place, hH⟩ := h.holds
  have hp : addr / 4096 < 2 ^ 35 := by omega
  rw [translate_eq hH.tree ha]
  cases hl : b.space.leaf b.system.bytes (addr / 4096) with
  | none => rfl
  | some e =>
    have hat : b.flagsAt (addr / 4096) = some e.flags := by
      rw [flagsAt_of_lt hp, hl, Option.map_some]
    simp [h.present hat]

theorem Sound.byteAt_isSome (h : Sound b) (ha : addr < 2 ^ 47) :
    (b.byteAt addr).isSome = (b.flagsAt (addr / 4096)).isSome := by
  have hp : addr / 4096 < 2 ^ 35 := by omega
  rw [Building.byteAt, if_pos ha, AddressSpace.byteAt, h.translate ha, flagsAt_of_lt hp]
  simp

/-- A byte stays where its page keeps its entry and the frame behind it its bytes. -/
theorem byteAt_congr (h : Sound b) (h' : Sound b') {place : Placement}
    (hH : Holds b.system b.space place true)
    (hleaf : addr / 4096 < 2 ^ 35 → (b'.space.leaf b'.system.bytes (addr / 4096)).map Entry.frame =
      (b.space.leaf b.system.bytes (addr / 4096)).map Entry.frame)
    (hbytes : ∀ g n, place g = some (0, n) → b'.system.bytes g = b.system.bytes g) :
    b'.byteAt addr = b.byteAt addr := by
  by_cases ha : addr < 2 ^ 47
  · rw [Building.byteAt, Building.byteAt, if_pos ha, if_pos ha, AddressSpace.byteAt,
      AddressSpace.byteAt, h'.translate ha, hleaf (by omega), ← h.translate ha]
    cases ht : b.space.translate b.system.bytes addr with
    | none => rfl
    | some f => rw [Option.map_some, Option.map_some, hbytes f _ (place_of_translate hH.tree ha ht)]
  · rw [Building.byteAt, Building.byteAt, if_neg ha, if_neg ha]

section MapPage

theorem run_mapPage_ok : (mapPage mapping X page flags).run b = some (.ok (), b') ↔
    b.space.mapPage X page flags b.system = some (.ok (), b'.space, b'.system) := by
  rw [mapPage, run_of, Option.map_eq_some_iff]
  constructor
  · rintro ⟨⟨r, space, system⟩, hr, he⟩
    obtain ⟨h1, rfl⟩ := Prod.mk.inj he
    cases r with
    | ok => exact hr
    | error => cases h1
  · exact fun h => ⟨_, h, rfl⟩

/-- What a page gained from `map_page`. -/
structure Mapped (b b' : Building) (page : ℕ) (flags : PageTableFlags) : Prop where
  user : isUserAddress (4096 * page) = true
  before : b.flagsAt page = none
  flagsAt : b'.flagsAt = Function.update b.flagsAt page (some flags)
  byteAt : ∀ addr, addr / 4096 ≠ page → b'.byteAt addr = b.byteAt addr

theorem mapped_of_ok (hb : Sound b) (hw : flags.contains .writable = true)
    (hp : flags.contains .present = true)
    (h : (mapPage mapping X page flags).run b = some (.ok (), b')) :
    Sound b' ∧ Mapped b b' page flags := by
  obtain ⟨place, hH⟩ := hb.holds
  obtain ⟨place', hH', hE, hM, -⟩ := mapPage_spec hH (fun _ => hw) (run_mapPage_ok.mp h)
  obtain ⟨huser, hbefore, ⟨frame, -, -, hafter⟩, hothers⟩ := hM rfl
  have hlt := page_lt huser
  have hflags : b'.flagsAt = Function.update b.flagsAt page (some flags) := by
    apply flagsAt_eq
    · intro q hq
      by_cases hqp : q = page
      · subst hqp
        rw [hafter, Function.update_self, Option.map_some]
      · rw [hothers q hq hqp, Function.update_of_ne hqp, flagsAt_of_lt hq]
    · intro q hq
      rw [Function.update_of_ne (by omega), Building.flagsAt, if_neg (by omega)]
  have hsound : Sound b' := by
    refine ⟨⟨place', hH'⟩, ?_⟩
    intro q f hf
    rw [hflags] at hf
    by_cases hqp : q = page
    · subst hqp
      rw [Function.update_self, Option.some.injEq] at hf
      exact hf ▸ hp
    · rw [Function.update_of_ne hqp] at hf
      exact hb.present hf
  refine ⟨hsound, huser, ?_, hflags, fun addr ha => ?_⟩
  · rw [flagsAt_of_lt hlt, hbefore, Option.map_none]
  · exact byteAt_congr hb hsound hH (fun hq => by rw [hothers _ hq ha]) fun g n hg => hE.leaves hg

/-- A run of pages mapped with the same flags, none of them twice. -/
structure MappedAll (b b' : Building) (pages : List ℕ) (flags : PageTableFlags) : Prop where
  user : ∀ q ∈ pages, isUserAddress (4096 * q) = true
  nodup : pages.Nodup
  before : ∀ q ∈ pages, b.flagsAt q = none
  flagsAt : ∀ q, b'.flagsAt q = if q ∈ pages then some flags else b.flagsAt q
  byteAt : ∀ addr, addr / 4096 ∉ pages → b'.byteAt addr = b.byteAt addr

theorem MappedAll.refl (b : Building) (flags : PageTableFlags) : MappedAll b b [] flags where
  user := by simp
  nodup := List.nodup_nil
  before := by simp
  flagsAt := by simp
  byteAt _ _ := rfl

theorem MappedAll.snoc {b₁ : Building} {pages : List ℕ} (h : MappedAll b b₁ pages flags)
    (hm : Mapped b₁ b' page flags) : MappedAll b b' (pages ++ [page]) flags := by
  have hnew : page ∉ pages := by
    intro hin
    have := hm.before
    rw [h.flagsAt, if_pos hin] at this
    cases this
  constructor
  · intro q hq
    rcases List.mem_append.mp hq with hq | hq
    · exact h.user q hq
    · exact List.mem_singleton.mp hq ▸ hm.user
  · rw [List.nodup_append]
    refine ⟨h.nodup, List.nodup_singleton page, ?_⟩
    rintro q hq _ hr rfl
    exact hnew (List.mem_singleton.mp hr ▸ hq)
  · intro q hq
    rcases List.mem_append.mp hq with hq | hq
    · exact h.before q hq
    · obtain rfl := List.mem_singleton.mp hq
      rw [← hm.before, h.flagsAt, if_neg hnew]
  · intro q
    rw [hm.flagsAt]
    by_cases hq : q = page
    · subst hq
      rw [Function.update_self, if_pos (by simp)]
    · rw [Function.update_of_ne hq, h.flagsAt]
      simp [hq]
  · intro addr ha
    rw [List.mem_append, List.mem_singleton, not_or] at ha
    rw [hm.byteAt addr ha.2, h.byteAt addr ha.1]

/-- The loop of the loaders that maps pages side by side. -/
theorem mappedRange_of_ok {start n : ℕ} (hb : Sound b) (hw : flags.contains .writable = true)
    (hp : flags.contains .present = true)
    (h : ((List.range n).foldlM (fun _ i => do
      virtAddr (start + i * 4096)
      mapPage mapping X ((start + i * 4096) / 4096) flags) ()).run b = some (.ok (), b')) :
    Sound b' ∧ MappedAll b b' ((List.range n).map fun i => (start + i * 4096) / 4096) flags := by
  refine run_foldlM_ok (I := fun done _ c => Sound c ∧ MappedAll b c
    (done.map fun i => (start + i * 4096) / 4096) flags) (d := []) ?_ h ⟨hb, MappedAll.refl b _⟩
  rintro done i - _ c _ c' - ⟨hc, hall⟩ hrun
  rw [virtAddr, run_demand_bind] at hrun
  split at hrun
  case isFalse => cases hrun
  case isTrue =>
    obtain ⟨hc', hm⟩ := mapped_of_ok hc hw hp hrun
    refine ⟨hc', ?_⟩
    rw [List.map_append]
    exact hall.snoc hm

end MapPage

section ProtectPage

theorem run_protectPage_ok : (protectPage mapping X page flags).run b = some (.ok (), b') ↔
    b.space.protectPage X page flags b.system = (.ok (), b'.system) ∧ b'.space = b.space := by
  rw [protectPage, run_of]
  rcases hx : b.space.protectPage X page flags b.system with ⟨r, system⟩
  cases r with
  | ok =>
    simp only [Option.some.injEq, Prod.mk.injEq]
    constructor
    · rintro ⟨-, rfl⟩
      exact ⟨⟨trivial, rfl⟩, rfl⟩
    · rintro ⟨⟨-, h1⟩, h2⟩
      refine ⟨rfl, ?_⟩
      rw [h1, ← h2]
  | error => simp [Except.mapError]

theorem protected_of_ok (hb : Sound b) (hp : flags.contains .present = true)
    (h : (protectPage mapping X page flags).run b = some (.ok (), b')) :
    Sound b' ∧ isUserAddress (4096 * page) = true ∧ (b.flagsAt page).isSome = true ∧
      b'.flagsAt = Function.update b.flagsAt page (some flags) ∧ b'.byteAt = b.byteAt := by
  obtain ⟨place, hH⟩ := hb.holds
  obtain ⟨hrun, hspace⟩ := run_protectPage_ok.mp h
  obtain ⟨hH', -, hbytes, hok, hothers⟩ := protectPage_spec hH hrun
  obtain ⟨huser, frame, old, hold, hnew⟩ := hok rfl
  have hne : flags ≠ ⟨0, 0⟩ := by
    rintro rfl
    exact absurd hp (by decide)
  have hlt := page_lt huser
  have hflags : b'.flagsAt = Function.update b.flagsAt page (some flags) := by
    apply flagsAt_eq
    · intro q hq
      rw [hspace]
      by_cases hqp : q = page
      · subst hqp
        rw [hnew hne, Function.update_self, Option.map_some]
      · rw [hothers q hq (fun he => absurd he hqp), Function.update_of_ne hqp, flagsAt_of_lt hq]
    · intro q hq
      rw [Function.update_of_ne (by omega), Building.flagsAt, if_neg (by omega)]
  have hsound : Sound b' := by
    refine ⟨⟨place, hspace ▸ hH'⟩, ?_⟩
    intro q f hf
    rw [hflags] at hf
    by_cases hqp : q = page
    · subst hqp
      rw [Function.update_self, Option.some.injEq] at hf
      exact hf ▸ hp
    · rw [Function.update_of_ne hqp] at hf
      exact hb.present hf
  refine ⟨hsound, huser, by rw [flagsAt_of_lt hlt, hold]; rfl, hflags, ?_⟩
  funext addr
  refine byteAt_congr hb hsound hH (fun hq => ?_) fun g n hg => hbytes g (by simp [hg])
  rw [hspace]
  by_cases hqp : addr / 4096 = page
  · rw [hqp, hnew hne, hold, Option.map_some, Option.map_some]
  · rw [hothers _ hq (fun he => absurd he hqp)]

structure ProtectedAll (b b' : Building) (pages : List ℕ) (flags : PageTableFlags) : Prop where
  mapped : ∀ q ∈ pages, (b.flagsAt q).isSome = true
  flagsAt : ∀ q, b'.flagsAt q = if q ∈ pages then some flags else b.flagsAt q
  byteAt : b'.byteAt = b.byteAt

theorem ProtectedAll.refl (b : Building) (flags : PageTableFlags) : ProtectedAll b b [] flags where
  mapped := by simp
  flagsAt := by simp
  byteAt := rfl

theorem ProtectedAll.snoc {b₁ : Building} {pages : List ℕ} (h : ProtectedAll b b₁ pages flags)
    (hm : (b₁.flagsAt page).isSome = true)
    (hf : b'.flagsAt = Function.update b₁.flagsAt page (some flags))
    (hb : b'.byteAt = b₁.byteAt) : ProtectedAll b b' (pages ++ [page]) flags where
  mapped q hq := by
    rcases List.mem_append.mp hq with hq | hq
    · exact h.mapped q hq
    · obtain rfl := List.mem_singleton.mp hq
      rw [h.flagsAt] at hm
      split at hm
      case isTrue hin => exact h.mapped q hin
      case isFalse => exact hm
  flagsAt q := by
    rw [hf]
    by_cases hq : q = page
    · subst hq
      rw [Function.update_self, if_pos (by simp)]
    · rw [Function.update_of_ne hq, h.flagsAt]
      simp [hq]
  byteAt := hb.trans h.byteAt

/-- The loop that tightens pages side by side. -/
theorem protectedRange_of_ok {start : ℕ} {pages : List ℕ} (hb : Sound b)
    (hp : flags.contains .present = true)
    (h : (pages.foldlM (fun _ i => do
      virtAddr (start + i * 4096)
      protectPage mapping X ((start + i * 4096) / 4096) flags) ()).run b = some (.ok (), b')) :
    Sound b' ∧ ProtectedAll b b' (pages.map fun i => (start + i * 4096) / 4096) flags := by
  refine run_foldlM_ok (I := fun done _ c => Sound c ∧ ProtectedAll b c
    (done.map fun i => (start + i * 4096) / 4096) flags) (d := []) ?_ h
    ⟨hb, ProtectedAll.refl b _⟩
  rintro done i - _ c _ c' - ⟨hc, hall⟩ hrun
  rw [virtAddr, run_demand_bind] at hrun
  split at hrun
  case isFalse => cases hrun
  case isTrue =>
    obtain ⟨hs, -, hm, hf, hbytes⟩ := protected_of_ok hc hp hrun
    refine ⟨hs, ?_⟩
    rw [List.map_append]
    exact hall.snoc hm hf hbytes

end ProtectPage

section Transfers

/-- What a completed transfer of data to an address range leaves. -/
structure Filled (b b' : Building) (addr len : ℕ) (data : ℕ → UInt8) : Prop where
  flagsAt : b'.flagsAt = b.flagsAt
  byteAt : ∀ a, b'.byteAt a =
    if addr ≤ a ∧ a < addr + len then some (data (a - addr)) else b.byteAt a

theorem filled_of_transferred (hb : Sound b) (hrange : addr + len ≤ 2 ^ 47)
    {content : ℕ → ℕ → List UInt8} {data : ℕ → UInt8} {m : Memory}
    (hprov : Provides len content data)
    (h : b.space.transfer addr len content len 0 b.system.bytes = (.ok (), m)) :
    Sound ⟨b.space, { b.system with bytes := m }⟩ ∧
      Filled b ⟨b.space, { b.system with bytes := m }⟩ addr len data := by
  obtain ⟨place, hH⟩ := hb.holds
  have ht := transfer_spec hH.tree hprov hrange (Nat.zero_le _) le_rfl h
  have hkept : TablesKept place b.system.bytes m := tablesKept_of_leaves fun g hg => ht.frames hg
  have hflags : (Building.mk b.space { b.system with bytes := m }).flagsAt = b.flagsAt := by
    apply flagsAt_eq
    · intro q hq
      rw [leaf_congr hH.tree hkept hq, flagsAt_of_lt hq]
    · intro q hq
      rw [Building.flagsAt, if_neg (by omega)]
  refine ⟨⟨⟨place, hH.tree.congr hkept, hH.fresh, hH.nodup⟩, fun hf => ?_⟩, hflags, fun a => ?_⟩
  · rw [hflags] at hf
    exact hb.present hf
  · by_cases ha : a < 2 ^ 47
    · rw [Building.byteAt, Building.byteAt, if_pos ha, if_pos ha]
      exact ht.byteAt hH.tree hrange ha
    · rw [Building.byteAt, Building.byteAt, if_neg ha, if_neg ha, if_neg (by omega)]

theorem zeroed_of_ok (hb : Sound b) (hrange : addr + len ≤ 2 ^ 47)
    (h : (zeroAt mapping addr len).run b = some (.ok (), b')) :
    Sound b' ∧ Filled b b' addr len fun _ => 0 := by
  rw [zeroAt, run_demand_bind, if_pos (by omega), run_of] at h
  rcases hx : b.space.zeroAt addr len b.system.bytes with ⟨r, m⟩
  rw [hx] at h
  cases r with
  | ok =>
    obtain ⟨-, rfl⟩ := Prod.mk.inj (Option.some.inj h)
    exact filled_of_transferred hb hrange (provides_zero len) hx
  | error => cases (Prod.mk.inj (Option.some.inj h)).1

theorem written_of_ok (hb : Sound b) (hrange : addr + bytes.length ≤ 2 ^ 47)
    (h : (writeAt mapping addr bytes).run b = some (.ok (), b')) :
    Sound b' ∧ Filled b b' addr bytes.length fun k => bytes[k]?.getD 0 := by
  rw [writeAt, run_demand_bind, if_pos (by omega), run_of] at h
  rcases hx : b.space.writeAt addr bytes b.system.bytes with ⟨r, m⟩
  rw [hx] at h
  cases r with
  | ok =>
    obtain ⟨-, rfl⟩ := Prod.mk.inj (Option.some.inj h)
    exact filled_of_transferred hb hrange (provides_write bytes) hx
  | error => cases (Prod.mk.inj (Option.some.inj h)).1

variable (bytes) in
/-- A transfer to one page is one write to the frame behind it. -/
theorem writeAt_within {m : Memory} {space : AddressSpace} {frame : Frame}
    (hf : space.translate m addr = some frame) (hin : addr % 4096 + bytes.length ≤ 4096)
    (hpos : 0 < bytes.length) :
    space.writeAt addr bytes m = (.ok (), m.write frame (addr % 4096) bytes) := by
  obtain ⟨n, hn⟩ := Nat.exists_eq_succ_of_ne_zero (Nat.ne_of_gt hpos)
  have hmin : min (4096 - addr % 4096) (bytes.length - 0) = bytes.length := by omega
  rw [AddressSpace.writeAt]
  nth_rewrite 2 [hn]
  rw [AddressSpace.transfer, if_pos hpos]
  simp only [Nat.add_zero, hf, hmin, Nat.zero_add, List.drop_zero, List.take_length]
  cases n with
  | zero => rfl
  | succ n => rw [AddressSpace.transfer, if_neg (lt_irrefl _)]

end Transfers

section Stack

theorem loadFlags_spec : loadFlags.contains .present = true ∧ loadFlags.contains .writable = true ∧
    loadFlags.contains .userAccessible = true ∧ loadFlags.contains .noExecute = false := by decide

theorem stackFlags_spec (nx : Bool) : (stackFlags nx).contains .present = true ∧
    (stackFlags nx).contains .writable = true ∧ (stackFlags nx).contains .userAccessible = true ∧
    (stackFlags nx).contains .noExecute = nx := by
  cases nx <;> decide

def stackRange : List ℕ := (List.range stackPages).map fun i => (stackBottom + i * 4096) / 4096

theorem mem_stackRange : page ∈ stackRange ↔
    stackBottom ≤ 4096 * page ∧ 4096 * page < stackTop := by
  rw [stackRange, List.mem_map]
  simp only [List.mem_range, stackPages, stackBottom, stackTop]
  constructor
  · rintro ⟨i, hi, rfl⟩
    omega
  · rintro ⟨h1, h2⟩
    exact ⟨page - 0x7fffefff0, by omega, by omega⟩

/-- Pages of their own for the stack, with nothing in them. -/
theorem stack_of_ok {nx : Bool} (hb : Sound b)
    (h : (mapStack mapping X nx).run b = some (.ok (), b')) :
    Sound b' ∧ (∀ q ∈ stackRange, b.flagsAt q = none) ∧
      (∀ q, b'.flagsAt q = if q ∈ stackRange then some (stackFlags nx) else b.flagsAt q) ∧
      ∀ a, b'.byteAt a = if a / 4096 ∈ stackRange then some 0 else b.byteAt a := by
  obtain ⟨hp, hw, -, -⟩ := stackFlags_spec nx
  rw [mapStack] at h
  obtain ⟨_, b₁, hloop, hzero⟩ := run_bind_ok.mp h
  have hmapped : Sound b₁ ∧ MappedAll b b₁ stackRange (stackFlags nx) :=
    mappedRange_of_ok hb hw hp hloop
  obtain ⟨hs, hz⟩ := zeroed_of_ok hmapped.1 (by decide) hzero
  have hall := hmapped.2
  refine ⟨hs, hall.before, fun q => by rw [hz.flagsAt, hall.flagsAt], fun a => ?_⟩
  have hmem : a / 4096 ∈ stackRange ↔ stackBottom ≤ a ∧ a < stackBottom + stackPages * 4096 := by
    rw [mem_stackRange]
    simp only [stackBottom, stackTop, stackPages]
    omega
  rw [hz.byteAt]
  by_cases ha : a / 4096 ∈ stackRange
  · rw [if_pos ha, if_pos (hmem.mp ha)]
  · rw [if_neg ha, if_neg (fun h => ha (hmem.mpr h)), hall.byteAt a ha]

end Stack

section Start

theorem run_newSpace_ok {cr3 : Frame} {e : ε} {s s' : System} {space : AddressSpace}
    (hn : s.frames.upcoming.Nodup) (h : (newSpace cr3 e).run s = some (.ok space, s')) :
    Sound ⟨space, s'⟩ ∧ (∀ q, (Building.mk space s').flagsAt q = none) ∧
      ∀ a, (Building.mk space s').byteAt a = none := by
  rw [newSpace, run_of, Option.map_eq_some_iff] at h
  obtain ⟨⟨made, u⟩, hnew, h⟩ := h
  cases made with
  | none => cases (Prod.mk.inj h).1
  | some made =>
    obtain ⟨h1, rfl⟩ := Prod.mk.inj h
    obtain rfl := Except.ok.inj h1
    unfold AddressSpace.new at hnew
    rcases ha : s.frames.allocateFrame with ⟨_ | root, frames⟩ <;>
      simp only [ha] at hnew
    · simp at hnew
    · split at hnew
      case isFalse => cases hnew
      case isTrue =>
        simp only [Option.some.injEq, Prod.mk.injEq] at hnew
        obtain ⟨rfl, rfl⟩ := hnew
        rw [allocate_some ha, List.nodup_cons] at hn
        have hT : TableTree (AddressSpace.copyKernelHalf s.bytes root cr3) root
            (SpaceRuns.rootOnly root) true :=
          SpaceRuns.rootOnly_tree fun i hi => SpaceRuns.isUnused_copy hi
        have hH : Holds ⟨AddressSpace.copyKernelHalf s.bytes root cr3, frames⟩ ⟨root, []⟩
            (SpaceRuns.rootOnly root) true := by
          refine ⟨hT, fun f hf => if_neg ?_, hn.2⟩
          rintro rfl
          exact hn.1 hf
        have hflags : ∀ q, (Building.mk ⟨root, []⟩
            ⟨AddressSpace.copyKernelHalf s.bytes root cr3, frames⟩).flagsAt q = none := by
          intro q
          unfold Building.flagsAt
          split
          case isFalse => rfl
          case isTrue hq =>
            rw [Option.map_eq_none_iff, Option.eq_none_iff_forall_ne_some]
            intro e he
            obtain ⟨g, hg, -⟩ := (hT.walk_root hq).mp he
            unfold SpaceRuns.rootOnly at hg
            split at hg <;> simp at hg
        have hS : Sound ⟨⟨root, []⟩, ⟨AddressSpace.copyKernelHalf s.bytes root cr3, frames⟩⟩ := by
          refine ⟨⟨_, hH⟩, fun hf => ?_⟩
          rw [hflags] at hf
          cases hf
        refine ⟨hS, hflags, fun a => ?_⟩
        by_cases ha' : a < 2 ^ 47
        · rw [← Option.not_isSome_iff_eq_none, hS.byteAt_isSome ha', hflags]
          simp
        · exact if_neg ha'

theorem run_building_ok {α : Type} {space space' : AddressSpace} {work : Attempt Building ε α}
    {s s' : System} {a : α} :
    (building space work).run s = some (.ok (a, space'), s') ↔
      work.run ⟨space, s⟩ = some (.ok a, ⟨space', s'⟩) := by
  rw [building, run_of, Option.map_eq_some_iff]
  constructor
  · rintro ⟨⟨_ | a', b⟩, hr, h⟩
    · cases (Prod.mk.inj h).1
    · obtain ⟨h1, rfl⟩ := Prod.mk.inj h
      simp only [Except.ok.injEq, Prod.mk.injEq] at h1
      obtain ⟨rfl, rfl⟩ := h1
      exact hr
  · exact fun h => ⟨_, h, rfl⟩

theorem run_building_none {α : Type} {space : AddressSpace} {work : Attempt Building ε α}
    {s : System} : (building space work).run s = none ↔ work.run ⟨space, s⟩ = none := by
  rw [building, run_of, Option.map_eq_none_iff]

end Start

section Permissions

structure Permissions where
  write : Bool
  execute : Bool
  deriving DecidableEq, Repr

/-- What Ring 3 may do with a page: an access needs every entry on the way to grant it. -/
def permissions (space : AddressSpace) (m : Memory) (page : ℕ) : Option Permissions :=
  let entries := path m 4 space.root page
  if entries.all fun e => e.flags.contains .present && e.flags.contains .userAccessible then
    some ⟨entries.all fun e => e.flags.contains .writable,
      entries.all fun e => !e.flags.contains .noExecute⟩
  else none

theorem path_of_walk {m : Memory} {root t : Frame} {place : Placement} {w : Bool} {l : ℕ}
    {e : Entry} (T : TableTree m root place w) (hp : page < 2 ^ 35)
    (ht : place t = some (l + 1, page / 512 ^ (l + 1))) (h : walk m (l + 1) t page = some e) :
    ∃ parents, path m (l + 1) t page = parents ++ [e] ∧ ∀ p ∈ parents, Grants w p.flags := by
  induction l generalizing t with
  | zero =>
    rw [walk] at h
    split at h
    case isTrue => cases h
    case isFalse =>
      obtain rfl := Option.some.inj h
      exact ⟨[], rfl, by simp⟩
  | succ l ih =>
    rw [walk] at h
    split at h
    case isTrue => cases h
    case isFalse hu =>
      obtain ⟨parents, hpath, hgrants⟩ := ih (T.child_of_page hp ht hu) h
      refine ⟨entry m t (index (l + 2) page) :: parents, by rw [path, hpath]; rfl, ?_⟩
      intro p hmem
      rcases List.mem_cons.mp hmem with rfl | hmem
      · exact T.parent (TableTree.slot_of_page hp ht) hu
      · exact hgrants p hmem

theorem path_of_walk_none {m : Memory} {t : Frame} {l : ℕ} (h : walk m (l + 1) t page = none) :
    ∃ e ∈ path m (l + 1) t page, e.flags.contains .present = false := by
  have hunused : ∀ {t : Frame} {i : ℕ}, isUnused m t i →
      (entry m t i).flags.contains .present = false := by
    intro t i hu
    rw [← Bool.not_eq_true]
    exact fun hp => used_of_present hp hu
  induction l generalizing t with
  | zero =>
    rw [walk] at h
    split at h
    case isTrue hu => exact ⟨_, List.mem_cons_self, hunused hu⟩
    case isFalse => cases h
  | succ l ih =>
    rw [walk] at h
    split at h
    case isTrue hu => exact ⟨_, List.mem_cons_self, hunused hu⟩
    case isFalse hu =>
      obtain ⟨e, hmem, he⟩ := ih h
      exact ⟨e, List.mem_cons_of_mem _ hmem, he⟩

/-- The tables of a sound space grant all that a leaf entry does. -/
theorem Sound.permissions (h : Sound b) (hp : page < 2 ^ 35) :
    permissions b.space b.system.bytes page = (b.flagsAt page).bind fun flags =>
      if flags.contains .userAccessible then
        some ⟨flags.contains .writable, !flags.contains .noExecute⟩
      else none := by
  obtain ⟨place, hH⟩ := h.holds
  have hroot : place b.space.root = some (3 + 1, page / 512 ^ (3 + 1)) := by
    rw [hH.tree.atRoot, Nat.div_eq_of_lt (lt_trans hp (by norm_num))]
  rw [SpaceBuilding.permissions, flagsAt_of_lt hp]
  cases hl : b.space.leaf b.system.bytes page with
  | none =>
    obtain ⟨e, hmem, he⟩ := path_of_walk_none hl
    have hall : ((path b.system.bytes 4 b.space.root page).all fun e =>
        e.flags.contains .present && e.flags.contains .userAccessible) = false := by
      rw [List.all_eq_false]
      exact ⟨e, hmem, by simp [he]⟩
    simp only [hall]
    rfl
  | some e =>
    obtain ⟨parents, hpath, hgrants⟩ := path_of_walk hH.tree hp hroot hl
    have hat : b.flagsAt page = some e.flags := by
      rw [flagsAt_of_lt hp, hl, Option.map_some]
    have hpresent := h.present hat
    have hall : ∀ (need : PageTableFlags → Bool), (∀ p ∈ parents, need p.flags = true) →
        ((path b.system.bytes 4 b.space.root page).all fun e => need e.flags) = need e.flags := by
      intro need hneed
      rw [hpath, List.all_append, List.all_eq_true.mpr hneed]
      simp
    have hreach := hall (fun f => f.contains .present && f.contains .userAccessible) fun p hm => by
      simp [(hgrants p hm).present, (hgrants p hm).userAccessible]
    have hwrite := hall (fun f => f.contains .writable) fun p hm => (hgrants p hm).writable rfl
    have hexec := hall (fun f => !f.contains .noExecute) fun p hm => by
      simp [(hgrants p hm).noExecute]
    simp only [hreach, hwrite, hexec, hpresent, Bool.true_and, Option.map_some, Option.bind_some]

end Permissions

end SpaceBuilding
