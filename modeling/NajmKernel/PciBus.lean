import NajmKernel.Attempts
import NajmKernel.LittleEndian

/-! The devices on the PCI bus, as they are found through the two configuration ports. -/
namespace PciBus

open Attempts Attempt LittleEndian

structure Device where
  bus : UInt8
  slot : UInt8
  function : UInt8
  vendorId : UInt16
  deviceId : UInt16
  classCode : UInt8
  subclass : UInt8
  progIf : UInt8
  deriving DecidableEq

/-- What the bus answers for a register of four bytes, by bus, slot, function and number, and what
the data port gives when no cycle is enabled. -/
structure Bus where
  answer : ℕ → ℕ → ℕ → ℕ → UInt32
  floating : UInt32

/-- The data port, for what is in the address port. -/
def Bus.data (b : Bus) (address : UInt32) : UInt32 :=
  let a := address.toNat
  if a / 2 ^ 31 = 0 then b.floating
  else b.answer (a / 2 ^ 16 % 256) (a / 2 ^ 11 % 32) (a / 2 ^ 8 % 8) (a / 4 % 64)

section Driver

variable {ε : Type} (b : Bus)

def configAddress (bus slot function offset : UInt8) : UInt32 :=
  ((1 : UInt32) <<< (31 : UInt32)) ||| (bus.toUInt32 <<< (16 : UInt32)) |||
    (slot.toUInt32 <<< (11 : UInt32)) ||| (function.toUInt32 <<< (8 : UInt32)) |||
    (offset.toUInt32 &&& (0xFC : UInt32))

/-- The state is what was last written to the address port. -/
def readConfig (bus slot function offset : UInt8) : Attempt UInt32 ε UInt32 := do
  demand (offset % 4 = 0)
  of fun _ => some (.ok (), configAddress bus slot function offset)
  of fun address => some (.ok (b.data address), address)

def probe (bus slot function : UInt8) : Attempt UInt32 ε (Option Device) := do
  let id ← readConfig b bus slot function 0x00
  let vendorId := (id &&& (0xFFFF : UInt32)).toUInt16
  if vendorId = 0xFFFF then pure none
  else do
    let classWord ← readConfig b bus slot function 0x08
    pure (some
      { bus := bus
        slot := slot
        function := function
        vendorId := vendorId
        deviceId := (id >>> (16 : UInt32)).toUInt16
        classCode := (classWord >>> (24 : UInt32)).toUInt8
        subclass := (classWord >>> (16 : UInt32)).toUInt8
        progIf := (classWord >>> (8 : UInt32)).toUInt8 })

def isMultifunction (bus slot : UInt8) : Attempt UInt32 ε Bool := do
  let header ← readConfig b bus slot 0 0x0C
  pure ((header >>> (16 : UInt32)).toUInt8 &&& (0x80 : UInt8) != 0)

/-- What a function adds to the devices. -/
def pushFunction (bus slot : UInt8) (devices : List Device) (function : ℕ) :
    Attempt UInt32 ε (List Device) := do
  let found ← probe b bus slot (UInt8.ofNat function)
  pure (devices ++ found.toList)

def scanSlot (bus slot : UInt8) (devices : List Device) : Attempt UInt32 ε (List Device) := do
  match ← probe b bus slot 0 with
  | none => pure devices
  | some device =>
    if ← isMultifunction b bus slot then
      (List.range' 1 7).foldlM (pushFunction b bus slot) (devices ++ [device])
    else pure (devices ++ [device])

def enumerate : Attempt UInt32 ε (List Device) :=
  (List.range 256).foldlM (fun devices bus =>
    (List.range 32).foldlM (fun devices slot =>
      scanSlot b (UInt8.ofNat bus) (UInt8.ofNat slot) devices) devices) []

def init : Attempt UInt32 ε ℕ := do
  let devices ← enumerate b
  pure devices.length

end Driver

section Addresses

/-- A register of the configuration space, which is given by its bytes. -/
def word (c : ℕ → UInt8) (register : ℕ) : UInt32 :=
  UInt32.ofNat (ofBytes [c (4 * register), c (4 * register + 1), c (4 * register + 2),
    c (4 * register + 3)])

variable {c : ℕ → UInt8} {register : ℕ} {bus slot function offset : UInt8}

theorem word_toNat : (word c register).toNat = (c (4 * register)).toNat +
    256 * ((c (4 * register + 1)).toNat + 256 * ((c (4 * register + 2)).toNat +
      256 * (c (4 * register + 3)).toNat)) := by
  have h0 := (c (4 * register)).toNat_lt
  have h1 := (c (4 * register + 1)).toNat_lt
  have h2 := (c (4 * register + 2)).toNat_lt
  have h3 := (c (4 * register + 3)).toNat_lt
  simp only [word, UInt32.toNat_ofNat', ofBytes]
  omega

theorem word_low : (word c register &&& (0xFFFF : UInt32)).toUInt16 =
    UInt16.ofNat (ofBytes [c (4 * register), c (4 * register + 1)]) := by
  apply UInt16.toNat_inj.mp
  have hmask : (word c register).toNat &&& 0xFFFF = (word c register).toNat % 2 ^ 16 :=
    Nat.and_two_pow_sub_one_eq_mod _ 16
  have h0 := (c (4 * register)).toNat_lt
  have h1 := (c (4 * register + 1)).toNat_lt
  rw [UInt32.toNat_toUInt16, UInt32.toNat_and, show (0xFFFF : UInt32).toNat = 0xFFFF from rfl, hmask,
    word_toNat, UInt16.toNat_ofNat', ofBytes, ofBytes, ofBytes]
  omega

theorem word_high : (word c register >>> (16 : UInt32)).toUInt16 =
    UInt16.ofNat (ofBytes [c (4 * register + 2), c (4 * register + 3)]) := by
  apply UInt16.toNat_inj.mp
  have h0 := (c (4 * register)).toNat_lt
  have h1 := (c (4 * register + 1)).toNat_lt
  rw [UInt32.toNat_toUInt16, UInt32.toNat_shiftRight, Nat.shiftRight_eq_div_pow, word_toNat,
    UInt16.toNat_ofNat', ofBytes, ofBytes, ofBytes, show (16 : UInt32).toNat % 32 = 16 from rfl]
  omega

/-- The byte at a place of a register. -/
theorem word_byte {place : UInt32} {k : ℕ} (hk : k < 4) (hplace : place.toNat = 8 * k) :
    (word c register >>> place).toUInt8 = c (4 * register + k) := by
  apply UInt8.toNat_inj.mp
  have h0 := (c (4 * register)).toNat_lt
  have h1 := (c (4 * register + 1)).toNat_lt
  have h2 := (c (4 * register + 2)).toNat_lt
  have h3 := (c (4 * register + 3)).toNat_lt
  rw [UInt32.toNat_toUInt8, UInt32.toNat_shiftRight, Nat.shiftRight_eq_div_pow, word_toNat, hplace]
  obtain rfl | rfl | rfl | rfl : k = 0 ∨ k = 1 ∨ k = 2 ∨ k = 3 := by omega
  · norm_num
  · norm_num
    omega
  · norm_num
    omega
  · norm_num
    omega

theorem or_low {x y i : ℕ} (hx : x % 2 ^ i = 0) (hy : y < 2 ^ i) : x ||| y = x + y := by
  have h := Nat.two_pow_add_eq_or_of_lt hy (x / 2 ^ i)
  rw [Nat.mul_div_cancel' (Nat.dvd_of_mod_eq_zero hx)] at h
  exact h.symm

theorem configAddress_toNat (bus : UInt8) (hslot : slot.toNat < 32) (hfunction : function.toNat < 8)
    (hoffset : offset.toNat % 4 = 0) : (configAddress bus slot function offset).toNat =
      2 ^ 31 + bus.toNat * 2 ^ 16 + slot.toNat * 2 ^ 11 + function.toNat * 2 ^ 8 + offset.toNat := by
  have hbus := bus.toNat_lt
  have hoff := offset.toNat_lt
  have hmask : offset.toNat &&& 0xFC = offset.toNat := by
    have hall : ∀ n < 256, n % 4 = 0 → n &&& 0xFC = n := by decide +kernel
    exact hall _ hoff hoffset
  rw [configAddress]
  have henable : 2147483648 ||| bus.toNat * 65536 = 2147483648 + bus.toNat * 65536 :=
    or_low (i := 24) (by decide) (by omega)
  have hslots := or_low (x := 2147483648 + bus.toNat * 65536) (y := slot.toNat * 2048) (i := 16)
    (by omega) (by omega)
  have hfunctions := or_low (x := 2147483648 + bus.toNat * 65536 + slot.toNat * 2048)
    (y := function.toNat * 256) (i := 11) (by omega) (by omega)
  have hoffsets := or_low (y := offset.toNat) (i := 8)
    (x := 2147483648 + bus.toNat * 65536 + slot.toNat * 2048 + function.toNat * 256) (by omega) hoff
  simp only [UInt32.toNat_or, UInt32.toNat_shiftLeft, UInt32.toNat_and, UInt8.toNat_toUInt32,
    UInt32.reduceToNat, Nat.shiftLeft_eq, hmask, Nat.reduceMod, Nat.reducePow, Nat.reduceMul]
  rw [Nat.mod_eq_of_lt (show bus.toNat * 65536 < 4294967296 by omega),
    Nat.mod_eq_of_lt (show slot.toNat * 2048 < 4294967296 by omega),
    Nat.mod_eq_of_lt (show function.toNat * 256 < 4294967296 by omega), henable, hslots, hfunctions,
    hoffsets]

/-- The host bridge takes an address apart into what it was made of. -/
theorem data_configAddress (b : Bus) (bus : UInt8) (hslot : slot.toNat < 32)
    (hfunction : function.toNat < 8)
    (hoffset : offset.toNat % 4 = 0) : b.data (configAddress bus slot function offset) =
      b.answer bus.toNat slot.toNat function.toNat (offset.toNat / 4) := by
  have hbus := bus.toNat_lt
  have hoff := offset.toNat_lt
  have haddress := configAddress_toNat bus hslot hfunction hoffset
  simp only [Bus.data, haddress]
  rw [if_neg (by omega)]
  congr 1 <;> omega

end Addresses

section Scanning

/-- The configuration space of each function that is there. -/
abbrev Cards := ℕ → ℕ → ℕ → Option (ℕ → UInt8)

def vendorOf (c : ℕ → UInt8) : ℕ := ofBytes [c 0, c 1]

/-- The bit of the header type that says that there are other functions than the first. -/
def Several (c : ℕ → UInt8) : Prop := c 14 &&& 0x80 ≠ 0

/-- What a bus answers for the cards on it. Where a card has one function only, the other seven may
answer anything, also as the first does. -/
structure Bus.Holds (b : Bus) (cards : Cards) : Prop where
  inside : ∀ {bus slot function c}, cards bus slot function = some c →
    bus < 256 ∧ slot < 32 ∧ function < 8
  answers : ∀ {bus slot function c}, cards bus slot function = some c →
    ∀ register, b.answer bus slot function register = word c register
  vendor : ∀ {bus slot function c}, cards bus slot function = some c → vendorOf c ≠ 0xFFFF
  first : ∀ {bus slot function c}, cards bus slot function = some c → function ≠ 0 →
    ∃ c₀, cards bus slot 0 = some c₀ ∧ Several c₀
  empty : ∀ {bus slot}, cards bus slot 0 = none → (b.answer bus slot 0 0).toNat % 2 ^ 16 = 0xFFFF
  gaps : ∀ {bus slot function c₀}, cards bus slot 0 = some c₀ → Several c₀ →
    cards bus slot function = none → (b.answer bus slot function 0).toNat % 2 ^ 16 = 0xFFFF

/-- A function, as its configuration space describes it. -/
def identity (bus slot function : ℕ) (c : ℕ → UInt8) : Device :=
  { bus := UInt8.ofNat bus
    slot := UInt8.ofNat slot
    function := UInt8.ofNat function
    vendorId := UInt16.ofNat (vendorOf c)
    deviceId := UInt16.ofNat (ofBytes [c 2, c 3])
    classCode := c 11
    subclass := c 10
    progIf := c 9 }

/-- The functions of a slot, by their numbers. -/
def onSlot (cards : Cards) (bus slot : ℕ) : List Device :=
  (List.range 8).flatMap fun function =>
    ((cards bus slot function).map (identity bus slot function)).toList

def onBuses (cards : Cards) : List Device :=
  (List.range 256).flatMap fun bus => (List.range 32).flatMap (onSlot cards bus)

/-- The place of a device, as a number. -/
def Device.number (d : Device) : ℕ := d.bus.toNat * 256 + d.slot.toNat * 8 + d.function.toNat

variable {ε α β γ : Type} {b : Bus} {cards : Cards} {bus slot function : ℕ} {c : ℕ → UInt8}
  {devices : List Device} {d : Device}

/-- A computation that returns a value, whatever is in the address port. -/
def Yields (x : Attempt UInt32 ε α) (a : α) : Prop := ∀ s, ∃ s', x.run s = some (.ok a, s')

theorem Yields.pure (a : α) : Yields (Pure.pure a : Attempt UInt32 ε α) a := fun s => ⟨s, rfl⟩

theorem Yields.bind {x : Attempt UInt32 ε α} {f : α → Attempt UInt32 ε β} {a : α} {z : β}
    (hx : Yields x a) (hf : Yields (f a) z) : Yields (x >>= f) z := by
  intro s
  obtain ⟨s', hrun⟩ := hx s
  obtain ⟨u, hu⟩ := hf s'
  exact ⟨u, (run_bind_of_ok hrun).trans hu⟩

/-- A loop that adds to a list. -/
theorem Yields.foldlM {f : List β → γ → Attempt UInt32 ε (List β)} {g : γ → List β} {l : List γ}
    (h : ∀ c ∈ l, ∀ sofar, Yields (f sofar c) (sofar ++ g c)) (sofar : List β) :
    Yields (l.foldlM f sofar) (sofar ++ l.flatMap g) := by
  induction l generalizing sofar with
  | nil =>
    rw [List.flatMap_nil, List.append_nil]
    exact .pure sofar
  | cons c l ih =>
    obtain ⟨hc, hl⟩ := List.forall_mem_cons.mp h
    rw [List.flatMap_cons, ← List.append_assoc]
    exact (hc sofar).bind (ih hl _)

theorem toNat_small (h : bus < 256) : (UInt8.ofNat bus).toNat = bus := by
  rw [UInt8.toNat_ofNat']
  exact Nat.mod_eq_of_lt h

theorem readConfig_yields {offset : UInt8} (hbus : bus < 256) (hslot : slot < 32)
    (hfunction : function < 8) (hoffset : offset.toNat % 4 = 0) :
    Yields (readConfig b (UInt8.ofNat bus) (UInt8.ofNat slot) (UInt8.ofNat function) offset :
      Attempt UInt32 ε UInt32) (b.answer bus slot function (offset.toNat / 4)) := by
  intro s
  have haligned : offset % 4 = 0 := by
    apply UInt8.toNat_inj.mp
    rw [UInt8.toNat_mod]
    exact hoffset
  have hslot' : (UInt8.ofNat slot).toNat < 32 := by rwa [toNat_small (by omega)]
  have hfunction' : (UInt8.ofNat function).toNat < 8 := by rwa [toNat_small (by omega)]
  have hdata := data_configAddress b (UInt8.ofNat bus) hslot' hfunction' hoffset
  rw [toNat_small hbus, toNat_small (by omega), toNat_small (by omega)] at hdata
  rw [readConfig, run_demand_bind, if_pos haligned]
  exact ⟨_, (run_bind_of_ok (run_of _)).trans (by rw [run_of, hdata])⟩

theorem probe_found (h : b.Holds cards) (hcard : cards bus slot function = some c) :
    Yields (probe b (UInt8.ofNat bus) (UInt8.ofNat slot) (UInt8.ofNat function) :
      Attempt UInt32 ε (Option Device)) (some (identity bus slot function c)) := by
  obtain ⟨hbus, hslot, hfunction⟩ := h.inside hcard
  have hvendor : UInt16.ofNat (vendorOf c) ≠ 0xFFFF := by
    intro heq
    have hbytes : vendorOf c < 256 ^ 2 := ofBytes_lt [c 0, c 1]
    have hnat := congrArg UInt16.toNat heq
    rw [UInt16.toNat_ofNat', Nat.mod_eq_of_lt (by omega)] at hnat
    exact h.vendor hcard hnat
  have hfirst := readConfig_yields (b := b) (ε := ε) hbus hslot hfunction
    (show (0x00 : UInt8).toNat % 4 = 0 from rfl)
  have hsecond := readConfig_yields (b := b) (ε := ε) hbus hslot hfunction
    (show (0x08 : UInt8).toNat % 4 = 0 from rfl)
  rw [show (0x00 : UInt8).toNat / 4 = 0 from rfl, h.answers hcard] at hfirst
  rw [show (0x08 : UInt8).toNat / 4 = 2 from rfl, h.answers hcard] at hsecond
  refine hfirst.bind ?_
  simp only [word_low, word_high]
  rw [show ofBytes [c (4 * 0), c (4 * 0 + 1)] = vendorOf c from rfl, if_neg hvendor]
  refine hsecond.bind ?_
  rw [word_byte (k := 3) (by decide) rfl, word_byte (k := 2) (by decide) rfl,
    word_byte (k := 1) (by decide) rfl]
  exact .pure _

/-- Where the data lines float, nothing is found. -/
theorem probe_none (hbus : bus < 256) (hslot : slot < 32) (hfunction : function < 8)
    (hfloats : (b.answer bus slot function 0).toNat % 2 ^ 16 = 0xFFFF) :
    Yields (probe b (UInt8.ofNat bus) (UInt8.ofNat slot) (UInt8.ofNat function) :
      Attempt UInt32 ε (Option Device)) none := by
  have hfirst := readConfig_yields (b := b) (ε := ε) hbus hslot hfunction
    (show (0x00 : UInt8).toNat % 4 = 0 from rfl)
  rw [show (0x00 : UInt8).toNat / 4 = 0 from rfl] at hfirst
  refine hfirst.bind ?_
  have hmask : (b.answer bus slot function 0).toNat &&& 0xFFFF =
      (b.answer bus slot function 0).toNat % 2 ^ 16 := Nat.and_two_pow_sub_one_eq_mod _ 16
  have hvendor : (b.answer bus slot function 0 &&& (0xFFFF : UInt32)).toUInt16 = 0xFFFF := by
    apply UInt16.toNat_inj.mp
    rw [UInt32.toNat_toUInt16, UInt32.toNat_and, show (0xFFFF : UInt32).toNat = 0xFFFF from rfl,
      hmask, hfloats]
    rfl
  dsimp only
  rw [if_pos hvendor]
  exact .pure none

theorem isMultifunction_yields (h : b.Holds cards) (hcard : cards bus slot 0 = some c) :
    Yields (isMultifunction b (UInt8.ofNat bus) (UInt8.ofNat slot) : Attempt UInt32 ε Bool)
      (c 14 &&& 0x80 != 0) := by
  obtain ⟨hbus, hslot, hfunction⟩ := h.inside hcard
  have hread := readConfig_yields (b := b) (ε := ε) hbus hslot hfunction
    (show (0x0C : UInt8).toNat % 4 = 0 from rfl)
  rw [show (0x0C : UInt8).toNat / 4 = 3 from rfl, h.answers hcard] at hread
  refine hread.bind ?_
  rw [word_byte (k := 2) (by decide) rfl]
  exact .pure _

/-- What is found of a function of a card of several. -/
theorem pushFunction_yields (h : b.Holds cards) {c₀ : ℕ → UInt8} (hcard : cards bus slot 0 = some c₀)
    (hseveral : Several c₀) (hfunction : function < 8) :
    Yields (pushFunction b (UInt8.ofNat bus) (UInt8.ofNat slot) devices function :
      Attempt UInt32 ε (List Device))
      (devices ++ ((cards bus slot function).map (identity bus slot function)).toList) := by
  obtain ⟨hbus, hslot, -⟩ := h.inside hcard
  cases hthis : cards bus slot function with
  | none => exact (probe_none hbus hslot hfunction (h.gaps hcard hseveral hthis)).bind (.pure _)
  | some c => exact (probe_found h hthis).bind (.pure _)

theorem scanSlot_yields (h : b.Holds cards) (hbus : bus < 256) (hslot : slot < 32) :
    Yields (scanSlot b (UInt8.ofNat bus) (UInt8.ofNat slot) devices :
      Attempt UInt32 ε (List Device)) (devices ++ onSlot cards bus slot) := by
  have hslots : onSlot cards bus slot = ((cards bus slot 0).map (identity bus slot 0)).toList ++
      (List.range' 1 7).flatMap fun function =>
        ((cards bus slot function).map (identity bus slot function)).toList := by
    rw [onSlot, List.range_eq_range', List.range'_succ, List.flatMap_cons]
  cases hcard : cards bus slot 0 with
  | none =>
    have hempty : onSlot cards bus slot = [] := by
      rw [onSlot, List.flatMap_eq_nil_iff]
      intro function hfunction
      cases hthis : cards bus slot function with
      | none => rfl
      | some c =>
        have hzero : function ≠ 0 := by
          rintro rfl
          rw [hcard] at hthis
          cases hthis
        obtain ⟨c₀, hfirst, -⟩ := h.first hthis hzero
        rw [hcard] at hfirst
        cases hfirst
    rw [hempty, List.append_nil]
    exact (probe_none hbus hslot (by decide) (h.empty hcard)).bind (.pure _)
  | some c =>
    refine (probe_found h hcard).bind ?_
    refine (isMultifunction_yields h hcard).bind ?_
    rw [hslots, hcard, ← List.append_assoc]
    by_cases hseveral : Several c
    · rw [if_pos (bne_iff_ne.mpr hseveral)]
      refine Yields.foldlM (fun function hfunction sofar => ?_) _
      have hlt := List.mem_range'_1.mp hfunction
      exact pushFunction_yields h hcard hseveral (by omega)
    · -- the card's other functions are not there, and are not asked for
      have hrest : ((List.range' 1 7).flatMap fun function =>
          ((cards bus slot function).map (identity bus slot function)).toList) = [] := by
        rw [List.flatMap_eq_nil_iff]
        intro function hfunction
        cases hthis : cards bus slot function with
        | none => rfl
        | some c' =>
          have hpos := (List.mem_range'_1.mp hfunction).1
          obtain ⟨c₀, hfirst, hother⟩ := h.first hthis (by omega)
          rw [hcard] at hfirst
          cases hfirst
          exact absurd hother hseveral
      rw [if_neg (fun hbit => hseveral (bne_iff_ne.mp hbit)), hrest, List.append_nil]
      exact .pure _

theorem enumerate_yields (h : b.Holds cards) :
    Yields (enumerate b : Attempt UInt32 ε (List Device)) (onBuses cards) := by
  have hbuses := Yields.foldlM (ε := ε) (l := List.range 256) (g := fun bus =>
    (List.range 32).flatMap (onSlot cards bus)) (f := fun devices bus =>
      (List.range 32).foldlM (fun devices slot =>
        scanSlot b (UInt8.ofNat bus) (UInt8.ofNat slot) devices) devices)
    (fun bus hbus => Yields.foldlM fun slot hslot _ =>
      scanSlot_yields h (List.mem_range.mp hbus) (List.mem_range.mp hslot)) []
  rw [List.nil_append] at hbuses
  rw [enumerate, onBuses]
  exact hbuses

theorem mem_onBuses (h : b.Holds cards) : d ∈ onBuses cards ↔ ∃ bus slot function c,
    cards bus slot function = some c ∧ d = identity bus slot function c := by
  simp only [onBuses, onSlot, List.mem_flatMap, List.mem_range, Option.mem_toList,
    Option.map_eq_some_iff]
  constructor
  · rintro ⟨bus, -, slot, -, function, -, c, hcard, rfl⟩
    exact ⟨bus, slot, function, c, hcard, rfl⟩
  · rintro ⟨bus, slot, function, c, hcard, rfl⟩
    obtain ⟨hbus, hslot, hfunction⟩ := h.inside hcard
    exact ⟨bus, hbus, slot, hslot, function, hfunction, c, hcard, rfl⟩

theorem identity_number (hbus : bus < 256) (hslot : slot < 32) (hfunction : function < 8) :
    (identity bus slot function c).number = bus * 256 + slot * 8 + function := by
  rw [Device.number, identity, toNat_small hbus, toNat_small (by omega), toNat_small (by omega)]

theorem onSlot_number (hbus : bus < 256) (hslot : slot < 32) (hd : d ∈ onSlot cards bus slot) :
    bus * 256 + slot * 8 ≤ d.number ∧ d.number < bus * 256 + slot * 8 + 8 := by
  simp only [onSlot, List.mem_flatMap, List.mem_range, Option.mem_toList,
    Option.map_eq_some_iff] at hd
  obtain ⟨function, hfunction, c, -, rfl⟩ := hd
  rw [identity_number hbus hslot hfunction]
  omega

/-- The devices come in the order of their places, and none comes twice. -/
theorem onBuses_sorted (cards : Cards) : ((onBuses cards).map Device.number).Pairwise (· < ·) := by
  rw [List.pairwise_map, onBuses, List.pairwise_flatMap]
  refine ⟨fun bus hbus => List.pairwise_flatMap.mpr ⟨fun slot hslot => ?_, ?_⟩, ?_⟩
  · rw [onSlot, List.pairwise_flatMap]
    refine ⟨fun function _ => ?_, List.pairwise_lt_range.imp_of_mem fun hf hf' hlt x hx y hy => ?_⟩
    · cases cards bus slot function with
      | none => exact List.Pairwise.nil
      | some c => exact List.pairwise_singleton _ _
    · obtain ⟨c, -, rfl⟩ := Option.map_eq_some_iff.mp (Option.mem_toList.mp hx)
      obtain ⟨c', -, rfl⟩ := Option.map_eq_some_iff.mp (Option.mem_toList.mp hy)
      rw [List.mem_range] at hbus hslot hf hf'
      rw [identity_number hbus hslot hf, identity_number hbus hslot hf']
      omega
  · refine List.pairwise_lt_range.imp_of_mem fun hslot hslot' hlt x hx y hy => ?_
    rw [List.mem_range] at hbus hslot hslot'
    have hfirst := onSlot_number hbus hslot hx
    have hsecond := onSlot_number hbus hslot' hy
    omega
  · refine List.pairwise_lt_range.imp_of_mem fun hbus hbus' hlt x hx y hy => ?_
    obtain ⟨slot, hslot, hx⟩ := List.mem_flatMap.mp hx
    obtain ⟨slot', hslot', hy⟩ := List.mem_flatMap.mp hy
    rw [List.mem_range] at hbus hbus' hslot hslot'
    have hfirst := onSlot_number hbus hslot hx
    have hsecond := onSlot_number hbus' hslot' hy
    omega

/-- Whatever the missing functions of a card of one function answer, the walk finds each function
that is there, once, in the order of the places, and nothing else. -/
theorem enumerate_exact (h : b.Holds cards) (s : UInt32) : ∃ devices s',
    (enumerate b : Attempt UInt32 Empty (List Device)).run s = some (.ok devices, s') ∧
    (init b : Attempt UInt32 Empty ℕ).run s = some (.ok devices.length, s') ∧
    (devices.map Device.number).Pairwise (· < ·) ∧
    ∀ d, d ∈ devices ↔ ∃ bus slot function c,
      cards bus slot function = some c ∧ d = identity bus slot function c := by
  obtain ⟨s', hrun⟩ := enumerate_yields (ε := Empty) h s
  refine ⟨_, s', hrun, ?_, onBuses_sorted cards, fun d => mem_onBuses h⟩
  rw [init, run_bind_of_ok hrun, run_pure]

/-- A host bridge of one function, whose other functions answer as the first does. -/
def bridge : ℕ → UInt8 := fun offset =>
  [0x86, 0x80, 0x37, 0x12, 0, 0, 0, 0, 0, 0, 0, 0x06].getD offset 0

def bridgeCards : Cards := fun bus slot function =>
  if bus = 0 ∧ slot = 0 ∧ function = 0 then some bridge else none

def bridgeBus : Bus :=
  ⟨fun bus slot _ register => if bus = 0 ∧ slot = 0 then word bridge register else 0xFFFFFFFF, 0⟩

theorem bridgeCards_some (h : bridgeCards bus slot function = some c) :
    (bus = 0 ∧ slot = 0 ∧ function = 0) ∧ c = bridge := by
  obtain ⟨hplace, hc⟩ := Option.ite_none_right_eq_some.mp h
  exact ⟨hplace, (Option.some.inj hc).symm⟩

theorem bridgeBus_holds : bridgeBus.Holds bridgeCards := by
  have hsingle : ¬ Several bridge := by
    rw [Several]
    decide
  constructor
  · intro bus slot function c h
    obtain ⟨⟨rfl, rfl, rfl⟩, -⟩ := bridgeCards_some h
    decide
  · intro bus slot function c h register
    obtain ⟨⟨rfl, rfl, rfl⟩, rfl⟩ := bridgeCards_some h
    rfl
  · intro bus slot function c h
    obtain ⟨-, rfl⟩ := bridgeCards_some h
    decide
  · intro bus slot function c h hfunction
    obtain ⟨⟨-, -, hzero⟩, -⟩ := bridgeCards_some h
    exact absurd hzero hfunction
  · intro bus slot h
    have hplace : ¬ (bus = 0 ∧ slot = 0) := by
      rintro ⟨rfl, rfl⟩
      cases h
    simp [bridgeBus, hplace]
  · intro bus slot function c₀ h hseveral
    obtain ⟨-, rfl⟩ := bridgeCards_some h
    exact absurd hseveral hsingle

theorem enumerate_exact_bridge : ∃ devices s',
    (enumerate bridgeBus : Attempt UInt32 Empty (List Device)).run 0 = some (.ok devices, s') ∧
    ∀ d, d ∈ devices ↔ d = identity 0 0 0 bridge := by
  obtain ⟨devices, s', hrun, -, -, hmem⟩ := enumerate_exact bridgeBus_holds 0
  refine ⟨devices, s', hrun, fun d => (hmem d).trans ⟨?_, ?_⟩⟩
  · rintro ⟨bus, slot, function, c, hcard, rfl⟩
    obtain ⟨⟨rfl, rfl, rfl⟩, rfl⟩ := bridgeCards_some hcard
    rfl
  · rintro rfl
    exact ⟨0, 0, 0, bridge, rfl, rfl⟩

end Scanning

end PciBus
