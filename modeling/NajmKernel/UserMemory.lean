import NajmKernel.AddressSpaces

/-! The memory of a program as a syscall sees it: which of its pages Ring 3 may read and write, and
the copies in and out that check them first. -/
namespace UserMemory

open AddressSpaces (isUserAddress)

def maxUserTransfer : ℕ := 1024 * 1024

/-- What the walk of the page tables finds of each page, and the bytes by address. -/
structure UserSpace where
  accessible : ℕ → Bool
  writable : ℕ → Bool
  bytes : ℕ → UInt8

def UserSpace.allows (s : UserSpace) (writable : Bool) (page : ℕ) : Bool :=
  s.accessible page && (!writable || s.writable page)

def UserSpace.read (s : UserSpace) (ptr len : ℕ) : List UInt8 :=
  (List.range len).map fun i => s.bytes (ptr + i)

def UserSpace.write (s : UserSpace) (ptr : ℕ) (data : List UInt8) : UserSpace :=
  { s with bytes := fun a =>
      if ptr ≤ a ∧ a < ptr + data.length then data.getD (a - ptr) 0 else s.bytes a }

def rangeIsUser (s : UserSpace) (start len : ℕ) (writable : Bool) : Bool :=
  if len = 0 then true
  else
    let last := start + (len - 1)
    if 2 ^ 64 ≤ last then false
    else isUserAddress start && isUserAddress last &&
      (List.range' (start / 4096) (last / 4096 + 1 - start / 4096)).all (s.allows writable)

/-- A property of pages holds of those a range touches when it holds of each byte's. -/
theorem pages_iff_bytes {P : ℕ → Prop} {a b : ℕ} (h : a ≤ b) :
    (∀ i ≤ b / 4096 - a / 4096, P (a / 4096 + i)) ↔ ∀ c, a ≤ c → c ≤ b → P (c / 4096) := by
  constructor
  · intro hp c hac hcb
    have h1 : a / 4096 ≤ c / 4096 := Nat.div_le_div_right hac
    have h2 : c / 4096 ≤ b / 4096 := Nat.div_le_div_right hcb
    have := hp (c / 4096 - a / 4096) (by omega)
    rwa [Nat.add_sub_cancel' h1] at this
  · intro hc i hi
    have hpage := hc (max a (4096 * (a / 4096 + i))) (le_max_left _ _) (by omega)
    have : max a (4096 * (a / 4096 + i)) / 4096 = a / 4096 + i := by omega
    rwa [this] at hpage

/-- The check of a range, byte by byte. -/
theorem rangeIsUser_iff {s : UserSpace} {start len : ℕ} {writable : Bool} :
    rangeIsUser s start len writable = true ↔ ∀ a, start ≤ a → a < start + len →
      isUserAddress a = true ∧ s.allows writable (a / 4096) = true := by
  rw [rangeIsUser]
  by_cases hz : len = 0
  · rw [if_pos hz]
    simp only [true_iff]
    intro a ha hlt
    omega
  rw [if_neg hz]
  have hle : start ≤ start + (len - 1) := Nat.le_add_right _ _
  have hpages : start / 4096 ≤ (start + (len - 1)) / 4096 := Nat.div_le_div_right hle
  by_cases hwrap : 2 ^ 64 ≤ start + (len - 1)
  · simp only [if_pos hwrap, Bool.false_eq_true, false_iff]
    intro h
    have hlast := (h (start + (len - 1)) hle (by omega)).1
    rw [isUserAddress, AddressSpaces.userSpaceEnd, decide_eq_true_eq] at hlast
    omega
  · simp only [if_neg hwrap, Bool.and_eq_true, List.all_eq_true, List.mem_range'_1]
    constructor
    · rintro ⟨⟨-, hlast⟩, hall⟩ a ha hlt
      refine ⟨?_, hall _ ⟨by omega, by omega⟩⟩
      rw [isUserAddress, decide_eq_true_eq] at hlast ⊢
      omega
    · intro h
      refine ⟨⟨(h _ le_rfl (by omega)).1, (h _ hle (by omega)).1⟩, fun page hpage => ?_⟩
      have hbytes := (pages_iff_bytes (P := fun page => s.allows writable page = true) hle).mpr
        fun c hc hlast => (h c hc (by omega)).2
      have hpage' := hbytes (page - start / 4096) (by omega)
      rwa [Nat.add_sub_cancel' hpage.1] at hpage'

def copyFromUser (s : UserSpace) (ptr len : ℕ) : Option (List UInt8) :=
  if len > maxUserTransfer then none
  else if rangeIsUser s ptr len false then some (s.read ptr len)
  else none

/-- Into a buffer of the kernel's own, of whatever length. -/
def copyFromUserInto (s : UserSpace) (ptr len : ℕ) : Option (List UInt8) :=
  if rangeIsUser s ptr len false then some (s.read ptr len) else none

def copyToUser (s : UserSpace) (ptr : ℕ) (data : List UInt8) : Option UserSpace :=
  if data.length > maxUserTransfer then none
  else if rangeIsUser s ptr data.length true then some (s.write ptr data)
  else none

end UserMemory
