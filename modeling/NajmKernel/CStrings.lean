import NajmKernel.SyscallRights

/-! The string that `write_cstr` prints: up to its NUL, the cap or the end of what can be read. -/
namespace Syscalls

open KernelMachine (ProgramExit)
open AddressSpaces (isUserAddress)
open Attempts Attempt UserMemory

section Strings

variable {s : UserSpace} {ptr n m : ℕ} {k : Kernel} {c d : CstrCursor}

/-- The program may read the byte. -/
def readable (s : UserSpace) (a : ℕ) : Bool := isUserAddress a && s.allows false (a / 4096)

/-- The length of the string at an address, which ends at a NUL, at the cap, or where nothing more
can be read. -/
structure CstrLength (s : UserSpace) (ptr n : ℕ) : Prop where
  capped : n ≤ maxCstr
  before : ∀ i < n, readable s (ptr + i) = true ∧ s.bytes (ptr + i) ≠ 0
  stop : n < maxCstr → readable s (ptr + n) = true → s.bytes (ptr + n) = 0

theorem CstrLength.unique (h : CstrLength s ptr n) (h' : CstrLength s ptr m) : n = m := by
  rcases lt_trichotomy n m with hlt | heq | hgt
  · obtain ⟨hread, hne⟩ := h'.before n hlt
    exact absurd (h.stop (hlt.trans_le h'.capped) hread) hne
  · exact heq
  · obtain ⟨hread, hne⟩ := h.before m hgt
    exact absurd (h'.stop (hgt.trans_le h.capped) hread) hne

theorem rangeIsUser_readable :
    rangeIsUser s ptr n false = true ↔ ∀ i < n, readable s (ptr + i) = true := by
  rw [rangeIsUser_iff]
  simp only [readable, Bool.and_eq_true]
  constructor
  · intro h i hi
    exact h (ptr + i) (Nat.le_add_right _ _) (by omega)
  · intro h a ha hlt
    have hi := h (a - ptr) (by omega)
    rwa [Nat.add_sub_cancel' ha] at hi

/-- Within a page, the first byte decides. -/
theorem page_readable (hn : 0 < n) (hpage : n ≤ 4096 - ptr % 4096) :
    rangeIsUser s ptr n false = true ↔ readable s ptr = true := by
  rw [rangeIsUser_readable]
  constructor
  · intro h
    exact h 0 hn
  · intro h i hi
    rw [readable, Bool.and_eq_true, isUserAddress, decide_eq_true_eq,
      AddressSpaces.userSpaceEnd] at h ⊢
    have hsame : (ptr + i) / 4096 = ptr / 4096 := by omega
    rw [hsame]
    exact ⟨by omega, h.2⟩

/-- What the scan knows of the string so far. -/
structure Scanning (s : UserSpace) (ptr : ℕ) (c : CstrCursor) : Prop where
  capped : c.length ≤ maxCstr
  address : c.address = ptr + c.length
  before : ∀ i < c.length, readable s (ptr + i) = true ∧ s.bytes (ptr + i) ≠ 0

/-- A turn finds where the string ends, or goes on behind more of it. -/
theorem cstrTurn_exact (h : Scanning k.space ptr c) :
    (∃ d, (cstrTurn c).run k = some (.ok (.done d), k) ∧ CstrLength k.space ptr d.length) ∨
      ∃ d, (cstrTurn c).run k = some (.ok (.yield d), k) ∧ Scanning k.space ptr d ∧
        c.length < d.length := by
  have hmax : maxCstr = 4096 := rfl
  have hcapped := h.capped
  have haddress := h.address
  rw [cstrTurn]
  by_cases hfull : maxCstr ≤ c.length
  · rw [if_pos hfull]
    exact Or.inl ⟨c, rfl, hcapped, h.before, fun hlt => absurd hlt (not_lt.mpr hfull)⟩
  rw [if_neg hfull]
  dsimp only
  rw [run_gets_bind]
  generalize hwant : min (4096 - c.address % 4096) (maxCstr - c.length) = want
  have hpos : 0 < want := by omega
  have hsize : ¬ want > maxUserTransfer := by
    have hlimit : maxUserTransfer = 1048576 := rfl
    omega
  have hpage := page_readable (s := k.space) hpos (show want ≤ 4096 - c.address % 4096 by omega)
  rw [copyFromUser, if_neg hsize]
  by_cases hread : readable k.space c.address = true
  swap
  · rw [if_neg fun hrange => hread (hpage.mp hrange)]
    refine Or.inl ⟨c, rfl, hcapped, h.before, fun _ hnext => ?_⟩
    exact absurd (haddress ▸ hnext) hread
  have hrange := hpage.mpr hread
  have hall := rangeIsUser_readable.mp hrange
  have hlength : (k.space.read c.address want).length = want := by
    rw [UserSpace.read, List.length_map, List.length_range]
  have hbyte (i : ℕ) (hi : i < (k.space.read c.address want).length) :
      (k.space.read c.address want)[i] = k.space.bytes (ptr + (c.length + i)) := by
    rw [← Nat.add_assoc, ← haddress]
    simp only [UserSpace.read, List.getElem_map, List.getElem_range]
  have hgrows (m : ℕ) (hm : m ≤ want) (hne : ∀ i < m, k.space.bytes (ptr + (c.length + i)) ≠ 0) :
      ∀ i < c.length + m, readable k.space (ptr + i) = true ∧ k.space.bytes (ptr + i) ≠ 0 := by
    intro i hi
    by_cases hold : i < c.length
    · exact h.before i hold
    · obtain ⟨j, rfl⟩ := Nat.exists_eq_add_of_le (not_lt.mp hold)
      refine ⟨?_, hne j (by omega)⟩
      rw [← Nat.add_assoc, ← haddress]
      exact hall j (by omega)
  rw [if_pos hrange]
  dsimp only
  cases hfind : (k.space.read c.address want).findIdx? (· == 0) with
  | some terminator =>
    obtain ⟨hlt, hzero, hbefore⟩ := List.findIdx?_eq_some_iff_getElem.mp hfind
    have hbound := hlt
    rw [hlength] at hlt
    rw [hbyte _ hbound, beq_iff_eq] at hzero
    refine Or.inl ⟨_, rfl, by dsimp only; omega, hgrows terminator hlt.le fun i hi hz => ?_,
      fun _ _ => hzero⟩
    refine hbefore i hi ?_
    rw [hbyte i (hi.trans hbound), hz]
    rfl
  | none =>
    have hnone := List.findIdx?_eq_none_iff.mp hfind
    have hlast := hall (want - 1) (by omega)
    rw [readable, Bool.and_eq_true, isUserAddress, decide_eq_true_eq,
      AddressSpaces.userSpaceEnd] at hlast
    dsimp only
    rw [hlength, run_sum_bind (by omega)]
    refine Or.inr ⟨_, rfl, ⟨by dsimp only; omega, by dsimp only; omega,
      hgrows want le_rfl fun i hi hz => ?_⟩, by dsimp only; omega⟩
    have hi' : i < (k.space.read c.address want).length := hlength.symm ▸ hi
    have hne := hnone _ (List.getElem_mem hi')
    rw [hbyte i hi', hz] at hne
    cases hne

theorem cstrTurns_exact (h : Scanning k.space ptr c) (hn : maxCstr ≤ c.length + n) :
    ∃ d, (turns cstrTurn n c).run k = some (.ok d, k) ∧ CstrLength k.space ptr d.length := by
  induction n generalizing c with
  | zero => exact ⟨c, rfl, h.capped, h.before, fun hlt => absurd hlt (not_lt.mpr hn)⟩
  | succ n ih =>
    obtain ⟨d, hturn, hd⟩ | ⟨d, hturn, hd, hlt⟩ := cstrTurn_exact h
    · exact ⟨d, run_bind_of_ok hturn, hd⟩
    · obtain ⟨e, hrun, he⟩ := ih hd (by omega)
      exact ⟨e, (run_bind_of_ok hturn).trans hrun, he⟩

/-- The loop ends by itself: with more turns it comes to the same. -/
theorem cstrTurns_end (h : Scanning k.space ptr c) (hn : maxCstr ≤ c.length + n) (more : ℕ) :
    (turns cstrTurn (n + more) c).run k = (turns cstrTurn n c).run k := by
  induction n generalizing c with
  | zero =>
    cases more with
    | zero => rfl
    | succ more =>
      have hturn : (cstrTurn c).run k = some (.ok (.done c), k) := by
        rw [cstrTurn, if_pos (show maxCstr ≤ c.length from hn)]
        rfl
      rw [Nat.zero_add]
      exact run_bind_of_ok hturn
  | succ n ih =>
    rw [Nat.succ_add]
    obtain ⟨d, hturn, -⟩ | ⟨d, hturn, hd, hlt⟩ := cstrTurn_exact h
    · refine (run_bind_of_ok hturn).trans (Eq.trans ?_ (run_bind_of_ok hturn).symm)
      rfl
    · refine (run_bind_of_ok hturn).trans (Eq.trans ?_ (run_bind_of_ok hturn).symm)
      exact ih hd (by omega)

theorem scanning_start (s : UserSpace) (ptr : ℕ) : Scanning s ptr ⟨0, ptr⟩ :=
  ⟨Nat.zero_le _, rfl, fun _ hi => absurd hi (Nat.not_lt_zero _)⟩

end Strings

section Printing

variable {s : UserSpace} {ptr n : ℕ} {k : Kernel}

theorem first_readable : (copyFromUser s ptr 1).isSome = readable s ptr := by
  have hpage := page_readable (s := s) Nat.one_pos (show 1 ≤ 4096 - ptr % 4096 by omega)
  rw [copyFromUser, if_neg (show ¬ 1 > maxUserTransfer by decide)]
  cases hread : readable s ptr with
  | true =>
    rw [if_pos (hpage.mpr hread)]
    rfl
  | false =>
    rw [if_neg fun hrange => Bool.false_ne_true (hread.symm.trans (hpage.mp hrange))]
    rfl

/-- The string is printed, and counted; without a first byte there is an error. -/
theorem run_sysWriteCstr (k : Kernel) (ptr : ℕ) : ∃ n, CstrLength k.space ptr n ∧
    (sysWriteCstr ptr).run k = some
      (.ok (if readable k.space ptr then n else encodeError EFAULT),
        { k with console := k.console ++ (k.space.read ptr n).flatMap printed }) := by
  obtain ⟨c, hscan, hc⟩ := cstrTurns_exact (scanning_start k.space ptr)
    (show maxCstr ≤ 0 + maxCstr by omega)
  refine ⟨c.length, hc, ?_⟩
  rw [sysWriteCstr, run_bind_of_ok hscan]
  by_cases hz : c.length = 0
  · have hsame : { k with console := k.console ++ (k.space.read ptr 0).flatMap printed } = k := by
      rw [UserSpace.read, List.range_zero, List.map_nil, List.flatMap_nil, List.append_nil]
    rw [if_pos hz, run_gets_bind, first_readable, hz, hsame]
    split
    · rfl
    · rfl
  · have hfirst := (hc.before 0 (Nat.pos_of_ne_zero hz)).1
    have hrange := rangeIsUser_readable.mpr fun i hi => (hc.before i hi).1
    have hsize : ¬ c.length > maxUserTransfer := by
      have hcapped := hc.capped
      have hmax : maxCstr = 4096 := rfl
      have hlimit : maxUserTransfer = 1048576 := rfl
      omega
    have hlength : (k.space.read ptr c.length).length = c.length := by
      rw [UserSpace.read, List.length_map, List.length_range]
    rw [if_neg hz, sysWrite, if_neg (by decide), run_gets_bind, copyFromUser, if_neg hsize,
      if_pos hrange]
    dsimp only
    rw [run_modifies_bind, run_pure, hlength]
    rw [Nat.add_zero] at hfirst
    rw [if_pos hfirst]

/-- What the caller and the console get of a call. -/
def seen (x : Option (Except ProgramExit ℕ × Kernel)) :
    Option (Except ProgramExit ℕ × List UInt8) :=
  x.map fun (r, u) => (r, u.console)

/-- The kernel with other bytes in the memory of the program on the processor. -/
def Kernel.withBytes (k : Kernel) (f : ℕ → UInt8) : Kernel :=
  { k with spaces := Function.update k.spaces k.currentPid { k.space with bytes := f } }

theorem CstrLength.withBytes (h : CstrLength s ptr n) {f : ℕ → UInt8}
    (hf : ∀ a, readable s a = true → f a = s.bytes a) :
    CstrLength { s with bytes := f } ptr n where
  capped := h.capped
  before i hi := by
    obtain ⟨hread, hne⟩ := h.before i hi
    refine ⟨hread, ?_⟩
    change f (ptr + i) ≠ 0
    rw [hf _ hread]
    exact hne
  stop hn hread := (hf _ hread).trans (h.stop hn hread)

/-- For any memory and any pointer: the string up to its NUL, the cap or the end of what can be
read is printed and counted, there is an error just where the first byte cannot be read, the scan
ends by itself, and bytes that cannot be read make no difference. -/
theorem write_cstr_exact (k : Kernel) (ptr : ℕ) :
    (∃ n, CstrLength k.space ptr n ∧ (sysWriteCstr ptr).run k = some
      (.ok (if readable k.space ptr then n else encodeError EFAULT),
        { k with console := k.console ++ (k.space.read ptr n).flatMap printed })) ∧
      (∀ more, (turns cstrTurn (maxCstr + more) ⟨0, ptr⟩).run k =
        (turns cstrTurn maxCstr ⟨0, ptr⟩).run k) ∧
      ∀ f, (∀ a, readable k.space a = true → f a = k.space.bytes a) →
        seen ((sysWriteCstr ptr).run (k.withBytes f)) = seen ((sysWriteCstr ptr).run k) := by
  refine ⟨run_sysWriteCstr k ptr, cstrTurns_end (scanning_start k.space ptr) (by simp), ?_⟩
  intro f hf
  obtain ⟨n, hn, hrun⟩ := run_sysWriteCstr k ptr
  obtain ⟨m, hm, hrun'⟩ := run_sysWriteCstr (k.withBytes f) ptr
  have hspace : (k.withBytes f).space = { k.space with bytes := f } := Function.update_self _ _ _
  rw [hspace] at hm hrun'
  obtain rfl := (hn.withBytes hf).unique hm
  have hread : UserSpace.read { k.space with bytes := f } ptr n = k.space.read ptr n := by
    apply List.map_congr_left
    intro i hi
    exact hf _ (hn.before i (List.mem_range.mp hi)).1
  have hsame : readable { k.space with bytes := f } ptr = readable k.space ptr := rfl
  rw [hrun, hrun', hread, hsame]
  rfl

/-- A program whose string is the escape character. -/
def escaping : Kernel := { boot with
  spaces := fun _ => ⟨fun _ => true, fun _ => true, fun a => if a = 0x400000 then 0x1B else 0⟩ }

/-- The one byte of the string comes out as four. -/
theorem write_cstr_escapes : CstrLength escaping.space 0x400000 1 ∧
    escaping.space.read 0x400000 1 = [0x1B] ∧
    seen ((sysWriteCstr 0x400000).run escaping) = some (.ok 1, [0x5C, 0x78, 0x31, 0x62]) := by
  have hlength : CstrLength escaping.space 0x400000 1 := by
    refine ⟨by decide, ?_, fun _ _ => rfl⟩
    intro i hi
    obtain rfl := Nat.lt_one_iff.mp hi
    exact ⟨rfl, by decide⟩
  obtain ⟨n, hn, hrun⟩ := run_sysWriteCstr escaping 0x400000
  obtain rfl := hn.unique hlength
  refine ⟨hlength, rfl, ?_⟩
  rw [hrun]
  rfl

end Printing

end Syscalls
