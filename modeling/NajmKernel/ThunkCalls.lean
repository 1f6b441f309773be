import NajmKernel.MachineCode
import NajmKernel.MirageLoader

/-! What the code of a thunk does when it runs: the registers of a Windows call arrive as those of a
system call, and what the caller finds in its registers afterwards. -/
namespace Mirage

open LittleEndian InstructionSet MachineCode

/-- The instructions of a thunk before its return. -/
def listing (t : Thunk) : List Op :=
  (if 1 ≤ t.args then [Op.mov .rdi .rcx] else []) ++ (if 2 ≤ t.args then [Op.mov .rsi .rdx] else []) ++
    (if 3 ≤ t.args then [Op.mov .rdx .r8] else []) ++
    [Op.movImm .rax (BitVec.ofNat 32 t.syscall), .int 0x80]

variable {t : Thunk} {gate : Gate} {base : ℕ} {s c u : State}

/-- The bytes of a thunk are those of its listing and a return, with NOPs behind. -/
theorem generateThunk_eq (h : t.syscall < 2 ^ 31) : ∃ nops, generateThunk t =
    (listing t).flatMap encode ++ (encode .ret ++ nops) := by
  have himm : (BitVec.ofNat 32 t.syscall).toNat = t.syscall := by
    rw [BitVec.toNat_ofNat, Nat.mod_eq_of_lt (by omega)]
  have hif {p : Prop} [Decidable p] (op : Op) : (if p then [op] else []).flatMap encode =
      if p then encode op else [] := by
    split
    · rw [List.flatMap_singleton]
    · rfl
  have hcode : (listing t).flatMap encode ++ encode .ret =
      (if 1 ≤ t.args then [0x48, 0x89, 0xCF] else []) ++
        (if 2 ≤ t.args then [0x48, 0x89, 0xD6] else []) ++
        (if 3 ≤ t.args then [0x4C, 0x89, 0xC2] else []) ++
        [0x48, 0xC7, 0xC0] ++ toBytes 4 t.syscall ++ [0xCD, 0x80] ++ [0xC3] := by
    simp only [listing, List.flatMap_append, hif, List.flatMap_cons, List.flatMap_nil, encode, himm,
      List.append_assoc, List.append_nil]
    rfl
  refine ⟨List.replicate
    (thunkStride - ((listing t).flatMap encode ++ encode .ret).length) 0x90, ?_⟩
  rw [← List.append_assoc, generateThunk, hcode]

/-- The native argument registers, with what arrives in them. -/
structure Passes (t : Thunk) (s c : State) : Prop where
  number : c.regs .rax = t.syscall
  first : 1 ≤ t.args → c.regs .rdi = s.regs .rcx
  second : 2 ≤ t.args → c.regs .rsi = s.regs .rdx
  third : 3 ≤ t.args → c.regs .rdx = s.regs .r8

/-- The registers that a function leaves as they were, by the Microsoft x64 convention. -/
def calleeSaved : List Reg := [.rbx, .rbp, .rdi, .rsi, .r12, .r13, .r14, .r15]

/-- The call of a Windows program comes out as one system call with its arguments, and returns with
the result and the caller's registers. -/
structure Faithful (t : Thunk) (gate : Gate) (s : State) (seen : List (UInt8 × State)) (u : State) :
    Prop where
  issues : ∃ c, seen = [(0x80, c)] ∧ Passes t s c ∧ u.regs .rax = (gate 0x80 c).regs .rax
  returns : u.rip = s.mem s.rsp
  popped : u.rsp = s.rsp + 8
  saved : ∀ r ∈ calleeSaved, u.regs r = s.regs r

/-- The registers of the system call that a Windows call of the function stands for. -/
def request (t : Thunk) (s : State) : Reg → ℕ
  | .rax => t.syscall
  | .rdi => if 1 ≤ t.args then s.regs .rcx else s.regs .rdi
  | .rsi => if 2 ≤ t.args then s.regs .rdx else s.regs .rsi
  | .rdx => if 3 ≤ t.args then s.regs .r8 else s.regs .rdx
  | r => s.regs r

/-- The program at its system call, behind a move for each argument and that of the number. -/
def requested (t : Thunk) (s : State) : State :=
  { s with regs := request t s, rip := s.rip + 3 * min 3 t.args + 7 }

theorem signExtend_syscall (h : t.syscall < 2 ^ 31) :
    ((BitVec.ofNat 32 t.syscall).signExtend 64).toNat = t.syscall := by
  have hmsb : (BitVec.ofNat 32 t.syscall).msb = false := by
    rw [BitVec.msb_eq_decide, BitVec.toNat_ofNat]
    exact decide_eq_false (by omega)
  rw [BitVec.signExtend_eq_setWidth_of_msb_false hmsb, BitVec.toNat_setWidth, BitVec.toNat_ofNat]
  omega

theorem follow_move {p : Prop} [Decidable p] {dst src : Reg} {ops : List Op}
    {seen : List (UInt8 × State)} :
    follow gate ((if p then [Op.mov dst src] else []) ++ ops) s seen =
      follow gate ops { s with
        regs := if p then Function.update s.regs dst (s.regs src) else s.regs
        rip := s.rip + if p then 3 else 0 } seen := by
  by_cases hp : p
  · have hseen : seen ++ (Op.mov dst src).interrupts s = seen := List.append_nil seen
    rw [if_pos hp, if_pos hp, if_pos hp, List.cons_append, List.nil_append, follow, hseen]
    rfl
  · rw [if_neg hp, if_neg hp, if_neg hp, List.nil_append]
    rfl

theorem moved_apply {p : Prop} [Decidable p] (regs : Reg → ℕ) (dst r : Reg) (value : ℕ) :
    (if p then Function.update regs dst value else regs) r =
      if r = dst then (if p then value else regs r) else regs r := by
  by_cases hp : p
  · rw [if_pos hp, if_pos hp, Function.update_apply]
  · rw [if_neg hp, if_neg hp, ite_self]

/-- The listing moves the arguments, makes the one system call and changes nothing else. -/
theorem follow_listing (h : t.syscall < 2 ^ 31) : follow gate (listing t) s [] =
    ([(0x80, requested t s)],
      { gate 0x80 (requested t s) with rip := (requested t s).rip + 2 }) := by
  rw [listing, List.append_assoc, List.append_assoc, follow_move, follow_move, follow_move]
  dsimp only
  generalize hregs : (if 3 ≤ t.args then _ else _ : Reg → ℕ) = regs
  generalize hrip : s.rip + _ + _ + _ = rip
  have hat : rip + 7 = (requested t s).rip := by
    have hmoves : (if 1 ≤ t.args then 3 else 0) + (if 2 ≤ t.args then 3 else 0) +
        (if 3 ≤ t.args then 3 else 0) = 3 * min 3 t.args := by
      split_ifs <;> omega
    change rip + 7 = s.rip + 3 * min 3 t.args + 7
    omega
  have hmoved : Function.update regs .rax t.syscall = request t s := by
    funext r
    rw [← hregs]
    simp only [Function.update_apply, moved_apply]
    cases r <;> rfl
  have hcalled : { Op.effect gate { s with regs := regs, rip := rip }
      (.movImm .rax (BitVec.ofNat 32 t.syscall)) with rip := rip + 7 } = requested t s := by
    rw [hat, Op.effect, signExtend_syscall h, step, State.setReg, hmoved]
    rfl
  rw [follow, ← hcalled]
  rfl

theorem run_thunk (gate : Gate) (h : t.syscall < 2 ^ 31) (hrip : s.rip = base) {fuel : ℕ}
    (hfuel : 5 < fuel) :
    execute gate base (generateThunk t) fuel s [] = some ([(0x80, requested t s)],
      step { gate 0x80 (requested t s) with rip := (requested t s).rip + 2 } .ret) := by
  obtain ⟨nops, hcode⟩ := generateThunk_eq h
  have hret : Op.ret ∉ listing t := by
    rw [listing]
    split_ifs <;> simp
  have hlength : (listing t).length ≤ 5 := by
    rw [listing]
    split_ifs <;> simp
  have hcode' : generateThunk t = [] ++ ((listing t).flatMap encode ++ (encode .ret ++ nops)) :=
    hcode
  rw [execute_follow gate [] hcode' hrip hret (hlength.trans_lt hfuel), follow_listing h]

/-- For every caller and stack: the thunk is faithful where the registers it moves the first two
arguments to held them already, so far as the system call leaves the return address alone. -/
theorem thunk_faithful_iff (hsyscall : t.syscall < 2 ^ 31) (hrip : s.rip = base)
    (hgate : ∀ c r, r ≠ .rax → (gate 0x80 c).regs r = c.regs r) :
    ∃ seen u, (∀ fuel > 5, execute gate base (generateThunk t) fuel s [] = some (seen, u)) ∧
      (Faithful t gate s seen u ↔
        (1 ≤ t.args → s.regs .rdi = s.regs .rcx) ∧ (2 ≤ t.args → s.regs .rsi = s.regs .rdx) ∧
          (gate 0x80 (requested t s)).mem s.rsp = s.mem s.rsp) := by
  refine ⟨_, _, fun fuel hfuel => run_thunk gate hsyscall hrip hfuel, ?_⟩
  have hkept (r : Reg) (hr : r ≠ .rax) : (gate 0x80 (requested t s)).regs r = request t s r :=
    hgate (requested t s) r hr
  have hrsp : (gate 0x80 (requested t s)).rsp = s.rsp := hkept .rsp (by decide)
  have hreturns : (gate 0x80 (requested t s)).mem (gate 0x80 (requested t s)).rsp = s.mem s.rsp ↔
      (gate 0x80 (requested t s)).mem s.rsp = s.mem s.rsp := by rw [hrsp]
  constructor
  · intro h
    refine ⟨fun h1 => ?_, fun h2 => ?_, hreturns.mp h.returns⟩
    · have hrdi := h.saved .rdi (by decide)
      rw [ret_regs (by decide), hkept .rdi (by decide), request, if_pos h1] at hrdi
      exact hrdi.symm
    · have hrsi := h.saved .rsi (by decide)
      rw [ret_regs (by decide), hkept .rsi (by decide), request, if_pos h2] at hrsi
      exact hrsi.symm
  · rintro ⟨h1, h2, hstack⟩
    refine ⟨⟨requested t s, rfl, ⟨rfl, fun h => if_pos h, fun h => if_pos h, fun h => if_pos h⟩,
      ret_regs (by decide)⟩, hreturns.mpr hstack, ret_rsp.trans (congrArg (· + 8) hrsp),
      fun r hr => ?_⟩
    have hsame : request t s r = s.regs r := by
      simp only [calleeSaved, List.mem_cons, List.not_mem_nil, or_false] at hr
      rcases hr with rfl | rfl | rfl | rfl | rfl | rfl | rfl | rfl
      · rfl
      · rfl
      · rw [request]
        split
        case isTrue h => exact (h1 h).symm
        case isFalse => rfl
      · rw [request]
        split
        case isTrue h => exact (h2 h).symm
        case isFalse => rfl
      · rfl
      · rfl
      · rfl
      · rfl
    have hne : r ≠ .rsp ∧ r ≠ .rax := by
      constructor
      · rintro rfl
        revert hr
        decide
      · rintro rfl
        revert hr
        decide
    rw [ret_regs hne.1, hkept r hne.2, hsame]

/-- A kernel that answers 0 and touches nothing else. -/
def quiet : Gate := fun _ s => s.setReg .rax 0

/-- A Windows program with an argument in RCX and a value of its own in RDI, calling what is at
0x200000005000. -/
def caller (rcx rdi : ℕ) : State where
  regs := fun r => if r = .rcx then rcx else if r = .rdi then rdi else
    if r = .rsp then 0x7fffffffe000 else 0
  rflags := interruptFlag
  mem := fun _ => 0x200000001000
  rip := 0x200000005000
  cs := 0x33
  ss := 0x2b

def sleepThunk : Thunk := ⟨"Sleep", sysYield, 1⟩

theorem sleepThunk_small : sleepThunk.syscall < 2 ^ 31 := by decide

theorem quiet_keeps (c : State) (r : Reg) (hr : r ≠ .rax) :
    (quiet 0x80 c).regs r = c.regs r := Function.update_of_ne hr _ _

theorem thunk_faithful_iff_same : ∃ seen u, (∀ fuel > 5, execute quiet 0x200000005000
    (generateThunk sleepThunk) fuel (caller 1000 1000) [] = some (seen, u)) ∧
      Faithful sleepThunk quiet (caller 1000 1000) seen u := by
  have hrip : (caller 1000 1000).rip = 0x200000005000 := rfl
  obtain ⟨seen, u, hruns, hiff⟩ := thunk_faithful_iff sleepThunk_small hrip quiet_keeps
  exact ⟨seen, u, hruns, hiff.mpr ⟨fun _ => rfl, fun h => absurd h (by decide), rfl⟩⟩

/-- `Sleep(1000)` comes back with 1000 where the caller's 7 was. -/
theorem sleep_clobbers : lookup "Sleep" = some sleepThunk ∧ ∃ seen u,
    (∀ fuel > 5, execute quiet 0x200000005000 (generateThunk sleepThunk) fuel (caller 1000 7) [] =
      some (seen, u)) ∧ u.regs .rdi = 1000 ∧ (caller 1000 7).regs .rdi = 7 ∧
      ¬ Faithful sleepThunk quiet (caller 1000 7) seen u := by
  have hrip : (caller 1000 7).rip = 0x200000005000 := rfl
  have hruns (fuel : ℕ) (hfuel : fuel > 5) := run_thunk quiet sleepThunk_small hrip hfuel
  refine ⟨by decide, _, _, hruns, rfl, rfl, ?_⟩
  intro h
  have hsaved := h.saved .rdi (by decide)
  revert hsaved
  decide

end Mirage
