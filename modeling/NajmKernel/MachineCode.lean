import Mathlib.Logic.Function.Basic
import NajmKernel.LittleEndian

/-! Machine code of x86-64: a few instructions with their encodings, how the processor reads them
back, and the rule that the bytes of a straight run of instructions do what the listing says. -/
namespace InstructionSet

inductive Reg where
  | rax | rbx | rcx | rdx | rsi | rdi | rbp | rsp | r8 | r9 | r10 | r11 | r12 | r13 | r14 | r15
  deriving DecidableEq, Repr

abbrev Flags := BitVec 64

def interruptFlag : Flags := 1#64 <<< 9

structure State where
  regs : Reg → ℕ
  rflags : Flags
  mem : ℕ → ℕ
  rip : ℕ
  cs : ℕ
  ss : ℕ

inductive Instr where
  | mov (dst src : Reg)
  | movImm (dst : Reg) (value : ℕ)
  | ret
  deriving DecidableEq, Repr

namespace State

def rsp (s : State) : ℕ := s.regs .rsp

def setReg (s : State) (r : Reg) (v : ℕ) : State := { s with regs := Function.update s.regs r v }

end State

def step (s : State) : Instr → State
  | .mov dst src => s.setReg dst (s.regs src)
  | .movImm dst value => s.setReg dst value
  | .ret => { s.setReg .rsp (s.rsp + 8) with rip := s.mem s.rsp }

/-- The number of a register in an instruction. -/
def Reg.number : Reg → ℕ
  | .rax => 0 | .rcx => 1 | .rdx => 2 | .rbx => 3 | .rsp => 4 | .rbp => 5 | .rsi => 6 | .rdi => 7
  | .r8 => 8 | .r9 => 9 | .r10 => 10 | .r11 => 11 | .r12 => 12 | .r13 => 13 | .r14 => 14
  | .r15 => 15

def Reg.ofNumber : ℕ → Reg
  | 0 => .rax | 1 => .rcx | 2 => .rdx | 3 => .rbx | 4 => .rsp | 5 => .rbp | 6 => .rsi | 7 => .rdi
  | 8 => .r8 | 9 => .r9 | 10 => .r10 | 11 => .r11 | 12 => .r12 | 13 => .r13 | 14 => .r14
  | _ => .r15

theorem Reg.number_lt (r : Reg) : r.number < 16 := by
  cases r <;> decide

theorem Reg.ofNumber_number (r : Reg) : Reg.ofNumber r.number = r := by
  cases r <;> rfl

end InstructionSet

namespace MachineCode

open LittleEndian InstructionSet

section Encodings

/-- Moves are between 64-bit registers, and an immediate is sign-extended. -/
inductive Op where
  | nop
  | mov (dst src : Reg)
  | movImm (dst : Reg) (imm : BitVec 32)
  | int (vector : UInt8)
  | ret
  deriving DecidableEq

/-- The prefix of a 64-bit operation, with the high bits of its two registers. -/
def rexW (reg rm : ℕ) : UInt8 := UInt8.ofNat (0x48 + 4 * (reg / 8) + rm / 8)

/-- The byte that names two registers. -/
def modRm (reg rm : ℕ) : UInt8 := UInt8.ofNat (0xC0 + 8 * (reg % 8) + rm % 8)

def encode : Op → List UInt8
  | .nop => [0x90]
  | .mov dst src => [rexW src.number dst.number, 0x89, modRm src.number dst.number]
  | .movImm dst imm => [rexW 0 dst.number, 0xC7, modRm 0 dst.number] ++ toBytes 4 imm.toNat
  | .int vector => [0xCD, vector]
  | .ret => [0xC3]

/-- The register operands that a prefix and a ModRM byte name, where both are registers. -/
def operands (rex modrm : UInt8) : Option (ℕ × ℕ) :=
  if rex.toNat / 16 = 4 ∧ rex.toNat / 8 % 2 = 1 ∧ modrm.toNat / 64 = 3 then
    some (8 * (rex.toNat / 4 % 2) + modrm.toNat / 8 % 8, 8 * (rex.toNat % 2) + modrm.toNat % 8)
  else none

/-- An instruction with a prefix for 64-bit operands, from the opcode on. -/
def decodeWide (rex : UInt8) : List UInt8 → Option (Op × ℕ)
  | 0x89 :: modrm :: _ =>
    (operands rex modrm).map fun (reg, rm) => (.mov (.ofNumber rm) (.ofNumber reg), 3)
  | 0xC7 :: modrm :: imm => do
    let (reg, rm) ← operands rex modrm
    if reg % 8 = 0 ∧ 4 ≤ imm.length then
      pure (.movImm (.ofNumber rm) (BitVec.ofNat 32 (ofBytes (imm.take 4))), 7)
    else none
  | _ => none

/-- The instruction at the front of some bytes, and its length. -/
def decode : List UInt8 → Option (Op × ℕ)
  | 0x90 :: _ => some (.nop, 1)
  | 0xC3 :: _ => some (.ret, 1)
  | 0xCD :: vector :: _ => some (.int vector, 2)
  | rex :: rest => decodeWide rex rest
  | [] => none

theorem toNat_rexW {reg rm : ℕ} (hreg : reg < 16) (hrm : rm < 16) :
    (rexW reg rm).toNat = 0x48 + 4 * (reg / 8) + rm / 8 :=
  UInt8.toNat_ofNat_of_lt' (show _ < 256 by omega)

theorem toNat_modRm (reg rm : ℕ) : (modRm reg rm).toNat = 0xC0 + 8 * (reg % 8) + rm % 8 :=
  UInt8.toNat_ofNat_of_lt' (show _ < 256 by omega)

/-- The prefix has the high bits of the two numbers, and the ModRM byte the low ones. -/
theorem operands_spec (reg rm : Reg) :
    operands (rexW reg.number rm.number) (modRm reg.number rm.number) =
      some (reg.number, rm.number) := by
  have hreg := reg.number_lt
  have hrm := rm.number_lt
  have hregParts := Nat.div_add_mod reg.number 8
  have hrmParts := Nat.div_add_mod rm.number 8
  have hregLow : reg.number % 8 < 8 := Nat.mod_lt _ (by decide)
  have hrmLow : rm.number % 8 < 8 := Nat.mod_lt _ (by decide)
  rw [operands, toNat_rexW hreg hrm, toNat_modRm]
  generalize reg.number / 8 = regHigh, reg.number % 8 = regLow at *
  generalize rm.number / 8 = rmHigh, rm.number % 8 = rmLow at *
  rw [if_pos ⟨by omega, by omega, by omega⟩, ← hregParts, ← hrmParts]
  have hhigh : (0x48 + 4 * regHigh + rmHigh) / 4 % 2 = regHigh ∧
      (0x48 + 4 * regHigh + rmHigh) % 2 = rmHigh := by omega
  have hlow : (0xC0 + 8 * regLow + rmLow) / 8 % 8 = regLow ∧
      (0xC0 + 8 * regLow + rmLow) % 8 = rmLow := by omega
  rw [hhigh.1, hhigh.2, hlow.1, hlow.2]

theorem rexW_range (reg rm : Reg) : (rexW reg.number rm.number).toNat / 8 = 9 := by
  have hreg := reg.number_lt
  have hrm := rm.number_lt
  rw [toNat_rexW hreg hrm]
  omega

theorem decode_wide {rex : UInt8} (h : rex.toNat / 8 = 9) (rest : List UInt8) :
    decode (rex :: rest) = decodeWide rex rest := by
  have hnop : rex ≠ 0x90 := by
    rintro rfl
    nomatch h
  have hret : rex ≠ 0xC3 := by
    rintro rfl
    nomatch h
  have hint : rex ≠ 0xCD := by
    rintro rfl
    nomatch h
  rw [decode]
  · exact hnop
  · exact hret
  · exact fun _ _ he => absurd he hint

/-- An encoded instruction is read back, whatever follows it. -/
theorem decode_encode (op : Op) (rest : List UInt8) :
    decode (encode op ++ rest) = some (op, (encode op).length) := by
  cases op with
  | nop => rfl
  | ret => rfl
  | int vector => rfl
  | mov dst src =>
    rw [encode, List.cons_append, decode_wide (rexW_range src dst)]
    simp only [List.cons_append, decodeWide, operands_spec, Option.map_some, Reg.ofNumber_number]
    rfl
  | movImm dst imm =>
    have hrange : (rexW 0 dst.number).toNat / 8 = 9 := rexW_range .rax dst
    have hoperands : operands (rexW 0 dst.number) (modRm 0 dst.number) = some (0, dst.number) :=
      operands_spec .rax dst
    have himm : ofBytes ((toBytes 4 imm.toNat ++ rest).take 4) = imm.toNat := by
      rw [List.take_left' (length_toBytes 4 _)]
      exact ofBytes_toBytes_of_lt imm.isLt
    have hlong : 4 ≤ (toBytes 4 imm.toNat ++ rest).length := by
      rw [List.length_append, length_toBytes]
      exact Nat.le_add_right 4 _
    have hlength : (encode (.movImm dst imm)).length = 7 := by
      rw [encode, List.length_append, length_toBytes]
      rfl
    rw [hlength, encode, List.append_assoc, List.cons_append, decode_wide hrange]
    simp only [List.cons_append, List.nil_append, decodeWide, hoperands]
    change (if 0 % 8 = 0 ∧ 4 ≤ (toBytes 4 imm.toNat ++ rest).length then
      some (Op.movImm (.ofNumber dst.number)
        (BitVec.ofNat 32 (ofBytes ((toBytes 4 imm.toNat ++ rest).take 4))), 7) else none) = _
    rw [if_pos ⟨rfl, hlong⟩, himm, Reg.ofNumber_number, BitVec.ofNat_toNat, BitVec.setWidth_eq]

end Encodings

section Execution

/-- What an interrupt has done to its program by the time that it returns. -/
abbrev Gate := UInt8 → State → State

/-- What an instruction does apart from where the next one is. -/
def Op.effect (gate : Gate) (s : State) : Op → State
  | .nop => s
  | .mov dst src => step s (.mov dst src)
  | .movImm dst imm => step s (.movImm dst (imm.signExtend 64).toNat)
  | .int vector => gate vector s
  | .ret => step s .ret

/-- An interrupt, and the state it finds. -/
def Op.interrupts (s : State) : Op → List (UInt8 × State)
  | .int vector => [(vector, s)]
  | _ => []

/-- Runs code at an address up to its return, for at most so many instructions, and notes the
interrupts. -/
def execute (gate : Gate) (base : ℕ) (code : List UInt8) :
    ℕ → State → List (UInt8 × State) → Option (List (UInt8 × State) × State)
  | 0, _, _ => none
  | fuel + 1, s, seen =>
    if s.rip < base then none
    else match decode (code.drop (s.rip - base)) with
      | none => none
      | some (.ret, _) => some (seen, Op.ret.effect gate s)
      | some (op, length) => execute gate base code fuel
          { op.effect gate s with rip := s.rip + length } (seen ++ op.interrupts s)

/-- The same for a listing. -/
def follow (gate : Gate) : List Op → State → List (UInt8 × State) → List (UInt8 × State) × State
  | [], s, seen => (seen, s)
  | op :: ops, s, seen => follow gate ops
      { op.effect gate s with rip := s.rip + (encode op).length } (seen ++ op.interrupts s)

variable (gate : Gate) {base : ℕ} {code rest : List UInt8} (before : List UInt8) {ops : List Op} {s : State}
  {seen : List (UInt8 × State)} {fuel : ℕ}

theorem ret_rip : (step s .ret).rip = s.mem s.rsp := rfl

theorem ret_rsp : (step s .ret).rsp = s.rsp + 8 := by
  change Function.update s.regs .rsp (s.rsp + 8) .rsp = s.rsp + 8
  rw [Function.update_self]

theorem ret_regs {r : Reg} (hr : r ≠ .rsp) : (step s .ret).regs r = s.regs r :=
  Function.update_of_ne hr _ _

/-- The bytes of a listing, with a return behind them, do what the listing says. -/
theorem execute_follow (hcode : code = before ++ (ops.flatMap encode ++ (encode .ret ++ rest)))
    (hrip : s.rip = base + before.length) (hret : Op.ret ∉ ops) (hfuel : ops.length < fuel) :
    execute gate base code fuel s seen = some ((follow gate ops s seen).1,
      step (follow gate ops s seen).2 .ret) := by
  obtain ⟨fuel, rfl⟩ := Nat.exists_eq_succ_of_ne_zero (Nat.ne_zero_of_lt hfuel)
  have hin : ¬ s.rip < base := by omega
  have hat : code.drop (s.rip - base) = ops.flatMap encode ++ (encode .ret ++ rest) := by
    rw [hcode, hrip, Nat.add_sub_cancel_left, List.drop_left]
  induction ops generalizing before s seen fuel with
  | nil =>
    rw [execute, if_neg hin, hat, List.flatMap_nil, List.nil_append, decode_encode]
    rfl
  | cons op ops ih =>
    rw [List.length_cons] at hfuel
    obtain ⟨fuel, rfl⟩ := Nat.exists_eq_succ_of_ne_zero (n := fuel) (by omega)
    have hne : op ≠ .ret := fun he => hret (he ▸ List.mem_cons_self)
    have hstep : execute gate base code (fuel + 1 + 1) s seen = execute gate base code (fuel + 1)
        { op.effect gate s with rip := s.rip + (encode op).length }
        (seen ++ op.interrupts s) := by
      rw [execute, if_neg hin, hat, List.flatMap_cons, List.append_assoc, decode_encode]
      cases op with
      | ret => exact absurd rfl hne
      | nop => rfl
      | mov dst src => rfl
      | movImm dst imm => rfl
      | int vector => rfl
    rw [hstep]
    have hcode' : code = (before ++ encode op) ++
        (ops.flatMap encode ++ (encode .ret ++ rest)) := by
      rw [hcode, List.flatMap_cons, List.append_assoc, List.append_assoc]
    have hrip' : s.rip + (encode op).length = base + (before ++ encode op).length := by
      rw [hrip, List.length_append, Nat.add_assoc]
    refine ih (before ++ encode op) hcode' hrip' (fun hmem => hret (List.mem_cons_of_mem _ hmem)) fuel (by omega) ?_ ?_
    · dsimp only
      omega
    · dsimp only
      rw [hcode', hrip', Nat.add_sub_cancel_left, List.drop_left]

end Execution

end MachineCode
