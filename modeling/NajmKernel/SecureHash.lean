import Mathlib.Algebra.Group.Nat.Defs
import Mathlib.Data.List.Basic
import Mathlib.Data.Nat.Find

/-! SHA-256 as the secure hash standard defines it, on messages of whole bytes. -/
namespace SecureHash

section Constants

/-- The primes below a bound, by trial division. -/
def primes (bound : ℕ) : List ℕ :=
  (List.range bound).filter fun n => 2 ≤ n ∧ ∀ d ∈ List.range n, 2 ≤ d → n % d ≠ 0

/-- The greatest number below `2 ^ 40` whose power does not exceed `n`, from its highest bit on. -/
def root (e n : ℕ) : ℕ :=
  (List.range 40).foldr (fun i x => if (x + 2 ^ i) ^ e ≤ n then x + 2 ^ i else x) 0

/-- The first 32 bits of the fractional part of a root. -/
def fractional (e p : ℕ) : UInt32 := UInt32.ofNat (root e (p * 2 ^ (32 * e)))

/-- From the square roots of the first eight primes. -/
def initial : List UInt32 := (primes 20).map (fractional 2)

/-- From the cube roots of the first sixty-four primes. -/
def constants : List UInt32 := (primes 312).map (fractional 3)

end Constants

section Functions

def rotr (n x : UInt32) : UInt32 := x >>> n ||| x <<< (32 - n)

def ch (x y z : UInt32) : UInt32 := x &&& y ^^^ ~~~x &&& z

def maj (x y z : UInt32) : UInt32 := x &&& y ^^^ x &&& z ^^^ y &&& z

def bigSigma0 (x : UInt32) : UInt32 := rotr 2 x ^^^ rotr 13 x ^^^ rotr 22 x

def bigSigma1 (x : UInt32) : UInt32 := rotr 6 x ^^^ rotr 11 x ^^^ rotr 25 x

def smallSigma0 (x : UInt32) : UInt32 := rotr 7 x ^^^ rotr 18 x ^^^ x >>> 3

def smallSigma1 (x : UInt32) : UInt32 := rotr 17 x ^^^ rotr 19 x ^^^ x >>> 10

end Functions

section Blocks

/-- The number that bytes spell, the most significant first. -/
def bigEndian (bytes : List UInt8) : ℕ := bytes.foldl (fun n b => n * 256 + b.toNat) 0

/-- The `w` low bytes of a number, the most significant first. -/
def spelled (w n : ℕ) : List UInt8 := ((List.range w).map fun i => UInt8.ofNat (n / 256 ^ i)).reverse

/-- A word of the message schedule. -/
def scheduled (block : List UInt8) (t : ℕ) : UInt32 :=
  if t < 16 then UInt32.ofNat (bigEndian ((block.drop (4 * t)).take 4))
  else smallSigma1 (scheduled block (t - 2)) + scheduled block (t - 7) +
    smallSigma0 (scheduled block (t - 15)) + scheduled block (t - 16)
termination_by t

/-- The working variables. -/
structure Working where
  a : UInt32
  b : UInt32
  c : UInt32
  d : UInt32
  e : UInt32
  f : UInt32
  g : UInt32
  h : UInt32
  deriving DecidableEq

namespace Working

def round (v : Working) (k w : UInt32) : Working :=
  let t1 := v.h + bigSigma1 v.e + ch v.e v.f v.g + k + w
  let t2 := bigSigma0 v.a + maj v.a v.b v.c
  ⟨t1 + t2, v.a, v.b, v.c, v.d + t1, v.e, v.f, v.g⟩

def add (v w : Working) : Working :=
  ⟨v.a + w.a, v.b + w.b, v.c + w.c, v.d + w.d, v.e + w.e, v.f + w.f, v.g + w.g, v.h + w.h⟩

def words (v : Working) : List UInt32 := [v.a, v.b, v.c, v.d, v.e, v.f, v.g, v.h]

end Working

def initialHash : Working :=
  let h (i : ℕ) := initial.getD i 0
  ⟨h 0, h 1, h 2, h 3, h 4, h 5, h 6, h 7⟩

/-- The hash value after a block. -/
def hashBlock (v : Working) (block : List UInt8) : Working :=
  v.add ((List.range 64).foldl
    (fun v t => v.round (constants.getD t 0) (scheduled block t)) v)

end Blocks

section Messages

theorem exists_zeros (len : ℕ) : ∃ k, (len + 1 + k) % 64 = 56 :=
  ⟨(119 - len % 64) % 64, by omega⟩

/-- The least number of zero bytes that leaves the last block room for the length. -/
def zeros (len : ℕ) : ℕ := Nat.find (exists_zeros len)

/-- The message, a one bit, zero bits, and the length in bits. -/
def padded (message : List UInt8) : List UInt8 :=
  message ++ 0x80 :: List.replicate (zeros message.length) 0 ++ spelled 8 (8 * message.length)

def blocks (bytes : List UInt8) : List (List UInt8) :=
  (List.range (bytes.length / 64)).map fun i => (bytes.drop (64 * i)).take 64

def digest (message : List UInt8) : List UInt8 :=
  ((blocks (padded message)).foldl hashBlock initialHash).words.flatMap fun word =>
    spelled 4 word.toNat

theorem zeros_eq (len : ℕ) : zeros len = (119 - len % 64) % 64 := by
  rw [zeros, Nat.find_eq_iff]
  exact ⟨by omega, fun k hk => by omega⟩

theorem length_spelled (w n : ℕ) : (spelled w n).length = w := by
  rw [spelled, List.length_reverse, List.length_map, List.length_range]

theorem padded_length (message : List UInt8) : (padded message).length % 64 = 0 := by
  simp only [padded, List.length_append, List.length_cons, List.length_replicate, zeros_eq,
    length_spelled]
  omega

end Messages

section Blockwise

variable {bytes rest : List UInt8}

theorem blocks_short (h : bytes.length < 64) : blocks bytes = [] := by
  rw [blocks, Nat.div_eq_of_lt h]
  rfl

/-- The first block, and those of the rest. -/
theorem blocks_long (h : 64 ≤ bytes.length) :
    blocks bytes = bytes.take 64 :: blocks (bytes.drop 64) := by
  have hcount : bytes.length / 64 = (bytes.length - 64) / 64 + 1 := by omega
  rw [blocks, blocks, hcount, List.range_succ_eq_map, List.map_cons, List.map_map, List.length_drop]
  refine congrArg₂ _ (by rw [Nat.mul_zero, List.drop_zero]) ?_
  refine List.map_congr_left fun i _ => ?_
  rw [Function.comp_apply, List.drop_drop, Nat.succ_eq_add_one, Nat.mul_add, Nat.mul_one,
    Nat.add_comm]

end Blockwise

end SecureHash
