import Mathlib.Data.List.Basic
import NajmKernel.Attempts
import NajmKernel.SecureHash

/-! SHA-256 as the kernel computes it: over chunks that need not end at a block. -/
namespace Sha256

open Attempts Attempt

section Compression

def H0 : Vector UInt32 8 :=
  #v[0x6a09e667, 0xbb67ae85, 0x3c6ef372, 0xa54ff53a, 0x510e527f, 0x9b05688c, 0x1f83d9ab, 0x5be0cd19]

def K : List UInt32 :=
  [0x428a2f98, 0x71374491, 0xb5c0fbcf, 0xe9b5dba5, 0x3956c25b, 0x59f111f1, 0x923f82a4, 0xab1c5ed5,
    0xd807aa98, 0x12835b01, 0x243185be, 0x550c7dc3, 0x72be5d74, 0x80deb1fe, 0x9bdc06a7, 0xc19bf174,
    0xe49b69c1, 0xefbe4786, 0x0fc19dc6, 0x240ca1cc, 0x2de92c6f, 0x4a7484aa, 0x5cb0a9dc, 0x76f988da,
    0x983e5152, 0xa831c66d, 0xb00327c8, 0xbf597fc7, 0xc6e00bf3, 0xd5a79147, 0x06ca6351, 0x14292967,
    0x27b70a85, 0x2e1b2138, 0x4d2c6dfc, 0x53380d13, 0x650a7354, 0x766a0abb, 0x81c2c92e, 0x92722c85,
    0xa2bfe8a1, 0xa81a664b, 0xc24b8b70, 0xc76c51a3, 0xd192e819, 0xd6990624, 0xf40e3585, 0x106aa070,
    0x19a4c116, 0x1e376c08, 0x2748774c, 0x34b0bcb5, 0x391c0cb3, 0x4ed8aa4a, 0x5b9cca4f, 0x682e6ff3,
    0x748f82ee, 0x78a5636f, 0x84c87814, 0x8cc70208, 0x90befffa, 0xa4506ceb, 0xbef9a3f7, 0xc67178f2]

def rotateRight (x : UInt32) (n : UInt32) : UInt32 := x >>> n ||| x <<< (32 - n)

/-- `to_be_bytes` of a number of `w` bytes. -/
def toBeBytes (w n : ℕ) : List UInt8 := (List.range w).map fun i => UInt8.ofNat (n >>> (8 * (w - 1 - i)))

/-- `from_be_bytes` of four bytes. -/
def ofBeBytes (bytes : List UInt8) : UInt32 := bytes.foldl (fun n b => n <<< 8 ||| b.toUInt32) 0

/-- The words of a block, and those that each of the later rounds adds. -/
def schedule (block : List UInt8) : List UInt32 :=
  (List.range 48).foldl (fun w _ =>
    let back (n : ℕ) := w.getD (w.length - n) 0
    let s0 := rotateRight (back 15) 7 ^^^ rotateRight (back 15) 18 ^^^ back 15 >>> 3
    let s1 := rotateRight (back 2) 17 ^^^ rotateRight (back 2) 19 ^^^ back 2 >>> 10
    w ++ [back 16 + s0 + back 7 + s1])
    ((List.range 16).map fun index => ofBeBytes ((block.drop (index * 4)).take 4))

def round (v : Vector UInt32 8) (k w : UInt32) : Vector UInt32 8 :=
  let s1 := rotateRight v[4] 6 ^^^ rotateRight v[4] 11 ^^^ rotateRight v[4] 25
  let ch := v[4] &&& v[5] ^^^ ~~~v[4] &&& v[6]
  let temp1 := v[7] + s1 + ch + k + w
  let s0 := rotateRight v[0] 2 ^^^ rotateRight v[0] 13 ^^^ rotateRight v[0] 22
  let maj := v[0] &&& v[1] ^^^ v[0] &&& v[2] ^^^ v[1] &&& v[2]
  #v[temp1 + (s0 + maj), v[0], v[1], v[2], v[3] + temp1, v[4], v[5], v[6]]

/-- The words, as the standard names its working variables. -/
def working (v : Vector UInt32 8) : SecureHash.Working :=
  ⟨v[0], v[1], v[2], v[3], v[4], v[5], v[6], v[7]⟩

def compress (state : Vector UInt32 8) (block : List UInt8) : Vector UInt32 8 :=
  let v := (K.zip (schedule block)).foldl (fun v kw => round v kw.1 kw.2) state
  Vector.zipWith (· + ·) state v

/-- The loop over whole blocks, and what is left behind the last. -/
def absorb (state : Vector UInt32 8) (data : List UInt8) : Vector UInt32 8 × List UInt8 :=
  if 64 ≤ data.length then absorb (compress state (data.take 64)) (data.drop 64)
  else (state, data)
termination_by data.length
decreasing_by rw [List.length_drop]; omega

end Compression

section Hashing

structure Hasher where
  state : Vector UInt32 8
  buffer : List UInt8
  buffered : ℕ
  lengthBits : UInt64

def Hasher.new : Hasher := ⟨H0, List.replicate 64 0, 0, 0⟩

variable {σ ε : Type}

/-- `copy_from_slice` into a part of the buffer, which panics past the buffer's end. -/
def copyInto (buffer : List UInt8) (start : ℕ) (bytes : List UInt8) : Attempt σ ε (List UInt8) := do
  demand (start + bytes.length ≤ buffer.length)
  pure (buffer.take start ++ bytes ++ buffer.drop (start + bytes.length))

/-- A partial block takes what it has room for, and is compressed when it is full. -/
def finishBlock (h : Hasher) (data : List UInt8) : Attempt σ ε (Hasher × List UInt8) := do
  demand (h.buffered ≤ 64)
  let want := min (64 - h.buffered) data.length
  let buffer ← copyInto h.buffer h.buffered (data.take want)
  let h := { h with buffer := buffer, buffered := h.buffered + want }
  pure (if h.buffered = 64 then { h with state := compress h.state h.buffer, buffered := 0 } else h,
    data.drop want)

def update (h : Hasher) (data : List UInt8) : Attempt σ ε Hasher := do
  let h := { h with lengthBits := h.lengthBits + UInt64.ofNat data.length * 8 }
  let (h, data) ← if 0 < h.buffered then finishBlock h data else pure (h, data)
  let (state, data) := absorb h.state data
  let h := { h with state := state }
  if data = [] then pure h
  else do
    let buffer ← copyInto h.buffer 0 data
    pure { h with buffer := buffer, buffered := data.length }

def updateWithoutLength (h : Hasher) (data : List UInt8) : Attempt σ ε Hasher := do
  let before := h.lengthBits
  pure { ← update h data with lengthBits := before }

/-- The padding loop, which is given so many turns and may not need more. -/
def padZeros : ℕ → Hasher → Attempt σ ε Hasher
  | 0, _ => abort
  | turns + 1, h => do
    if h.buffered = 56 then pure h
    else padZeros turns (← updateWithoutLength h [0])

def finish (h : Hasher) : Attempt σ ε (List UInt8) := do
  let lengthBits := h.lengthBits
  let h ← updateWithoutLength h [0x80]
  let h ← padZeros 64 h
  let h ← updateWithoutLength h (toBeBytes 8 lengthBits.toNat)
  pure (h.state.toList.flatMap fun word => toBeBytes 4 word.toNat)

def digest (data : List UInt8) : Attempt σ ε (List UInt8) := do
  finish (← update .new data)

/-- No early exit: every pair of bytes goes into the difference. -/
def digestsEqual (a b : List UInt8) : Bool :=
  (a.zip b).foldl (fun difference ab => difference ||| ab.1 ^^^ ab.2) 0 == 0

end Hashing

section Absorption

/-- The state between two calls: a partial block in a buffer of a whole one. -/
structure Hasher.Partial (h : Hasher) : Prop where
  buffer : h.buffer.length = 64
  short : h.buffered < 64

theorem new_short : Hasher.new.Partial := ⟨List.length_replicate, Nat.zero_lt_succ 63⟩

theorem absorb_rest (state : Vector UInt32 8) (data : List UInt8) :
    (absorb state data).2.length = data.length % 64 := by
  induction state, data using absorb.induct with
  | case1 state data hlong ih =>
    rw [absorb, if_pos hlong, ih, List.length_drop, ← Nat.mod_eq_sub_mod hlong]
  | case2 state data hshort =>
    rw [absorb, if_neg hshort]
    exact (Nat.mod_eq_of_lt (Nat.not_le.mp hshort)).symm

theorem absorb_short {state : Vector UInt32 8} {data : List UInt8} (h : data.length < 64) :
    absorb state data = (state, data) := by
  rw [absorb, if_neg (Nat.not_le.mpr h)]

theorem absorb_block {state : Vector UInt32 8} {data rest : List UInt8} (h : data.length = 64) :
    absorb state (data ++ rest) = absorb (compress state data) rest := by
  rw [absorb, if_pos (by rw [List.length_append]; omega), List.take_left' h, List.drop_left' h]

/-- Absorbing in two pieces: what the first leaves goes before the second. -/
theorem absorb_append (state : Vector UInt32 8) (data more : List UInt8) :
    absorb state (data ++ more) = absorb (absorb state data).1 ((absorb state data).2 ++ more) := by
  induction state, data using absorb.induct with
  | case1 state data hlong ih =>
    have hblock : (data.take 64).length = 64 := by
      rw [List.length_take]
      omega
    have hsplit : data ++ more = data.take 64 ++ (data.drop 64 ++ more) := by
      rw [← List.append_assoc, List.take_append_drop]
    have hfirst : absorb state data = absorb (compress state (data.take 64)) (data.drop 64) := by
      conv_lhs => rw [absorb, if_pos hlong]
    rw [hsplit, absorb_block hblock, ih, hfirst]
  | case2 state data hshort => rw [absorb_short (Nat.not_le.mp hshort)]

end Absorption

section Streams

variable {σ ε : Type} {s : σ} {h : Hasher} {data message : List UInt8}

def Hasher.pending (h : Hasher) : List UInt8 := h.buffer.take h.buffered

/-- The hasher has taken in a message: its whole blocks, and the rest in the buffer. -/
structure Holds (h : Hasher) (message : List UInt8) : Prop where
  partly : h.Partial
  absorbed : absorb H0 message = (h.state, h.pending)

theorem new_holds : Holds .new [] := ⟨new_short, absorb_short (Nat.zero_lt_succ 63)⟩

theorem copyInto_run {buffer bytes : List UInt8} {start : ℕ}
    (hfits : start + bytes.length ≤ buffer.length) :
    (copyInto buffer start bytes : Attempt σ ε (List UInt8)).run s = some (.ok
      (buffer.take start ++ bytes ++ buffer.drop (start + bytes.length)), s) := by
  rw [copyInto, run_demand_bind, if_pos hfits, run_pure]

/-- Behind the partial block: whole blocks are compressed, and the rest goes to the buffer. -/
theorem absorbed_run {h : Hasher} {data : List UInt8} (hpartly : h.Partial)
    (hempty : h.buffered = 0 ∨ data = []) :
    ∃ h', (do
        let (state, data) := absorb h.state data
        let h := { h with state := state }
        if data = [] then pure h
        else do
          let buffer ← copyInto h.buffer 0 data
          pure { h with buffer := buffer, buffered := data.length } : Attempt σ ε Hasher).run s =
        some (.ok h', s) ∧ h'.Partial ∧ h'.lengthBits = h.lengthBits ∧
      absorb h.state (h.pending ++ data) = (h'.state, h'.pending) := by
  have hrest := absorb_rest h.state data
  have hshort := hpartly.short
  have hjoined : absorb h.state (h.pending ++ data) =
      if data = [] then (h.state, h.pending) else absorb h.state data := by
    by_cases hnil : data = []
    · rw [if_pos hnil, hnil, List.append_nil, absorb_short]
      rw [Hasher.pending, List.length_take]
      omega
    · rw [if_neg hnil, Hasher.pending, hempty.resolve_right hnil, List.take_zero, List.nil_append]
  rw [hjoined]
  by_cases hdata : data = []
  · refine ⟨h, ?_, hpartly, rfl, if_pos hdata⟩
    rw [hdata, absorb_short (show ([] : List UInt8).length < 64 from Nat.zero_lt_succ 63)]
    rfl
  rw [if_neg hdata]
  have hzero := hempty.resolve_right hdata
  generalize absorb h.state data = absorbed at hrest ⊢
  obtain ⟨state, rest⟩ := absorbed
  simp only at hrest ⊢
  by_cases hnil : rest = []
  · rw [if_pos hnil]
    refine ⟨_, rfl, ⟨hpartly.buffer, hshort⟩, rfl, ?_⟩
    rw [Hasher.pending, hzero, List.take_zero, hnil]
  · rw [if_neg hnil]
    have hlt : rest.length < 64 := by omega
    rw [run_bind_of_ok (copyInto_run (by rw [hpartly.buffer]; omega))]
    refine ⟨_, rfl, ⟨?_, hlt⟩, rfl, ?_⟩
    · rw [List.length_append, List.length_append, List.length_take, List.length_drop,
        hpartly.buffer]
      omega
    · rw [Hasher.pending, List.take_zero, List.nil_append, List.take_left' rfl]

/-- The partial block and the chunk behind it are absorbed as one. -/
theorem finishBlock_run {h : Hasher} (hpartly : h.Partial) (data : List UInt8) :
    ∃ h' rest, (finishBlock h data : Attempt σ ε (Hasher × List UInt8)).run s =
        some (.ok (h', rest), s) ∧ h'.Partial ∧ h'.lengthBits = h.lengthBits ∧
      (h'.buffered = 0 ∨ rest = []) ∧
      absorb h.state (h.pending ++ data) = absorb h'.state (h'.pending ++ rest) := by
  have hbuffer := hpartly.buffer
  have hshort := hpartly.short
  have hpending : h.pending.length = h.buffered := by
    rw [Hasher.pending, List.length_take]
    omega
  have htake : (data.take (min (64 - h.buffered) data.length)).length =
      min (64 - h.buffered) data.length := by
    rw [List.length_take]
    omega
  rw [finishBlock, run_demand_bind, if_pos (Nat.le_of_lt hshort),
    run_bind_of_ok (copyInto_run (by rw [htake]; omega))]
  by_cases hfull : h.buffered + min (64 - h.buffered) data.length = 64
  · refine ⟨_, _, rfl, ?_⟩
    have hblock : (h.pending ++ data.take (min (64 - h.buffered) data.length)).length = 64 := by
      rw [List.length_append, hpending, htake, hfull]
    have hdrop : h.buffer.drop (h.buffered + (data.take (min (64 - h.buffered) data.length)).length) =
        [] := by
      rw [htake, hfull, ← hbuffer, List.drop_length]
    rw [if_pos hfull, hdrop, List.append_nil]
    refine ⟨⟨hblock, Nat.zero_lt_succ 63⟩, rfl, Or.inl rfl, ?_⟩
    have hsame : absorb h.state (h.pending ++ data) = absorb (compress h.state (h.pending ++
        data.take (min (64 - h.buffered) data.length)))
          (data.drop (min (64 - h.buffered) data.length)) := by
      rw [← absorb_block hblock, List.append_assoc, List.take_append_drop]
    exact hsame
  · refine ⟨_, _, rfl, ?_⟩
    have hall : min (64 - h.buffered) data.length = data.length := by omega
    rw [if_neg hfull, hall, List.take_length, List.drop_length]
    refine ⟨⟨?_, ?_⟩, rfl, Or.inr rfl, ?_⟩
    · rw [List.length_append, List.length_append, List.length_take, List.length_drop]
      omega
    · simp only
      omega
    · rw [List.append_nil, Hasher.pending, Hasher.pending]
      simp only
      rw [List.take_left' (by rw [List.length_append, List.length_take]; omega)]

/-- An update takes a chunk in behind what has been taken in before. -/
theorem update_holds (hholds : Holds h message) (data : List UInt8) :
    ∃ h', (update h data : Attempt σ ε Hasher).run s = some (.ok h', s) ∧
      Holds h' (message ++ data) ∧ h'.lengthBits = h.lengthBits + UInt64.ofNat data.length * 8 := by
  have hpartly : Hasher.Partial { h with lengthBits := h.lengthBits + UInt64.ofNat data.length * 8 } :=
    ⟨hholds.partly.buffer, hholds.partly.short⟩
  have hwhole : absorb H0 (message ++ data) = absorb h.state (h.pending ++ data) := by
    rw [absorb_append, hholds.absorbed]
  rw [update]
  by_cases hbuffered : 0 < h.buffered
  · obtain ⟨h₁, rest, hfinish, hpartly₁, hlength₁, hempty, hsame⟩ :=
      finishBlock_run (σ := σ) (ε := ε) (s := s) hpartly data
    obtain ⟨h', hrun, hpartly', hlength, habsorbed⟩ :=
      absorbed_run (σ := σ) (ε := ε) (s := s) hpartly₁ hempty
    simp only [if_pos hbuffered]
    refine ⟨h', (run_bind_of_ok hfinish).trans hrun, ⟨hpartly', ?_⟩, hlength.trans hlength₁⟩
    rw [hwhole, ← habsorbed]
    exact hsame
  · have hempty : h.buffered = 0 ∨ data = [] := Or.inl (Nat.eq_zero_of_not_pos hbuffered)
    obtain ⟨h', hrun, hpartly', hlength, habsorbed⟩ :=
      absorbed_run (σ := σ) (ε := ε) (s := s) hpartly hempty
    simp only [if_neg hbuffered]
    refine ⟨h', hrun, ⟨hpartly', ?_⟩, hlength⟩
    rw [hwhole, ← habsorbed]
    rfl

theorem updateWithoutLength_holds (hholds : Holds h message) (data : List UInt8) :
    ∃ h', (updateWithoutLength h data : Attempt σ ε Hasher).run s = some (.ok h', s) ∧
      Holds h' (message ++ data) ∧ h'.lengthBits = h.lengthBits := by
  obtain ⟨h', hrun, hholds', -⟩ := update_holds (σ := σ) (ε := ε) (s := s) hholds data
  rw [updateWithoutLength, run_bind_of_ok hrun]
  exact ⟨_, rfl, ⟨⟨hholds'.partly.buffer, hholds'.partly.short⟩, hholds'.absorbed⟩, rfl⟩

theorem Holds.buffered (hholds : Holds h message) : h.buffered = message.length % 64 := by
  have hrest := absorb_rest H0 message
  have hbuffer := hholds.partly.buffer
  have hshort := hholds.partly.short
  rw [hholds.absorbed] at hrest
  simp only [Hasher.pending, List.length_take] at hrest
  omega

/-- The zeros end where the length has its place. -/
theorem padZeros_holds (turns : ℕ) (hholds : Holds h message)
    (hturns : (120 - message.length % 64) % 64 < turns) :
    ∃ h', (padZeros turns h : Attempt σ ε Hasher).run s = some (.ok h', s) ∧
      Holds h' (message ++ List.replicate ((120 - message.length % 64) % 64) 0) ∧
      h'.lengthBits = h.lengthBits := by
  induction turns generalizing h message with
  | zero => exact absurd hturns (Nat.not_lt_zero _)
  | succ turns ih =>
    have hbuffered := hholds.buffered
    rw [padZeros]
    by_cases hdone : h.buffered = 56
    · have hzero : (120 - message.length % 64) % 64 = 0 := by omega
      rw [if_pos hdone, hzero, List.replicate_zero, List.append_nil]
      exact ⟨h, rfl, hholds, rfl⟩
    · obtain ⟨h₁, hrun₁, hholds₁, hlength₁⟩ :=
        updateWithoutLength_holds (σ := σ) (ε := ε) (s := s) hholds [0]
      have hlen : (message ++ [0]).length = message.length + 1 := List.length_append
      have hcount : (120 - message.length % 64) % 64 =
          (120 - (message ++ [0]).length % 64) % 64 + 1 := by omega
      obtain ⟨h', hrun, hholds', hlength⟩ := ih hholds₁ (by omega)
      rw [if_neg hdone, run_bind_of_ok hrun₁]
      refine ⟨h', hrun, ?_, hlength.trans hlength₁⟩
      rwa [List.append_assoc, List.singleton_append, ← List.replicate_succ, ← hcount] at hholds'

/-- Finishing pads what has been taken in and spells the words of the state. -/
theorem finish_run (hholds : Holds h message) :
    ∃ h', (finish h : Attempt σ ε (List UInt8)).run s =
        some (.ok (h'.state.toList.flatMap fun word => toBeBytes 4 word.toNat), s) ∧
      Holds h' (message ++ [0x80] ++
        List.replicate ((120 - (message ++ [0x80]).length % 64) % 64) 0 ++
          toBeBytes 8 h.lengthBits.toNat) := by
  obtain ⟨h₁, hrun₁, hholds₁, -⟩ :=
    updateWithoutLength_holds (σ := σ) (ε := ε) (s := s) hholds [0x80]
  obtain ⟨h₂, hrun₂, hholds₂, -⟩ := padZeros_holds (σ := σ) (ε := ε) (s := s) 64 hholds₁
    (Nat.mod_lt _ (by decide))
  obtain ⟨h₃, hrun₃, hholds₃, -⟩ := updateWithoutLength_holds (σ := σ) (ε := ε) (s := s) hholds₂
    (toBeBytes 8 h.lengthBits.toNat)
  refine ⟨h₃, ?_, hholds₃⟩
  rw [finish, run_bind_of_ok hrun₁, run_bind_of_ok hrun₂, run_bind_of_ok hrun₃, run_pure]

@[simp] theorem length_toBeBytes (w n : ℕ) : (toBeBytes w n).length = w := by
  rw [toBeBytes, List.length_map, List.length_range]

/-- Every message has a digest, of thirty-two bytes. -/
theorem digest_ok (data : List UInt8) :
    ∃ bytes, (digest data : Attempt σ ε (List UInt8)).run s = some (.ok bytes, s) ∧
      bytes.length = 32 := by
  obtain ⟨h, hrun, hholds, -⟩ := update_holds (σ := σ) (ε := ε) (s := s) new_holds data
  obtain ⟨h', hfinish, -⟩ := finish_run (σ := σ) (ε := ε) (s := s) hholds
  refine ⟨_, by rw [digest, run_bind_of_ok hrun, hfinish], ?_⟩
  simp [List.length_flatMap]

end Streams

end Sha256
