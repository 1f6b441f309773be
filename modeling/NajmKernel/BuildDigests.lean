import NajmKernel.HashStreams

/-! The hasher of the build script, which keeps the whole message until it is asked for the digest. -/
namespace Sha256

open Attempts Attempt SecureHash

section BuildScript

variable {σ ε : Type}

def buildH0 : Vector UInt32 8 :=
  #[0x6a09e667, 0xbb67ae85, 0x3c6ef372, 0xa54ff53a,
    0x510e527f, 0x9b05688c, 0x1f83d9ab, 0x5be0cd19].toVector

def buildK : List UInt32 :=
  [0x428a2f98, 0x71374491, 0xb5c0fbcf, 0xe9b5dba5, 0x3956c25b, 0x59f111f1, 0x923f82a4, 0xab1c5ed5,
    0xd807aa98, 0x12835b01, 0x243185be, 0x550c7dc3, 0x72be5d74, 0x80deb1fe, 0x9bdc06a7, 0xc19bf174,
    0xe49b69c1, 0xefbe4786, 0x0fc19dc6, 0x240ca1cc, 0x2de92c6f, 0x4a7484aa, 0x5cb0a9dc, 0x76f988da,
    0x983e5152, 0xa831c66d, 0xb00327c8, 0xbf597fc7, 0xc6e00bf3, 0xd5a79147, 0x06ca6351, 0x14292967,
    0x27b70a85, 0x2e1b2138, 0x4d2c6dfc, 0x53380d13, 0x650a7354, 0x766a0abb, 0x81c2c92e, 0x92722c85,
    0xa2bfe8a1, 0xa81a664b, 0xc24b8b70, 0xc76c51a3, 0xd192e819, 0xd6990624, 0xf40e3585, 0x106aa070,
    0x19a4c116, 0x1e376c08, 0x2748774c, 0x34b0bcb5, 0x391c0cb3, 0x4ed8aa4a, 0x5b9cca4f, 0x682e6ff3,
    0x748f82ee, 0x78a5636f, 0x84c87814, 0x8cc70208, 0x90befffa, 0xa4506ceb, 0xbef9a3f7, 0xc67178f2]

structure BuildHasher where
  state : Vector UInt32 8
  buffer : List UInt8

def BuildHasher.new : BuildHasher := ⟨buildH0, []⟩

def BuildHasher.update (h : BuildHasher) (data : List UInt8) : BuildHasher :=
  { h with buffer := h.buffer ++ data }

/-- The padding loop, which is given so many turns and may not need more. -/
def padBuffer : ℕ → List UInt8 → Attempt σ ε (List UInt8)
  | 0, _ => abort
  | turns + 1, buffer => if buffer.length % 64 = 56 then pure buffer else padBuffer turns (buffer ++ [0])

/-- `chunks(64)`, of which the last may be shorter. -/
def chunks64 (bytes : List UInt8) : List (List UInt8) :=
  if bytes = [] then [] else bytes.take 64 :: chunks64 (bytes.drop 64)
termination_by bytes.length
decreasing_by
  rename_i hne
  have := List.length_pos_iff.mpr hne
  rw [List.length_drop]
  omega

/-- A turn of the loop over the blocks, with the words and the rounds of the kernel's; a block that
is too short for its words panics. -/
def buildCompress (state : Vector UInt32 8) (block : List UInt8) :
    Attempt σ ε (Vector UInt32 8) := do
  demand (64 ≤ block.length)
  let v := (buildK.zip (schedule block)).foldl (fun v kw => round v kw.1 kw.2) state
  pure (Vector.zipWith (· + ·) state v)

def BuildHasher.finish (h : BuildHasher) : Attempt σ ε (List UInt8) := do
  demand (h.buffer.length * 8 < 2 ^ 64)
  let lengthBits := h.buffer.length * 8
  let buffer ← padBuffer 64 (h.buffer ++ [0x80])
  let buffer := buffer ++ toBeBytes 8 lengthBits
  let state ← (chunks64 buffer).foldlM buildCompress h.state
  pure (state.toList.flatMap fun word => toBeBytes 4 word.toNat)

def buildHashChunks (chunks : List (List UInt8)) : Attempt σ ε (List UInt8) :=
  (chunks.foldl BuildHasher.update .new).finish

end BuildScript

section Agreement

variable {σ ε : Type} {s : σ} {bytes : List UInt8}

theorem updates_buffer (chunks : List (List UInt8)) (h : BuildHasher) :
    chunks.foldl BuildHasher.update h = { h with buffer := h.buffer ++ chunks.flatten } := by
  induction chunks generalizing h with
  | nil => rw [List.foldl_nil, List.flatten_nil, List.append_nil]
  | cons chunk chunks ih =>
    rw [List.foldl_cons, ih, List.flatten_cons]
    simp only [BuildHasher.update, List.append_assoc]

theorem padBuffer_run (turns : ℕ) (hturns : (120 - bytes.length % 64) % 64 < turns) :
    (padBuffer turns bytes : Attempt σ ε (List UInt8)).run s =
      some (.ok (bytes ++ List.replicate ((120 - bytes.length % 64) % 64) 0), s) := by
  induction turns generalizing bytes with
  | zero => exact absurd hturns (Nat.not_lt_zero _)
  | succ turns ih =>
    rw [padBuffer]
    by_cases hdone : bytes.length % 64 = 56
    · rw [if_pos hdone, hdone, List.replicate_zero, List.append_nil, run_pure]
    · have hlen : (bytes ++ [0]).length = bytes.length + 1 := List.length_append
      have hcount : (120 - bytes.length % 64) % 64 = (120 - (bytes ++ [0]).length % 64) % 64 + 1 := by
        omega
      rw [if_neg hdone, ih (by omega), hcount, List.append_assoc, List.singleton_append,
        ← List.replicate_succ]

/-- The chunks of whole blocks are the blocks. -/
theorem chunks64_eq (h : bytes.length % 64 = 0) : chunks64 bytes = blocks bytes := by
  induction hlen : bytes.length using Nat.strong_induction_on generalizing bytes with
  | _ n ih =>
    by_cases hnil : bytes = []
    · rw [chunks64, if_pos hnil, hnil]
      rfl
    · have hpos := List.length_pos_iff.mpr hnil
      have hdrop : (bytes.drop 64).length = bytes.length - 64 := List.length_drop
      rw [chunks64, if_neg hnil, blocks_long (by omega), ih _ (by omega) (by omega) rfl]

theorem buildCompress_run {block : List UInt8} (state : Vector UInt32 8) (h : block.length = 64) :
    (buildCompress state block : Attempt σ ε (Vector UInt32 8)).run s =
      some (.ok (compress state block), s) := by
  have hK : buildK = K := by decide +kernel
  rw [buildCompress, run_demand_bind, if_pos h.ge, hK, run_pure]
  rfl

theorem buildBlocks_run (l : List (List UInt8)) (hl : ∀ block ∈ l, block.length = 64)
    (state : Vector UInt32 8) :
    (l.foldlM buildCompress state : Attempt σ ε (Vector UInt32 8)).run s =
      some (.ok (l.foldl compress state), s) := by
  induction l generalizing state with
  | nil => rfl
  | cons block l ih =>
    rw [List.foldlM_cons, run_bind_of_ok (buildCompress_run state (hl block List.mem_cons_self)),
      ih fun other hother => hl other (List.mem_cons_of_mem _ hother)]
    rfl

theorem blocks_length (h : bytes.length % 64 = 0) : ∀ block ∈ blocks bytes, block.length = 64 := by
  intro block hblock
  obtain ⟨i, hi, rfl⟩ := List.mem_map.mp hblock
  have hi := List.mem_range.mp hi
  rw [List.length_take, List.length_drop]
  omega

theorem compressed_eq (l : List (List UInt8)) (hl : ∀ block ∈ l, block.length = 64)
    (state : Vector UInt32 8) :
    working (l.foldl compress state) = l.foldl hashBlock (working state) := by
  induction l generalizing state with
  | nil => rfl
  | cons block l ih =>
    rw [List.foldl_cons, List.foldl_cons, ← compress_eq (hl block List.mem_cons_self),
      ih fun other hother => hl other (List.mem_cons_of_mem _ hother)]

theorem build_finish_run (message : List UInt8) (hshort : message.length < 2 ^ 61) :
    (BuildHasher.finish ⟨buildH0, message⟩ : Attempt σ ε (List UInt8)).run s =
      some (.ok (SecureHash.digest message), s) := by
  have hlen : (message ++ [(0x80 : UInt8)]).length = message.length + 1 := List.length_append
  have hpadded : message ++ [0x80] ++ List.replicate ((120 - (message ++ [0x80]).length % 64) % 64) 0 ++
      toBeBytes 8 (message.length * 8) = padded message := by
    have hzeros : (120 - (message ++ [(0x80 : UInt8)]).length % 64) % 64 = zeros message.length := by
      rw [zeros_eq]
      omega
    rw [padded, hzeros, toBeBytes_eq, Nat.mul_comm, List.append_assoc message, List.singleton_append]
  have hblocks := blocks_length (padded_length message)
  have hH0 : working buildH0 = initialHash := working_H0
  rw [BuildHasher.finish, run_demand_bind, if_pos (by simp only; omega),
    run_bind_of_ok (padBuffer_run 64 (Nat.mod_lt _ (by decide)))]
  simp only
  rw [hpadded, chunks64_eq (padded_length message),
    run_bind_of_ok (buildBlocks_run _ hblocks buildH0), run_pure, words_eq,
    compressed_eq _ hblocks, hH0, SecureHash.digest]
  simp only [toBeBytes_eq]

/-- The kernel's digest of chunks, and the build script's, are the standard's of their concatenation,
which the digest of a package's two parts is of them. -/
theorem sha256_standard (chunks : List (List UInt8)) (hshort : chunks.flatten.length < 2 ^ 61) :
    (hashChunks chunks : Attempt σ ε (List UInt8)).run s =
        some (.ok (SecureHash.digest chunks.flatten), s) ∧
      (buildHashChunks chunks : Attempt σ ε (List UInt8)).run s =
        some (.ok (SecureHash.digest chunks.flatten), s) ∧
      ∀ manifest payload, manifest ++ payload = chunks.flatten →
        (PackageStore.computeDigest manifest payload : Attempt σ ε (List UInt8)).run s =
            some (.ok (SecureHash.digest chunks.flatten), s) ∧
          (digest (manifest ++ payload) : Attempt σ ε (List UInt8)).run s =
            some (.ok (SecureHash.digest chunks.flatten), s) := by
  refine ⟨hashChunks_run chunks hshort, ?_, ?_⟩
  · rw [buildHashChunks, updates_buffer, BuildHasher.new, List.nil_append]
    exact build_finish_run _ hshort
  · intro manifest payload hparts
    have htwo : [manifest, payload].flatten = chunks.flatten := by
      rw [← hparts]
      simp
    have hone : [manifest ++ payload].flatten = chunks.flatten := by
      rw [← hparts]
      simp
    have hsplit := hashChunks_run (σ := σ) (ε := ε) (s := s) [manifest, payload] (htwo ▸ hshort)
    have hwhole := hashChunks_run (σ := σ) (ε := ε) (s := s) [manifest ++ payload] (hone ▸ hshort)
    rw [htwo] at hsplit
    rw [hone] at hwhole
    refine ⟨?_, ?_⟩
    · rw [← hsplit, hashChunks, PackageStore.computeDigest]
      simp only [List.foldlM_cons, List.foldlM_nil, bind_assoc, pure_bind]
    · rw [← hwhole, hashChunks, digest]
      simp only [List.foldlM_cons, List.foldlM_nil, bind_assoc, pure_bind]

theorem sha256_standard_abc :
    (hashChunks [[0x61], [], [0x62, 0x63]] : Attempt Unit Unit (List UInt8)).run () =
      some (.ok (SecureHash.digest [0x61, 0x62, 0x63]), ()) :=
  (sha256_standard [[0x61], [], [0x62, 0x63]] (by decide)).1

end Agreement

end Sha256
