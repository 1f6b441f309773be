import NajmKernel.ElfLoader

/-! What the bytes of an ELF image say, and that the loader reads exactly that. -/
namespace ElfLoader

open LittleEndian PhysicalMemory PageTables PhysicalFrames AddressSpaces Attempts Attempt
  SpaceBuilding

def headerOf (bytes : List UInt8) : ElfHeader :=
  ⟨field bytes 24 8, field bytes 32 8, field bytes 54 2, field bytes 56 2⟩

structure WellFormed (bytes : List UInt8) : Prop where
  size : 64 ≤ bytes.length
  magic : bytes.take 4 = elfMagic
  class64 : field bytes 4 1 = elfClass64
  littleEndian : field bytes 5 1 = elfData2Lsb
  executable : field bytes 16 2 = etExec
  machine : field bytes 18 2 = emX8664
  entries : 56 ≤ (headerOf bytes).phentsize
  bounded : (headerOf bytes).phoff + (headerOf bytes).phnum * (headerOf bytes).phentsize < 2 ^ 64
  inside : (headerOf bytes).phoff + (headerOf bytes).phnum * (headerOf bytes).phentsize ≤
    bytes.length

instance (bytes : List UInt8) : Decidable (WellFormed bytes) :=
  decidable_of_iff (64 ≤ bytes.length ∧ bytes.take 4 = elfMagic ∧ field bytes 4 1 = elfClass64 ∧
      field bytes 5 1 = elfData2Lsb ∧ field bytes 16 2 = etExec ∧ field bytes 18 2 = emX8664 ∧
      56 ≤ (headerOf bytes).phentsize ∧
      (headerOf bytes).phoff + (headerOf bytes).phnum * (headerOf bytes).phentsize < 2 ^ 64 ∧
      (headerOf bytes).phoff + (headerOf bytes).phnum * (headerOf bytes).phentsize ≤ bytes.length)
    ⟨fun ⟨h1, h2, h3, h4, h5, h6, h7, h8, h9⟩ => ⟨h1, h2, h3, h4, h5, h6, h7, h8, h9⟩,
      fun h => ⟨h.size, h.magic, h.class64, h.littleEndian, h.executable, h.machine, h.entries,
        h.bounded, h.inside⟩⟩

def programHeader (bytes : List UInt8) (i : ℕ) : ProgramHeader :=
  let offset := (headerOf bytes).phoff + i * (headerOf bytes).phentsize
  ⟨field bytes offset 4, field bytes (offset + 4) 4, field bytes (offset + 8) 8,
    field bytes (offset + 16) 8, field bytes (offset + 32) 8, field bytes (offset + 40) 8⟩

/-- What the loader asks of a `PT_LOAD` header. -/
structure Accepted (nx : Bool) (bytes : List UInt8) (h : ProgramHeader) (flags : PageTableFlags) :
    Prop where
  flags : segmentFlags h.pFlags nx = .ok flags
  user : isUserAddress h.pVaddr = true
  sizes : h.pFilesz ≤ h.pMemsz
  fileBounded : h.pOffset + h.pFilesz < 2 ^ 64
  file : h.pOffset + h.pFilesz ≤ bytes.length
  bounded : h.pVaddr + h.pMemsz < 2 ^ 64

variable {σ α : Type} {bytes : List UInt8} {s s' : σ} {nx : Bool} {i offset width : ℕ}
  {flags : PageTableFlags}

theorem run_readUint_bind {f : ℕ → Attempt σ LoadError α} (h : offset + width ≤ bytes.length)
    (h64 : offset + width < 2 ^ 64) :
    (readUint width bytes offset >>= f).run s = (f (field bytes offset width)).run s := by
  apply run_bind_of_ok
  rw [readUint, run_demand_bind, if_pos h64, run_bind_of_ok (run_slice ⟨by omega, h⟩), run_pure,
    Nat.add_sub_cancel_left]
  rfl

theorem run_slice_bind {f : List UInt8 → Attempt σ LoadError α} {stop : ℕ}
    (h : offset ≤ stop ∧ stop ≤ bytes.length) :
    (slice bytes offset stop >>= f).run s = (f ((bytes.drop offset).take (stop - offset))).run s :=
  run_bind_of_ok (run_slice h)

theorem parseHeader_ok (h : WellFormed bytes) :
    (parseHeader bytes).run s = some (.ok (headerOf bytes), s) := by
  have hs := h.size
  have hentries : 56 ≤ field bytes 54 2 := h.entries
  have hbounded : field bytes 32 8 + field bytes 56 2 * field bytes 54 2 < 2 ^ 64 := h.bounded
  have hinside : field bytes 32 8 + field bytes 56 2 * field bytes 54 2 ≤ bytes.length := h.inside
  rw [parseHeader, run_ensure_bind, if_pos hs, run_slice_bind ⟨by omega, by omega⟩,
    run_ensure_bind, if_pos (by simpa using h.magic), run_readUint_bind (by omega) (by decide),
    run_ensure_bind, if_pos h.class64, run_readUint_bind (by omega) (by decide), run_ensure_bind,
    if_pos h.littleEndian, run_readUint_bind (by omega) (by decide), run_ensure_bind,
    if_pos h.executable, run_readUint_bind (by omega) (by decide), run_ensure_bind,
    if_pos h.machine, run_readUint_bind (by omega) (by decide),
    run_readUint_bind (by omega) (by decide), run_readUint_bind (by omega) (by decide),
    run_ensure_bind, if_pos hentries, run_ensure_bind, if_pos (by omega), run_ensure_bind,
    if_pos hbounded, run_ensure_bind, if_pos hinside, run_readUint_bind (by omega) (by decide)]
  rfl

/-- A header that is not well formed is an error, and never a panic. -/
theorem parseHeader_error (h : ¬ WellFormed bytes) :
    ∃ e, (parseHeader bytes).run s = some (.error e, s) := by
  by_contra hno
  rw [not_exists] at hno
  apply h
  obtain ⟨hsize, h⟩ := ensure_bind_passes hno
  rw [run_slice_bind ⟨by omega, by omega⟩] at h
  obtain ⟨hmagic, h⟩ := ensure_bind_passes h
  rw [run_readUint_bind (by omega) (by decide)] at h
  obtain ⟨hclass, h⟩ := ensure_bind_passes h
  rw [run_readUint_bind (by omega) (by decide)] at h
  obtain ⟨hdata, h⟩ := ensure_bind_passes h
  rw [run_readUint_bind (by omega) (by decide)] at h
  obtain ⟨hexec, h⟩ := ensure_bind_passes h
  rw [run_readUint_bind (by omega) (by decide)] at h
  obtain ⟨hmachine, h⟩ := ensure_bind_passes h
  rw [run_readUint_bind (by omega) (by decide), run_readUint_bind (by omega) (by decide),
    run_readUint_bind (by omega) (by decide)] at h
  obtain ⟨hentries, h⟩ := ensure_bind_passes h
  obtain ⟨-, h⟩ := ensure_bind_passes h
  obtain ⟨hbounded, h⟩ := ensure_bind_passes h
  obtain ⟨hinside, -⟩ := ensure_bind_passes h
  exact ⟨hsize, by simpa using hmagic, hclass, hdata, hexec, hmachine, hentries, hbounded, hinside⟩

section Headers

theorem entry_inside (h : WellFormed bytes) (hi : i < (headerOf bytes).phnum) :
    (headerOf bytes).phoff + i * (headerOf bytes).phentsize + 56 ≤ bytes.length ∧
      (headerOf bytes).phoff + i * (headerOf bytes).phentsize + 56 < 2 ^ 64 := by
  have h1 := h.entries
  have h2 := h.inside
  have h3 := h.bounded
  have hmul : (i + 1) * (headerOf bytes).phentsize ≤
      (headerOf bytes).phnum * (headerOf bytes).phentsize := Nat.mul_le_mul_right _ hi
  rw [Nat.add_mul, Nat.one_mul] at hmul
  omega

variable (h : WellFormed bytes) (hi : i < (headerOf bytes).phnum)
include h hi

theorem readSegment_skip (ht : (programHeader bytes i).pType ≠ ptLoad) :
    (readSegment nx bytes (headerOf bytes) i).run s = some (.ok none, s) := by
  obtain ⟨h1, h2⟩ := entry_inside h hi
  have ht' : field bytes ((headerOf bytes).phoff + i * (headerOf bytes).phentsize) 4 ≠ ptLoad := ht
  rw [readSegment, run_demand_bind, if_pos (by omega), run_readUint_bind (by omega) (by omega),
    if_pos ht']
  rfl

theorem readSegment_load (ht : (programHeader bytes i).pType = ptLoad) :
    (readSegment nx bytes (headerOf bytes) i).run s =
      (checkSegment nx bytes i (programHeader bytes i)).run s := by
  obtain ⟨h1, h2⟩ := entry_inside h hi
  have ht' : field bytes ((headerOf bytes).phoff + i * (headerOf bytes).phentsize) 4 = ptLoad := ht
  rw [readSegment, run_demand_bind, if_pos (by omega), run_readUint_bind (by omega) (by omega),
    if_neg (not_not.mpr ht'), run_readUint_bind (by omega) (by omega),
    run_readUint_bind (by omega) (by omega), run_readUint_bind (by omega) (by omega),
    run_readUint_bind (by omega) (by omega), run_readUint_bind (by omega) (by omega)]
  rfl

theorem readSegment_accepted (ht : (programHeader bytes i).pType = ptLoad)
    (ha : Accepted nx bytes (programHeader bytes i) flags) :
    (readSegment nx bytes (headerOf bytes) i).run s = some (.ok
      (if (programHeader bytes i).pMemsz = 0 then none
        else some ⟨i, programHeader bytes i, flags⟩), s) := by
  rw [readSegment_load h hi ht, checkSegment, ha.flags]
  simp only
  rw [run_ensure_bind, if_pos ha.user, run_ensure_bind, if_pos ha.sizes, run_ensure_bind,
    if_pos ha.fileBounded, run_ensure_bind, if_pos ha.file, run_ensure_bind, if_pos ha.bounded,
    run_pure]

theorem readSegment_refused (ht : (programHeader bytes i).pType = ptLoad)
    (ha : ¬ ∃ flags, Accepted nx bytes (programHeader bytes i) flags) :
    ∃ e, (readSegment nx bytes (headerOf bytes) i).run s = some (.error e, s) := by
  rw [readSegment_load h hi ht, checkSegment]
  cases hf : segmentFlags (programHeader bytes i).pFlags nx with
  | error reason => exact ⟨_, rfl⟩
  | ok flags =>
    by_contra hno
    rw [not_exists] at hno
    apply ha
    obtain ⟨h1, hno⟩ := ensure_bind_passes hno
    obtain ⟨h2, hno⟩ := ensure_bind_passes hno
    obtain ⟨h3, hno⟩ := ensure_bind_passes hno
    obtain ⟨h4, hno⟩ := ensure_bind_passes hno
    obtain ⟨h5, -⟩ := ensure_bind_passes hno
    exact ⟨flags, hf, h1, h2, h3, h4, h5⟩

end Headers

/-- The bytes of an image with these program headers, and its contents after them. -/
def encode (entry : ℕ) (headers : List ProgramHeader) (contents : List UInt8) : List UInt8 :=
  elfMagic ++ [2, 1, 1] ++ List.replicate 9 0 ++ toBytes 2 etExec ++ toBytes 2 emX8664 ++
    toBytes 4 1 ++ toBytes 8 entry ++ toBytes 8 64 ++ toBytes 8 0 ++ toBytes 4 0 ++ toBytes 2 64 ++
    toBytes 2 56 ++ toBytes 2 headers.length ++ List.replicate 6 0 ++
    headers.flatMap (fun h => toBytes 4 h.pType ++ toBytes 4 h.pFlags ++ toBytes 8 h.pOffset ++
      toBytes 8 h.pVaddr ++ toBytes 8 h.pVaddr ++ toBytes 8 h.pFilesz ++ toBytes 8 h.pMemsz ++
      toBytes 8 4096) ++ contents

end ElfLoader
