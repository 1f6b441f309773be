import NajmKernel.PeImages

/-! When the PE parser panics: the unchecked sums and the unchecked slice of its import and
relocation loops, and the walks on which a file reaches them. -/
namespace PeParser

open LittleEndian AddressSpaces Attempts Attempt

variable {σ : Type} {bytes : List UInt8} {entry offset width rva : ℕ}

theorem uintAt_outcome {α : Type} {f : ℕ → Attempt σ MirageError α} {P : Prop} {R : α → Prop}
    (h64 : offset + width < 2 ^ 64)
    (hf : offset + width ≤ bytes.length → Outcome (f (field bytes offset width)) P R) :
    Outcome (uintAt width bytes offset >>= f) (offset + width ≤ bytes.length ∧ P)
      (fun a => offset + width ≤ bytes.length ∧ R a) := by
  by_cases h : offset + width ≤ bytes.length
  · have hrun := (hf h).of_run (x := uintAt width bytes offset >>= f) fun s =>
      run_uintAt_bind_of_le h64 h
    exact hrun.congr (by simp [h]) fun a => by simp [h]
  · have hrun := Outcome.of_error (x := uintAt width bytes offset >>= f) fun s => ⟨_, by
      rw [run_uintAt_bind h64, if_neg h]⟩
    exact hrun.congr (by simp [h]) fun a => by simp [h]

/-- A read inside a range that is known to lie in the file. -/
theorem uintAt_outcome_of_le {α : Type} {f : ℕ → Attempt σ MirageError α} {P : Prop} {R : α → Prop}
    (h64 : offset + width < 2 ^ 64) (hle : offset + width ≤ bytes.length)
    (hf : Outcome (f (field bytes offset width)) P R) :
    Outcome (uintAt width bytes offset >>= f) P R :=
  hf.of_run fun _ => run_uintAt_bind_of_le h64 hle

/-- `rva_to_offset` as `parse` has it at hand, for a section table that it accepted. -/
def translateIn (bytes : List UInt8) : ℕ → Attempt σ MirageError (Option ℕ) :=
  rvaToOffset (headersOf bytes).headersSize (sectionsOf bytes)

/-- The RVA is translated, to this offset. -/
def Leads (bytes : List UInt8) (rva offset : ℕ) : Prop :=
  ¬ Untranslatable bytes rva ∧ fileOffset bytes rva = some offset

theorem Leads.lt (h : Leads bytes rva offset) : offset < 2 ^ 33 := fileOffset_lt h.2

theorem offsetOr_outcome {why : String} :
    Outcome (offsetOr (translateIn bytes) rva why : Attempt σ MirageError ℕ)
      (Untranslatable bytes rva) (Leads bytes rva) := by
  by_cases h : Untranslatable bytes rva
  · refine (Outcome.of_panic fun s => ?_).congr (by simp [h]) fun v => by simp [Leads, h]
    rw [offsetOr, run_bind, translateIn, rvaToOffset_none h]
  · rcases hv : fileOffset bytes rva with _ | v
    · have hrun (s : σ) : (offsetOr (translateIn bytes) rva why : Attempt σ MirageError ℕ).run s =
          (throw (.malformed why) : Attempt σ MirageError ℕ).run s := by
        rw [offsetOr, translateIn, run_bind_of_ok (rvaToOffset_ok h), hv]
      exact (Outcome.throw.of_run hrun).congr (by simp [h]) fun w => by simp [Leads, hv]
    · have hrun (s : σ) : (offsetOr (translateIn bytes) rva why : Attempt σ MirageError ℕ).run s =
          (pure v : Attempt σ MirageError ℕ).run s := by
        rw [offsetOr, translateIn, run_bind_of_ok (rvaToOffset_ok h), hv]
      refine ((Outcome.pure v).of_run hrun).congr (by simp [h]) fun w => ?_
      simp [Leads, hv, h, eq_comm]

section Imports

/-- The name's RVA has no offset that the code can compute, or the two bytes of its hint are not
all inside the file. -/
def NameFaults (bytes : List UInt8) (entry : ℕ) : Prop :=
  Untranslatable bytes (entry &&& 0x7FFFFFFF) ∨
    ∃ hint, Leads bytes (entry &&& 0x7FFFFFFF) hint ∧ bytes.length < hint + 2

def NameIs (bytes : List UInt8) (entry : ℕ) (name : String) : Prop :=
  ∃ hint, Leads bytes (entry &&& 0x7FFFFFFF) hint ∧ hint + 2 ≤ bytes.length ∧
    ∃ length, (bytes.drop (hint + 2)).findIdx? (· == 0) = some length ∧
      name = fromUtf8Lossy ((bytes.drop (hint + 2)).take length)

/-- The search for the zero byte, on the slice that begins behind the hint. -/
theorem terminated_outcome {start : ℕ} (hstart : start ≤ bytes.length) :
    Outcome (match (bytes.drop start).findIdx? (· == 0) with
      | none => throw (.malformed
          "an import name is not NUL-terminated before the end of the file")
      | some length => do
        pure (fromUtf8Lossy (← slice bytes start (start + length))) :
        Attempt σ MirageError String) False
      (fun name => ∃ length, (bytes.drop start).findIdx? (· == 0) = some length ∧
        name = fromUtf8Lossy ((bytes.drop start).take length)) := by
  rcases hfind : (bytes.drop start).findIdx? (· == 0) with _ | length
  · exact Outcome.throw.congr Iff.rfl fun name => by simp
  · obtain ⟨hlt, -⟩ := List.findIdx?_eq_some_iff_getElem.mp hfind
    rw [List.length_drop] at hlt
    have hin : start ≤ start + length ∧ start + length ≤ bytes.length := by omega
    have h := Outcome.slice (l := bytes) (i := start) (j := start + length) (g := fun l =>
      (pure (fromUtf8Lossy l) : Attempt σ MirageError String)) fun _ => Outcome.pure _
    refine h.congr ?_ fun name => ?_
    · simp only [hin, and_self, not_true_eq_false, or_self]
    · simp [hin]

theorem importName_outcome :
    Outcome (importName (translateIn bytes) bytes entry : Attempt σ MirageError String)
      (NameFaults bytes entry) (NameIs bytes entry) := by
  have htake : ∀ start, (bytes.drop start).take (bytes.length - start) = bytes.drop start := by
    intro start
    rw [← List.length_drop, List.take_length]
  refine (offsetOr_outcome.bind fun hint _ => Outcome.sum fun _ => Outcome.slice fun h => by
    rw [htake]
    exact terminated_outcome h.1).congr ?_ fun name => ?_
  · apply or_congr Iff.rfl
    apply exists_congr
    intro hint
    apply and_congr_right
    intro hh
    have := hh.lt
    constructor
    · rintro (h | h | h)
      · omega
      · omega
      · exact h.elim
    · intro h
      exact Or.inr (Or.inl (by omega))
  · apply exists_congr
    intro hint
    apply and_congr_right
    intro hh
    have := hh.lt
    constructor
    · rintro ⟨-, ⟨h, -⟩, hname⟩
      exact ⟨h, hname⟩
    · rintro ⟨h, hname⟩
      exact ⟨by omega, ⟨h, le_rfl⟩, hname⟩

/-- A turn of the inner loop that reads an entry to be resolved by name. -/
def Named (bytes : List UInt8) (c : EntryCursor) : Prop :=
  c.imports.length < maxImports ∧ c.names + 8 ≤ bytes.length ∧ field bytes c.names 8 ≠ 0 ∧
    field bytes c.names 8 &&& 1 <<< 63 = 0

/-- The entry's name faults, or the RVA of the slot behind its own does not fit 32 bits. -/
def EntryFaults (bytes : List UInt8) (c : EntryCursor) : Prop :=
  Named bytes c ∧ (NameFaults bytes (field bytes c.names 8) ∨
    (∃ name, NameIs bytes (field bytes c.names 8) name) ∧ 2 ^ 32 ≤ c.slotRva + 8)

def EntryPasses (bytes : List UInt8) (c c' : EntryCursor) : Prop :=
  Named bytes c ∧ c.slotRva + 8 < 2 ^ 32 ∧ ∃ name, NameIs bytes (field bytes c.names 8) name ∧
    c' = ⟨c.names + 8, c.slotRva + 8, c.imports ++ [⟨name, c.slotRva⟩]⟩

def EntryDone (bytes : List UInt8) (c c' : EntryCursor) : Prop :=
  c.imports.length < maxImports ∧ c.names + 8 ≤ bytes.length ∧ field bytes c.names 8 = 0 ∧ c' = c

theorem importEntry_outcome {c : EntryCursor} (h64 : c.names + 8 < 2 ^ 64) :
    Outcome (importEntry (translateIn bytes) bytes c : Attempt σ MirageError _)
      (EntryFaults bytes c) (Turn (EntryPasses bytes) (EntryDone bytes) c) := by
  refine Outcome.congr (Outcome.ensure fun _ => uintAt_outcome h64 fun _ =>
    Outcome.ite (fun _ => Outcome.pure _) fun _ => Outcome.ensure fun _ =>
      importName_outcome.bind fun name _ => Outcome.sum fun _ => Outcome.sum fun _ =>
        Outcome.pure _) ?_ fun r => ?_
  · simp only [EntryFaults, Named, not_le.mpr h64, false_or, or_false, and_false,
      exists_and_right, ne_eq, and_assoc]
  · cases r with
    | done c' =>
      simp only [Turn, EntryDone, reduceCtorEq, and_false, exists_false, or_false,
        ForInStep.done.injEq]
    | yield c' =>
      simp only [Turn, EntryPasses, Named, h64, true_and, reduceCtorEq, and_false, false_or,
        ForInStep.yield.injEq, ne_eq, and_assoc]
      simp only [and_left_comm (b := c.slotRva + 8 < 2 ^ 32), exists_and_left]

theorem importEntries_outcome {n : ℕ} {c : EntryCursor} (h64 : c.names + n * 8 < 2 ^ 64) :
    Outcome (turns (importEntry (translateIn bytes) bytes) n c : Attempt σ MirageError _)
      (Faults (EntryPasses bytes) (EntryFaults bytes) n c)
      (Ends (EntryPasses bytes) (EntryDone bytes) n c) := by
  apply Outcome.turns (I := fun n c => c.names + n * 8 < 2 ^ 64)
  · rintro n c c' hc ⟨-, -, name, -, rfl⟩
    dsimp only
    omega
  · intro n c hc
    exact importEntry_outcome (by omega)
  · exact h64

def iatRva (bytes : List UInt8) (descriptor : ℕ) : ℕ := field bytes (descriptor + 16) 4

/-- Where a descriptor has the names that it wants. -/
def namesRva (bytes : List UInt8) (descriptor : ℕ) : ℕ :=
  if field bytes descriptor 4 ≠ 0 then field bytes descriptor 4 else iatRva bytes descriptor

def Terminator (bytes : List UInt8) (descriptor : ℕ) : Prop :=
  field bytes descriptor 4 = 0 ∧ field bytes (descriptor + 12) 4 = 0 ∧ iatRva bytes descriptor = 0

/-- The cursor at which the table of a descriptor begins. -/
def tableStart (bytes : List UInt8) (c : DescriptorCursor) (names : ℕ) : EntryCursor :=
  ⟨names, iatRva bytes c.descriptor, c.imports⟩

/-- The table's RVA has no offset that the code can compute, or one of its entries faults. -/
def DescriptorFaults (bytes : List UInt8) (c : DescriptorCursor) : Prop :=
  c.descriptor + 20 ≤ bytes.length ∧ ¬ Terminator bytes c.descriptor ∧
    (Untranslatable bytes (namesRva bytes c.descriptor) ∨
      ∃ names, Leads bytes (namesRva bytes c.descriptor) names ∧
        Faults (EntryPasses bytes) (EntryFaults bytes) maxImports (tableStart bytes c names))

def DescriptorPasses (bytes : List UInt8) (c c' : DescriptorCursor) : Prop :=
  c.descriptor + 20 ≤ bytes.length ∧ ¬ Terminator bytes c.descriptor ∧
    ∃ names, Leads bytes (namesRva bytes c.descriptor) names ∧
      ∃ last, Ends (EntryPasses bytes) (EntryDone bytes) maxImports (tableStart bytes c names) last ∧
        c' = ⟨c.descriptor + 20, last.imports⟩

def DescriptorDone (bytes : List UInt8) (c c' : DescriptorCursor) : Prop :=
  c.descriptor + 20 ≤ bytes.length ∧ Terminator bytes c.descriptor ∧ c' = c

theorem importDescriptor_outcome {c : DescriptorCursor} (h64 : c.descriptor + 20 < 2 ^ 64) :
    Outcome (importDescriptor (translateIn bytes) bytes c : Attempt σ MirageError _)
      (DescriptorFaults bytes c) (Turn (DescriptorPasses bytes) (DescriptorDone bytes) c) := by
  refine Outcome.congr (Outcome.sum fun _ => Outcome.ensure fun hin =>
    uintAt_outcome_of_le (by omega) (by omega) (uintAt_outcome_of_le (by omega) (by omega)
      (uintAt_outcome_of_le (by omega) (by omega) (Outcome.ite (fun _ => Outcome.pure _) fun _ =>
        offsetOr_outcome.bind fun names hn => (importEntries_outcome (by
          have := hn.lt
          simp only [maxImports]
          omega)).bind fun last _ => Outcome.pure _)))) ?_ fun r => ?_
  · simp only [not_le.mpr h64, false_or, and_false, exists_false, or_false]
    rfl
  · cases r with
    | done c' =>
      simp only [h64, true_and, reduceCtorEq, and_false, exists_false, or_false,
        ForInStep.done.injEq]
      rfl
    | yield c' =>
      simp only [h64, true_and, reduceCtorEq, and_false, false_or, ForInStep.yield.injEq]
      rfl

def directoryAt (bytes : List UInt8) (index : ℕ) : ℕ × ℕ :=
  if (headersOf bytes).directoryCount ≤ index then (0, 0)
  else (field bytes ((headersOf bytes).directories + index * 8) 4,
    field bytes ((headersOf bytes).directories + index * 8 + 4) 4)

def DirectoryOk (bytes : List UInt8) (index : ℕ) : Prop :=
  (headersOf bytes).directoryCount ≤ index ∨
    (headersOf bytes).directories + index * 8 + 8 ≤ bytes.length

theorem readDirectory_outcome {index : ℕ} (hi : index ≤ directoryBasereloc) :
    Outcome (readDirectory bytes (headersOf bytes) index : Attempt σ MirageError (ℕ × ℕ)) False
      (fun d => DirectoryOk bytes index ∧ d = directoryAt bytes index) := by
  have hlt : (headersOf bytes).directories = peOffset bytes + 24 + 112 := rfl
  have hpe := peOffset_lt bytes
  rw [directoryBasereloc] at hi
  refine Outcome.congr (Outcome.ite (fun _ => Outcome.pure _) fun _ =>
    uintAt_outcome (by omega) fun _ => uintAt_outcome (by omega) fun _ => Outcome.pure _) ?_
    fun d => ?_
  · simp
  · by_cases h : (headersOf bytes).directoryCount ≤ index
    · simp [DirectoryOk, directoryAt, h]
    · simp only [DirectoryOk, directoryAt, h, false_and, not_false_iff, true_and, false_or, if_false]
      constructor
      · rintro ⟨-, hin, hd⟩
        exact ⟨by omega, hd⟩
      · rintro ⟨hin, hd⟩
        exact ⟨by omega, by omega, hd⟩

theorem directoryAt_size_lt {index : ℕ} : (directoryAt bytes index).2 < 2 ^ 32 := by
  rw [directoryAt]
  split
  case isTrue => decide
  case isFalse => exact field_lt _ _ _

/-- The parser panics in the import directory `d`. -/
def ImportsFault (bytes : List UInt8) (d : ℕ × ℕ) : Prop :=
  d.1 ≠ 0 ∧ (Untranslatable bytes d.1 ∨ ∃ first, Leads bytes d.1 first ∧
    Faults (DescriptorPasses bytes) (DescriptorFaults bytes) maxImports ⟨first, []⟩)

/-- It reads these imports from it. -/
def ImportsAre (bytes : List UInt8) (d : ℕ × ℕ) (imports : List Import) : Prop :=
  d.1 = 0 ∧ imports = [] ∨ d.1 ≠ 0 ∧ ∃ first, Leads bytes d.1 first ∧
    ∃ last, Ends (DescriptorPasses bytes) (DescriptorDone bytes) maxImports ⟨first, []⟩ last ∧
      imports = last.imports

theorem parseImports_outcome {d : ℕ × ℕ} :
    Outcome (parseImports (translateIn bytes) bytes d : Attempt σ MirageError (List Import))
      (ImportsFault bytes d) (ImportsAre bytes d) := by
  have hloop : ∀ {n : ℕ} {c : DescriptorCursor}, c.descriptor + n * 20 < 2 ^ 64 →
      Outcome (turns (importDescriptor (translateIn bytes) bytes) n c : Attempt σ MirageError _)
        (Faults (DescriptorPasses bytes) (DescriptorFaults bytes) n c)
        (Ends (DescriptorPasses bytes) (DescriptorDone bytes) n c) := by
    intro n c hc
    apply Outcome.turns (I := fun n c => c.descriptor + n * 20 < 2 ^ 64)
    · rintro n c c' hc ⟨-, -, names, -, last, -, rfl⟩
      dsimp only
      omega
    · intro n c hc
      exact importDescriptor_outcome (by omega)
    · exact hc
  refine Outcome.congr (Outcome.ite (fun _ => Outcome.pure _) fun _ =>
    offsetOr_outcome.bind fun first hfirst => (hloop (by
      have := hfirst.lt
      simp only [maxImports]
      omega)).bind fun last _ => Outcome.pure _) ?_ fun imports => ?_
  · simp only [and_false, exists_false, or_false, false_or]
    rfl
  · rfl

end Imports

section Relocations

def relocationAt (bytes : List UInt8) (block index : ℕ) : ℕ := field bytes (block + 8 + index * 2) 2

theorem kinds_ne : imageRelBasedAbsolute ≠ imageRelBasedDir64 := by decide

/-- A turn of the loop over a block that reads an entry. -/
def Listed (bytes : List UInt8) (block : ℕ) (c : RelocationCursor) : Prop :=
  c.relocations.length < maxRelocations ∧ block + 8 + c.index * 2 + 2 ≤ bytes.length

/-- The place that the entry names, an offset in the page of its block. -/
def target (bytes : List UInt8) (block pageRva index : ℕ) : ℕ :=
  pageRva + (relocationAt bytes block index &&& 0x0FFF)

/-- A DIR64 entry whose place does not fit 32 bits. -/
def RelocationFaults (bytes : List UInt8) (block pageRva : ℕ) (c : RelocationCursor) : Prop :=
  Listed bytes block c ∧ relocationAt bytes block c.index >>> 12 = imageRelBasedDir64 ∧
    2 ^ 32 ≤ target bytes block pageRva c.index

def RelocationPasses (bytes : List UInt8) (block pageRva : ℕ) (c c' : RelocationCursor) : Prop :=
  Listed bytes block c ∧
    (relocationAt bytes block c.index >>> 12 = imageRelBasedAbsolute ∧
        c' = ⟨c.index + 1, c.relocations⟩ ∨
      relocationAt bytes block c.index >>> 12 = imageRelBasedDir64 ∧
        target bytes block pageRva c.index < 2 ^ 32 ∧
        c' = ⟨c.index + 1, c.relocations ++ [target bytes block pageRva c.index]⟩)

theorem relocationEntry_outcome {block pageRva : ℕ} {c : RelocationCursor}
    (h64 : block + 8 + c.index * 2 + 2 < 2 ^ 64) :
    Outcome (relocationEntry bytes block pageRva c : Attempt σ MirageError _)
      (RelocationFaults bytes block pageRva c)
      (Turn (RelocationPasses bytes block pageRva) (fun _ _ => False) c) := by
  refine Outcome.congr (Outcome.ensure fun _ => uintAt_outcome h64 fun _ =>
    Outcome.ite (fun _ => Outcome.pure _) fun _ => Outcome.ite (fun _ => Outcome.sum fun _ =>
      Outcome.pure _) fun _ => Outcome.throw) ?_ fun r => ?_
  · simp only [and_false, or_false, false_or]
    constructor
    · rintro ⟨hlen, hin, -, hkind, hlong⟩
      exact ⟨⟨hlen, hin⟩, hkind, hlong⟩
    · rintro ⟨⟨hlen, hin⟩, hkind, hlong⟩
      exact ⟨hlen, hin, fun h => kinds_ne (h.symm.trans hkind), hkind, hlong⟩
  · cases r with
    | done c' => simp only [Turn, reduceCtorEq, and_false, or_self]
    | yield c' =>
      simp only [ForInStep.yield.injEq, and_false, or_false]
      constructor
      · rintro ⟨hlen, hin, ⟨hkind, rfl⟩ | ⟨-, hkind, hshort, rfl⟩⟩
        · exact ⟨⟨hlen, hin⟩, Or.inl ⟨hkind, rfl⟩⟩
        · exact ⟨⟨hlen, hin⟩, Or.inr ⟨hkind, hshort, rfl⟩⟩
      · rintro ⟨⟨hlen, hin⟩, ⟨hkind, rfl⟩ | ⟨hkind, hshort, rfl⟩⟩
        · exact ⟨hlen, hin, Or.inl ⟨hkind, rfl⟩⟩
        · exact ⟨hlen, hin, Or.inr ⟨fun h => kinds_ne (h.symm.trans hkind), hkind, hshort, rfl⟩⟩

theorem relocationEntries_outcome {block pageRva n : ℕ} {c : RelocationCursor}
    (h64 : block + 8 + (c.index + n) * 2 + 2 < 2 ^ 64) :
    Outcome (turns (relocationEntry bytes block pageRva) n c : Attempt σ MirageError _)
      (Faults (RelocationPasses bytes block pageRva) (RelocationFaults bytes block pageRva) n c)
      (Ends (RelocationPasses bytes block pageRva) (fun _ _ => False) n c) := by
  apply Outcome.turns (I := fun n c => block + 8 + (c.index + n) * 2 + 2 < 2 ^ 64)
  · rintro n c c' hc ⟨-, ⟨-, rfl⟩ | ⟨-, -, rfl⟩⟩
    · dsimp only
      omega
    · dsimp only
      omega
  · intro n c hc
    exact relocationEntry_outcome (by omega)
  · exact h64

def blockSize (bytes : List UInt8) (block : ℕ) : ℕ := field bytes (block + 4) 4

/-- A turn of the loop over the blocks that finds one inside the directory. -/
def BlockAt (bytes : List UInt8) (stop : ℕ) (c : BlockCursor) : Prop :=
  c.block + 8 ≤ stop ∧ ¬ (blockSize bytes c.block < 8 ∨ c.block + blockSize bytes c.block > stop)

/-- One of the block's entries faults. -/
def BlockFaults (bytes : List UInt8) (stop : ℕ) (c : BlockCursor) : Prop :=
  BlockAt bytes stop c ∧ Faults (RelocationPasses bytes c.block (field bytes c.block 4))
    (RelocationFaults bytes c.block (field bytes c.block 4)) ((blockSize bytes c.block - 8) / 2)
    ⟨0, c.relocations⟩

def BlockPasses (bytes : List UInt8) (stop : ℕ) (c c' : BlockCursor) : Prop :=
  BlockAt bytes stop c ∧ ∃ last, Ends (RelocationPasses bytes c.block (field bytes c.block 4))
    (fun _ _ => False) ((blockSize bytes c.block - 8) / 2) ⟨0, c.relocations⟩ last ∧
      c' = ⟨c.block + blockSize bytes c.block, last.relocations⟩

def BlockDone (stop : ℕ) (c c' : BlockCursor) : Prop := stop < c.block + 8 ∧ c' = c

theorem relocationBlock_outcome {stop : ℕ} {c : BlockCursor} (hstop : stop ≤ bytes.length)
    (h64 : c.block + 2 ^ 33 < 2 ^ 64) :
    Outcome (relocationBlock bytes stop c : Attempt σ MirageError _) (BlockFaults bytes stop c)
      (Turn (BlockPasses bytes stop) (BlockDone stop) c) := by
  have hsize : field bytes (c.block + 4) 4 < 2 ^ 32 := field_lt _ _ _
  refine Outcome.congr (Outcome.sum fun _ => Outcome.ite (fun hle =>
    uintAt_outcome_of_le (by omega) (by omega) (uintAt_outcome_of_le (by omega) (by omega)
      (Outcome.ensure fun hin => (relocationEntries_outcome (by
        dsimp only
        omega)).bind fun last _ => Outcome.pure _))) fun _ => Outcome.pure _) ?_ fun r => ?_
  · simp only [show ¬ 2 ^ 64 ≤ c.block + 8 by omega, false_or, and_false, exists_false, or_false,
      BlockFaults, BlockAt, and_assoc]
    rfl
  · have h8 : c.block + 8 < 2 ^ 64 := by omega
    cases r with
    | done c' =>
      simp only [h8, true_and, reduceCtorEq, and_false, exists_false, false_or,
        ForInStep.done.injEq, not_le]
      rfl
    | yield c' =>
      simp only [h8, true_and, reduceCtorEq, and_false, or_false, ForInStep.yield.injEq, Turn,
        BlockPasses, BlockAt, and_assoc]
      rfl

/-- The parser panics in the relocation directory `d`. -/
def RelocationsFault (bytes : List UInt8) (d : ℕ × ℕ) : Prop :=
  ¬ (d.1 = 0 ∨ d.2 = 0) ∧ (Untranslatable bytes d.1 ∨
    ∃ start, Leads bytes d.1 start ∧ start + d.2 ≤ bytes.length ∧
      Faults (BlockPasses bytes (start + d.2)) (BlockFaults bytes (start + d.2)) d.2 ⟨start, []⟩)

/-- It reads these relocations from it. -/
def RelocationsAre (bytes : List UInt8) (d : ℕ × ℕ) (relocations : List ℕ) : Prop :=
  (d.1 = 0 ∨ d.2 = 0) ∧ relocations = [] ∨ ¬ (d.1 = 0 ∨ d.2 = 0) ∧
    ∃ start, Leads bytes d.1 start ∧ start + d.2 ≤ bytes.length ∧
      ∃ last, Ends (BlockPasses bytes (start + d.2)) (BlockDone (start + d.2)) d.2 ⟨start, []⟩ last ∧
        relocations = last.relocations

/-- The loop over the blocks has not run out of turns: behind its last block there is no room for
another. -/
theorem blocks_end {stop n : ℕ} {c last : BlockCursor} (hroom : stop ≤ c.block + n * 8)
    (h : Ends (BlockPasses bytes stop) (BlockDone stop) n c last) : stop < last.block + 8 := by
  induction h with
  | out => omega
  | done hd =>
    obtain ⟨h, rfl⟩ := hd
    exact h
  | later hy _ ih =>
    obtain ⟨⟨h8, hsize⟩, last, -, rfl⟩ := hy
    apply ih
    dsimp only
    omega

theorem parseRelocations_outcome {d : ℕ × ℕ} (hd : d.2 < 2 ^ 32) :
    Outcome (parseRelocations (translateIn bytes) bytes d : Attempt σ MirageError (List ℕ))
      (RelocationsFault bytes d) (RelocationsAre bytes d) := by
  have hloop : ∀ {start : ℕ}, start < 2 ^ 33 → start + d.2 ≤ bytes.length →
      Outcome (turns (relocationBlock bytes (start + d.2)) d.2 ⟨start, []⟩ :
        Attempt σ MirageError _)
        (Faults (BlockPasses bytes (start + d.2)) (BlockFaults bytes (start + d.2)) d.2 ⟨start, []⟩)
        (Ends (BlockPasses bytes (start + d.2)) (BlockDone (start + d.2)) d.2 ⟨start, []⟩) := by
    intro start hs hin
    apply Outcome.turns (I := fun _ c => c.block ≤ start + d.2)
    · rintro n c c' - ⟨⟨-, hsize⟩, last, -, rfl⟩
      dsimp only
      omega
    · intro n c hc
      exact relocationBlock_outcome hin (by omega)
    · exact Nat.le_add_right _ _
  refine Outcome.congr (Outcome.ite (fun _ => Outcome.pure _) fun _ =>
    offsetOr_outcome.bind fun start hs => Outcome.ensure fun hin =>
      (hloop hs.lt hin.2).bind fun last _ => Outcome.pure _) ?_ fun relocations => ?_
  · simp only [and_false, exists_false, or_false, false_or]
    apply and_congr_right
    intro _
    apply or_congr_right
    apply exists_congr
    intro start
    apply and_congr_right
    intro hs
    have := hs.lt
    exact and_congr_left fun _ => ⟨And.right, fun h => ⟨by omega, h⟩⟩
  · apply or_congr_right
    apply and_congr_right
    intro _
    apply exists_congr
    intro start
    apply and_congr_right
    intro hs
    have := hs.lt
    exact and_congr_left fun _ => ⟨And.right, fun h => ⟨by omega, h⟩⟩

end Relocations

/-- The walk comes to a sum or a slice that nothing guards: in the import directory, or behind it
in the relocations. -/
def Unguarded (bytes : List UInt8) : Prop :=
  LayoutOk bytes ∧ DirectoryOk bytes directoryImport ∧
    (ImportsFault bytes (directoryAt bytes directoryImport) ∨
      (∃ imports, ImportsAre bytes (directoryAt bytes directoryImport) imports) ∧
        DirectoryOk bytes directoryBasereloc ∧
        RelocationsFault bytes (directoryAt bytes directoryBasereloc))

def ImageIs (bytes : List UInt8) (image : Image) : Prop :=
  LayoutOk bytes ∧ DirectoryOk bytes directoryImport ∧ DirectoryOk bytes directoryBasereloc ∧
    ImportsAre bytes (directoryAt bytes directoryImport) image.imports ∧
    RelocationsAre bytes (directoryAt bytes directoryBasereloc) image.relocations ∧
    image.entryRva = (headersOf bytes).entryRva ∧
    image.preferredBase = (headersOf bytes).preferredBase ∧
    image.imageSize = (headersOf bytes).imageSize ∧
    image.headersSize = (headersOf bytes).headersSize ∧ image.sections = sectionsOf bytes

theorem readHeaders_outcome :
    Outcome (readHeaders bytes : Attempt σ MirageError Headers) False
      (fun h => HeadersOk bytes ∧ h = headersOf bytes) := by
  by_cases h : HeadersOk bytes
  · exact ((Outcome.pure _).of_run fun _ => readHeaders_ok h).congr Iff.rfl fun _ => by simp [h]
  · exact (Outcome.of_error fun _ => readHeaders_error h).congr Iff.rfl fun _ => by simp [h]

theorem readSections_outcome (hh : HeadersOk bytes) :
    Outcome ((List.range (headersOf bytes).sectionCount).foldlM
        (readSection bytes (headersOf bytes)) [] : Attempt σ MirageError (List Section)) False
      (fun sections => LayoutOk bytes ∧ sections = sectionsOf bytes) := by
  by_cases h : LayoutOk bytes
  · exact ((Outcome.pure _).of_run fun _ => readSections_ok h).congr Iff.rfl fun _ => by simp [h]
  · exact (Outcome.of_error fun _ => readSections_error hh fun hs => h ⟨hh, hs⟩).congr Iff.rfl
      fun _ => by simp [h]

theorem parse_outcome :
    Outcome (parse bytes : Attempt σ MirageError Image) (Unguarded bytes) (ImageIs bytes) := by
  refine Outcome.congr (readHeaders_outcome.bind_value fun hh =>
    (readSections_outcome hh).bind_value fun _ => (readDirectory_outcome (by decide)).bind_value
      fun _ => parseImports_outcome.bind fun imports _ => (readDirectory_outcome le_rfl).bind_value
        fun _ => (parseRelocations_outcome directoryAt_size_lt).bind fun relocations _ =>
          Outcome.pure _) ?_ fun image => ?_
  · simp only [false_or, and_false, exists_false, or_false, exists_and_right]
    constructor
    · rintro ⟨-, h⟩
      exact h
    · intro h
      exact ⟨h.1.headers, h⟩
  · constructor
    · rintro ⟨-, hlayout, hi, imports, himports, hr, relocations, hrelocations, rfl⟩
      exact ⟨hlayout, hi, hr, himports, hrelocations, rfl, rfl, rfl, rfl, rfl⟩
    · rintro ⟨hlayout, hi, hr, himports, hrelocations, hentry, hbase, hsize, hheaders, hsections⟩
      cases image
      dsimp only at hentry hbase hsize hheaders hsections
      subst hentry hbase hsize hheaders hsections
      exact ⟨hlayout.headers, hlayout, hi, _, himports, hr, _, hrelocations, rfl⟩

section Bounds

/-- The bounds that a parsed image keeps. -/
structure Bounded (image : Image) : Prop where
  size : 0 < image.imageSize ∧ image.imageSize ≤ 512 * 1024 * 1024
  entry : image.entryRva < 2 ^ 32
  headers : image.headersSize < 2 ^ 32
  sections : ∀ t ∈ image.sections, t.virtualAddress + max t.virtualSize 1 ≤ image.imageSize ∧
    t.rawSize < 2 ^ 32
  slots : ∀ i ∈ image.imports, i.iatRva < 2 ^ 32
  relocations : ∀ rva ∈ image.relocations, rva < 2 ^ 32

def SlotsFit (imports : List Import) : Prop := ∀ i ∈ imports, i.iatRva < 2 ^ 32

theorem EntryPasses.slotsFit {c c' : EntryCursor} (h : EntryPasses bytes c c')
    (hc : c.slotRva < 2 ^ 32 ∧ SlotsFit c.imports) :
    c'.slotRva < 2 ^ 32 ∧ SlotsFit c'.imports := by
  obtain ⟨-, hslot, name, -, rfl⟩ := h
  refine ⟨hslot, fun i hi => ?_⟩
  rcases List.mem_append.mp hi with hi | hi
  · exact hc.2 i hi
  · obtain rfl := List.mem_singleton.mp hi
    exact hc.1

theorem DescriptorPasses.slotsFit {c c' : DescriptorCursor} (h : DescriptorPasses bytes c c')
    (hc : SlotsFit c.imports) : SlotsFit c'.imports := by
  obtain ⟨-, -, names, -, last, hlast, rfl⟩ := h
  refine (hlast.keeps (I := fun c => c.slotRva < 2 ^ 32 ∧ SlotsFit c.imports)
    (fun b c hb hy => hy.slotsFit hb) ?_ ⟨field_lt _ _ _, hc⟩).2
  rintro b c hb ⟨-, -, -, rfl⟩
  exact hb

theorem ImportsAre.slotsFit {d : ℕ × ℕ} {imports : List Import} (h : ImportsAre bytes d imports) :
    SlotsFit imports := by
  rcases h with ⟨-, rfl⟩ | ⟨-, first, -, last, hlast, rfl⟩
  · exact fun i hi => by simp at hi
  · refine hlast.keeps (I := fun c => SlotsFit c.imports) (fun b c hb hy => hy.slotsFit hb) ?_
      (fun i hi => by simp at hi)
    rintro b c hb ⟨-, -, rfl⟩
    exact hb

theorem RelocationPasses.fit {block pageRva : ℕ} {c c' : RelocationCursor}
    (h : RelocationPasses bytes block pageRva c c') (hc : ∀ rva ∈ c.relocations, rva < 2 ^ 32) :
    ∀ rva ∈ c'.relocations, rva < 2 ^ 32 := by
  obtain ⟨-, ⟨-, rfl⟩ | ⟨-, hlt, rfl⟩⟩ := h
  · exact hc
  · intro rva hr
    rcases List.mem_append.mp hr with hr | hr
    · exact hc rva hr
    · exact List.mem_singleton.mp hr ▸ hlt

theorem RelocationsAre.fit {d : ℕ × ℕ} {relocations : List ℕ}
    (h : RelocationsAre bytes d relocations) : ∀ rva ∈ relocations, rva < 2 ^ 32 := by
  rcases h with ⟨-, rfl⟩ | ⟨-, start, -, -, last, hlast, rfl⟩
  · exact fun rva hr => by simp at hr
  · refine hlast.keeps (I := fun c => ∀ rva ∈ c.relocations, rva < 2 ^ 32) ?_ ?_
      (fun rva hr => by simp at hr)
    · rintro b c hb ⟨-, entries, hentries, rfl⟩
      exact hentries.keeps (I := fun c => ∀ rva ∈ c.relocations, rva < 2 ^ 32)
        (fun _ _ hc hy => hy.fit hc) (fun _ _ _ hd => hd.elim) hb
    · rintro b c hb ⟨-, rfl⟩
      exact hb

theorem ImageIs.bounded {image : Image} (h : ImageIs bytes image) : Bounded image := by
  obtain ⟨hlayout, -, -, himports, hrelocations, hentry, -, hsize, hheaders, hsections⟩ := h
  constructor
  · have := hlayout.headers.image
    omega
  · rw [hentry]
    exact field_lt _ _ _
  · rw [hheaders]
    exact field_lt _ _ _
  · intro t ht
    rw [hsections] at ht
    obtain ⟨i, hi, rfl⟩ := List.mem_map.mp ht
    rw [hsize]
    exact ⟨(hlayout.sections i (List.mem_range.mp hi)).memory, field_lt _ _ _⟩
  · exact himports.slotsFit
  · exact hrelocations.fit

end Bounds

theorem ImageIs.unique {image image' : Image} (h : ImageIs bytes image)
    (h' : ImageIs bytes image') : image = image' := by
  have hrun := (parse_outcome (σ := Unit)).returns image h ()
  rw [parse_outcome.returns image' h' ()] at hrun
  simpa using hrun.symm

/-- The parser panics on no file but one whose import or relocation directory leads it to a sum
that does not fit, or to a hint that ends behind the file. -/
theorem pe_panic_free_iff (bytes : List UInt8) (s : σ) :
    (parse bytes).run s ≠ none ↔ ¬ Unguarded bytes :=
  not_congr parse_outcome.run_none

/-- A relocation block for the last byte of the 32-bit range, with an entry one byte behind it. -/
def wrappingImage : List UInt8 :=
  encode 0 4096 260 [(0, 0), (0, 0), (0, 0), (0, 0), (0, 0), (248, 12)] []
    (toBytes 4 0xFFFFFFFF ++ toBytes 4 12 ++ toBytes 2 0xA001 ++ toBytes 2 0)

theorem wrappingImage_panics : ¬ ∀ bytes : List UInt8, (parse bytes).run () ≠ none := by
  intro h
  apply h wrappingImage
  decide +kernel

end PeParser
