import NajmKernel.PathTrees

/-! What the build script packs, and how the kernel reads the entries of an archive that it
packed. -/
namespace FileSystem

open Attempts Attempt LittleEndian Utf8

section Blocks

variable {bytes block a b : List UInt8} {blocks : List (List UInt8)} {start i k w width : ℕ}

/-- Of blocks of one width, each is found where it was put. -/
theorem block_at (h : ∀ b ∈ blocks, b.length = w) (hi : i < blocks.length) :
    (blocks.flatten.drop (i * w)).take w = blocks[i] := by
  induction blocks generalizing i with
  | nil => nomatch hi
  | cons b blocks ih =>
    have hb := h b List.mem_cons_self
    cases i with
    | zero => rw [Nat.zero_mul, List.drop_zero, List.flatten_cons, List.take_left' hb]; rfl
    | succ i =>
      have hrest := ih (fun c hc => h c (List.mem_cons_of_mem b hc)) (Nat.lt_of_succ_lt_succ hi)
      rw [List.flatten_cons, Nat.succ_mul, Nat.add_comm, ← List.drop_drop, List.drop_left' hb]
      exact hrest

theorem length_flatten_blocks (h : ∀ b ∈ blocks, b.length = w) :
    blocks.flatten.length = blocks.length * w := by
  induction blocks with
  | nil => simp
  | cons b blocks ih =>
    rw [List.flatten_cons, List.length_append, h b List.mem_cons_self,
      ih fun c hc => h c (List.mem_cons_of_mem b hc), List.length_cons, Nat.succ_mul, Nat.add_comm]

/-- The bytes of a field. -/
def part (bytes : List UInt8) (start width : ℕ) : List UInt8 := (bytes.drop start).take width

/-- A field of a block, read where the block lies. -/
theorem part_block (hblock : part bytes start w = block) (k width : ℕ) (h : k + width ≤ w) :
    part bytes (start + k) width = part block k width := by
  rw [part, part, ← hblock, part, List.drop_take, List.take_take, List.drop_drop,
    Nat.min_eq_left (by omega)]

theorem part_append_right (h : a.length = k) (i width : ℕ) :
    part (a ++ b) (k + i) width = part b i width := by
  rw [part, part, ← h, List.drop_append, List.drop_eq_nil_of_le (Nat.le_add_right _ _),
    List.nil_append, Nat.add_sub_cancel_left]

theorem part_append_left (h : a.length = width) : part (a ++ b) 0 width = a := by
  rw [part, List.drop_zero, List.take_left' h]

end Blocks

section Encoding

variable {path : String} {isDirectory : Bool} {place : ℕ × ℕ}

/-- The entry that a path becomes in the table. -/
def entryOf (path : String) (isDirectory : Bool) (place : ℕ × ℕ) : Entry :=
  ⟨place.1, place.2, if isDirectory then flagDirectory else 0, (utf8 path).length, utf8 path⟩

theorem encodeEntry_eq (h : (utf8 path).length ≤ maxPath) : encodeEntry path isDirectory place =
    toBytes 8 place.1 ++ (toBytes 8 place.2 ++
      (toBytes 4 (if isDirectory then flagDirectory else 0) ++
      (toBytes 4 (utf8 path).length ++ (utf8 path ++
        List.replicate (maxPath - (utf8 path).length) 0)))) := by
  have hlength : (toBytes 8 place.1 ++ toBytes 8 place.2 ++
      toBytes 4 (if isDirectory then flagDirectory else 0) ++ toBytes 4 (utf8 path).length ++
      utf8 path).length = 24 + (utf8 path).length := by
    simp only [List.length_append, length_toBytes]
  have hsize : entrySize = 24 + maxPath := rfl
  rw [encodeEntry]
  simp only [hlength]
  rw [List.take_of_length_le (by omega), hsize, Nat.add_sub_add_left]
  simp only [List.append_assoc]

theorem length_encodeEntry (h : (utf8 path).length ≤ maxPath) :
    (encodeEntry path isDirectory place).length = entrySize := by
  have hsize : entrySize = 24 + maxPath := rfl
  rw [encodeEntry_eq h]
  simp only [List.length_append, length_toBytes, List.length_replicate]
  omega

/-- What is read of an encoded entry is what was put there. -/
theorem entryAt_encoded {bytes : List UInt8} {index : ℕ} (h : (utf8 path).length ≤ maxPath)
    (hplace : place.1 < 2 ^ 64 ∧ place.2 < 2 ^ 64)
    (hblock : part bytes (headerSize + index * entrySize) entrySize =
      encodeEntry path isDirectory place) :
    entryAt bytes index = entryOf path isDirectory place := by
  have hmax : maxPath = 120 := rfl
  have hsize : entrySize = 144 := rfl
  rw [encodeEntry_eq h] at hblock
  have hread := part_block hblock
  have hoffset : field bytes (headerSize + index * entrySize) 8 = place.1 := by
    refine (congrArg ofBytes ((hread 0 8 (by omega)).trans ?_)).trans
      (ofBytes_toBytes_of_lt (w := 8) (lt_of_lt_of_eq hplace.1 (by norm_num)))
    exact part_append_left (length_toBytes _ _)
  have hlen : field bytes (headerSize + index * entrySize + 8) 8 = place.2 := by
    refine (congrArg ofBytes ((hread 8 8 (by omega)).trans ?_)).trans
      (ofBytes_toBytes_of_lt (w := 8) (lt_of_lt_of_eq hplace.2 (by norm_num)))
    exact (part_append_right (length_toBytes 8 _) 0 8).trans
      (part_append_left (length_toBytes _ _))
  have hflags : field bytes (headerSize + index * entrySize + 16) 4 =
      if isDirectory then flagDirectory else 0 := by
    refine (congrArg ofBytes ((hread 16 4 (by omega)).trans ?_)).trans
      (ofBytes_toBytes_of_lt (w := 4) ?_)
    · exact (part_append_right (length_toBytes 8 _) 8 4).trans
        ((part_append_right (length_toBytes 8 _) 0 4).trans
          (part_append_left (length_toBytes _ _)))
    · split <;> decide
  have hpathLen : field bytes (headerSize + index * entrySize + 20) 4 = (utf8 path).length := by
    refine (congrArg ofBytes ((hread 20 4 (by omega)).trans ?_)).trans
      (ofBytes_toBytes_of_lt (w := 4) (by omega))
    exact (part_append_right (length_toBytes 8 _) 12 4).trans
      ((part_append_right (length_toBytes 8 _) 4 4).trans
        ((part_append_right (length_toBytes 4 _) 0 4).trans
          (part_append_left (length_toBytes _ _))))
  have hpath : part bytes (headerSize + index * entrySize + 24) (utf8 path).length =
      utf8 path := by
    refine (hread 24 _ (by omega)).trans ?_
    exact (part_append_right (length_toBytes 8 _) 16 _).trans
      ((part_append_right (length_toBytes 8 _) 8 _).trans
        ((part_append_right (length_toBytes 4 _) 4 _).trans
          ((part_append_right (length_toBytes 4 _) 0 _).trans (part_append_left rfl))))
  rw [entryAt, entryOf, hoffset, hlen, hflags, hpathLen]
  exact congrArg _ hpath

end Encoding

section Layouts

variable {contents : Contents} {start : ℕ} {path : String} {data : List UInt8} {place : ℕ × ℕ}

theorem length_layOut (start : ℕ) (contents : Contents) :
    (layOut start contents).length = contents.length := by
  induction contents generalizing start with
  | nil => rfl
  | cons entry contents ih =>
    obtain ⟨path, _ | data⟩ := entry
    · rw [layOut, List.length_cons, List.length_cons, ih]
    · rw [layOut, List.length_cons, List.length_cons, ih]

theorem place_of_directory (h : ((path, none), place) ∈ contents.zip (layOut start contents)) :
    place = (0, 0) := by
  induction contents generalizing start with
  | nil => nomatch h
  | cons entry contents ih =>
    obtain ⟨name, _ | data⟩ := entry
    · rw [layOut, List.zip_cons_cons, List.mem_cons] at h
      obtain h | h := h
      · exact (Prod.mk.inj h).2
      · exact ih h
    · rw [layOut, List.zip_cons_cons, List.mem_cons] at h
      obtain h | h := h
      · nomatch h
      · exact ih h

/-- A file's data lies in the blob, where its entry says. -/
theorem place_of_file (h : ((path, some data), place) ∈ contents.zip (layOut start contents)) :
    start ≤ place.1 ∧ place.1 + place.2 ≤ start + (blob contents).length ∧
      place.2 = data.length ∧ part (blob contents) (place.1 - start) place.2 = data := by
  induction contents generalizing start with
  | nil => nomatch h
  | cons entry contents ih =>
    obtain ⟨name, _ | bytes⟩ := entry
    · rw [layOut, List.zip_cons_cons, List.mem_cons] at h
      obtain h | h := h
      · nomatch h
      · exact ih h
    · have hblob : blob ((name, some bytes) :: contents) = bytes ++ blob contents := rfl
      rw [layOut, List.zip_cons_cons, List.mem_cons] at h
      obtain h | h := h
      · obtain ⟨hentry, rfl⟩ := Prod.mk.inj h
        obtain rfl := Option.some.inj (Prod.mk.inj hentry).2
        rw [hblob, List.length_append, Nat.sub_self]
        exact ⟨Nat.le_refl _, by dsimp only; omega, rfl, part_append_left rfl⟩
      · obtain ⟨hstart, hend, hlength, hdata⟩ := ih h
        rw [hblob, List.length_append]
        refine ⟨by omega, by omega, hlength, ?_⟩
        rw [show place.1 - start = bytes.length + (place.1 - (start + bytes.length)) by omega,
          part_append_right rfl, hdata]

end Layouts

section Packing

variable {files : List (String × List UInt8)} {contents contents' : Contents}
  {directories directories' : List String} {bytes : List UInt8} {p d : String} {turns : ℕ}
  {σ ε : Type} {s s' : σ}

theorem utf8_of_fromUtf8 {cs : List Char} (h : fromUtf8 (utf8 d) = some cs) :
    String.ofList cs = d := by
  apply utf8_inj
  rw [utf8_ofList, encode_fromUtf8 h]

/-- The directories above a path are its parent and those above it. -/
theorem isAncestor_iff (h : IsParent d p) (e : String) :
    IsAncestor e p ↔ e = d ∨ IsAncestor e d := by
  rw [IsAncestor, Relation.TransGen.tail'_iff]
  constructor
  · rintro ⟨q, hq, hparent⟩
    rw [isParent_unique hparent h, Relation.reflTransGen_iff_eq_or_transGen] at hq
    exact hq.imp Eq.symm id
  · intro he
    refine ⟨d, ?_, h⟩
    rw [Relation.reflTransGen_iff_eq_or_transGen]
    exact he.imp Eq.symm id

theorem not_isAncestor (h : parentOf (utf8 p) = none) : ¬ IsAncestor d p := by
  rw [IsAncestor, Relation.TransGen.tail'_iff]
  rintro ⟨q, -, hparent⟩
  rw [IsParent, h] at hparent
  cases hparent

/-- The loop up from a path collects the directories above it. -/
theorem insertParents_ok (hturns : (utf8 p).length ≤ turns)
    (h : (insertParents turns (utf8 p) directories : Attempt σ ε _).run s =
      some (.ok directories', s')) :
    s' = s ∧ (∀ d, d ∈ directories' ↔ d ∈ directories ∨ IsAncestor d p) ∧
      (directories.Nodup → directories'.Nodup) := by
  induction turns generalizing p directories with
  | zero =>
    obtain ⟨hd, rfl⟩ := Prod.mk.inj (Option.some.inj h)
    obtain rfl := Except.ok.inj hd
    have hempty : utf8 p = [] := List.length_eq_zero_iff.mp (Nat.le_zero.mp hturns)
    have hnone : parentOf (utf8 p) = none := by rw [hempty]; rfl
    exact ⟨rfl, fun d => by simp [not_isAncestor hnone], id⟩
  | succ turns ih =>
    rw [insertParents] at h
    cases hparent : parentOf (utf8 p) with
    | none =>
      rw [hparent] at h
      obtain ⟨hd, rfl⟩ := Prod.mk.inj (Option.some.inj h)
      obtain rfl := Except.ok.inj hd
      exact ⟨rfl, fun d => by simp [not_isAncestor hparent], id⟩
    | some parent =>
      obtain ⟨q, rfl⟩ := exists_parent hparent
      rw [hparent] at h
      dsimp only at h
      cases htext : fromUtf8 (utf8 q) with
      | none =>
        rw [htext] at h
        nomatch h
      | some text =>
        rw [htext] at h
        dsimp only at h
        rw [utf8_of_fromUtf8 htext] at h
        have hmem (d : String) : d ∈ (if q ∈ directories then directories
            else directories.orderedInsert (· ≤ ·) q) ↔ d ∈ directories ∨ d = q := by
          split
          next hq =>
            constructor
            · exact Or.inl
            · rintro (hd | rfl)
              · exact hd
              · exact hq
          · rw [List.mem_orderedInsert, or_comm]
        have hnodup (hd : directories.Nodup) : (if q ∈ directories then directories
            else directories.orderedInsert (· ≤ ·) q).Nodup := by
          split
          · exact hd
          next hq =>
            exact (List.perm_orderedInsert _ _ _).nodup_iff.mpr (List.nodup_cons.mpr ⟨hq, hd⟩)
        by_cases hroot : q = "/"
        · rw [if_pos hroot] at h
          obtain ⟨hd, rfl⟩ := Prod.mk.inj (Option.some.inj h)
          obtain rfl := Except.ok.inj hd
          refine ⟨rfl, fun d => ?_, hnodup⟩
          have hnone : ¬ IsAncestor d q := not_isAncestor (by rw [hroot]; rfl)
          rw [hmem, isAncestor_iff hparent]
          simp [hnone]
        · rw [if_neg hroot] at h
          have hshort := isParent_shorter hparent
          obtain ⟨rfl, hall, hkeeps⟩ := ih (by omega) h
          refine ⟨rfl, fun d => ?_, fun hd => hkeeps (hnodup hd)⟩
          rw [hall, hmem, isAncestor_iff hparent, or_assoc]

theorem directories_ok (h : (files.foldlM (fun directories file =>
      insertParents (utf8 file.1).length (utf8 file.1) directories) directories :
        Attempt σ ε _).run s = some (.ok directories', s')) :
    s' = s ∧ (∀ d, d ∈ directories' ↔ d ∈ directories ∨ ∃ f ∈ files, IsAncestor d f.1) ∧
      (directories.Nodup → directories'.Nodup) := by
  induction files generalizing directories s with
  | nil =>
    obtain ⟨hd, rfl⟩ := Prod.mk.inj (Option.some.inj h)
    obtain rfl := Except.ok.inj hd
    exact ⟨rfl, fun d => by simp, id⟩
  | cons file files ih =>
    rw [List.foldlM_cons, run_bind_ok] at h
    obtain ⟨middle, u, hfirst, hrest⟩ := h
    obtain ⟨rfl, hmem, hnodup⟩ := insertParents_ok (Nat.le_refl _) hfirst
    obtain ⟨rfl, hmem', hnodup'⟩ := ih hrest
    refine ⟨rfl, fun d => ?_, fun hd => hnodup' (hnodup hd)⟩
    rw [hmem', hmem, or_assoc, List.exists_mem_cons_iff]

theorem insertFile_ok {file : String × List UInt8}
    (h : (insertFile contents file : Attempt σ ε _).run s = some (.ok contents', s')) :
    s' = s ∧ ValidPath file.1 ∧ file.1 ∉ contents.map Prod.fst ∧
      contents'.Perm ((file.1, some file.2) :: contents) := by
  rw [insertFile, run_demand_bind] at h
  obtain ⟨hvalid, h⟩ := Option.ite_none_right_eq_some.mp h
  rw [run_demand_bind] at h
  obtain ⟨hnew, h⟩ := Option.ite_none_right_eq_some.mp h
  obtain ⟨hc, rfl⟩ := Prod.mk.inj (Option.some.inj h)
  obtain rfl := Except.ok.inj hc
  exact ⟨rfl, hvalid, hnew, insertNew_perm _ _ _⟩

theorem insertFiles_ok
    (h : (files.foldlM insertFile contents : Attempt σ ε _).run s = some (.ok contents', s')) :
    s' = s ∧ (∀ f ∈ files, ValidPath f.1) ∧
      contents'.Perm (files.map (fun f => (f.1, some f.2)) ++ contents) ∧
      ((contents.map Prod.fst).Nodup → (contents'.map Prod.fst).Nodup) := by
  induction files generalizing contents s with
  | nil =>
    obtain ⟨hc, rfl⟩ := Prod.mk.inj (Option.some.inj h)
    obtain rfl := Except.ok.inj hc
    exact ⟨rfl, nofun, List.Perm.refl _, id⟩
  | cons file files ih =>
    rw [List.foldlM_cons, run_bind_ok] at h
    obtain ⟨middle, u, hfirst, hrest⟩ := h
    obtain ⟨rfl, hvalid, hnew, hperm⟩ := insertFile_ok hfirst
    obtain ⟨rfl, hall, hperm', hnodup⟩ := ih hrest
    refine ⟨rfl, List.forall_mem_cons.mpr ⟨hvalid, hall⟩, ?_, fun hc => hnodup ?_⟩
    · exact hperm'.trans ((hperm.append_left _).trans List.perm_middle)
    · rw [(hperm.map Prod.fst).nodup_iff]
      exact List.nodup_cons.mpr ⟨hnew, hc⟩

/-- What an archive of some files holds: the files, and the directories above them. -/
structure Packed (files : List (String × List UInt8)) (contents : Contents) : Prop where
  file_iff : ∀ path data, (path, some data) ∈ contents ↔ (path, data) ∈ files
  directory_iff : ∀ path, (path, none) ∈ contents ↔ path = "/" ∨ ∃ f ∈ files, IsAncestor path f.1
  nodup : (contents.map Prod.fst).Nodup
  valid : ∀ f ∈ files, ValidPath f.1

def headerOf (contents : Contents) : List UInt8 :=
  let dataStart := headerSize + contents.length * entrySize
  archiveMagic ++ toBytes 4 archiveVersion ++ toBytes 4 contents.length ++
    toBytes 8 (dataStart + (blob contents).length)

def tableOf (contents : Contents) : List UInt8 :=
  (contents.zip (layOut (headerSize + contents.length * entrySize) contents)).flatMap
    fun (entry, place) => encodeEntry entry.1 entry.2.isNone place

theorem packed_of_folds {contents : Contents}
    (hdirectories : (files.foldlM (fun directories file =>
      insertParents (utf8 file.1).length (utf8 file.1) directories) ["/"] :
        Attempt σ ε _).run s = some (.ok directories, s'))
    (hcontents : (files.foldlM insertFile (directories.map fun directory => (directory, none)) :
      Attempt σ ε _).run s' = some (.ok contents, s')) : Packed files contents := by
  obtain ⟨-, hmem, hnodup⟩ := directories_ok hdirectories
  obtain ⟨-, hvalid, hperm, hkeys⟩ := insertFiles_ok hcontents
  refine ⟨fun path data => ?_, fun path => ?_, hkeys ?_, hvalid⟩
  · rw [hperm.mem_iff]
    simp
  · rw [hperm.mem_iff]
    simp [hmem]
  · have hkeep : directories.map (Prod.fst ∘ fun directory =>
        (directory, (none : Option (List UInt8)))) = directories := List.map_id _
    rw [List.map_map, hkeep]
    exact hnodup (List.nodup_singleton "/")

end Packing

section Decoding

variable {files : List (String × List UInt8)} {contents : Contents} {bytes : List UInt8} {i : ℕ}
  {p d : String} {σ ε : Type}

theorem validPath_ancestor (hp : ValidPath p) (h : IsAncestor d p) : ValidPath d := by
  induction h using Relation.TransGen.head_induction_on with
  | single hparent => exact validPath_parent hp hparent
  | head hparent _ ih => exact validPath_parent ih hparent

/-- Every path of the archive is valid. -/
theorem Packed.validPath (h : Packed files contents) {entry : String × Option (List UInt8)}
    (he : entry ∈ contents) : ValidPath entry.1 := by
  obtain ⟨path, _ | data⟩ := entry
  · obtain rfl | ⟨f, hf, hancestor⟩ := (h.directory_iff path).mp he
    · exact validPath_root
    · exact validPath_ancestor (h.valid f hf) hancestor
  · exact h.valid _ ((h.file_iff path data).mp he)

theorem validPath_length (h : ValidPath p) : (utf8 p).length ≤ maxPath := (validPath_iff.mp h).1

/-- The entries of the table, in their order. -/
def placed (contents : Contents) : List ((String × Option (List UInt8)) × ℕ × ℕ) :=
  contents.zip (layOut (headerSize + contents.length * entrySize) contents)

def entryOfPlaced (e : (String × Option (List UInt8)) × ℕ × ℕ) : Entry :=
  entryOf e.1.1 e.1.2.isNone e.2

theorem length_placed : (placed contents).length = contents.length := by
  rw [placed, List.length_zip, length_layOut, Nat.min_self]

theorem placed_entries : (placed contents).map Prod.fst = contents := by
  rw [placed, List.map_fst_zip]
  exact (length_layOut _ _).ge

theorem placed_names : (placed contents).map (fun e => e.1.1) = contents.map Prod.fst := by
  have hentries : (placed contents).map Prod.fst = contents := placed_entries
  have h := congrArg (List.map Prod.fst) hentries
  rwa [List.map_map] at h

theorem placed_mem {e : (String × Option (List UInt8)) × ℕ × ℕ} (h : e ∈ placed contents) :
    e.1 ∈ contents := by
  have := List.mem_map_of_mem (f := Prod.fst) h
  rwa [placed_entries] at this

theorem length_headerOf : (headerOf contents).length = headerSize := by
  simp only [headerOf, List.length_append, length_toBytes]
  rfl

/-- The blocks of the table. -/
theorem tableOf_eq : tableOf contents = ((placed contents).map fun e =>
    encodeEntry e.1.1 e.1.2.isNone e.2).flatten := by
  rw [tableOf, List.flatMap_def]
  rfl

theorem Packed.blocks (h : Packed files contents) : ∀ b ∈ (placed contents).map (fun e =>
    encodeEntry e.1.1 e.1.2.isNone e.2), b.length = entrySize := by
  intro b hb
  obtain ⟨e, he, rfl⟩ := List.mem_map.mp hb
  exact length_encodeEntry (validPath_length (h.validPath (placed_mem he)))

theorem Packed.length_tableOf (h : Packed files contents) :
    (tableOf contents).length = contents.length * entrySize := by
  rw [tableOf_eq, length_flatten_blocks h.blocks, List.length_map, length_placed]

/-- Where an entry says its data lies is within the archive. -/
theorem place_le {e : (String × Option (List UInt8)) × ℕ × ℕ} (h : e ∈ placed contents) :
    e.2.1 + e.2.2 ≤ headerSize + contents.length * entrySize + (blob contents).length := by
  obtain ⟨⟨path, _ | data⟩, place⟩ := e
  · rw [place_of_directory h]
    exact Nat.zero_le _
  · exact (place_of_file h).2.1

theorem Packed.entryAt (h : Packed files contents)
    (hsize : headerSize + contents.length * entrySize + (blob contents).length < 2 ^ 63)
    (hi : i < (placed contents).length) :
    FileSystem.entryAt (headerOf contents ++ tableOf contents ++ blob contents) i =
      entryOfPlaced (placed contents)[i] := by
  have hmem : (placed contents)[i] ∈ placed contents := List.getElem_mem hi
  have hplace := place_le hmem
  apply entryAt_encoded (validPath_length (h.validPath (placed_mem hmem))) (by omega)
  have hlength : i <
      ((placed contents).map fun e => encodeEntry e.1.1 e.1.2.isNone e.2).length := by
    rwa [List.length_map]
  have hblock := block_at h.blocks hlength
  rw [List.getElem_map, ← tableOf_eq] at hblock
  rw [length_placed] at hi
  have hend := h.length_tableOf
  have hbound : (i + 1) * entrySize ≤ contents.length * entrySize := Nat.mul_le_mul_right _ hi
  rw [Nat.succ_mul] at hbound
  rw [List.append_assoc, part_append_right length_headerOf, part,
    List.drop_append_of_le_length (by omega),
    List.take_append_of_le_length (by rw [List.length_drop]; omega)]
  exact hblock

/-- An archive, as its parts are written one behind the other. -/
def archiveOf (contents : Contents) : List UInt8 :=
  headerOf contents ++ tableOf contents ++ blob contents

theorem Packed.length_archiveOf (h : Packed files contents) : (archiveOf contents).length =
    headerSize + contents.length * entrySize + (blob contents).length := by
  rw [archiveOf, List.length_append, List.length_append, length_headerOf, h.length_tableOf]

theorem buildArchive_ok {s s' : σ}
    (h : (buildArchive files : Attempt σ ε _).run s = some (.ok bytes, s')) : ∃ contents,
      Packed files contents ∧
      headerSize + contents.length * entrySize + (blob contents).length < 2 ^ 63 ∧
      bytes = archiveOf contents := by
  rw [buildArchive, run_bind_ok] at h
  obtain ⟨directories, u, hdirectories, h⟩ := h
  rw [run_bind_ok] at h
  obtain ⟨contents, v, hcontents, h⟩ := h
  dsimp only at h
  rw [run_demand_bind] at h
  obtain ⟨hsize, h⟩ := Option.ite_none_right_eq_some.mp h
  rw [run_demand_bind] at h
  obtain ⟨-, h⟩ := Option.ite_none_right_eq_some.mp h
  obtain ⟨hbytes, -⟩ := Prod.mk.inj (Option.some.inj h)
  obtain ⟨rfl, -⟩ := insertFiles_ok hcontents
  exact ⟨contents, packed_of_folds hdirectories hcontents, hsize, (Except.ok.inj hbytes).symm⟩

/-- Where the loops end, the build is refused for its size only. -/
theorem buildArchive_of_folds {s : σ} {directories : List String}
    (hdirectories : (files.foldlM (fun directories file =>
      insertParents (utf8 file.1).length (utf8 file.1) directories) ["/"] :
        Attempt σ ε _).run s = some (.ok directories, s))
    (hcontents : (files.foldlM insertFile (directories.map fun directory => (directory, none)) :
      Attempt σ ε _).run s = some (.ok contents, s))
    (hsize : headerSize + contents.length * entrySize + (blob contents).length < 2 ^ 63) :
    (buildArchive files : Attempt σ ε _).run s = some (.ok (archiveOf contents), s) := by
  have hpacked := packed_of_folds hdirectories hcontents
  have htable : (headerOf contents ++ tableOf contents).length =
      headerSize + contents.length * entrySize := by
    rw [List.length_append, length_headerOf, hpacked.length_tableOf]
  rw [buildArchive, run_bind_of_ok hdirectories, run_bind_of_ok hcontents]
  dsimp only
  rw [run_demand_bind, if_pos hsize, run_demand_bind]
  exact if_pos htable

/-- The count of the entries is written as it fits in 32 bits. -/
theorem entryCount_archiveOf : entryCount (archiveOf contents) = contents.length % 2 ^ 32 := by
  have hcount : part (archiveOf contents) 12 4 = toBytes 4 contents.length := by
    rw [archiveOf, headerOf]
    simp only [List.append_assoc]
    exact (part_append_right (show archiveMagic.length = 8 from rfl) 4 4).trans
      ((part_append_right (length_toBytes 4 _) 0 4).trans (part_append_left (length_toBytes _ _)))
  refine (congrArg ofBytes hcount).trans ((ofBytes_toBytes 4 _).trans ?_)
  rfl

theorem Packed.headed (h : Packed files contents) : Headed (archiveOf contents) := by
  have hversion : part (archiveOf contents) 8 4 = toBytes 4 archiveVersion := by
    rw [archiveOf, headerOf]
    simp only [List.append_assoc]
    exact (part_append_right (show archiveMagic.length = 8 from rfl) 0 4).trans
      (part_append_left (length_toBytes _ _))
  have hmagic : part (archiveOf contents) 0 8 = archiveMagic := by
    rw [archiveOf, headerOf]
    simp only [List.append_assoc]
    exact part_append_left rfl
  have hcount := Nat.mul_le_mul_right entrySize (Nat.mod_le contents.length (2 ^ 32))
  have hlength := h.length_archiveOf
  refine ⟨by omega, hmagic, ?_, by rw [entryCount_archiveOf]; omega⟩
  refine (congrArg ofBytes hversion).trans (ofBytes_toBytes_of_lt ?_)
  decide

end Decoding

section Entries

variable {files : List (String × List UInt8)} {contents : Contents} {n : ℕ}
  {e : (String × Option (List UInt8)) × ℕ × ℕ}

theorem name_entryOfPlaced : (entryOfPlaced e).name = e.1.1 := fromUtf8Lossy_utf8 _

theorem node_entryOfPlaced : (entryOfPlaced e).node = ⟨e.2.1, e.2.2, e.1.2.isNone⟩ := by
  have hflag : (entryOfPlaced e).isDirectory = e.1.2.isNone := by
    have hflags : (entryOfPlaced e).flags = if e.1.2.isNone then flagDirectory else 0 := rfl
    rw [Entry.isDirectory, hflags]
    cases e.1.2.isNone
    · decide
    · decide
  rw [Entry.node, hflag]
  rfl

theorem Packed.entries_eq (h : Packed files contents)
    (hsize : headerSize + contents.length * entrySize + (blob contents).length < 2 ^ 63)
    (hn : n ≤ contents.length) :
    entries (archiveOf contents) n = ((placed contents).map entryOfPlaced).take n := by
  apply List.ext_getElem
  · rw [entries, List.length_map, List.length_range, List.length_take, List.length_map,
      length_placed, Nat.min_eq_left hn]
  · intro i hi _
    rw [entries, List.length_map, List.length_range] at hi
    have hplaced : i < (placed contents).length := by rw [length_placed]; omega
    simp only [entries, List.getElem_map, List.getElem_range, List.getElem_take]
    exact h.entryAt hsize hplaced

/-- Every entry that is packed passes the checks of the mount. -/
theorem Packed.sound (h : Packed files contents)
    (hsize : headerSize + contents.length * entrySize + (blob contents).length < 2 ^ 63)
    (he : e ∈ placed contents) : (entryOfPlaced e).Sound (archiveOf contents).length := by
  have hvalid := h.validPath (placed_mem he)
  refine ⟨validPath_length hvalid, hvalid, ?_⟩
  have hnode := node_entryOfPlaced (e := e)
  have hlen : (entryOfPlaced e).len = e.2.2 := rfl
  have hoffset : (entryOfPlaced e).offset = e.2.1 := rfl
  have hdirectory : (entryOfPlaced e).isDirectory = e.1.2.isNone := congrArg Node.isDirectory hnode
  have hplace := place_le he
  rw [Entry.Inside, hlen, hoffset, hdirectory, h.length_archiveOf]
  obtain ⟨⟨path, _ | data⟩, place⟩ := e
  · rw [place_of_directory he]
    rfl
  · exact ⟨by omega, hplace⟩

end Entries

end FileSystem
