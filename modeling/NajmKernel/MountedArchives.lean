import Mathlib.Data.List.Perm.Basic
import NajmKernel.Archives

/-! What mounting an archive comes to: the checks that its header and each entry of its table
pass, and the nodes that the entries become. -/
namespace FileSystem

open Attempts Attempt LittleEndian

section Entries

/-- An entry of the table, as its fields are read. -/
structure Entry where
  offset : ℕ
  len : ℕ
  flags : ℕ
  pathLen : ℕ
  path : List UInt8

def entryCount (bytes : List UInt8) : ℕ := field bytes 12 4

def entryAt (bytes : List UInt8) (index : ℕ) : Entry :=
  let start := headerSize + index * entrySize
  let pathLen := field bytes (start + 20) 4
  ⟨field bytes start 8, field bytes (start + 8) 8, field bytes (start + 16) 4, pathLen,
    (bytes.drop (start + 24)).take pathLen⟩

namespace Entry

def isDirectory (e : Entry) : Bool := e.flags &&& flagDirectory != 0

def name (e : Entry) : String := PeParser.fromUtf8Lossy e.path

def node (e : Entry) : Node := ⟨e.offset, e.len, e.isDirectory⟩

/-- A directory has no data; a file's lies within the archive. -/
def Inside (size : ℕ) (e : Entry) : Prop :=
  if e.isDirectory then e.len = 0 else e.offset + e.len < 2 ^ 64 ∧ e.offset + e.len ≤ size

instance (size : ℕ) (e : Entry) : Decidable (e.Inside size) := by
  unfold Inside
  infer_instance

/-- Every check of an entry but the one for a path that has been seen. -/
structure Sound (size : ℕ) (e : Entry) : Prop where
  fits : e.pathLen ≤ maxPath
  valid : pathIsValid e.path = true
  inside : e.Inside size

end Entry

/-- The header is in order, and the table lies within the archive. -/
structure Headed (bytes : List UInt8) : Prop where
  size : headerSize ≤ bytes.length
  magic : bytes.take 8 = archiveMagic
  version : field bytes 8 4 = archiveVersion
  table : headerSize + entryCount bytes * entrySize ≤ bytes.length

def insertEntries (entries : List Entry) : List (String × Node) :=
  entries.foldl (fun nodes e => insertNew e.name e.node nodes) []

/-- The root, whether or not the archive declares it. -/
def withRoot (nodes : List (String × Node)) : List (String × Node) :=
  if "/" ∈ nodes.map Prod.fst then nodes else insertNew "/" ⟨0, 0, true⟩ nodes

end Entries

section Turns

variable {σ ε : Type} {s s' : σ} {bytes : List UInt8} {nodes nodes' : List (String × Node)}
  {index i count : ℕ} {e : MountError}

theorem entryCount_lt (bytes : List UInt8) : entryCount bytes < 2 ^ 32 := field_lt bytes 12 4

/-- The table's end fits in 64 bits, whatever the count. -/
theorem table_lt (bytes : List UInt8) : headerSize + entryCount bytes * entrySize < 2 ^ 64 := by
  have hsmall := entryCount_lt bytes
  rw [show headerSize = 24 from rfl, show entrySize = 144 from rfl]
  omega

theorem run_readUint {width start : ℕ} (h : start + width ≤ bytes.length) :
    (readUint width bytes start : Attempt σ ε ℕ).run s = some (.ok (field bytes start width), s) := by
  rw [readUint, run_bind_of_ok (run_slice ⟨Nat.le_add_right _ _, h⟩), run_pure,
    Nat.add_sub_cancel_left]
  rfl

theorem inside_run {α : Type} {e : Entry} {size : ℕ} {err : MountError}
    {y : Attempt σ MountError α} :
    (if e.isDirectory = true then do ensure (e.len = 0) err; y
      else do
        ensure (e.offset + e.len < 2 ^ 64) err
        ensure (e.offset + e.len ≤ size) err
        y : Attempt σ MountError α).run s =
      if e.Inside size then y.run s else some (.error err, s) := by
  unfold Entry.Inside
  by_cases hdirectory : e.isDirectory = true
  · simp only [if_pos hdirectory]
    exact run_ensure_bind
  · simp only [if_neg hdirectory]
    rw [run_ensure_bind]
    by_cases hsum : e.offset + e.len < 2 ^ 64
    · rw [if_pos hsum, run_ensure_bind]
      simp only [hsum, true_and]
    · rw [if_neg hsum, if_neg (fun h => hsum h.1)]

/-- A turn of the loop, as the checks of its entry in their order. -/
theorem mountEntry_run (h : headerSize + (index + 1) * entrySize ≤ bytes.length) :
    (mountEntry bytes nodes index).run s =
      let e := entryAt bytes index
      if ¬ (e.pathLen ≤ maxPath ∧ pathIsValid e.path = true) then
        some (.error (.badPath index), s)
      else if ¬ e.Inside bytes.length then some (.error (.entryOutOfBounds index), s)
      else if e.name ∈ nodes.map Prod.fst then some (.error (.duplicatePath index), s)
      else some (.ok (insertNew e.name e.node nodes), s) := by
  have hroom : headerSize + index * entrySize + entrySize ≤ bytes.length := by
    rw [Nat.add_mul, Nat.one_mul] at h
    omega
  have hsize : entrySize = 24 + maxPath := rfl
  rw [mountEntry, run_bind_of_ok (run_readUint (by omega)), run_bind_of_ok (run_readUint (by omega)),
    run_bind_of_ok (run_readUint (by omega)), run_bind_of_ok (run_readUint (by omega)),
    run_ensure_bind]
  simp only
  by_cases hfits : (entryAt bytes index).pathLen ≤ maxPath
  swap
  · rw [if_pos (fun h => hfits h.1)]
    exact if_neg hfits
  refine (if_pos hfits).trans ?_
  have hfits' : field bytes (headerSize + index * entrySize + 20) 4 ≤ maxPath := hfits
  rw [run_bind_of_ok (run_slice ⟨Nat.le_add_right _ _, by omega⟩), run_ensure_bind,
    Nat.add_sub_cancel_left]
  by_cases hvalid : pathIsValid (entryAt bytes index).path = true
  swap
  · rw [if_pos (fun h => hvalid h.2)]
    exact if_neg hvalid
  refine (if_pos hvalid).trans ?_
  rw [if_neg (not_not.mpr ⟨hfits, hvalid⟩)]
  refine (inside_run (e := entryAt bytes index)).trans ?_
  by_cases hinside : (entryAt bytes index).Inside bytes.length
  swap
  · rw [if_neg hinside, if_pos hinside]
  rw [if_pos hinside, if_neg (not_not.mpr hinside), run_ensure_bind]
  by_cases hseen : (entryAt bytes index).name ∈ nodes.map Prod.fst
  · rw [if_pos hseen]
    exact if_neg (not_not.mpr hseen)
  · rw [if_neg hseen]
    exact if_pos hseen

theorem mountEntry_ok (h : headerSize + (index + 1) * entrySize ≤ bytes.length) :
    (mountEntry bytes nodes index).run s = some (.ok nodes', s') ↔
      (entryAt bytes index).Sound bytes.length ∧ (entryAt bytes index).name ∉ nodes.map Prod.fst ∧
        nodes' = insertNew (entryAt bytes index).name (entryAt bytes index).node nodes ∧ s' = s := by
  rw [mountEntry_run h]
  simp only
  constructor
  · intro hrun
    split at hrun
    · nomatch hrun
    next hpath =>
    split at hrun
    · nomatch hrun
    next hinside =>
    split at hrun
    · nomatch hrun
    next hnew =>
    have ⟨hfits, hvalid⟩ := not_not.mp hpath
    rw [Option.some.injEq, Prod.mk.injEq, Except.ok.injEq] at hrun
    exact ⟨⟨hfits, hvalid, not_not.mp hinside⟩, hnew, hrun.1.symm, hrun.2.symm⟩
  · rintro ⟨⟨hfits, hvalid, hinside⟩, hnew, rfl, rfl⟩
    rw [if_neg (not_not.mpr ⟨hfits, hvalid⟩), if_neg (not_not.mpr hinside), if_neg hnew]

theorem mountEntry_duplicate (h : headerSize + (index + 1) * entrySize ≤ bytes.length) :
    (mountEntry bytes nodes index).run s = some (.error (.duplicatePath i), s') →
      i = index ∧ (entryAt bytes index).name ∈ nodes.map Prod.fst := by
  rw [mountEntry_run h]
  simp only
  intro hrun
  split at hrun
  · nomatch hrun
  split at hrun
  · nomatch hrun
  split at hrun
  next hseen =>
    rw [Option.some.injEq, Prod.mk.injEq, Except.error.injEq, MountError.duplicatePath.injEq] at hrun
    exact ⟨hrun.1.symm, hseen⟩
  · nomatch hrun

theorem mountEntry_returns (h : headerSize + (index + 1) * entrySize ≤ bytes.length) :
    ∃ r, (mountEntry bytes nodes index).run s = some (r, s) := by
  rw [mountEntry_run h]
  simp only
  split
  · exact ⟨_, rfl⟩
  split
  · exact ⟨_, rfl⟩
  split
  · exact ⟨_, rfl⟩
  · exact ⟨_, rfl⟩

end Turns

section Tables

variable {σ : Type} {s s' : σ} {bytes : List UInt8} {nodes : List (String × Node)} {n i : ℕ}

theorem foldlM_single {m : Type → Type} [Monad m] [LawfulMonad m] {α β : Type} {g : β → α → m β}
    {b : β} {a : α} : [a].foldlM g b = g b a := by
  simp only [List.foldlM_cons, List.foldlM_nil, bind_pure]

/-- The first entries of the table. -/
def entries (bytes : List UInt8) (n : ℕ) : List Entry := (List.range n).map (entryAt bytes)

theorem entries_succ : entries bytes (n + 1) = entries bytes n ++ [entryAt bytes n] := by
  rw [entries, entries, List.range_succ, List.map_append]
  rfl

theorem insertNew_perm {β : Type} (key : String) (value : β) (l : List (String × β)) :
    (insertNew key value l).Perm ((key, value) :: l) := List.perm_orderedInsert _ _ _

theorem insertEntries_append (l : List Entry) (e : Entry) :
    insertEntries (l ++ [e]) = insertNew e.name e.node (insertEntries l) := by
  rw [insertEntries, List.foldl_append]
  rfl

theorem insertEntries_perm (l : List Entry) :
    (insertEntries l).Perm (l.map fun e => (e.name, e.node)) := by
  induction l using List.reverseRecOn with
  | nil => exact List.Perm.refl _
  | append_singleton l e ih =>
    rw [insertEntries_append, List.map_append]
    exact (insertNew_perm _ _ _).trans ((ih.cons _).trans (List.perm_append_singleton _ _).symm)

theorem insertEntries_names (l : List Entry) :
    ((insertEntries l).map Prod.fst).Perm (l.map Entry.name) := by
  have h := (insertEntries_perm l).map Prod.fst
  rwa [List.map_map] at h

theorem loop_ok (h : Headed bytes) (hn : n ≤ entryCount bytes) :
    ((List.range n).foldlM (mountEntry bytes) []).run s = some (.ok nodes, s') ↔
      (∀ e ∈ entries bytes n, e.Sound bytes.length) ∧ ((entries bytes n).map Entry.name).Nodup ∧
        nodes = insertEntries (entries bytes n) ∧ s' = s := by
  induction n generalizing nodes s' with
  | zero =>
    rw [List.range_zero, List.foldlM_nil, run_pure, Option.some.injEq, Prod.mk.injEq,
      Except.ok.injEq]
    constructor
    · rintro ⟨rfl, rfl⟩
      exact ⟨fun _ h => absurd h List.not_mem_nil, List.nodup_nil, rfl, rfl⟩
    · rintro ⟨-, -, rfl, rfl⟩
      exact ⟨rfl, rfl⟩
  | succ n ih =>
    have hroom : headerSize + (n + 1) * entrySize ≤ bytes.length :=
      (Nat.add_le_add_left (Nat.mul_le_mul_right _ hn) _).trans h.table
    have hnames : (entryAt bytes n).name ∉ (insertEntries (entries bytes n)).map Prod.fst ↔
        (entryAt bytes n).name ∉ (entries bytes n).map Entry.name :=
      not_congr (insertEntries_names _).mem_iff
    rw [List.range_succ, List.foldlM_append, run_bind_ok, entries_succ, List.map_append,
      List.map_singleton, List.nodup_append_comm, List.singleton_append, List.nodup_cons,
      insertEntries_append, List.forall_mem_append, List.forall_mem_singleton]
    constructor
    · rintro ⟨nodes₀, s₀, hfirst, hturn⟩
      obtain ⟨hsound, hnodup, rfl, rfl⟩ := (ih (Nat.le_of_succ_le hn)).mp hfirst
      rw [foldlM_single] at hturn
      obtain ⟨hlast, hnew, rfl, rfl⟩ := (mountEntry_ok hroom).mp hturn
      exact ⟨⟨hsound, hlast⟩, ⟨hnames.mp hnew, hnodup⟩, rfl, rfl⟩
    · rintro ⟨⟨hsound, hlast⟩, ⟨hnew, hnodup⟩, rfl, rfl⟩
      refine ⟨_, _, (ih (Nat.le_of_succ_le hn)).mpr ⟨hsound, hnodup, rfl, rfl⟩, ?_⟩
      rw [foldlM_single]
      exact (mountEntry_ok hroom).mpr ⟨hlast, hnames.mpr hnew, rfl, rfl⟩

theorem loop_returns (h : Headed bytes) (hn : n ≤ entryCount bytes) :
    ∃ r, ((List.range n).foldlM (mountEntry bytes) []).run s = some (r, s) := by
  induction n with
  | zero => exact ⟨_, rfl⟩
  | succ n ih =>
    have hroom : headerSize + (n + 1) * entrySize ≤ bytes.length :=
      (Nat.add_le_add_left (Nat.mul_le_mul_right _ hn) _).trans h.table
    obtain ⟨r, hr⟩ := ih (Nat.le_of_succ_le hn)
    rw [List.range_succ, List.foldlM_append, run_bind, hr]
    cases r with
    | error e => exact ⟨_, rfl⟩
    | ok nodes =>
      simp only [foldlM_single]
      exact mountEntry_returns hroom

/-- A path is refused as a duplicate of one that an earlier entry has become. -/
theorem loop_duplicate (h : Headed bytes) (hn : n ≤ entryCount bytes)
    (hrun : ((List.range n).foldlM (mountEntry bytes) []).run s =
      some (.error (.duplicatePath i), s')) :
    i < n ∧ ∃ j < i, (entryAt bytes j).name = (entryAt bytes i).name := by
  induction n with
  | zero => nomatch hrun
  | succ n ih =>
    have hroom : headerSize + (n + 1) * entrySize ≤ bytes.length :=
      (Nat.add_le_add_left (Nat.mul_le_mul_right _ hn) _).trans h.table
    obtain ⟨r, hr⟩ := loop_returns (s := s) h (Nat.le_of_succ_le hn)
    rw [List.range_succ, List.foldlM_append, run_bind, hr] at hrun
    cases r with
    | error e =>
      obtain ⟨hi, j, hj, hname⟩ := ih (Nat.le_of_succ_le hn) (hr.trans hrun)
      exact ⟨Nat.lt_succ_of_lt hi, j, hj, hname⟩
    | ok nodes =>
      simp only [foldlM_single] at hrun
      obtain ⟨rfl, hseen⟩ := mountEntry_duplicate hroom hrun
      obtain ⟨-, -, rfl, -⟩ := (loop_ok h (Nat.le_of_succ_le hn)).mp hr
      obtain ⟨e, he, hname⟩ := List.mem_map.mp ((insertEntries_names _).mem_iff.mp hseen)
      obtain ⟨j, hj, rfl⟩ := List.mem_map.mp he
      exact ⟨Nat.lt_succ_self _, j, List.mem_range.mp hj, hname⟩

end Tables

section Mounts

variable {bytes : List UInt8} {s s' : Option Mounted} {n i : ℕ} {e : MountError}

theorem mount_headed (h : Headed bytes) : (mount bytes).run s =
    ((do
      let nodes ← (List.range (entryCount bytes)).foldlM (mountEntry bytes) []
      of fun _ => some (.ok (withRoot nodes).length, some ⟨withRoot nodes, bytes⟩) :
        Attempt (Option Mounted) MountError ℕ)).run s := by
  have hsmall := table_lt bytes
  have hsize := h.size
  have hheader : headerSize = 24 := rfl
  rw [mount, run_ensure_bind, if_pos h.size, run_bind_of_ok (run_slice ⟨Nat.zero_le _, by omega⟩),
    run_ensure_bind]
  refine (if_pos h.magic).trans ?_
  rw [run_bind_of_ok (run_readUint (by omega)), run_ensure_bind, if_pos h.version,
    run_bind_of_ok (run_readUint (by omega)), run_ensure_bind]
  change (if entryCount bytes * entrySize < _ then _ else _) = _
  rw [if_pos (by omega), run_ensure_bind]
  change (if headerSize + entryCount bytes * entrySize < _ then _ else _) = _
  rw [if_pos (by omega), run_ensure_bind]
  exact if_pos h.table

theorem mount_unheaded (h : ¬ Headed bytes) :
    ∃ e, (mount bytes).run s = some (.error e, s) ∧ ∀ i, e ≠ .duplicatePath i := by
  have hsmall := table_lt bytes
  have hheader : headerSize = 24 := rfl
  rw [mount, run_ensure_bind]
  by_cases hsize : headerSize ≤ bytes.length
  swap
  · rw [if_neg hsize]
    exact ⟨_, rfl, nofun⟩
  rw [if_pos hsize, run_bind_of_ok (run_slice ⟨Nat.zero_le _, by omega⟩), run_ensure_bind]
  by_cases hmagic : bytes.take 8 = archiveMagic
  swap
  · exact ⟨_, if_neg hmagic, nofun⟩
  refine Exists.imp (fun e => And.imp_left (if_pos hmagic).trans) ?_
  rw [run_bind_of_ok (run_readUint (by omega)), run_ensure_bind]
  by_cases hversion : field bytes 8 4 = archiveVersion
  swap
  · rw [if_neg hversion]
    exact ⟨_, rfl, nofun⟩
  rw [if_pos hversion, run_bind_of_ok (run_readUint (by omega)), run_ensure_bind]
  change ∃ e, (if entryCount bytes * entrySize < _ then _ else _) = _ ∧ _
  rw [if_pos (by omega), run_ensure_bind]
  change ∃ e, (if headerSize + entryCount bytes * entrySize < _ then _ else _) = _ ∧ _
  rw [if_pos (by omega), run_ensure_bind]
  by_cases htable : headerSize + entryCount bytes * entrySize ≤ bytes.length
  · exact absurd ⟨hsize, hmagic, hversion, htable⟩ h
  · exact ⟨_, if_neg htable, nofun⟩

/-- What an accepted archive has passed, and what it becomes. -/
theorem mount_ok : (mount bytes).run s = some (.ok n, s') ↔
    Headed bytes ∧ (∀ e ∈ entries bytes (entryCount bytes), e.Sound bytes.length) ∧
      ((entries bytes (entryCount bytes)).map Entry.name).Nodup ∧
      n = (withRoot (insertEntries (entries bytes (entryCount bytes)))).length ∧
      s' = some ⟨withRoot (insertEntries (entries bytes (entryCount bytes))), bytes⟩ := by
  by_cases h : Headed bytes
  · rw [mount_headed h, run_bind_ok]
    constructor
    · rintro ⟨nodes, s₀, hloop, hend⟩
      obtain ⟨hsound, hnodup, rfl, rfl⟩ := (loop_ok h (Nat.le_refl _)).mp hloop
      rw [run_of, Option.some.injEq, Prod.mk.injEq, Except.ok.injEq] at hend
      exact ⟨h, hsound, hnodup, hend.1.symm, hend.2.symm⟩
    · rintro ⟨-, hsound, hnodup, rfl, rfl⟩
      exact ⟨_, s, (loop_ok h (Nat.le_refl _)).mpr ⟨hsound, hnodup, rfl, rfl⟩, rfl⟩
  · obtain ⟨e, hrun, -⟩ := mount_unheaded (s := s) h
    rw [hrun]
    exact ⟨nofun, fun hok => absurd hok.1 h⟩

theorem mount_duplicate (h : (mount bytes).run s = some (.error (.duplicatePath i), s')) :
    i < entryCount bytes ∧ ∃ j < i, (entryAt bytes j).name = (entryAt bytes i).name := by
  by_cases hheaded : Headed bytes
  · rw [mount_headed hheaded, run_bind] at h
    obtain ⟨r, hr⟩ := loop_returns (s := s) hheaded (Nat.le_refl _)
    rw [hr] at h
    cases r with
    | error e =>
      rw [Option.some.injEq, Prod.mk.injEq, Except.error.injEq] at h
      obtain ⟨rfl, -⟩ := h
      exact loop_duplicate hheaded (Nat.le_refl _) hr
    | ok nodes => nomatch h
  · obtain ⟨e, hrun, hother⟩ := mount_unheaded (s := s) hheaded
    rw [hrun, Option.some.injEq, Prod.mk.injEq, Except.error.injEq] at h
    exact absurd h.1 (hother i)

/-- Any bytes are mounted or refused, and a refusal leaves what was mounted before. -/
theorem mount_returns (bytes : List UInt8) (s : Option Mounted) :
    ∃ r s', (mount bytes).run s = some (r, s') ∧ ∀ e, r = .error e → s' = s := by
  by_cases h : Headed bytes
  · rw [mount_headed h, run_bind]
    obtain ⟨r, hr⟩ := loop_returns (s := s) h (Nat.le_refl _)
    rw [hr]
    cases r with
    | error e => exact ⟨_, _, rfl, fun _ _ => rfl⟩
    | ok nodes => exact ⟨_, _, rfl, nofun⟩
  · obtain ⟨e, hrun, -⟩ := mount_unheaded (s := s) h
    exact ⟨_, _, hrun, fun _ _ => rfl⟩

end Mounts

end FileSystem
