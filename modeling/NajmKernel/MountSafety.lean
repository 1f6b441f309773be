import NajmKernel.MountedArchives

/-! Mounting is safe on any bytes, and what is read from a mounted archive is the archive's own. -/
namespace FileSystem

open Attempts Attempt LittleEndian

section Nodes

variable {nodes : List (String × Node)} {node : String × Node} {l : List Entry}

theorem withRoot_root (nodes : List (String × Node)) : "/" ∈ (withRoot nodes).map Prod.fst := by
  unfold withRoot
  split
  next h => exact h
  · exact (((insertNew_perm _ _ _).map Prod.fst).mem_iff).mpr List.mem_cons_self

theorem mem_withRoot (h : node ∈ withRoot nodes) : node ∈ nodes ∨ node = ("/", ⟨0, 0, true⟩) := by
  unfold withRoot at h
  split at h
  · exact Or.inl h
  · exact (List.mem_cons.mp ((insertNew_perm _ _ _).mem_iff.mp h)).symm

theorem mem_withRoot_of_mem (h : node ∈ nodes) : node ∈ withRoot nodes := by
  unfold withRoot
  split
  · exact h
  · exact (insertNew_perm _ _ _).mem_iff.mpr (List.mem_cons_of_mem _ h)

theorem withRoot_nodup (h : (nodes.map Prod.fst).Nodup) : ((withRoot nodes).map Prod.fst).Nodup := by
  unfold withRoot
  split
  · exact h
  next hroot => exact ((insertNew_perm _ _ _).map Prod.fst).nodup_iff.mpr (List.nodup_cons.mpr ⟨hroot, h⟩)

theorem insertEntries_nodup (h : (l.map Entry.name).Nodup) :
    ((insertEntries l).map Prod.fst).Nodup := (insertEntries_names l).nodup_iff.mpr h

theorem mem_insertEntries : node ∈ insertEntries l ↔ ∃ e ∈ l, (e.name, e.node) = node := by
  rw [(insertEntries_perm l).mem_iff, List.mem_map]

end Nodes

section Reads

variable {σ ε : Type} {fs : Mounted} {node : Node} {u : σ}

/-- Of a node within the archive, a read delivers what there is, up to what is asked for. -/
theorem read_run (hinside : node.isDirectory = true ∨
      node.offset + node.len < 2 ^ 64 ∧ node.offset + node.len ≤ fs.archive.length)
    (offset count : ℕ) :
    (read (some fs) node offset count : Attempt σ ε (List UInt8)).run u = some (.ok
      (if node.isDirectory then []
        else (fs.archive.drop (node.offset + offset)).take (min count (node.len - offset))), u) := by
  unfold read
  by_cases hdirectory : node.isDirectory = true
  · rw [if_pos (Or.inl hdirectory), if_pos hdirectory, run_pure]
  rw [if_neg hdirectory]
  by_cases hend : node.len ≤ offset
  · rw [if_pos (Or.inr hend), Nat.sub_eq_zero_of_le hend, Nat.min_zero, List.take_zero, run_pure]
  obtain ⟨hwide, hfits⟩ := hinside.resolve_left hdirectory
  have hwant : node.offset + offset + min (node.len - offset) count ≤ node.offset + node.len := by
    have := Nat.min_le_left (node.len - offset) count
    omega
  rw [if_neg (not_or.mpr ⟨hdirectory, hend⟩)]
  simp only
  rw [run_sum_bind (by omega), run_sum_bind (by omega), run_pure, if_neg (by omega), Nat.min_comm]

theorem read_length (hinside : node.offset + node.len ≤ fs.archive.length) (offset count : ℕ) :
    ((fs.archive.drop (node.offset + offset)).take (min count (node.len - offset))).length =
      min count (node.len - offset) := by
  rw [List.length_take, List.length_drop]
  omega

end Reads

/-- What holds of an archive from its mounting on. -/
structure MountedWell (bytes : List UInt8) (fs : Mounted) : Prop where
  archive : fs.archive = bytes
  valid : ∀ i < entryCount bytes, pathIsValid (entryAt bytes i).path = true
  nodes : ∀ node ∈ fs.nodes, node = ("/", ⟨0, 0, true⟩) ∨
    ∃ i < entryCount bytes, node = ((entryAt bytes i).name, (entryAt bytes i).node)
  distinct : (fs.nodes.map Prod.fst).Nodup
  root : "/" ∈ fs.nodes.map Prod.fst
  inside : ∀ node ∈ fs.nodes, node.2.isDirectory = false →
    node.2.offset + node.2.len ≤ bytes.length
  reads : ∀ {σ ε : Type} (u : σ), ∀ node ∈ fs.nodes, ∀ offset count, ∃ data,
    (read (some fs) node.2 offset count : Attempt σ ε (List UInt8)).run u = some (.ok data, u) ∧
      data.length = (if node.2.isDirectory then 0 else min count (node.2.len - offset)) ∧
      data = (bytes.drop (node.2.offset + offset)).take data.length

theorem entry_inside {size : ℕ} {e : Entry} (h : e.Inside size) :
    e.node.isDirectory = true ∨
      e.node.offset + e.node.len < 2 ^ 64 ∧ e.node.offset + e.node.len ≤ size := by
  unfold Entry.Inside at h
  by_cases hdirectory : e.isDirectory = true
  · exact Or.inl hdirectory
  · rw [if_neg hdirectory] at h
    exact Or.inr h

theorem mount_well {bytes : List UInt8} {s s' : Option Mounted} {n : ℕ}
    (h : (mount bytes).run s = some (.ok n, s')) : ∃ fs, s' = some fs ∧ MountedWell bytes fs := by
  obtain ⟨-, hsound, hnodup, -, rfl⟩ := mount_ok.mp h
  refine ⟨_, rfl, ?_⟩
  have hnodes : ∀ node ∈ withRoot (insertEntries (entries bytes (entryCount bytes))),
      node = ("/", ⟨0, 0, true⟩) ∨
        ∃ i < entryCount bytes, node = ((entryAt bytes i).name, (entryAt bytes i).node) := by
    intro node hnode
    rcases mem_withRoot hnode with hentry | hroot
    · obtain ⟨e, he, rfl⟩ := mem_insertEntries.mp hentry
      obtain ⟨i, hi, rfl⟩ := List.mem_map.mp he
      exact Or.inr ⟨i, List.mem_range.mp hi, rfl⟩
    · exact Or.inl hroot
  have hentries : ∀ i < entryCount bytes, (entryAt bytes i).Sound bytes.length :=
    fun i hi => hsound _ (List.mem_map.mpr ⟨i, List.mem_range.mpr hi, rfl⟩)
  have hinside : ∀ node ∈ withRoot (insertEntries (entries bytes (entryCount bytes))),
      node.2.isDirectory = true ∨
        node.2.offset + node.2.len < 2 ^ 64 ∧ node.2.offset + node.2.len ≤ bytes.length := by
    intro node hnode
    rcases hnodes node hnode with rfl | ⟨i, hi, rfl⟩
    · exact Or.inl rfl
    · exact entry_inside (hentries i hi).inside
  refine ⟨rfl, fun i hi => (hentries i hi).valid, hnodes,
    withRoot_nodup (insertEntries_nodup hnodup), withRoot_root _, ?_, ?_⟩
  · intro node hnode hfile
    exact ((hinside node hnode).resolve_left (fun h => Bool.false_ne_true (hfile.symm.trans h))).2
  · intro σ ε u node hnode offset count
    refine ⟨_, read_run (hinside node hnode) offset count, ?_⟩
    by_cases hdirectory : node.2.isDirectory = true
    · rw [if_pos hdirectory, if_pos hdirectory]
      exact ⟨rfl, rfl⟩
    · obtain ⟨-, hfits⟩ := (hinside node hnode).resolve_left hdirectory
      rw [if_neg hdirectory, if_neg hdirectory, read_length hfits]
      exact ⟨rfl, rfl⟩

/-- Any bytes are mounted or refused without a panic; a refusal changes nothing, and a mounted
archive is read within its bounds ever after. -/
theorem mount_safe (bytes : List UInt8) (s : Option Mounted) :
    ∃ r s', (mount bytes).run s = some (r, s') ∧ (∀ e, r = .error e → s' = s) ∧
      ∀ n, r = .ok n → ∃ fs, s' = some fs ∧ MountedWell bytes fs := by
  obtain ⟨r, s', hrun, hrefused⟩ := mount_returns bytes s
  refine ⟨r, s', hrun, hrefused, ?_⟩
  rintro n rfl
  exact mount_well hrun

end FileSystem
