import Mathlib.Data.Set.Card
import NajmKernel.PackedArchives

/-! Packing and mounting: what the build script packs, the kernel serves, as long as the number of
the entries fits in its field of the header. -/
namespace FileSystem

open Attempts Attempt

/-- The paths of an archive: the files, the directories above them, and the root. -/
def namespaceOf (files : List (String × List UInt8)) : Set String :=
  {path | path = "/" ∨ (∃ f ∈ files, IsAncestor path f.1) ∨ path ∈ files.map Prod.fst}

section Namespaces

variable {files : List (String × List UInt8)} {contents : Contents} {path : String}

theorem Packed.mem_namespace (h : Packed files contents) :
    path ∈ namespaceOf files ↔ path ∈ contents.map Prod.fst := by
  constructor
  · rintro (rfl | hancestor | hfile)
    · exact List.mem_map_of_mem ((h.directory_iff "/").mpr (Or.inl rfl))
    · exact List.mem_map_of_mem ((h.directory_iff path).mpr (Or.inr hancestor))
    · obtain ⟨f, hf, rfl⟩ := List.mem_map.mp hfile
      exact List.mem_map_of_mem ((h.file_iff f.1 f.2).mpr hf)
  · intro hpath
    obtain ⟨⟨name, _ | data⟩, he, rfl⟩ := List.mem_map.mp hpath
    · exact ((h.directory_iff name).mp he).imp id Or.inl
    · exact Or.inr (Or.inr (List.mem_map_of_mem ((h.file_iff name data).mp he)))

theorem Packed.ncard_namespace (h : Packed files contents) :
    (namespaceOf files).ncard = contents.length := by
  have heq : namespaceOf files = ((contents.map Prod.fst).toFinset : Set String) := by
    ext path
    rw [h.mem_namespace, List.coe_toFinset]
    rfl
  rw [heq, Set.ncard_coe_finset, List.toFinset_card_of_nodup h.nodup, List.length_map]

end Namespaces

section Mounts

variable {files : List (String × List UInt8)} {contents : Contents} {s : Option Mounted}
  {path : String} {node : Node} {fs : Mounted}

theorem lookup_eq (hnodup : (fs.nodes.map Prod.fst).Nodup) :
    lookup (some fs) path = some node ↔ (path, node) ∈ fs.nodes := by
  have hlookup : lookup (some fs) path = (fs.nodes.find? fun n => n.1 == path).map Prod.snd := by
    rw [lookup]
    change Option.bind (some fs) _ = _
    rw [Option.bind_some]
    cases fs.nodes.find? fun n => n.1 == path with
    | none => rfl
    | some found => rfl
  rw [hlookup]
  constructor
  · intro h
    obtain ⟨found, hfound, rfl⟩ := Option.map_eq_some_iff.mp h
    have hname := List.find?_some hfound
    rw [← beq_iff_eq.mp hname]
    exact List.mem_of_find?_eq_some hfound
  · intro h
    have hsome : (fs.nodes.find? fun n => n.1 == path).isSome = true :=
      List.find?_isSome.mpr ⟨_, h, beq_self_eq_true _⟩
    obtain ⟨found, hfound⟩ := Option.isSome_iff_exists.mp hsome
    have hname := List.find?_some hfound
    have heq : found = (path, node) :=
      List.inj_on_of_nodup_map hnodup (List.mem_of_find?_eq_some hfound) h (beq_iff_eq.mp hname)
    rw [hfound, heq]
    rfl

/-- What a packed archive is mounted as. -/
structure Holds (contents : Contents) (fs : Mounted) : Prop where
  archive : fs.archive = archiveOf contents
  nodes : fs.nodes.Perm ((placed contents).map fun e => (e.1.1, ⟨e.2.1, e.2.2, e.1.2.isNone⟩))

theorem Packed.mount_holds (h : Packed files contents)
    (hsize : headerSize + contents.length * entrySize + (blob contents).length < 2 ^ 63)
    (hcount : contents.length < 2 ^ 32) (s : Option Mounted) : ∃ n fs,
      (mount (archiveOf contents)).run s = some (.ok n, some fs) ∧ Holds contents fs := by
  have hentries : entries (archiveOf contents) (entryCount (archiveOf contents)) =
      (placed contents).map entryOfPlaced := by
    rw [entryCount_archiveOf, Nat.mod_eq_of_lt hcount, h.entries_eq hsize (Nat.le_refl _)]
    apply List.take_of_length_le
    rw [List.length_map, length_placed]
  have hnames : ((placed contents).map entryOfPlaced).map Entry.name = contents.map Prod.fst := by
    rw [List.map_map, ← placed_names]
    exact List.map_congr_left fun e _ => name_entryOfPlaced
  have hnodes : ((placed contents).map entryOfPlaced).map (fun e => (e.name, e.node)) =
      (placed contents).map fun e => (e.1.1, ⟨e.2.1, e.2.2, e.1.2.isNone⟩) := by
    rw [List.map_map]
    exact List.map_congr_left fun e _ => Prod.ext name_entryOfPlaced node_entryOfPlaced
  have hroot : "/" ∈ (insertEntries ((placed contents).map entryOfPlaced)).map Prod.fst := by
    rw [(insertEntries_names _).mem_iff, hnames]
    exact List.mem_map_of_mem ((h.directory_iff "/").mpr (Or.inl rfl))
  refine ⟨_, _, mount_ok.mpr ⟨h.headed, ?_, ?_, rfl, rfl⟩, rfl, ?_⟩
  · rw [hentries]
    intro e he
    obtain ⟨p, hp, rfl⟩ := List.mem_map.mp he
    exact h.sound hsize hp
  · rw [hentries, hnames]
    exact h.nodup
  · rw [hentries, withRoot, if_pos hroot, ← hnodes]
    exact insertEntries_perm _

theorem Holds.names (hfs : Holds contents fs) :
    (fs.nodes.map Prod.fst).Perm (contents.map Prod.fst) := by
  have hperm := hfs.nodes.map Prod.fst
  rw [List.map_map] at hperm
  rw [← placed_names]
  exact hperm

end Mounts

/-- A directory of the mounted archive. -/
def IsDirectory (fs : Mounted) (path : String) : Prop :=
  ∃ node, lookup (some fs) path = some node ∧ node.isDirectory = true

/-- What `read_dir` lists of one path leads to another. -/
def Lists (fs : Mounted) (d c : String) : Prop := ∃ l, readDir (some fs) d = some l ∧ c ∈ l

/-- The files read back, and a namespace that is the tree of their paths. -/
structure Serves (files : List (String × List UInt8)) (fs : Mounted) : Prop where
  reads : ∀ f ∈ files, ∀ {σ ε : Type} (u : σ),
    (readAll (some fs) f.1 : Attempt σ ε _).run u = some (.ok (some f.2), u)
  paths : ∀ path, path ∈ fs.nodes.map Prod.fst ↔ path ∈ namespaceOf files
  distinct : (fs.nodes.map Prod.fst).Nodup
  parents : ∀ path ∈ namespaceOf files, path ≠ "/" → ∃ d, IsParent d path ∧ IsDirectory fs d
  children : ∀ d, IsDirectory fs d → ∃ l, readDir (some fs) d = some l ∧ l.Nodup ∧
    ∀ c, c ∈ l ↔ c ∈ namespaceOf files ∧ IsParent d c
  reachable : ∀ path ∈ namespaceOf files, Relation.ReflTransGen (Lists fs) "/" path

section Services

variable {files : List (String × List UInt8)} {contents : Contents} {path d c : String}
  {fs : Mounted}

theorem Holds.mem (hfs : Holds contents fs) {node : Node} : (path, node) ∈ fs.nodes ↔
    ∃ e ∈ placed contents, (e.1.1, (⟨e.2.1, e.2.2, e.1.2.isNone⟩ : Node)) = (path, node) := by
  rw [hfs.nodes.mem_iff, List.mem_map]

theorem Holds.isDirectory_iff (hfs : Holds contents fs) (h : Packed files contents) :
    IsDirectory fs path ↔ path = "/" ∨ ∃ f ∈ files, IsAncestor path f.1 := by
  have hnodup := hfs.names.nodup_iff.mpr h.nodup
  rw [← h.directory_iff, IsDirectory]
  simp only [lookup_eq hnodup, hfs.mem]
  constructor
  · rintro ⟨node, ⟨⟨⟨name, _ | data⟩, place⟩, he, heq⟩, hdirectory⟩
    · obtain ⟨rfl, -⟩ := Prod.mk.inj heq
      exact placed_mem he
    · obtain ⟨rfl, rfl⟩ := Prod.mk.inj heq
      nomatch hdirectory
  · intro hpath
    have hentries : (placed contents).map Prod.fst = contents := placed_entries
    rw [← hentries] at hpath
    obtain ⟨⟨entry, place⟩, he, rfl⟩ := List.mem_map.mp hpath
    exact ⟨_, ⟨_, he, rfl⟩, rfl⟩

theorem Holds.reads (hfs : Holds contents fs) (h : Packed files contents)
    (hsize : headerSize + contents.length * entrySize + (blob contents).length < 2 ^ 63)
    {f : String × List UInt8} (hf : f ∈ files) {σ ε : Type} (u : σ) :
    (readAll (some fs) f.1 : Attempt σ ε _).run u = some (.ok (some f.2), u) := by
  have hnodup := hfs.names.nodup_iff.mpr h.nodup
  have hpath := (h.file_iff f.1 f.2).mpr hf
  have hentries : (placed contents).map Prod.fst = contents := placed_entries
  rw [← hentries] at hpath
  obtain ⟨⟨entry, place⟩, he, rfl⟩ := List.mem_map.mp hpath
  have hlookup : lookup (some fs) f.1 = some ⟨place.1, place.2, false⟩ :=
    (lookup_eq hnodup).mpr (hfs.mem.mpr ⟨_, he, rfl⟩)
  obtain ⟨hstart, hend, hlength, hdata⟩ := place_of_file he
  have hinside : place.1 + place.2 < 2 ^ 64 ∧ place.1 + place.2 ≤ fs.archive.length := by
    rw [hfs.archive, h.length_archiveOf]
    omega
  have htable := h.length_tableOf
  have hread : (fs.archive.drop (place.1 + 0)).take (min place.2 (place.2 - 0)) = f.2 := by
    rw [Nat.add_zero, Nat.sub_zero, Nat.min_self, hfs.archive, archiveOf, ← hdata]
    have hwhere : (headerOf contents ++ tableOf contents).length =
        headerSize + contents.length * entrySize := by
      rw [List.length_append, length_headerOf, htable]
    have hplace : place.1 = headerSize + contents.length * entrySize +
        (place.1 - (headerSize + contents.length * entrySize)) := by omega
    refine Eq.trans ?_ (part_append_right hwhere _ place.2)
    rw [← hplace, part]
  rw [readAll, hlookup]
  refine (run_bind_of_ok (read_run (Or.inr hinside) 0 place.2)).trans ?_
  rw [run_pure, if_neg Bool.false_ne_true, hread]

theorem readDir_eq (hd : IsDirectory fs d) :
    readDir (some fs) d = some ((fs.nodes.map Prod.fst).filter (listed d)) := by
  obtain ⟨node, hlookup, hdirectory⟩ := hd
  obtain ⟨found, hfound, hnode⟩ := Option.bind_eq_some_iff.mp hlookup
  obtain rfl := Option.some.inj hnode
  rw [readDir]
  change Option.bind (some fs) _ = _
  rw [Option.bind_some, hfound]
  change Option.bind (guard _) _ = _
  rw [hdirectory]
  rfl

theorem namespace_closed (hc : c ∈ namespaceOf files) (h : IsParent d c) :
    d = "/" ∨ ∃ f ∈ files, IsAncestor d f.1 := by
  obtain rfl | ⟨f, hf, hancestor⟩ | hfile := hc
  · exact absurd h not_isParent_root
  · exact Or.inr ⟨f, hf, Relation.TransGen.head h hancestor⟩
  · obtain ⟨f, hf, rfl⟩ := List.mem_map.mp hfile
    exact Or.inr ⟨f, hf, Relation.TransGen.single h⟩

theorem Holds.serves (hfs : Holds contents fs) (h : Packed files contents)
    (hsize : headerSize + contents.length * entrySize + (blob contents).length < 2 ^ 63) :
    Serves files fs := by
  have hvalid : ∀ path ∈ namespaceOf files, ValidPath path := by
    intro path hpath
    obtain ⟨e, he, rfl⟩ := List.mem_map.mp (h.mem_namespace.mp hpath)
    exact h.validPath he
  have hpaths : ∀ path, path ∈ fs.nodes.map Prod.fst ↔ path ∈ namespaceOf files :=
    fun path => hfs.names.mem_iff.trans h.mem_namespace.symm
  have hdistinct := hfs.names.nodup_iff.mpr h.nodup
  have hdirectory : ∀ d, IsDirectory fs d → d ∈ namespaceOf files :=
    fun d hd => ((hfs.isDirectory_iff h).mp hd).imp id Or.inl
  have hparents : ∀ path ∈ namespaceOf files, path ≠ "/" →
      ∃ d, IsParent d path ∧ IsDirectory fs d := by
    intro path hpath hroot
    obtain ⟨d, hd⟩ := exists_isParent (hvalid path hpath) hroot
    exact ⟨d, hd, (hfs.isDirectory_iff h).mpr (namespace_closed hpath hd)⟩
  have hchildren : ∀ d, IsDirectory fs d → ∃ l, readDir (some fs) d = some l ∧ l.Nodup ∧
      ∀ c, c ∈ l ↔ c ∈ namespaceOf files ∧ IsParent d c := by
    intro d hd
    refine ⟨_, readDir_eq hd, hdistinct.filter _, fun c => ?_⟩
    rw [List.mem_filter, hpaths]
    have htext (path : String) (hpath : path ∈ namespaceOf files) : TextIsValid path.toList :=
      (validPath_iff.mp (hvalid path hpath)).2
    exact and_congr_right fun hc => listed_iff (htext d (hdirectory d hd)) (htext c hc)
  refine ⟨fun f hf _ _ u => hfs.reads h hsize hf u, hpaths, hdistinct, hparents, hchildren, ?_⟩
  -- the parent of a path is shorter
  intro path
  induction hn : (utf8 path).length using Nat.strong_induction_on generalizing path with
  | _ n ih =>
    intro hpath
    by_cases hroot : path = "/"
    · rw [hroot]
    · obtain ⟨d, hparent, hd⟩ := hparents path hpath hroot
      obtain ⟨l, hl, -, hmem⟩ := hchildren d hd
      have hshort := isParent_shorter hparent
      have hreach := ih _ (hn ▸ hshort) d rfl (hdirectory d hd)
      exact hreach.tail ⟨l, hl, (hmem path).mpr ⟨hpath, hparent⟩⟩

end Services

/-- The archive is mounted, and serves what was packed. -/
def RoundTrips (files : List (String × List UInt8)) (bytes : List UInt8) : Prop :=
  ∀ s, ∃ n fs, (mount bytes).run s = some (.ok n, some fs) ∧ Serves files fs

section RoundTrips

variable {files : List (String × List UInt8)} {contents : Contents} {bytes : List UInt8}

theorem mounted_length {s : Option Mounted} {n : ℕ} {fs : Mounted}
    (h : (mount bytes).run s = some (.ok n, some fs)) : fs.nodes.length ≤ entryCount bytes + 1 := by
  obtain ⟨-, -, -, -, hfs⟩ := mount_ok.mp h
  obtain rfl := Option.some.inj hfs
  have hentries : (insertEntries (entries bytes (entryCount bytes))).length = entryCount bytes := by
    rw [(insertEntries_perm _).length_eq, List.length_map, entries, List.length_map,
      List.length_range]
  dsimp only
  unfold withRoot
  split
  · omega
  · rw [(insertNew_perm _ _ _).length_eq, List.length_cons, hentries]

theorem Packed.round_trips_iff (h : Packed files contents)
    (hsize : headerSize + contents.length * entrySize + (blob contents).length < 2 ^ 63) :
    RoundTrips files (archiveOf contents) ↔ contents.length < 2 ^ 32 := by
  constructor
  · intro hround
    obtain ⟨n, fs, hmount, hserves⟩ := hround none
    have hnodes := mounted_length hmount
    rw [entryCount_archiveOf] at hnodes
    have hcover : (contents.map Prod.fst).length ≤ (fs.nodes.map Prod.fst).length := by
      apply (h.nodup.subperm ?_).length_le
      intro path hpath
      exact (hserves.paths path).mpr (h.mem_namespace.mpr hpath)
    rw [List.length_map, List.length_map] at hcover
    by_contra hmany
    have hcount := Nat.mod_lt contents.length (show 0 < 2 ^ 32 by decide)
    have heq : contents.length = 2 ^ 32 := by omega
    rw [heq, Nat.mod_self] at hnodes
    omega
  · intro hcount s
    obtain ⟨n, fs, hmount, hholds⟩ := h.mount_holds hsize hcount s
    exact ⟨n, fs, hmount, hholds.serves h hsize⟩

end RoundTrips

section Flat

variable {files : List (String × List UInt8)} {contents : Contents} {bytes : List UInt8}
  {n k j : ℕ} {σ ε : Type} {s : σ}

/-- Where every parent is the root, no other directory joins it. -/
theorem directories_flat (h : ∀ f ∈ files, IsParent "/" f.1) :
    (files.foldlM (fun directories file =>
      insertParents (utf8 file.1).length (utf8 file.1) directories) ["/"] :
        Attempt σ ε _).run s = some (.ok ["/"], s) := by
  induction files with
  | nil => rfl
  | cons file files ih =>
    obtain ⟨hfile, hfiles⟩ := List.forall_mem_cons.mp h
    obtain ⟨turns, hturns⟩ := Nat.exists_eq_add_of_lt (isParent_shorter hfile)
    have hslash : Utf8.fromUtf8 (utf8 "/") = some ['/'] := by decide
    have hfirst : (insertParents (utf8 file.1).length (utf8 file.1) ["/"] : Attempt σ ε _).run s =
        some (.ok ["/"], s) := by
      rw [hturns, insertParents, hfile]
      dsimp only
      rw [hslash]
      rfl
    rw [List.foldlM_cons, run_bind_of_ok hfirst]
    exact ih hfiles

theorem insertFiles_runs (hvalid : ∀ f ∈ files, ValidPath f.1)
    (hnodup : (files.map Prod.fst ++ contents.map Prod.fst).Nodup) :
    ∃ contents', (files.foldlM insertFile contents : Attempt σ ε _).run s =
      some (.ok contents', s) := by
  induction files generalizing contents with
  | nil => exact ⟨contents, rfl⟩
  | cons file files ih =>
    obtain ⟨hfile, hfiles⟩ := List.forall_mem_cons.mp hvalid
    rw [List.map_cons, List.cons_append, List.nodup_cons, List.mem_append, not_or] at hnodup
    obtain ⟨⟨hother, hnew⟩, hrest⟩ := hnodup
    have hfirst : (insertFile contents file : Attempt σ ε _).run s =
        some (.ok (insertNew file.1 (some file.2) contents), s) := by
      rw [insertFile, run_demand_bind]
      refine (if_pos hfile).trans ?_
      rw [run_demand_bind, if_pos hnew, run_pure]
    have hkeys : (files.map Prod.fst ++
        (insertNew file.1 (some file.2) contents).map Prod.fst).Nodup := by
      rw [(((insertNew_perm file.1 (some file.2) contents).map Prod.fst).append_left _).nodup_iff,
        List.map_cons, List.perm_middle.nodup_iff, List.nodup_cons, List.mem_append]
      exact ⟨not_or.mpr ⟨hother, hnew⟩, hrest⟩
    obtain ⟨contents', hrun⟩ := ih hfiles hkeys
    refine ⟨contents', ?_⟩
    rw [List.foldlM_cons, run_bind_of_ok hfirst]
    exact hrun

/-- A name below the root that spells out a number. -/
def flatName (k : ℕ) : String :=
  String.ofList ('/' :: (List.range 32).map fun i => if k.testBit i then '1' else '0')

/-- As many empty files below the root. -/
def flatFiles (n : ℕ) : List (String × List UInt8) := (List.range n).map fun k => (flatName k, [])

theorem flatName_digit {c : Char}
    (h : c ∈ (List.range 32).map fun i => if k.testBit i then '1' else '0') :
    c = '1' ∨ c = '0' := by
  obtain ⟨i, -, rfl⟩ := List.mem_map.mp h
  split
  · exact Or.inl rfl
  · exact Or.inr rfl

theorem flatName_noSlash :
    '/' ∉ (List.range 32).map fun i => if k.testBit i then '1' else '0' := fun h => by
  rcases flatName_digit h with h | h
  · nomatch h
  · nomatch h

theorem flatName_parent (k : ℕ) : IsParent "/" (flatName k) :=
  isParent_iff.mpr ⟨[], _, String.toList_ofList, flatName_noSlash, Or.inr (by simp), rfl⟩

theorem flatName_valid (k : ℕ) : ValidPath (flatName k) := by
  have hlist : (flatName k).toList = _ := String.toList_ofList
  rw [validPath_iff, utf8_eq, hlist]
  have hsmall : ∀ c ∈ '/' :: (List.range 32).map fun i => if k.testBit i then '1' else '0',
      (String.utf8EncodeChar c).length = 1 := by
    intro c hc
    rcases List.mem_cons.mp hc with rfl | hc
    · rfl
    · rcases flatName_digit hc with rfl | rfl
      · rfl
      · rfl
  have hlength : ((List.range 32).map fun i => if k.testBit i then '1' else '0').length = 32 := by
    rw [List.length_map, List.length_range]
  refine ⟨?_, rfl, ?_, Or.inr ?_⟩
  · rw [List.length_flatMap, List.map_congr_left hsmall, List.map_const', List.sum_replicate,
      List.length_cons, hlength]
    decide
  · rw [List.mem_cons, not_or]
    refine ⟨by decide, fun h => ?_⟩
    rcases flatName_digit h with h | h
    · nomatch h
    · nomatch h
  · rw [← List.nil_append ('/' :: _), List.splitOn_append_cons_self,
      List.splitOn_eq_singleton flatName_noSlash]
    intro c hc
    obtain rfl := List.mem_singleton.mp hc
    refine ⟨?_, ?_, ?_⟩
    · intro h
      rw [h] at hlength
      nomatch hlength
    · intro h
      rw [h] at hlength
      nomatch hlength
    · intro h
      rw [h] at hlength
      nomatch hlength

theorem flatName_inj (hj : j < 2 ^ 32) (hk : k < 2 ^ 32) (h : flatName j = flatName k) : j = k := by
  have hlist := (List.cons.inj (String.ofList_injective h)).2
  apply Nat.eq_of_testBit_eq
  intro i
  by_cases hi : i < 32
  · have hbit := List.map_inj_left.mp hlist i (List.mem_range.mpr hi)
    cases hbj : j.testBit i
    · cases hbk : k.testBit i
      · rfl
      · rw [hbj, hbk] at hbit
        nomatch hbit
    · cases hbk : k.testBit i
      · rw [hbj, hbk] at hbit
        nomatch hbit
      · rfl
  · have hbig : 2 ^ 32 ≤ 2 ^ i := Nat.pow_le_pow_right (by decide) (by omega)
    rw [Nat.testBit_lt_two_pow (by omega), Nat.testBit_lt_two_pow (by omega)]

/-- So many files below the root are packed, as long as their names can be told apart. -/
theorem flatFiles_built (hn : n ≤ 2 ^ 32) : ∃ contents, Packed (flatFiles n) contents ∧
    contents.length = n + 1 ∧
    headerSize + contents.length * entrySize + (blob contents).length < 2 ^ 63 ∧
    (buildArchive (flatFiles n) : Attempt Unit Unit _).run () =
      some (.ok (archiveOf contents), ()) := by
  have hparents : ∀ f ∈ flatFiles n, IsParent "/" f.1 := by
    intro f hf
    obtain ⟨k, -, rfl⟩ := List.mem_map.mp hf
    exact flatName_parent k
  have hvalid : ∀ f ∈ flatFiles n, ValidPath f.1 := by
    intro f hf
    obtain ⟨k, -, rfl⟩ := List.mem_map.mp hf
    exact flatName_valid k
  have hnodup : ((flatFiles n).map Prod.fst ++ ["/"]).Nodup := by
    rw [List.nodup_append_comm, List.singleton_append, List.nodup_cons, flatFiles, List.map_map]
    refine ⟨fun hroot => ?_, List.nodup_range.map_on fun j hj k hk hname => ?_⟩
    · obtain ⟨k, -, hk⟩ := List.mem_map.mp hroot
      have hk : flatName k = "/" := hk
      exact not_isParent_root (hk ▸ flatName_parent k)
    · rw [List.mem_range] at hj hk
      exact flatName_inj (by omega) (by omega) hname
  obtain ⟨contents, hcontents⟩ : ∃ contents,
      ((flatFiles n).foldlM insertFile [("/", none)] : Attempt Unit Unit _).run () =
        some (.ok contents, ()) := insertFiles_runs hvalid hnodup
  have hdirectories : ((flatFiles n).foldlM (fun directories file =>
      insertParents (utf8 file.1).length (utf8 file.1) directories) ["/"] :
        Attempt Unit Unit _).run () = some (.ok ["/"], ()) := directories_flat hparents
  have hpacked := packed_of_folds hdirectories hcontents
  obtain ⟨-, -, hperm, -⟩ := insertFiles_ok hcontents
  have hlength : contents.length = n + 1 := by
    rw [hperm.length_eq, List.length_append, List.length_map, flatFiles, List.length_map,
      List.length_range]
    rfl
  have hblob : blob contents = [] := by
    rw [blob, List.flatMap_eq_nil_iff]
    intro entry hentry
    rcases List.mem_append.mp (hperm.mem_iff.mp hentry) with hfile | hroot
    · obtain ⟨f, hf, rfl⟩ := List.mem_map.mp hfile
      obtain ⟨k, -, rfl⟩ := List.mem_map.mp hf
      rfl
    · rw [List.mem_singleton.mp hroot]
      rfl
  have hsize : headerSize + contents.length * entrySize + (blob contents).length < 2 ^ 63 := by
    have hheader : headerSize = 24 := rfl
    have hentry : entrySize = 144 := rfl
    rw [hblob, List.length_nil, hlength, hheader, hentry]
    omega
  exact ⟨contents, hpacked, hlength, hsize, buildArchive_of_folds hdirectories hcontents hsize⟩

/-- What was packed is served after the mount as long as the number of the paths fits in its
field of the header, which the cast to 32 bits does not check. -/
theorem archive_round_trips_iff
    (h : (buildArchive files : Attempt Unit Unit _).run () = some (.ok bytes, ())) :
    RoundTrips files bytes ↔ (namespaceOf files).ncard < 2 ^ 32 := by
  obtain ⟨contents, hpacked, hsize, rfl⟩ := buildArchive_ok h
  rw [hpacked.round_trips_iff hsize, hpacked.ncard_namespace]

theorem archive_round_trips_iff_single : ∃ bytes,
    (buildArchive (flatFiles 1) : Attempt Unit Unit _).run () = some (.ok bytes, ()) ∧
      RoundTrips (flatFiles 1) bytes := by
  obtain ⟨contents, hpacked, hlength, -, hbuilt⟩ := flatFiles_built (show 1 ≤ 2 ^ 32 by decide)
  refine ⟨_, hbuilt, (archive_round_trips_iff hbuilt).mpr ?_⟩
  rw [hpacked.ncard_namespace, hlength]
  decide

/-- With one path more than the field can count, the mount sees one entry only. -/
theorem crowded_archive_lost : ∃ bytes,
    (buildArchive (flatFiles (2 ^ 32)) : Attempt Unit Unit _).run () = some (.ok bytes, ()) ∧
      ¬ RoundTrips (flatFiles (2 ^ 32)) bytes := by
  obtain ⟨contents, hpacked, hlength, hsize, hbuilt⟩ := flatFiles_built (Nat.le_refl (2 ^ 32))
  refine ⟨_, hbuilt, fun hround => ?_⟩
  have hcount := (hpacked.round_trips_iff hsize).mp hround
  omega

end Flat

end FileSystem
