import NajmKernel.BuildDigests
import NajmKernel.DirectoryLists
import NajmKernel.PackageIntegrity

/-! From the build script's packages to the verdicts of the store: what is packed is verified with
its own manifest and unpacked to its own files, and what was changed behind the digest is found out
unless the digests collide. -/
namespace Utf8

theorem strictChars_flatMap (cs : List Char) {turns : ℕ}
    (h : (cs.flatMap String.utf8EncodeChar).length ≤ turns) :
    strictChars turns (cs.flatMap String.utf8EncodeChar) = some cs := by
  induction cs generalizing turns with
  | nil => cases turns <;> rfl
  | cons c cs ih =>
    rw [List.flatMap_cons] at h ⊢
    obtain ⟨hsmall, hencode⟩ | ⟨b, tail, hencode, hb, hcompletes, hscalar⟩ := encode_cases c
    · rw [hencode, List.singleton_append, List.length_cons] at h
      obtain ⟨turns, rfl⟩ : ∃ n, turns = n + 1 := Nat.exists_eq_add_one.mpr (by omega)
      have hbyte : (UInt8.ofNat c.toNat).toNat = c.toNat := toNat_byte (by omega)
      have hlt : UInt8.ofNat c.toNat < 0x80 := by
        rw [UInt8.lt_iff_toNat_lt, hbyte]
        exact hsmall
      rw [hencode, List.singleton_append, strictChars, if_pos hlt, ih (by omega), hbyte,
        Char.ofNat_toNat]
      rfl
    · rw [hencode, List.cons_append, List.length_cons, List.length_append] at h
      obtain ⟨turns, rfl⟩ : ∃ n, turns = n + 1 := Nat.exists_eq_add_one.mpr (by omega)
      have hlt : ¬ b < 0x80 := by
        rw [UInt8.lt_iff_toNat_lt]
        exact Nat.not_lt.mpr hb
      have hfollowing : PeParser.following b (tail ++ cs.flatMap String.utf8EncodeChar) = tail.length :=
        following_of_completes hcompletes
      obtain ⟨lo, hi, d, mid, hs, -⟩ := hcompletes
      rw [hencode, List.cons_append, strictChars, if_neg hlt, hs]
      dsimp only
      rw [hfollowing, if_pos rfl, List.take_left' rfl, List.drop_left' rfl, ih (by omega), hscalar,
        Char.ofNat_toNat]
      rfl

theorem fromUtf8_utf8 (s : String) : fromUtf8 (FileSystem.utf8 s) = some s.toList := by
  rw [fromUtf8, FileSystem.utf8_eq]
  exact strictChars_flatMap s.toList (Nat.le_refl _)

end Utf8

namespace PackageStore

open Attempts Attempt LittleEndian Realms

section Building

variable {σ ε : Type}

/-- The last byte with its lowest bit flipped. -/
def flipLast (payload : List UInt8) : Attempt σ ε (List UInt8) := do
  demand (0 < payload.length)
  let target := payload.length - 1
  pure (payload.set target (payload.getD target 0 ^^^ 1))

/-- `build_package`: the digest is of what the payload was before it is made corrupt. -/
def buildPackage (manifest : String) (files : List (String × List UInt8)) (corrupt : Bool) :
    Attempt σ ε (List UInt8) := do
  let manifestBytes := FileSystem.utf8 manifest
  let payload ← FileSystem.buildArchive files
  let digest ← ((Sha256.BuildHasher.new.update manifestBytes).update payload).finish
  let payload ← (if corrupt then flipLast payload else pure payload)
  pure (magic ++ toBytes 4 1 ++ toBytes 4 manifestBytes.length ++ digest ++ manifestBytes ++ payload)

end Building

section Verdicts

variable {σ ε : Type} {s s' : σ} {manifest : String} {files : List (String × List UInt8)}
  {corrupt : Bool} {bytes : List UInt8}

theorem digestsEqual_iff {a b : List UInt8} (h : a.length = b.length) :
    Sha256.digestsEqual a b = true ↔ a = b := by
  have hfold : ∀ (l l' : List UInt8) (n : UInt8), l.length = l'.length →
      ((l.zip l').foldl (fun difference ab => difference ||| ab.1 ^^^ ab.2) n = 0 ↔
        n = 0 ∧ l = l') := by
    intro l
    induction l with
    | nil =>
      intro l' n hl
      rw [List.length_eq_zero_iff.mp hl.symm]
      simp
    | cons x l ih =>
      intro l' n hl
      cases l' with
      | nil => cases hl
      | cons y l' =>
        rw [List.zip_cons_cons, List.foldl_cons, ih l' _ (Nat.succ.inj hl), UInt8.or_eq_zero_iff,
          UInt8.xor_eq_zero_iff, List.cons.injEq, and_assoc]
  rw [Sha256.digestsEqual, beq_iff_eq, hfold a b 0 h]
  exact and_iff_right rfl

theorem length_digest (message : List UInt8) : (SecureHash.digest message).length = 32 := by
  rw [SecureHash.digest, SecureHash.Working.words]
  simp only [List.flatMap_cons, List.flatMap_nil, List.length_append, List.length_nil,
    SecureHash.length_spelled]

theorem flipLast_ok {archive stored : List UInt8}
    (h : (flipLast archive : Attempt σ ε (List UInt8)).run s = some (.ok stored, s')) :
    s' = s ∧ stored.length = archive.length ∧ stored ≠ archive := by
  rw [flipLast, run_demand_bind] at h
  obtain ⟨hpos, h⟩ := Option.ite_none_right_eq_some.mp h
  obtain ⟨hstored, rfl⟩ := Prod.mk.inj (Option.some.inj h)
  obtain rfl := Except.ok.inj hstored
  refine ⟨rfl, List.length_set, fun heq => ?_⟩
  have hlast : archive.length - 1 < archive.length := by omega
  have hbyte := congrArg (fun l => l.getD (archive.length - 1) 0) heq
  rw [List.getD_eq_getElem?_getD, List.getElem?_set_self hlast, Option.getD_some] at hbyte
  have hflip := congrArg (archive.getD (archive.length - 1) 0 ^^^ ·) hbyte
  rw [← UInt8.xor_assoc, UInt8.xor_self, UInt8.zero_xor] at hflip
  exact absurd hflip (by decide)

/-- What the build script's package is made of. -/
theorem buildPackage_ok
    (h : (buildPackage manifest files corrupt : Attempt σ ε (List UInt8)).run s =
      some (.ok bytes, s')) : ∃ archive stored u,
      (FileSystem.buildArchive files : Attempt σ ε (List UInt8)).run s = some (.ok archive, u) ∧
      (FileSystem.utf8 manifest ++ archive).length < 2 ^ 61 ∧ stored.length = archive.length ∧
      (stored = archive ↔ corrupt = false) ∧
      bytes = packed (FileSystem.utf8 manifest).length
        (SecureHash.digest (FileSystem.utf8 manifest ++ archive))
        (FileSystem.utf8 manifest ++ stored) := by
  rw [buildPackage] at h
  obtain ⟨archive, u, harchive, h⟩ := run_bind_ok.mp h
  obtain ⟨digest, v, hdigest, h⟩ := run_bind_ok.mp h
  have hshort : (FileSystem.utf8 manifest ++ archive).length < 2 ^ 61 := by
    rw [Sha256.BuildHasher.finish, run_demand_bind] at hdigest
    have hfits := (Option.ite_none_right_eq_some.mp hdigest).1
    rw [Sha256.BuildHasher.update, Sha256.BuildHasher.update, Sha256.BuildHasher.new] at hfits
    dsimp only at hfits
    rw [List.nil_append] at hfits
    omega
  have hbuffer : (Sha256.BuildHasher.new.update (FileSystem.utf8 manifest)).update archive =
      ⟨Sha256.buildH0, FileSystem.utf8 manifest ++ archive⟩ := rfl
  rw [hbuffer, Sha256.build_finish_run _ hshort] at hdigest
  obtain ⟨hvalue, rfl⟩ := Prod.mk.inj (Option.some.inj hdigest)
  obtain rfl := Except.ok.inj hvalue
  obtain ⟨stored, w, hstored, h⟩ := run_bind_ok.mp h
  obtain ⟨hbytes, -⟩ := Prod.mk.inj (Option.some.inj h)
  have hparts : stored.length = archive.length ∧ (stored = archive ↔ corrupt = false) := by
    cases corrupt with
    | false =>
      obtain ⟨heq, -⟩ := Prod.mk.inj (Option.some.inj hstored)
      obtain rfl := Except.ok.inj heq
      exact ⟨rfl, iff_of_true rfl rfl⟩
    | true =>
      obtain ⟨-, hlength, hne⟩ := flipLast_ok hstored
      exact ⟨hlength, iff_of_false hne (by decide)⟩
  refine ⟨archive, stored, u, harchive, hshort, hparts.1, hparts.2, ?_⟩
  rw [← Except.ok.inj hbytes, packed]
  simp only [List.append_assoc]
  rfl

/-- The build of a package that is not made corrupt is refused for its size only. -/
theorem buildPackage_whole {archive : List UInt8}
    (harchive : (FileSystem.buildArchive files : Attempt σ ε (List UInt8)).run s =
      some (.ok archive, s)) (hshort : (FileSystem.utf8 manifest ++ archive).length < 2 ^ 61) :
    (buildPackage manifest files false : Attempt σ ε (List UInt8)).run s =
      some (.ok (packed (FileSystem.utf8 manifest).length
        (SecureHash.digest (FileSystem.utf8 manifest ++ archive))
        (FileSystem.utf8 manifest ++ archive)), s) := by
  have hbuffer : (Sha256.BuildHasher.new.update (FileSystem.utf8 manifest)).update archive =
      ⟨Sha256.buildH0, FileSystem.utf8 manifest ++ archive⟩ := rfl
  rw [buildPackage, run_bind_of_ok harchive, hbuffer,
    run_bind_of_ok (Sha256.build_finish_run _ hshort), packed, if_neg (by decide)]
  simp only [List.append_assoc]
  rfl

/-- The kernel's digest of a short message is the standard's. -/
theorem digest_run {message : List UInt8} (h : message.length < 2 ^ 61) :
    (Sha256.digest message : Attempt σ ε (List UInt8)).run s =
      some (.ok (SecureHash.digest message), s) := by
  have hflat : [message].flatten = message := by simp
  have hrun := Sha256.hashChunks_run (σ := σ) (ε := ε) (s := s) [message] (hflat.symm ▸ h)
  rw [hflat] at hrun
  rw [← hrun, Sha256.hashChunks, Sha256.digest]
  simp only [List.foldlM_cons, List.foldlM_nil, bind_assoc, pure_bind]

/-- What the store makes of a package from the build script. -/
theorem packed_verdict {archive stored : List UInt8}
    (hlen : (FileSystem.utf8 manifest).length < 2 ^ 32)
    (hshort : (FileSystem.utf8 manifest ++ archive).length < 2 ^ 61)
    (hstored : stored.length = archive.length)
    (hbytes : bytes = packed (FileSystem.utf8 manifest).length
      (SecureHash.digest (FileSystem.utf8 manifest ++ archive))
      (FileSystem.utf8 manifest ++ stored)) :
    (payload bytes : Attempt σ StoreError (List UInt8)).run s = some (.ok stored, s) ∧
    (Manifest.parse manifest.toList = none →
      (verify bytes : Attempt σ StoreError Verdict).run s = some (.error .badManifest, s)) ∧
    ∀ m, Manifest.parse manifest.toList = some m →
      (verify bytes : Attempt σ StoreError Verdict).run s = some (.ok ⟨m,
        decide (SecureHash.digest (FileSystem.utf8 manifest ++ stored) =
          SecureHash.digest (FileSystem.utf8 manifest ++ archive)),
        .absent, home, decide (m.requestedRealm ≠ home.kind)⟩, s) := by
  obtain ⟨hmagic, hversion, hmanifestLen, hfield, hbody, hsize⟩ :=
    packed_fields (FileSystem.utf8 manifest ++ stored) hlen
      (length_digest (FileSystem.utf8 manifest ++ archive))
  rw [← hbytes] at hmagic hversion hmanifestLen hfield hbody hsize
  have hlength : (FileSystem.utf8 manifest ++ stored).length =
      (FileSystem.utf8 manifest ++ archive).length := by
    rw [List.length_append, List.length_append, hstored]
  have hinside : (FileSystem.utf8 manifest).length ≤ (FileSystem.utf8 manifest ++ stored).length := by
    rw [List.length_append]
    exact Nat.le_add_right _ _
  have hdigest : (Sha256.digest (body bytes) : Attempt σ StoreError (List UInt8)).run s =
      some (.ok (SecureHash.digest (FileSystem.utf8 manifest ++ stored)), s) :=
    hbody.symm ▸ digest_run (hlength ▸ hshort)
  have hverify : (verify bytes : Attempt σ StoreError Verdict).run s = _ :=
    verifyWith_run hsize hdigest
  rw [hmagic, hversion, hbody, hmanifestLen, hfield, List.take_left' rfl, Utf8.fromUtf8_utf8,
    if_neg (not_not.mpr rfl), if_neg (not_not.mpr rfl), if_neg (Nat.not_lt.mpr hinside)] at hverify
  refine ⟨?_, fun hparse => ?_, fun m hparse => ?_⟩
  · rw [payload_ok hsize (by rw [hbody, hmanifestLen]; exact hinside), hbody, hmanifestLen,
      List.drop_left' rfl]
  · rw [hverify]
    simp only [hparse]
  · rw [hverify]
    simp only [hparse]
    have hequal : Sha256.digestsEqual (SecureHash.digest (FileSystem.utf8 manifest ++ stored))
        (SecureHash.digest (FileSystem.utf8 manifest ++ archive)) =
          decide (SecureHash.digest (FileSystem.utf8 manifest ++ stored) =
            SecureHash.digest (FileSystem.utf8 manifest ++ archive)) := by
      rw [Bool.eq_iff_iff, decide_eq_true_iff]
      exact digestsEqual_iff (by rw [length_digest, length_digest])
    have hrealm : grantedBy (verifySignature bytes m) m.requestedRealm = home := rfl
    rw [hequal, hrealm, ite_self]
    rfl

/-- A package as it was built is accepted as whole, with the manifest that was packed and no realm
but the least, and its payload mounts to the files that were packed; one changed behind the digest
is accepted as whole only where the two digests collide. -/
theorem package_round_trips {manifest : String} {files : List (String × List UInt8)}
    {corrupt : Bool} {bytes : List UInt8} {m : Manifest}
    (hbuilt : (buildPackage manifest files corrupt : Attempt Unit Unit _).run () =
      some (.ok bytes, ())) (hlen : (FileSystem.utf8 manifest).length < 2 ^ 32)
    (hmany : (FileSystem.namespaceOf files).ncard < 2 ^ 32)
    (hparse : Manifest.parse manifest.toList = some m) : ∃ archive stored v,
      (FileSystem.buildArchive files : Attempt Unit Unit _).run () = some (.ok archive, ()) ∧
      (verify bytes : Attempt Unit StoreError Verdict).run () = some (.ok v, ()) ∧
      (payload bytes : Attempt Unit StoreError (List UInt8)).run () = some (.ok stored, ()) ∧
      v.manifest = m ∧ v.grantedRealm = home ∧ (v.requestDenied = true ↔ m.requestedRealm ≠ home.kind) ∧
      (corrupt = false → v.integrityOk = true ∧ FileSystem.RoundTrips files stored) ∧
      (corrupt = true → stored ≠ archive ∧ (v.integrityOk = true ↔
        SecureHash.digest (FileSystem.utf8 manifest ++ stored) =
          SecureHash.digest (FileSystem.utf8 manifest ++ archive))) := by
  obtain ⟨archive, stored, u, harchive, hshort, hstored, hsame, hbytes⟩ := buildPackage_ok hbuilt
  obtain ⟨hpayload, -, hverdict⟩ := packed_verdict (s := ()) hlen hshort hstored hbytes
  refine ⟨archive, stored, _, harchive, hverdict m hparse, hpayload, rfl, rfl, ?_, ?_, ?_⟩
  · exact decide_eq_true_iff
  · intro hcorrupt
    obtain rfl := hsame.mpr hcorrupt
    obtain ⟨contents, hpacked, hsize, rfl⟩ := FileSystem.buildArchive_ok harchive
    rw [hpacked.ncard_namespace] at hmany
    exact ⟨decide_eq_true rfl, (hpacked.round_trips_iff hsize).mpr hmany⟩
  · intro hcorrupt
    refine ⟨fun heq => ?_, decide_eq_true_iff⟩
    exact Bool.false_ne_true ((hsame.mp heq).symm.trans hcorrupt)

/-- One file `/a` of one byte, and a manifest that names it. -/
def smallManifest : String := "id=a\nentry=/a"

def smallPayload : List (String × List UInt8) := [("/a", [0x61])]

theorem smallPayload_builds : ∃ archive, archive.length < 1000 ∧
    (FileSystem.namespaceOf smallPayload).ncard = 2 ∧
    (FileSystem.buildArchive smallPayload : Attempt Unit Unit _).run () =
      some (.ok archive, ()) := by
  have hdirectories : (smallPayload.foldlM (fun directories file =>
      FileSystem.insertParents (FileSystem.utf8 file.1).length (FileSystem.utf8 file.1) directories)
        ["/"] : Attempt Unit Unit _).run () = some (.ok ["/"], ()) := rfl
  have hcontents : (smallPayload.foldlM FileSystem.insertFile
      (["/"].map fun directory => (directory, none)) : Attempt Unit Unit _).run () =
        some (.ok [("/", none), ("/a", some [0x61])], ()) := rfl
  have hpacked := FileSystem.packed_of_folds hdirectories hcontents
  refine ⟨_, ?_, hpacked.ncard_namespace,
    FileSystem.buildArchive_of_folds hdirectories hcontents (by decide)⟩
  rw [hpacked.length_archiveOf]
  decide

theorem package_round_trips_small : ∃ bytes stored v,
    (buildPackage smallManifest smallPayload false : Attempt Unit Unit _).run () =
      some (.ok bytes, ()) ∧
    (verify bytes : Attempt Unit StoreError Verdict).run () = some (.ok v, ()) ∧
    (payload bytes : Attempt Unit StoreError (List UInt8)).run () = some (.ok stored, ()) ∧
    v.manifest.id = "a" ∧ v.integrityOk = true ∧ FileSystem.RoundTrips smallPayload stored := by
  obtain ⟨archive, hsmall, hcount, harchive⟩ := smallPayload_builds
  have hmanifest : (FileSystem.utf8 smallManifest).length = 13 := by decide
  have hshort : (FileSystem.utf8 smallManifest ++ archive).length < 2 ^ 61 := by
    rw [List.length_append]
    omega
  have hbuilt := buildPackage_whole harchive hshort
  have hparse : Manifest.parse smallManifest.toList =
      some ⟨"a", "", "", "", "/a", realmHome, 0⟩ := by decide
  obtain ⟨-, stored, v, -, hverify, hpayload, hsame, -, -, hwhole, -⟩ :=
    package_round_trips hbuilt (by rw [hmanifest]; decide) (by rw [hcount]; decide) hparse
  exact ⟨_, stored, v, hbuilt, hverify, hpayload, congrArg Manifest.id hsame, hwhole rfl⟩

end Verdicts

section Scans

open FileSystem (Mounted childrenOf IsParent)

def isPackage (path : String) : Bool := ".najm".toList.isSuffixOf path.toList

/-- An error of the store goes to the log, and the loop goes on. -/
def logged {α : Type} (x : Attempt Unit StoreError α) : Attempt Unit Empty (Except StoreError α) :=
  of fun s => (x.run s).map fun (r, s) => (.ok r, s)

/-- A turn of the loop of `scan`. -/
def examine (fs : Option Mounted) (verdicts : List Verdict) (path : String) :
    Attempt Unit Empty (List Verdict) :=
  if isPackage path = false then pure verdicts
  else do
    match ← FileSystem.readAll fs path with
    | none => pure verdicts
    | some bytes =>
      match ← logged (verify bytes) with
      | .error _ => pure verdicts
      | .ok verdict => pure (verdicts ++ [verdict])

def scan (fs : Option Mounted) (directory : String) : Attempt Unit Empty (List Verdict) :=
  match FileSystem.readDir fs directory with
  | none => pure []
  | some entries => entries.foldlM (examine fs) []

/-- The verdict on some bytes, if they come to one. -/
def verdictOf (bytes : List UInt8) : Option Verdict :=
  match (verify bytes : Attempt Unit StoreError Verdict).run () with
  | some (.ok verdict, _) => some verdict
  | _ => none

/-- What a path adds to the verdicts. -/
def verdictAt (contents : String → Option (List UInt8)) (path : String) : Option Verdict :=
  if isPackage path then (contents path).bind verdictOf else none

variable {fs : Mounted} {d path : String} {bytes : List UInt8} {v : Verdict}
  {files : List (String × List UInt8)} {verdicts : List Verdict} {paths : List String}
  {contents : String → Option (List UInt8)}

theorem verdictOf_ok (h : (verify bytes : Attempt Unit StoreError Verdict).run () = some (.ok v, ())) :
    verdictOf bytes = some v := by
  rw [verdictOf, h]

theorem logged_verify (bytes : List UInt8) : ∃ r, (logged (verify bytes)).run () =
    some (.ok r, ()) ∧ verdictOf bytes = r.toOption := by
  obtain ⟨r, hrun⟩ := verifyWith_returns verifySignature bytes ()
  have hverify : (verify bytes : Attempt Unit StoreError Verdict).run () = some (r, ()) := hrun
  refine ⟨r, ?_, ?_⟩
  · rw [logged, run_of, hverify]
    rfl
  · rw [verdictOf, hverify]
    cases r with
    | ok v => rfl
    | error e => rfl

theorem examine_run (hread : (FileSystem.readAll (some fs) path : Attempt Unit Empty _).run () =
    some (.ok (contents path), ())) : (examine (some fs) verdicts path).run () =
      some (.ok (verdicts ++ (verdictAt contents path).toList), ()) := by
  unfold examine verdictAt
  cases hpackage : isPackage path with
  | false =>
    rw [if_pos rfl, if_neg (by decide), Option.toList_none, List.append_nil, run_pure]
  | true =>
    rw [if_neg (by decide), if_pos rfl, run_bind_of_ok hread]
    cases hcontents : contents path with
    | none =>
      rw [Option.bind_none, Option.toList_none, List.append_nil]
      rfl
    | some bytes =>
      obtain ⟨r, hlogged, hverdict⟩ := logged_verify bytes
      dsimp only
      rw [Option.bind_some, hverdict, run_bind_of_ok hlogged]
      cases r with
      | error e =>
        rw [Except.toOption, Option.toList_none, List.append_nil]
        rfl
      | ok v => rfl

theorem scan_loop (hread : ∀ path ∈ paths,
    (FileSystem.readAll (some fs) path : Attempt Unit Empty _).run () =
      some (.ok (contents path), ())) : (paths.foldlM (examine (some fs)) verdicts).run () =
      some (.ok (verdicts ++ paths.filterMap (verdictAt contents)), ()) := by
  induction paths generalizing verdicts with
  | nil => rw [List.foldlM_nil, List.filterMap_nil, List.append_nil, run_pure]
  | cons path paths ih =>
    obtain ⟨hpath, hpaths⟩ := List.forall_mem_cons.mp hread
    rw [List.foldlM_cons, run_bind_of_ok (examine_run hpath), ih hpaths, List.append_assoc]
    cases hverdict : verdictAt contents path with
    | none => rw [List.filterMap_cons_none hverdict, Option.toList_none, List.nil_append]
    | some v => rw [List.filterMap_cons_some hverdict, Option.toList_some, List.singleton_append]

/-- The packages that lie in a directory, in the order of their paths. -/
structure Packages (files : List (String × List UInt8)) (d : String) (paths : List String) :
    Prop where
  sorted : paths.Pairwise (· < ·)
  mem_iff : ∀ path, path ∈ paths ↔
    isPackage path = true ∧ FileSystem.IsParent d path ∧ path ∈ files.map Prod.fst

theorem packed_lookup {contents : FileSystem.Contents} (h : FileSystem.Packed files contents)
    (hpath : path ∈ contents.map Prod.fst) :
    ∀ data, files.lookup path = data ↔ (path, data) ∈ contents := by
  have hsome (data : List UInt8) (hdata : files.lookup path = some data) :
      (path, some data) ∈ contents := by
    obtain ⟨before, rest, hfiles, -⟩ := List.lookup_eq_some_iff.mp hdata
    exact (h.file_iff path data).mpr (hfiles ▸ List.mem_append_right _ List.mem_cons_self)
  have hmem : (path, files.lookup path) ∈ contents := by
    cases hlookup : files.lookup path with
    | some data => exact hsome data hlookup
    | none =>
      obtain ⟨⟨name, _ | data⟩, he, rfl⟩ := List.mem_map.mp hpath
      · exact he
      · have habsent := List.lookup_eq_none_iff.mp hlookup _ ((h.file_iff name data).mp he)
        exact absurd habsent (by rw [bne_self_eq_false]; decide)
  intro data
  refine ⟨fun heq => heq ▸ hmem, fun hdata => ?_⟩
  have hsame := List.inj_on_of_nodup_map h.nodup hmem hdata rfl
  exact (Prod.mk.inj hsame).2

/-- Whatever lies in the archive is read as it was packed. -/
theorem mounted_reads {contents : FileSystem.Contents} (h : FileSystem.Packed files contents)
    (hsize : FileSystem.headerSize + contents.length * FileSystem.entrySize +
      (FileSystem.blob contents).length < 2 ^ 63) (hfs : FileSystem.Holds contents fs)
    (hpath : path ∈ contents.map Prod.fst) :
    (FileSystem.readAll (some fs) path : Attempt Unit Empty _).run () =
      some (.ok (files.lookup path), ()) := by
  have hmem := (packed_lookup h hpath _).mp rfl
  cases hlookup : files.lookup path with
  | some data =>
    rw [hlookup] at hmem
    exact hfs.reads h hsize ((h.file_iff path data).mp hmem) ()
  | none =>
    rw [hlookup] at hmem
    obtain ⟨node, hnode, hdirectory⟩ := (hfs.isDirectory_iff h).mpr ((h.directory_iff path).mp hmem)
    rw [FileSystem.readAll, hnode]
    dsimp only
    rw [if_pos hdirectory, run_pure]

/-- Only the packages among the files come to verdicts. -/
theorem filterMap_verdictAt (contents : String → Option (List UInt8)) (paths : List String) :
    paths.filterMap (verdictAt contents) =
      (paths.filter fun path => isPackage path && (contents path).isSome).filterMap fun path =>
        (contents path).bind verdictOf := by
  rw [List.filterMap_filter]
  apply List.filterMap_congr
  intro path _
  unfold verdictAt
  cases isPackage path with
  | false => rfl
  | true => cases contents path <;> rfl

theorem childrenOf_packages {contents : FileSystem.Contents} {n : ℕ} {s : Option Mounted}
    (h : FileSystem.Packed files contents) (hfs : FileSystem.Holds contents fs)
    (hmount : (FileSystem.mount bytes).run s = some (.ok n, some fs)) : Packages files d
      ((childrenOf fs d).filter fun path => isPackage path && (files.lookup path).isSome) := by
  refine ⟨(FileSystem.childrenOf_sorted hmount d).filter _, fun path => ?_⟩
  rw [List.mem_filter, Bool.and_eq_true, FileSystem.mem_childrenOf]
  constructor
  · rintro ⟨⟨-, hparent⟩, hpackage, hfile⟩
    obtain ⟨data, hdata⟩ := Option.isSome_iff_exists.mp hfile
    obtain ⟨before, rest, hfiles, -⟩ := List.lookup_eq_some_iff.mp hdata
    have hf : (path, data) ∈ files := hfiles ▸ List.mem_append_right _ List.mem_cons_self
    exact ⟨hpackage, hparent, List.mem_map_of_mem hf⟩
  · rintro ⟨hpackage, hparent, hfile⟩
    obtain ⟨f, hf, rfl⟩ := List.mem_map.mp hfile
    have hentry := (h.file_iff f.1 f.2).mpr hf
    have hnames : f.1 ∈ contents.map Prod.fst := List.mem_map_of_mem hentry
    have hdata := (packed_lookup h hnames (some f.2)).mpr hentry
    exact ⟨⟨hfs.names.mem_iff.mpr hnames, hparent⟩, hpackage, by rw [hdata]; rfl⟩

/-- The verdict on a package of the build script. -/
theorem built_verdict {manifest : String} {packages : List (String × List UInt8)} {corrupt : Bool}
    {m : Manifest} (hpackage : (buildPackage manifest packages corrupt : Attempt Unit Unit _).run () =
      some (.ok bytes, ())) (hlen : (FileSystem.utf8 manifest).length < 2 ^ 32)
    (hparse : Manifest.parse manifest.toList = some m) : ∃ v : Verdict, verdictOf bytes = some v ∧
      v.manifest = m ∧ v.grantedRealm = home ∧ (corrupt = false → v.integrityOk = true) := by
  obtain ⟨archive, stored, u, harchive, hshort, hstored, hsame, hbytes⟩ := buildPackage_ok hpackage
  obtain ⟨-, -, hverdict⟩ := packed_verdict (s := ()) hlen hshort hstored hbytes
  refine ⟨_, verdictOf_ok (hverdict m hparse), rfl, rfl, fun hcorrupt => ?_⟩
  obtain rfl := hsame.mpr hcorrupt
  exact decide_eq_true rfl

/-- The store's scan of a directory of a packed archive comes to one verdict for each package there
that can be examined at all, in the order of the paths; a package from the build script with a
manifest that parses is among them, in the least realm, and as whole if it was not made corrupt. -/
theorem store_scanned {files : List (String × List UInt8)} {bytes : List UInt8} {n : ℕ}
    {s : Option Mounted} {fs : Mounted} {d : String}
    (hbuilt : (FileSystem.buildArchive files : Attempt Unit Unit _).run () = some (.ok bytes, ()))
    (hmany : (FileSystem.namespaceOf files).ncard < 2 ^ 32)
    (hmount : (FileSystem.mount bytes).run s = some (.ok n, some fs))
    (hdirectory : d = "/" ∨ ∃ f ∈ files, FileSystem.IsAncestor d f.1) : ∃ paths verdicts,
      Packages files d paths ∧ (scan (some fs) d).run () = some (.ok verdicts, ()) ∧
      verdicts = paths.filterMap (fun path => (files.lookup path).bind verdictOf) ∧
      ∀ f ∈ files, f.1 ∈ paths → ∀ manifest packages corrupt m,
        (buildPackage manifest packages corrupt : Attempt Unit Unit _).run () =
          some (.ok f.2, ()) → (FileSystem.utf8 manifest).length < 2 ^ 32 →
        Manifest.parse manifest.toList = some m → ∃ v ∈ verdicts,
          v.manifest = m ∧ v.grantedRealm = home ∧ (corrupt = false → v.integrityOk = true) := by
  obtain ⟨contents, hpacked, hsize, rfl⟩ := FileSystem.buildArchive_ok hbuilt
  have hcount := hpacked.ncard_namespace ▸ hmany
  obtain ⟨n', fs', hrun, hfs⟩ := hpacked.mount_holds hsize hcount s
  obtain rfl := Option.some.inj (Prod.mk.inj (Option.some.inj (hrun.symm.trans hmount))).2
  obtain ⟨well, hwell, hmounted⟩ := FileSystem.mount_well hmount
  obtain rfl := Option.some.inj hwell
  obtain ⟨node, hnode, hisDirectory⟩ := (hfs.isDirectory_iff hpacked).mpr hdirectory
  have hinside : ∀ path ∈ childrenOf fs' d, path ∈ contents.map Prod.fst := fun path hpath =>
    hfs.names.mem_iff.mp (FileSystem.mem_childrenOf.mp hpath).1
  have hscan : (scan (some fs') d).run () = some (.ok
      ((childrenOf fs' d).filterMap (verdictAt fun path => files.lookup path)), ()) := by
    rw [scan, hmounted.readDir hnode hisDirectory]
    dsimp only
    rw [scan_loop fun path hpath => mounted_reads hpacked hsize hfs (hinside path hpath),
      List.nil_append]
  refine ⟨_, _, childrenOf_packages hpacked hfs hmount, hscan, filterMap_verdictAt _ _, ?_⟩
  intro f hf hin manifest packages corrupt m hpackage hlen hparse
  have hlookup : files.lookup f.1 = some f.2 := by
    have hentry := (hpacked.file_iff f.1 f.2).mpr hf
    exact (packed_lookup hpacked (List.mem_map_of_mem hentry) (some f.2)).mpr hentry
  obtain ⟨v, hv, hmanifest, hrealm, hwhole⟩ := built_verdict hpackage hlen hparse
  refine ⟨v, ?_, hmanifest, hrealm, hwhole⟩
  rw [filterMap_verdictAt]
  refine List.mem_filterMap.mpr ⟨f.1, hin, ?_⟩
  rw [hlookup, Option.bind_some, hv]

/-- An archive of one package below the root. -/
theorem onePackage_builds (h : bytes.length < 2 ^ 62) : ∃ archive n fs,
    (FileSystem.buildArchive [("/p.najm", bytes)] : Attempt Unit Unit _).run () =
      some (.ok archive, ()) ∧ (FileSystem.namespaceOf [("/p.najm", bytes)]).ncard = 2 ∧
    (FileSystem.mount archive).run none = some (.ok n, some fs) := by
  have hdirectories : ([("/p.najm", bytes)].foldlM (fun directories file =>
      FileSystem.insertParents (FileSystem.utf8 file.1).length (FileSystem.utf8 file.1) directories)
        ["/"] : Attempt Unit Unit _).run () = some (.ok ["/"], ()) := rfl
  have hinsert : FileSystem.insertNew "/p.najm" (some bytes) [("/", none)] =
      [("/", none), ("/p.najm", some bytes)] := if_neg (show ¬ "/p.najm" ≤ "/" by decide)
  have hcontents : ([("/p.najm", bytes)].foldlM FileSystem.insertFile
      (["/"].map fun directory => (directory, none)) : Attempt Unit Unit _).run () =
        some (.ok [("/", none), ("/p.najm", some bytes)], ()) := by
    rw [List.foldlM_cons, FileSystem.insertFile, bind_assoc, run_demand_bind]
    refine (if_pos (show FileSystem.pathIsValid (FileSystem.utf8 "/p.najm") = true by decide)).trans ?_
    rw [bind_assoc, run_demand_bind]
    refine (if_pos (show "/p.najm" ∉ ["/"] by decide)).trans ?_
    rw [pure_bind, List.foldlM_nil, run_pure]
    exact congrArg (fun contents => some (Except.ok contents, ())) hinsert
  have hpacked := FileSystem.packed_of_folds hdirectories hcontents
  have hblob : FileSystem.blob [("/", none), ("/p.najm", some bytes)] = bytes := by
    simp [FileSystem.blob]
  have hsize : FileSystem.headerSize + [("/", none), ("/p.najm", some bytes)].length *
      FileSystem.entrySize + (FileSystem.blob [("/", none), ("/p.najm", some bytes)]).length <
        2 ^ 63 := by
    have hsizes : FileSystem.headerSize = 24 ∧ FileSystem.entrySize ≤ 1000 := by decide
    rw [hblob, List.length_cons, List.length_cons, List.length_nil]
    omega
  obtain ⟨n, fs, hmount, -⟩ := hpacked.mount_holds hsize (show 2 < 2 ^ 32 by decide) none
  exact ⟨_, n, fs, FileSystem.buildArchive_of_folds hdirectories hcontents hsize,
    hpacked.ncard_namespace, hmount⟩

theorem store_scanned_small : ∃ bytes archive n fs verdicts v,
    (buildPackage smallManifest smallPayload false : Attempt Unit Unit _).run () =
      some (.ok bytes, ()) ∧
    (FileSystem.buildArchive [("/p.najm", bytes)] : Attempt Unit Unit _).run () =
      some (.ok archive, ()) ∧
    (FileSystem.mount archive).run none = some (.ok n, some fs) ∧
    (scan (some fs) "/").run () = some (.ok verdicts, ()) ∧ v ∈ verdicts ∧
      v.manifest.id = "a" ∧ v.integrityOk = true := by
  obtain ⟨payload, hsmall, -, hpayload⟩ := smallPayload_builds
  have hmanifest : (FileSystem.utf8 smallManifest).length = 13 := by decide
  have hlength : (FileSystem.utf8 smallManifest ++ payload).length < 2000 := by
    rw [List.length_append]
    omega
  have hfits : (FileSystem.utf8 smallManifest ++ payload).length < 2 ^ 61 := by omega
  have hbuilt := buildPackage_whole hpayload hfits
  have hparse : Manifest.parse smallManifest.toList =
      some ⟨"a", "", "", "", "/a", realmHome, 0⟩ := by decide
  have hshort : (packed (FileSystem.utf8 smallManifest).length
      (SecureHash.digest (FileSystem.utf8 smallManifest ++ payload))
      (FileSystem.utf8 smallManifest ++ payload)).length < 2 ^ 62 := by
    have hmagic : (magic ++ toBytes 4 version).length = 12 := by decide
    rw [packed, List.length_append, List.length_append, List.length_append, hmagic,
      length_toBytes, length_digest]
    omega
  obtain ⟨archive, n, fs, harchive, hcount, hmount⟩ := onePackage_builds hshort
  obtain ⟨paths, verdicts, hpaths, hscan, -, hverdicts⟩ :=
    store_scanned harchive (by rw [hcount]; decide) hmount (Or.inl rfl)
  have hparent : FileSystem.IsParent "/" "/p.najm" :=
    show FileSystem.parentOf (FileSystem.utf8 "/p.najm") = some (FileSystem.utf8 "/") by decide
  have hin : "/p.najm" ∈ paths :=
    (hpaths.mem_iff _).mpr ⟨show isPackage "/p.najm" = true by decide, hparent,
      List.mem_cons_self⟩
  obtain ⟨v, hv, hsame, -, hwhole⟩ := hverdicts _ List.mem_cons_self hin smallManifest smallPayload
    false _ hbuilt (by rw [hmanifest]; decide) hparse
  exact ⟨_, archive, n, fs, verdicts, v, hbuilt, harchive, hmount, hscan, hv,
    congrArg Manifest.id hsame, hwhole rfl⟩

end Scans

end PackageStore
