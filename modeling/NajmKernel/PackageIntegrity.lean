import NajmKernel.PackageVerdicts

/-! What of a package its digest covers: all but the length that says where the manifest ends. -/
namespace PackageStore

open Attempts Attempt LittleEndian Realms

section Integrity

variable {σ ε : Type} {p q bytes digest contents : List UInt8} {v w : Verdict} {s : σ} {len : ℕ}

/-- `verify` accepts the package and its digest. -/
def Passes (bytes : List UInt8) (v : Verdict) : Prop :=
  (verify bytes : Attempt Unit StoreError Verdict).run () = some (.ok v, ()) ∧ v.integrityOk = true

theorem payload_ok (hsize : headerSize ≤ bytes.length)
    (hlen : manifestLen bytes ≤ (body bytes).length) :
    (payload bytes : Attempt σ StoreError (List UInt8)).run s =
      some (.ok ((body bytes).drop (manifestLen bytes)), s) := by
  have hbody : (body bytes).length = bytes.length - headerSize := List.length_drop
  have hfits : headerSize + manifestLen bytes ≤ bytes.length := by omega
  have hsmall : headerSize + manifestLen bytes < 2 ^ 64 := by
    have hfield : manifestLen bytes < 256 ^ 4 := field_lt bytes 12 4
    unfold headerSize
    omega
  rw [payload, run_ensure_bind, if_pos hsize,
    run_bind_of_ok (run_slice_of_le (by decide) (Nat.le_trans (by decide) hsize))]
  refine (run_sum_bind hsmall).trans ?_
  refine run_ensure_bind.trans ?_
  refine (if_pos hfits).trans ?_
  refine (run_slice_of_le hfits (Nat.le_refl _)).trans ?_
  rw [← List.length_drop, List.take_length, body, List.drop_drop]

/-- Two packages of one body and one digest are the same to the store exactly where their manifests
end at the same byte. -/
theorem package_decision_iff (hcovered : digestField p = digestField q ∧ body p = body q)
    (hp : Passes p v) (hq : Passes q w) :
    (v.manifest = w.manifest ∧ effectiveProfile v = effectiveProfile w ∧
      (payload p : Attempt Unit StoreError (List UInt8)).run () = (payload q).run ()) ↔
      manifestLen p = manifestLen q := by
  have hbody := hcovered.2
  obtain ⟨_, text, hsize, hlen, -, htext, hmanifest, -⟩ := verifyWith_ok hp.1
  obtain ⟨_, text', hsize', hlen', -, htext', hmanifest', -⟩ := verifyWith_ok hq.1
  rw [payload_ok hsize hlen, payload_ok hsize' hlen', hbody]
  constructor
  · rintro ⟨-, -, hpayload⟩
    have hdrop := Except.ok.inj (Prod.mk.inj (Option.some.inj hpayload)).1
    have hlength := congrArg List.length hdrop
    rw [List.length_drop, List.length_drop] at hlength
    rw [hbody] at hlen
    omega
  · intro hsame
    rw [hsame, hbody, htext'] at htext
    obtain rfl := Option.some.inj htext
    have hequal : v.manifest = w.manifest := Option.some.inj (hmanifest.symm.trans hmanifest')
    refine ⟨hequal, ?_, by rw [hsame]⟩
    rw [effectiveProfile, effectiveProfile, hequal, verify_home hp.1, verify_home hq.1]

/-- The layout that `build_package` writes. -/
def packed (len : ℕ) (digest contents : List UInt8) : List UInt8 :=
  magic ++ toBytes 4 version ++ toBytes 4 len ++ digest ++ contents

theorem packed_fields (contents : List UInt8) (hlen : len < 2 ^ 32) (hdigest : digest.length = 32) :
    (packed len digest contents).take 8 = magic ∧ field (packed len digest contents) 8 4 = version ∧
      manifestLen (packed len digest contents) = len ∧
      digestField (packed len digest contents) = digest ∧
      body (packed len digest contents) = contents ∧
      headerSize ≤ (packed len digest contents).length := by
  obtain ⟨b₀, b₁, b₂, b₃, hbytes⟩ : ∃ b₀ b₁ b₂ b₃, toBytes 4 len = [b₀, b₁, b₂, b₃] :=
    ⟨_, _, _, _, rfl⟩
  have hpacked : packed len digest contents =
      [0x4E, 0x41, 0x4A, 0x4D, 0x50, 0x4B, 0x47, 0, 1, 0, 0, 0, b₀, b₁, b₂, b₃] ++
        (digest ++ contents) := by
    rw [packed, hbytes, List.append_assoc]
    rfl
  have hvalue : ofBytes [b₀, b₁, b₂, b₃] = len := by
    rw [← hbytes, ofBytes_toBytes_of_lt (by omega)]
  rw [hpacked]
  refine ⟨rfl, rfl, hvalue, ?_, ?_, ?_⟩
  · exact List.take_left' hdigest
  · exact List.drop_left' hdigest
  · rw [List.length_append, List.length_append, hdigest, headerSize]
    simp only [List.length_cons, List.length_nil]
    omega

theorem digestsEqual_self (digest : List UInt8) : Sha256.digestsEqual digest digest = true := by
  have hfold : ∀ (l : List UInt8) (n : UInt8),
      (l.zip l).foldl (fun difference ab => difference ||| ab.1 ^^^ ab.2) n = n := by
    intro l
    induction l with
    | nil => exact fun _ => rfl
    | cons b l ih =>
      intro n
      rw [List.zip_cons_cons, List.foldl_cons, ih, UInt8.xor_self, UInt8.or_zero]
  rw [Sha256.digestsEqual, hfold]
  rfl

/-- A package that carries its own digest passes, with the manifest before the length. -/
theorem packed_passes {manifest : Manifest} (hlen : len < 2 ^ 32)
    (hinside : len ≤ contents.length) (hdigest : digest.length = 32)
    (hrun : (Sha256.digest contents : Attempt Unit StoreError (List UInt8)).run () =
      some (.ok digest, ()))
    (hmanifest : (Utf8.fromUtf8 (contents.take len)).bind Manifest.parse = some manifest) :
    ∃ v, Passes (packed len digest contents) v ∧ v.manifest = manifest := by
  obtain ⟨text, htext, hparse⟩ := Option.bind_eq_some_iff.mp hmanifest
  obtain ⟨hmagic, hversion, hmanifestLen, hfield, hbody, hsize⟩ :=
    packed_fields contents hlen hdigest
  have hverify : (verify (packed len digest contents) : Attempt Unit StoreError Verdict).run () = _ :=
    verifyWith_run hsize (hbody.symm ▸ hrun)
  rw [hmagic, hversion, hbody, hmanifestLen, hfield, htext, if_neg (not_not.mpr rfl),
    if_neg (not_not.mpr rfl), if_neg (Nat.not_lt.mpr hinside)] at hverify
  simp only [hparse] at hverify
  exact ⟨_, ⟨hverify, digestsEqual_self digest⟩, rfl⟩

/-- The lines `id=a`, `entry=b` and `capability=timer_read`. -/
def threeLines : List UInt8 :=
  [0x69, 0x64, 0x3D, 0x61, 0x0A, 0x65, 0x6E, 0x74, 0x72, 0x79, 0x3D, 0x62, 0x0A, 0x63, 0x61, 0x70,
    0x61, 0x62, 0x69, 0x6C, 0x69, 0x74, 0x79, 0x3D, 0x74, 0x69, 0x6D, 0x65, 0x72, 0x5F, 0x72, 0x65,
    0x61, 0x64]

theorem threeLines_whole : (Utf8.fromUtf8 (threeLines.take 34)).bind Manifest.parse =
    some ⟨"a", "", "", "", "b", realmHome, 2⟩ := by decide

theorem threeLines_cut : (Utf8.fromUtf8 (threeLines.take 12)).bind Manifest.parse =
    some ⟨"a", "", "", "", "b", realmHome, 0⟩ := by decide

theorem package_decision_iff_threeLines : ∃ digest v w,
    Passes (packed 34 digest threeLines) v ∧ Passes (packed 34 digest threeLines) w ∧
      v.manifest = w.manifest := by
  obtain ⟨digest, hrun, hdigest⟩ := Sha256.digest_ok (ε := StoreError) (s := ()) threeLines
  obtain ⟨v, hv, -⟩ := packed_passes (by decide) (by decide) hdigest hrun threeLines_whole
  exact ⟨digest, v, v, hv, hv, ((package_decision_iff ⟨rfl, rfl⟩ hv hv).mpr rfl).1⟩

/-- A length that the digest does not cover ends the manifest before the line that narrows the
package's rights. -/
theorem boundary_not_covered : ∃ digest v w,
    digestField (packed 34 digest threeLines) = digestField (packed 12 digest threeLines) ∧
      body (packed 34 digest threeLines) = body (packed 12 digest threeLines) ∧
      Passes (packed 34 digest threeLines) v ∧ Passes (packed 12 digest threeLines) w ∧
      (effectiveProfile v).allows .serialWrite = false ∧
      (effectiveProfile w).allows .serialWrite = true := by
  obtain ⟨digest, hrun, hdigest⟩ := Sha256.digest_ok (ε := StoreError) (s := ()) threeLines
  obtain ⟨v, hv, hvm⟩ := packed_passes (by decide) (by decide) hdigest hrun threeLines_whole
  obtain ⟨w, hw, hwm⟩ := packed_passes (by decide) (by decide) hdigest hrun threeLines_cut
  obtain ⟨-, -, -, hfield, hbody, -⟩ :=
    packed_fields threeLines (show 34 < 2 ^ 32 by decide) hdigest
  obtain ⟨-, -, -, hfield', hbody', -⟩ :=
    packed_fields threeLines (show 12 < 2 ^ 32 by decide) hdigest
  refine ⟨digest, v, w, hfield.trans hfield'.symm, hbody.trans hbody'.symm, hv, hw, ?_, ?_⟩
  · rw [effectiveProfile, hvm, verify_home hv.1]
    decide
  · rw [effectiveProfile, hwm, verify_home hw.1]
    decide

end Integrity

end PackageStore
