import NajmKernel.PackageStore

/-! What the store decides about a package: it comes to a verdict or an error on any bytes, no
realm is given away, and what of the package the digest does not cover. -/
namespace PackageStore

open Attempts Attempt LittleEndian Realms

section Packages

variable {σ : Type} {verifySignature : List UInt8 → Manifest → SignatureStatus}
  {bytes : List UInt8} {s s' : σ} {v : Verdict}

def manifestLen (bytes : List UInt8) : ℕ := field bytes 12 4

def digestField (bytes : List UInt8) : List UInt8 := (bytes.drop 16).take 32

def body (bytes : List UInt8) : List UInt8 := bytes.drop headerSize

theorem run_slice_of_le {γ ε : Type} {l : List γ} {start stop : ℕ}
    (hstart : start ≤ stop) (hstop : stop ≤ l.length) :
    (slice l start stop : Attempt σ ε (List γ)).run s =
      some (.ok ((l.drop start).take (stop - start)), s) :=
  run_slice ⟨hstart, hstop⟩

/-- The checks behind the header, with their slices. -/
theorem verifyWith_run {digest : List UInt8} (hsize : headerSize ≤ bytes.length)
    (hdigest : (Sha256.digest (body bytes) : Attempt σ StoreError (List UInt8)).run s =
      some (.ok digest, s)) :
    (verifyWith verifySignature bytes).run s =
      if bytes.take 8 ≠ magic then some (.error .badMagic, s)
      else if field bytes 8 4 ≠ version then
        some (.error (.unsupportedVersion (field bytes 8 4)), s)
      else if (body bytes).length < manifestLen bytes then some (.error
        (.malformed "the manifest length extends past the end of the package"), s)
      else match Utf8.fromUtf8 ((body bytes).take (manifestLen bytes)) with
        | none => some (.error (.malformed "the manifest is not valid UTF-8"), s)
        | some text => match Manifest.parse text with
          | none => some (.error .badManifest, s)
          | some manifest =>
            let integrityOk := Sha256.digestsEqual digest (digestField bytes)
            let signature := verifySignature bytes manifest
            let effective := if integrityOk then grantedBy signature manifest.requestedRealm
              else home
            some (.ok ⟨manifest, integrityOk, signature, effective,
              decide (manifest.requestedRealm ≠ effective.kind)⟩, s) := by
  have hslice : ∀ {start stop : ℕ}, start ≤ stop → stop ≤ headerSize →
      (slice bytes start stop : Attempt σ StoreError (List UInt8)).run s =
        some (.ok ((bytes.drop start).take (stop - start)), s) :=
    fun hstart hstop => run_slice_of_le hstart (hstop.trans hsize)
  have hfound : (slice bytes 0 8 : Attempt σ StoreError (List UInt8)).run s =
      some (.ok (bytes.take 8), s) := hslice (by decide) (by decide)
  have hversion : (slice bytes 8 12 : Attempt σ StoreError (List UInt8)).run s =
      some (.ok ((bytes.drop 8).take 4), s) := hslice (by decide) (by decide)
  have hlen : (slice bytes 12 16 : Attempt σ StoreError (List UInt8)).run s =
      some (.ok ((bytes.drop 12).take 4), s) := hslice (by decide) (by decide)
  have hexpected : (slice bytes 16 48 : Attempt σ StoreError (List UInt8)).run s =
      some (.ok (digestField bytes), s) := hslice (by decide) (Nat.le_refl _)
  have hbody : (slice bytes headerSize bytes.length : Attempt σ StoreError (List UInt8)).run s =
      some (.ok (body bytes), s) := by
    rw [run_slice_of_le hsize (Nat.le_refl _), ← List.length_drop, List.take_length]
    rfl
  rw [verifyWith, run_ensure_bind, if_pos hsize, run_bind_of_ok hfound, run_ensure_bind]
  by_cases hmagic : bytes.take 8 = magic
  swap
  · rw [if_neg hmagic, if_pos hmagic]
  rw [if_pos hmagic, if_neg (not_not.mpr hmagic), run_bind_of_ok hversion, run_ensure_bind]
  by_cases hsame : field bytes 8 4 = version
  swap
  · rw [if_pos hsame]
    exact if_neg hsame
  rw [if_neg (not_not.mpr hsame)]
  refine (if_pos hsame).trans ?_
  rw [run_bind_of_ok hlen, run_bind_of_ok hexpected, run_bind_of_ok hbody, run_ensure_bind]
  by_cases hinside : manifestLen bytes ≤ (body bytes).length
  swap
  · rw [if_pos (Nat.not_le.mp hinside)]
    exact if_neg hinside
  rw [if_neg (Nat.not_lt.mpr hinside)]
  refine (if_pos hinside).trans ?_
  have hmanifest : (slice (body bytes) 0 (manifestLen bytes) :
      Attempt σ StoreError (List UInt8)).run s =
        some (.ok ((body bytes).take (manifestLen bytes)), s) :=
    run_slice_of_le (Nat.zero_le _) hinside
  rw [run_bind_of_ok hdigest]
  refine (run_bind_of_ok hmanifest).trans ?_
  cases Utf8.fromUtf8 ((body bytes).take (manifestLen bytes)) with
  | none => rfl
  | some text =>
    simp only
    cases Manifest.parse text with
    | none => rfl
    | some manifest => rfl

theorem verifyWith_small (hsmall : bytes.length < headerSize) :
    (verifyWith verifySignature bytes).run s = some (.error .tooSmall, s) := by
  rw [verifyWith, run_ensure_bind, if_neg (Nat.not_le.mpr hsmall)]

theorem verifyWith_returns (verifySignature : List UInt8 → Manifest → SignatureStatus)
    (bytes : List UInt8) (s : σ) : ∃ r, (verifyWith verifySignature bytes).run s = some (r, s) := by
  rcases Nat.lt_or_ge bytes.length headerSize with hsmall | hsize
  · exact ⟨_, verifyWith_small hsmall⟩
  · obtain ⟨digest, hdigest, -⟩ := Sha256.digest_ok (ε := StoreError) (s := s) (body bytes)
    rw [verifyWith_run hsize hdigest]
    repeat' split
    all_goals exact ⟨_, rfl⟩

/-- What an accepted package has passed, and the verdict that its manifest and its digest make. -/
theorem verifyWith_ok (h : (verifyWith verifySignature bytes).run s = some (.ok v, s')) :
    ∃ digest text, headerSize ≤ bytes.length ∧ manifestLen bytes ≤ (body bytes).length ∧
      (Sha256.digest (body bytes) : Attempt σ StoreError (List UInt8)).run s =
        some (.ok digest, s) ∧
      Utf8.fromUtf8 ((body bytes).take (manifestLen bytes)) = some text ∧
      Manifest.parse text = some v.manifest ∧
      v.integrityOk = Sha256.digestsEqual digest (digestField bytes) ∧
      v.signature = verifySignature bytes v.manifest ∧
      v.grantedRealm =
        (if v.integrityOk then grantedBy v.signature v.manifest.requestedRealm else home) ∧
      v.requestDenied = decide (v.manifest.requestedRealm ≠ v.grantedRealm.kind) := by
  rcases Nat.lt_or_ge bytes.length headerSize with hsmall | hsize
  · rw [verifyWith_small hsmall] at h
    exact absurd h nofun
  obtain ⟨digest, hdigest, -⟩ := Sha256.digest_ok (ε := StoreError) (s := s) (body bytes)
  rw [verifyWith_run hsize hdigest] at h
  split at h
  · exact absurd h nofun
  split at h
  · exact absurd h nofun
  split at h
  · exact absurd h nofun
  next hlen =>
  split at h
  · exact absurd h nofun
  next text htext =>
  split at h
  · exact absurd h nofun
  next manifest hmanifest =>
  obtain rfl := Except.ok.inj (Prod.mk.inj (Option.some.inj h)).1
  exact ⟨digest, text, hsize, Nat.not_lt.mp hlen, hdigest, htext, hmanifest, rfl, rfl, rfl, rfl⟩

theorem grantedBy_cases (signature : SignatureStatus) (requested : ℕ) :
    grantedBy signature requested = home ∨ signature = .verified ∧
      (requested = realmVault ∧ grantedBy signature requested = vault ∨
        requested = realmGaming ∧ grantedBy signature requested = gaming) := by
  cases signature with
  | verified =>
    rw [grantedBy]
    by_cases hvault : requested = realmVault
    · exact Or.inr ⟨rfl, Or.inl ⟨hvault, if_pos hvault⟩⟩
    · by_cases hgaming : requested = realmGaming
      · rw [if_neg hvault]
        exact Or.inr ⟨rfl, Or.inr ⟨hgaming, if_pos hgaming⟩⟩
      · rw [if_neg hvault, if_neg hgaming]
        exact Or.inl rfl
  | _ => exact Or.inl rfl

/-- A realm above the home realm is a credential: the signature's, over contents that are whole. -/
structure FailsClosed (verifySignature : List UInt8 → Manifest → SignatureStatus)
    (bytes : List UInt8) (v : Verdict) : Prop where
  signature : v.signature = verifySignature bytes v.manifest
  elevated : v.grantedRealm ≠ home → v.signature = .verified ∧ v.integrityOk = true ∧
    v.manifest.requestedRealm = v.grantedRealm.kind ∧
    (v.grantedRealm = gaming ∨ v.grantedRealm = vault)
  notSystem : v.grantedRealm ≠ system ∧ v.grantedRealm.kind ≠ realmSystem
  denied : v.requestDenied = true ↔ v.manifest.requestedRealm ≠ v.grantedRealm.kind
  narrowed : ∀ right : Right, (effectiveProfile v).allows right = true →
    v.grantedRealm.allows right = true
  narrowedBits : (effectiveProfile v).capabilities &&& v.grantedRealm.capabilities =
    (effectiveProfile v).capabilities

theorem effectiveProfile_capabilities (v : Verdict) :
    (effectiveProfile v).capabilities &&& v.grantedRealm.capabilities =
      (effectiveProfile v).capabilities := by
  rw [effectiveProfile]
  split
  · rw [Nat.and_comm, ← Nat.and_assoc, Nat.and_self]
  · exact Nat.and_self _

theorem verifyWith_failsClosed
    (h : (verifyWith verifySignature bytes).run s = some (.ok v, s')) :
    FailsClosed verifySignature bytes v := by
  obtain ⟨digest, text, -, -, -, -, -, -, hsignature, hgranted, hdenied⟩ := verifyWith_ok h
  have hcases : v.grantedRealm = home ∨ v.signature = .verified ∧ v.integrityOk = true ∧
      (v.manifest.requestedRealm = realmVault ∧ v.grantedRealm = vault ∨
        v.manifest.requestedRealm = realmGaming ∧ v.grantedRealm = gaming) := by
    cases hintegrity : v.integrityOk with
    | false =>
      rw [hintegrity] at hgranted
      exact Or.inl hgranted
    | true =>
      rw [hintegrity, if_pos rfl] at hgranted
      rw [hgranted]
      exact (grantedBy_cases _ _).imp_right fun ⟨hverified, hrealm⟩ => ⟨hverified, rfl, hrealm⟩
  refine ⟨hsignature, fun helevated => ?_, ?_, ?_, fun right hright => ?_,
    effectiveProfile_capabilities v⟩
  · rcases hcases with hhome | ⟨hverified, hintegrity, ⟨hvault, hrealm⟩ | ⟨hgaming, hrealm⟩⟩
    · exact absurd hhome helevated
    · rw [hvault, hrealm]
      exact ⟨hverified, hintegrity, rfl, Or.inr rfl⟩
    · rw [hgaming, hrealm]
      exact ⟨hverified, hintegrity, rfl, Or.inl rfl⟩
  · rcases hcases with hrealm | ⟨-, -, ⟨-, hrealm⟩ | ⟨-, hrealm⟩⟩ <;> rw [hrealm] <;> decide
  · rw [hdenied, decide_eq_true_iff]
  · have hbits := congrArg (·.testBit right.bit) (effectiveProfile_capabilities v)
    simp only [Nat.testBit_and] at hbits
    unfold RealmProfile.allows at hright ⊢
    rw [hright, Bool.true_and] at hbits
    exact hbits

/-- The verifier that is there verifies nothing. -/
theorem verify_home (h : (verify bytes).run s = some (.ok v, s')) : v.grantedRealm = home := by
  have hclosed := verifyWith_failsClosed h
  by_contra helevated
  have hverified := (hclosed.elevated helevated).1
  rw [hclosed.signature] at hverified
  exact absurd hverified nofun

/-- On any bytes and with any verifier, the store comes to an answer and gives no realm away. -/
theorem realms_fail_closed (verifySignature : List UInt8 → Manifest → SignatureStatus)
    (bytes : List UInt8) :
    (∃ r, (verifyWith verifySignature bytes : Attempt Unit StoreError Verdict).run () =
      some (r, ())) ∧
    (∀ v, (verifyWith verifySignature bytes : Attempt Unit StoreError Verdict).run () =
      some (.ok v, ()) → FailsClosed verifySignature bytes v) ∧
    ∀ v, (verify bytes : Attempt Unit StoreError Verdict).run () = some (.ok v, ()) →
      v.grantedRealm = home :=
  ⟨verifyWith_returns verifySignature bytes (), fun _ h => verifyWith_failsClosed h,
    fun _ h => verify_home h⟩

end Packages

end PackageStore
