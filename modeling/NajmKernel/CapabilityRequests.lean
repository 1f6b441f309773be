import NajmKernel.PackageIntegrity

/-! What the capability lines of a manifest come to: the rights that they name, and all of the
realm's where they name none that exists. -/
namespace PackageStore

open Attempts Attempt LittleEndian Realms

section Requests

variable {text : List Char} {name : String} {right : Right} {k : ℕ}

/-- What a line names, if it is a capability line. -/
def requested (line : List Char) : Option String :=
  if trim line = [] ∨ (trim line).head? = some '#' then none
  else (splitOnce '=' (trim line)).bind fun (key, value) =>
    if String.ofList (trim key) = "capability" then some (String.ofList (trim value)) else none

/-- The names on the capability lines of a manifest, whether or not they are known. -/
def requests (text : List Char) : List String := (lines text).filterMap requested

/-- The name is that of the right with this bit. -/
def Names (name : String) (k : ℕ) : Prop := ∃ right, capabilityBit name = some right ∧ right.bit = k

theorem bit_injective {r r' : Right} (h : r.bit = r'.bit) : r = r' := by
  cases r <;> cases r' <;> first | rfl | exact absurd h (by decide)

theorem names_bit : Names name right.bit ↔ capabilityBit name = some right := by
  constructor
  · rintro ⟨named, hname, hbit⟩
    rw [hname, bit_injective hbit]
  · exact fun h => ⟨right, h, rfl⟩

theorem set_capabilities (m : Manifest) (key value : String) :
    (m.set key value).requestedCapabilities.testBit k = true ↔
      m.requestedCapabilities.testBit k = true ∨ key = "capability" ∧ Names value k := by
  unfold Manifest.set
  split
  case h_7 =>
    cases hbit : capabilityBit value with
    | none => simp [Names, hbit]
    | some named =>
      simp only [Names, Nat.testBit_or, Bool.or_eq_true, true_and, hbit, Option.some.injEq,
        exists_eq_left']
      rw [Nat.one_shiftLeft, Nat.testBit_two_pow, decide_eq_true_iff]
  case h_8 hother => exact (or_iff_left fun h => hother h.1).symm
  all_goals simp

/-- A line sets the bit of the right that it names, and no other. -/
theorem readLine_capabilities (m : Manifest) (line : List Char) :
    (m.readLine line).requestedCapabilities.testBit k = true ↔
      m.requestedCapabilities.testBit k = true ∨ ∃ name, requested line = some name ∧ Names name k := by
  simp only [Manifest.readLine, requested]
  split
  · simp
  cases splitOnce '=' (trim line) with
  | none => simp
  | some pair =>
    obtain ⟨key, value⟩ := pair
    rw [set_capabilities, Option.bind_some]
    refine or_congr_right ?_
    simp only
    by_cases hkey : String.ofList (trim key) = "capability"
    · rw [if_pos hkey]
      simp [hkey]
    · rw [if_neg hkey]
      simp [hkey]

theorem readLines_capabilities (ls : List (List Char)) (m : Manifest) :
    (ls.foldl Manifest.readLine m).requestedCapabilities.testBit k = true ↔
      m.requestedCapabilities.testBit k = true ∨ ∃ name ∈ ls.filterMap requested, Names name k := by
  induction ls generalizing m with
  | nil => simp
  | cons line ls ih =>
    rw [List.foldl_cons, ih, readLine_capabilities, or_assoc]
    refine or_congr_right ?_
    constructor
    · rintro (⟨name, hname, hbit⟩ | ⟨name, hname, hbit⟩)
      · exact ⟨name, List.mem_filterMap.mpr ⟨line, List.mem_cons_self, hname⟩, hbit⟩
      · obtain ⟨other, hother, hrequested⟩ := List.mem_filterMap.mp hname
        exact ⟨name, List.mem_filterMap.mpr ⟨other, List.mem_cons_of_mem _ hother, hrequested⟩, hbit⟩
    · rintro ⟨name, hname, hbit⟩
      obtain ⟨other, hother, hrequested⟩ := List.mem_filterMap.mp hname
      rcases List.mem_cons.mp hother with rfl | hother
      · exact Or.inl ⟨name, hrequested, hbit⟩
      · exact Or.inr ⟨name, List.mem_filterMap.mpr ⟨other, hother, hrequested⟩, hbit⟩

/-- The bits of a parsed manifest are the rights that its lines name. -/
theorem parse_capabilities {manifest : Manifest} (h : Manifest.parse text = some manifest) :
    manifest.requestedCapabilities.testBit k = true ↔ ∃ name ∈ requests text, Names name k := by
  unfold Manifest.parse at h
  simp only at h
  split at h
  · nomatch h
  rw [← Option.some.inj h, readLines_capabilities, Nat.zero_testBit]
  exact or_iff_right Bool.false_ne_true

theorem parse_capabilities_ne_zero {manifest : Manifest} (h : Manifest.parse text = some manifest) :
    manifest.requestedCapabilities ≠ 0 ↔ ∃ name ∈ requests text, (capabilityBit name).isSome = true := by
  constructor
  · intro hne
    obtain ⟨k, hk⟩ := Nat.exists_testBit_of_ne_zero hne
    obtain ⟨name, hname, right, hright, -⟩ := (parse_capabilities h).mp hk
    exact ⟨name, hname, Option.isSome_iff_exists.mpr ⟨right, hright⟩⟩
  · rintro ⟨name, hname, hknown⟩ hzero
    obtain ⟨right, hright⟩ := Option.isSome_iff_exists.mp hknown
    have hbit := (parse_capabilities (k := right.bit) h).mpr ⟨name, hname, right, hright, rfl⟩
    rw [hzero, Nat.zero_testBit] at hbit
    exact Bool.false_ne_true hbit

end Requests

section Narrowing

variable {bytes digest contents : List UInt8} {text : List Char} {v : Verdict} {len : ℕ}

def manifestText (bytes : List UInt8) : Option (List Char) :=
  Utf8.fromUtf8 ((body bytes).take (manifestLen bytes))

/-- `verify` accepts the package, whose manifest is this text. -/
def Accepted (bytes : List UInt8) (text : List Char) (v : Verdict) : Prop :=
  (verify bytes : Attempt Unit StoreError Verdict).run () = some (.ok v, ()) ∧
    manifestText bytes = some text

/-- No right is granted but one that some capability line names. -/
def OnlyNamed (text : List Char) (v : Verdict) : Prop :=
  ∀ right : Right, (effectiveProfile v).allows right = true →
    ∃ name ∈ requests text, capabilityBit name = some right

theorem accepted_manifest (h : Accepted bytes text v) : Manifest.parse text = some v.manifest := by
  obtain ⟨_, found, -, -, -, htext, hparse, -⟩ := verifyWith_ok h.1
  obtain rfl := Option.some.inj (htext.symm.trans h.2)
  exact hparse

/-- The packages with a known name on a capability line are narrowed to what is named, and the others
get all that their realm has. -/
theorem only_named_iff (h : Accepted bytes text v) :
    OnlyNamed text v ↔ ∃ name ∈ requests text, (capabilityBit name).isSome = true := by
  have hparse := accepted_manifest h
  rw [← parse_capabilities_ne_zero hparse]
  constructor
  · intro honly hzero
    have hwhole : (effectiveProfile v).allows .serialWrite = true := by
      rw [effectiveProfile, verify_home h.1, if_neg (not_not.mpr hzero)]
      rfl
    obtain ⟨name, hname, hknown⟩ := honly _ hwhole
    exact (parse_capabilities_ne_zero hparse).mpr ⟨name, hname, by rw [hknown]; rfl⟩ hzero
  · intro hne right hright
    rw [effectiveProfile, if_pos hne, RealmProfile.allows, Nat.testBit_and, Bool.and_eq_true] at hright
    obtain ⟨name, hname, hnames⟩ := (parse_capabilities hparse).mp hright.2
    exact ⟨name, hname, names_bit.mp hnames⟩

theorem packed_accepted {manifest : Manifest} (hinside : contents.length < 2 ^ 32)
    (htext : Utf8.fromUtf8 contents = some text) (hparse : Manifest.parse text = some manifest) :
    ∃ digest v, Accepted (packed contents.length digest contents) text v ∧ v.manifest = manifest := by
  obtain ⟨digest, hrun, hdigest⟩ := Sha256.digest_ok (ε := StoreError) (s := ()) contents
  have hbind : (Utf8.fromUtf8 (contents.take contents.length)).bind Manifest.parse =
      some manifest := by
    rw [List.take_length, htext, Option.bind_some, hparse]
  obtain ⟨v, hv, hmanifest⟩ := packed_passes hinside (Nat.le_refl _) hdigest hrun hbind
  obtain ⟨-, -, hlen, -, hbody, -⟩ := packed_fields contents hinside hdigest
  refine ⟨digest, v, ⟨hv.1, ?_⟩, hmanifest⟩
  rw [manifestText, hlen, hbody, List.take_length, htext]

theorem only_named_iff_threeLines : ∃ bytes text v, Accepted bytes text v ∧
    requests text = ["timer_read"] ∧ OnlyNamed text v := by
  have htext : ∃ text, Utf8.fromUtf8 threeLines = some text ∧ requests text = ["timer_read"] ∧
      Manifest.parse text = some ⟨"a", "", "", "", "b", realmHome, 2⟩ :=
    ⟨_, rfl, by decide, by decide⟩
  obtain ⟨text, htext, hrequests, hparse⟩ := htext
  obtain ⟨digest, v, haccepted, -⟩ := packed_accepted (by decide) htext hparse
  refine ⟨_, text, v, haccepted, hrequests, ?_⟩
  refine (only_named_iff haccepted).mpr ?_
  exact ⟨"timer_read", by rw [hrequests]; exact List.mem_singleton_self _, rfl⟩

/-- The lines `id=a`, `entry=b` and `capability=timer_raed`. -/
def misspelled : List UInt8 :=
  [0x69, 0x64, 0x3D, 0x61, 0x0A, 0x65, 0x6E, 0x74, 0x72, 0x79, 0x3D, 0x62, 0x0A, 0x63, 0x61, 0x70,
    0x61, 0x62, 0x69, 0x6C, 0x69, 0x74, 0x79, 0x3D, 0x74, 0x69, 0x6D, 0x65, 0x72, 0x5F, 0x72, 0x61,
    0x65, 0x64]

/-- The misspelled name of one right gets the package all of them. -/
theorem misspelled_widens : ∃ bytes text v, Accepted bytes text v ∧
    requests text = ["timer_raed"] ∧ (effectiveProfile v).allows .serialWrite = true ∧
      ¬ OnlyNamed text v := by
  have htext : ∃ text, Utf8.fromUtf8 misspelled = some text ∧ requests text = ["timer_raed"] ∧
      Manifest.parse text = some ⟨"a", "", "", "", "b", realmHome, 0⟩ :=
    ⟨_, rfl, by decide, by decide⟩
  obtain ⟨text, htext, hrequests, hparse⟩ := htext
  obtain ⟨digest, v, haccepted, hmanifest⟩ := packed_accepted (by decide) htext hparse
  have hwhole : (effectiveProfile v).allows .serialWrite = true := by
    rw [effectiveProfile, verify_home haccepted.1, hmanifest]
    decide
  refine ⟨_, text, v, haccepted, hrequests, hwhole, fun honly => ?_⟩
  obtain ⟨name, hname, hknown⟩ := honly _ hwhole
  rw [hrequests, List.mem_singleton] at hname
  rw [hname] at hknown
  exact absurd hknown (by decide)

end Narrowing

end PackageStore
