import Mathlib.Data.List.TakeWhile
import NajmKernel.PeParser

/-! UTF-8: the bytes of a text, and the texts that bytes are. -/
namespace Utf8

open PeParser

section Decoding

/-- `core::str::from_utf8`, on as many turns as there are bytes. -/
def strictChars : ℕ → List UInt8 → Option (List Char)
  | 0, _ => some []
  | _, [] => some []
  | turns + 1, b :: rest =>
    if b < 0x80 then (Char.ofNat b.toNat :: ·) <$> strictChars turns rest
    else match sequence b with
      | none => none
      | some (len, _, _) =>
        let count := following b rest
        if count + 1 = len then
          (Char.ofNat (scalar b (rest.take count)) :: ·) <$> strictChars turns (rest.drop count)
        else none

def fromUtf8 (bytes : List UInt8) : Option (List Char) := strictChars bytes.length bytes

/-- `String::from_utf8_lossy`, as a list of characters. -/
def lossy (bytes : List UInt8) : List Char := lossyChars bytes.length bytes

end Decoding

section Sequences

theorem toNat_ofNat {n : ℕ} (h : n.isValidChar) : (Char.ofNat n).val.toNat = n := by
  rw [Char.ofNat, dif_pos h]
  rfl

theorem encode_of {n : ℕ} (h : n.isValidChar) : String.utf8EncodeChar (Char.ofNat n) =
    if n ≤ 0x7F then [UInt8.ofNat n]
    else if n ≤ 0x7FF then [UInt8.ofNat (n / 64 % 32 + 0xC0), UInt8.ofNat (n % 64 + 0x80)]
    else if n ≤ 0xFFFF then [UInt8.ofNat (n / 4096 % 16 + 0xE0), UInt8.ofNat (n / 64 % 64 + 0x80),
      UInt8.ofNat (n % 64 + 0x80)]
    else [UInt8.ofNat (n / 262144 % 8 + 0xF0), UInt8.ofNat (n / 4096 % 64 + 0x80),
      UInt8.ofNat (n / 64 % 64 + 0x80), UInt8.ofNat (n % 64 + 0x80)] := by
  rw [String.utf8EncodeChar, toNat_ofNat h]

theorem ofNat_eq {b : UInt8} {n : ℕ} (h : n = b.toNat) : UInt8.ofNat n = b := by
  rw [h, UInt8.ofNat_toNat]

theorem sequence_cases {b lo hi : UInt8} {len : ℕ} (h : sequence b = some (len, lo, hi)) :
    len = 2 ∧ 0xC2 ≤ b.toNat ∧ b.toNat < 0xE0 ∧ lo.toNat = 0x80 ∧ hi.toNat = 0xBF ∨
    len = 3 ∧ 0xE0 ≤ b.toNat ∧ b.toNat < 0xF0 ∧ 0x80 ≤ lo.toNat ∧ hi.toNat ≤ 0xBF ∧
      (b.toNat = 0xE0 → lo.toNat = 0xA0) ∧ (b.toNat = 0xED → hi.toNat = 0x9F) ∨
    len = 4 ∧ 0xF0 ≤ b.toNat ∧ b.toNat < 0xF5 ∧ 0x80 ≤ lo.toNat ∧ hi.toNat ≤ 0xBF ∧
      (b.toNat = 0xF0 → lo.toNat = 0x90) ∧ (b.toNat = 0xF4 → hi.toNat = 0x8F) := by
  simp only [PeParser.sequence, UInt8.le_iff_toNat_le, UInt8.lt_iff_toNat_lt, ← UInt8.toNat_inj] at h
  split_ifs at h <;> simp only [Option.some.injEq, Prod.mk.injEq] at h <;>
    obtain ⟨rfl, rfl, rfl⟩ := h <;> simp at * <;> omega

/-- The bytes behind the first of a sequence of more than one. -/
def Completes (b : UInt8) (tail : List UInt8) : Prop :=
  ∃ lo hi c rest, sequence b = some (tail.length + 1, lo, hi) ∧ tail = c :: rest ∧
    lo ≤ c ∧ c ≤ hi ∧ ∀ d ∈ rest, isContinuation d = true

theorem following_none {b : UInt8} {rest : List UInt8} (hs : sequence b = none) :
    following b rest = 0 := by
  unfold following
  rw [hs]

theorem following_nil {b : UInt8} : following b [] = 0 := by
  unfold following
  cases sequence b <;> rfl

theorem following_cons {b lo hi c : UInt8} {len : ℕ} {rest : List UInt8}
    (hs : sequence b = some (len, lo, hi)) : following b (c :: rest) =
      if lo ≤ c ∧ c ≤ hi then 1 + ((rest.take (len - 2)).takeWhile isContinuation).length
      else 0 := by
  unfold following
  rw [hs]

theorem following_le {b : UInt8} {rest : List UInt8} : following b rest ≤ rest.length := by
  cases hs : sequence b with
  | none => exact following_none hs ▸ Nat.zero_le _
  | some found =>
    obtain ⟨len, lo, hi⟩ := found
    cases rest with
    | nil => exact following_nil ▸ Nat.zero_le _
    | cons c rest =>
      rw [following_cons hs, List.length_cons]
      split
      · have hwhile := (List.takeWhile_prefix isContinuation (l := rest.take (len - 2))).length_le
        rw [List.length_take] at hwhile
        omega
      · exact Nat.zero_le _

theorem completes_of_following {b lo hi : UInt8} {len : ℕ} {rest : List UInt8}
    (hs : sequence b = some (len, lo, hi)) (hf : following b rest + 1 = len) :
    Completes b (rest.take (following b rest)) := by
  have hlen : 2 ≤ len := by
    rcases sequence_cases hs with h | h | h <;> omega
  cases rest with
  | nil =>
    rw [following_nil] at hf
    omega
  | cons c rest =>
    have hcons : following b (c :: rest) = _ := following_cons hs
    by_cases hrange : lo ≤ c ∧ c ≤ hi
    · rw [if_pos hrange] at hcons
      have hprefix := List.takeWhile_prefix isContinuation (l := rest.take (len - 2))
      have hle := hprefix.length_le
      have htake : (rest.take (len - 2)).length ≤ len - 2 := List.length_take_le _ _
      have hall : (rest.take (len - 2)).takeWhile isContinuation = rest.take (len - 2) :=
        hprefix.eq_of_length (by omega)
      have hcount : following b (c :: rest) = (len - 2) + 1 := by omega
      rw [hall] at hcons
      rw [hcount, List.take_succ_cons]
      refine ⟨lo, hi, c, rest.take (len - 2), ?_, rfl, hrange.1, hrange.2, ?_⟩
      · rw [hs, List.length_cons, show (rest.take (len - 2)).length + 1 + 1 = len by omega]
      · exact List.takeWhile_eq_self_iff.mp hall
    · rw [if_neg hrange] at hcons
      omega

theorem following_of_completes {b : UInt8} {tail rest : List UInt8} (h : Completes b tail) :
    following b (tail ++ rest) = tail.length := by
  obtain ⟨lo, hi, c, mid, hs, rfl, hlo, hhi, hcont⟩ := h
  have hlen : (c :: mid).length + 1 - 2 = mid.length := by
    rw [List.length_cons]
    omega
  rw [List.cons_append, following_cons hs, if_pos ⟨hlo, hhi⟩, hlen, List.take_left' rfl,
    List.takeWhile_eq_self_iff.mpr hcont, Nat.add_comm]
  rfl

theorem isContinuation_iff {c : UInt8} :
    isContinuation c = true ↔ 0x80 ≤ c.toNat ∧ c.toNat < 0xC0 := by
  rw [isContinuation, decide_eq_true_iff, UInt8.le_iff_toNat_le, UInt8.lt_iff_toNat_lt]
  rfl

/-- The number of a complete sequence is one of a character, whose bytes are the sequence. -/
theorem encode_scalar {b : UInt8} {tail : List UInt8} (h : Completes b tail) :
    (scalar b tail).isValidChar ∧
      String.utf8EncodeChar (Char.ofNat (scalar b tail)) = b :: tail := by
  obtain ⟨lo, hi, c, rest, hs, rfl, hlo, hhi, hcont⟩ := h
  rw [UInt8.le_iff_toNat_le] at hlo hhi
  simp only [isContinuation_iff] at hcont
  rcases sequence_cases hs with ⟨hlen, hb⟩ | ⟨hlen, hb⟩ | ⟨hlen, hb⟩
  · obtain rfl : rest = [] := List.eq_nil_of_length_eq_zero (by simpa using hlen)
    have hn : scalar b [c] = 64 * (b.toNat - 0xC0) + (c.toNat - 0x80) := rfl
    have hvalid : (scalar b [c]).isValidChar := Or.inl (by omega)
    refine ⟨hvalid, ?_⟩
    rw [encode_of hvalid, if_neg (by omega), if_pos (by omega), ofNat_eq (b := b) (by omega),
      ofNat_eq (b := c) (by omega)]
  · obtain ⟨d, rfl⟩ : ∃ d, rest = [d] := List.length_eq_one_iff.mp (by simpa using hlen)
    have hd := hcont d (List.mem_singleton_self d)
    have hn : scalar b [c, d] =
      64 * (64 * (b.toNat - 0xE0) + (c.toNat - 0x80)) + (d.toNat - 0x80) := rfl
    have hvalid : (scalar b [c, d]).isValidChar := by
      rw [Nat.isValidChar]
      omega
    refine ⟨hvalid, ?_⟩
    rw [encode_of hvalid, if_neg (by omega), if_neg (by omega), if_pos (by omega),
      ofNat_eq (b := b) (by omega), ofNat_eq (b := c) (by omega), ofNat_eq (b := d) (by omega)]
  · obtain ⟨d, e, rfl⟩ : ∃ d e, rest = [d, e] := List.length_eq_two.mp (by simpa using hlen)
    have hd := hcont d (by simp)
    have he := hcont e (by simp)
    have hn : scalar b [c, d, e] =
      64 * (64 * (64 * (b.toNat - 0xF0) + (c.toNat - 0x80)) + (d.toNat - 0x80)) +
        (e.toNat - 0x80) := rfl
    have hvalid : (scalar b [c, d, e]).isValidChar := by
      rw [Nat.isValidChar]
      omega
    refine ⟨hvalid, ?_⟩
    rw [encode_of hvalid, if_neg (by omega), if_neg (by omega), if_neg (by omega),
      ofNat_eq (b := b) (by omega), ofNat_eq (b := c) (by omega), ofNat_eq (b := d) (by omega),
      ofNat_eq (b := e) (by omega)]

theorem sequence_two {b : UInt8} (h : 0xC2 ≤ b.toNat ∧ b.toNat < 0xE0) :
    sequence b = some (2, 0x80, 0xBF) := by
  rw [PeParser.sequence, if_pos]
  rwa [UInt8.le_iff_toNat_le, UInt8.lt_iff_toNat_lt]

theorem sequence_three {b : UInt8} (h : 0xE0 ≤ b.toNat ∧ b.toNat < 0xF0) :
    ∃ lo hi, sequence b = some (3, lo, hi) ∧ ∀ c : UInt8, 0x80 ≤ c.toNat → c.toNat < 0xC0 →
      (b.toNat = 0xE0 → 0xA0 ≤ c.toNat) → (b.toNat = 0xED → c.toNat < 0xA0) → lo ≤ c ∧ c ≤ hi := by
  simp only [PeParser.sequence, UInt8.le_iff_toNat_le, UInt8.lt_iff_toNat_lt, ← UInt8.toNat_inj]
  split_ifs <;> simp at * <;> omega

theorem sequence_four {b : UInt8} (h : 0xF0 ≤ b.toNat ∧ b.toNat < 0xF5) :
    ∃ lo hi, sequence b = some (4, lo, hi) ∧ ∀ c : UInt8, 0x80 ≤ c.toNat → c.toNat < 0xC0 →
      (b.toNat = 0xF0 → 0x90 ≤ c.toNat) → (b.toNat = 0xF4 → c.toNat < 0x90) → lo ≤ c ∧ c ≤ hi := by
  simp only [PeParser.sequence, UInt8.le_iff_toNat_le, UInt8.lt_iff_toNat_lt, ← UInt8.toNat_inj]
  split_ifs <;> simp at * <;> omega

theorem toNat_byte {n : ℕ} (h : n < 256) : (UInt8.ofNat n).toNat = n := by
  rw [UInt8.toNat_ofNat', Nat.mod_eq_of_lt h]

/-- The bytes of a character are one below 0x80, or a complete sequence with its number. -/
theorem encode_cases (c : Char) :
    c.toNat < 0x80 ∧ String.utf8EncodeChar c = [UInt8.ofNat c.toNat] ∨
    ∃ b tail, String.utf8EncodeChar c = b :: tail ∧ 0x80 ≤ b.toNat ∧ Completes b tail ∧
      scalar b tail = c.toNat := by
  have hvalid : c.toNat < 0xD800 ∨ 0xDFFF < c.toNat ∧ c.toNat < 0x110000 := c.valid
  have hencode := encode_of (n := c.toNat) c.valid
  rw [Char.ofNat_toNat] at hencode
  generalize c.toNat = n at hvalid hencode ⊢
  rw [hencode]
  by_cases h1 : n ≤ 0x7F
  · rw [if_pos h1]
    exact Or.inl ⟨by omega, rfl⟩
  rw [if_neg h1]
  by_cases h2 : n ≤ 0x7FF
  · rw [if_pos h2]
    have hb := toNat_byte (n := n / 64 % 32 + 0xC0) (by omega)
    have hc := toNat_byte (n := n % 64 + 0x80) (by omega)
    generalize UInt8.ofNat (n / 64 % 32 + 0xC0) = b at hb ⊢
    generalize UInt8.ofNat (n % 64 + 0x80) = c at hc ⊢
    refine Or.inr ⟨b, [c], rfl, by omega, ?_, ?_⟩
    · refine ⟨0x80, 0xBF, c, [], sequence_two (by omega), rfl, ?_, ?_, by simp⟩
      · rw [UInt8.le_iff_toNat_le, hc]
        exact Nat.le_add_left _ _
      · rw [UInt8.le_iff_toNat_le, hc]
        simp
        omega
    · change 64 * (b.toNat - 0xC0) + (c.toNat - 0x80) = n
      omega
  rw [if_neg h2]
  by_cases h3 : n ≤ 0xFFFF
  · rw [if_pos h3]
    have hb := toNat_byte (n := n / 4096 % 16 + 0xE0) (by omega)
    have hc := toNat_byte (n := n / 64 % 64 + 0x80) (by omega)
    have hd := toNat_byte (n := n % 64 + 0x80) (by omega)
    generalize UInt8.ofNat (n / 4096 % 16 + 0xE0) = b at hb ⊢
    generalize UInt8.ofNat (n / 64 % 64 + 0x80) = c at hc ⊢
    generalize UInt8.ofNat (n % 64 + 0x80) = d at hd ⊢
    obtain ⟨lo, hi, hs, hrange⟩ := sequence_three (b := b) (by omega)
    obtain ⟨hlo, hhi⟩ := hrange c (by omega) (by omega) (by omega) (by omega)
    refine Or.inr ⟨b, [c, d], rfl, by omega, ⟨lo, hi, c, [d], hs, rfl, hlo, hhi, ?_⟩, ?_⟩
    · intro e he
      rw [List.mem_singleton.mp he, isContinuation_iff]
      omega
    · change 64 * (64 * (b.toNat - 0xE0) + (c.toNat - 0x80)) + (d.toNat - 0x80) = n
      omega
  · rw [if_neg h3]
    have hb := toNat_byte (n := n / 262144 % 8 + 0xF0) (by omega)
    have hc := toNat_byte (n := n / 4096 % 64 + 0x80) (by omega)
    have hd := toNat_byte (n := n / 64 % 64 + 0x80) (by omega)
    have he := toNat_byte (n := n % 64 + 0x80) (by omega)
    generalize UInt8.ofNat (n / 262144 % 8 + 0xF0) = b at hb ⊢
    generalize UInt8.ofNat (n / 4096 % 64 + 0x80) = c at hc ⊢
    generalize UInt8.ofNat (n / 64 % 64 + 0x80) = d at hd ⊢
    generalize UInt8.ofNat (n % 64 + 0x80) = e at he ⊢
    obtain ⟨lo, hi, hs, hrange⟩ := sequence_four (b := b) (by omega)
    obtain ⟨hlo, hhi⟩ := hrange c (by omega) (by omega) (by omega) (by omega)
    refine Or.inr ⟨b, [c, d, e], rfl, by omega, ⟨lo, hi, c, [d, e], hs, rfl, hlo, hhi, ?_⟩, ?_⟩
    · intro f hf
      rw [isContinuation_iff]
      rcases List.mem_cons.mp hf with rfl | hf
      · omega
      · rw [List.mem_singleton.mp hf]
        omega
    · change 64 * (64 * (64 * (b.toNat - 0xF0) + (c.toNat - 0x80)) + (d.toNat - 0x80)) +
        (e.toNat - 0x80) = n
      omega

end Sequences

section Lossy

variable {b a : UInt8} {rest bytes l r : List UInt8} {c : Char} {cs : List Char} {turns : ℕ}

/-- The character that a sequence begins with. -/
def firstChar (b : UInt8) (rest : List UInt8) : Char :=
  match sequence b with
  | some (len, _, _) =>
    if following b rest + 1 = len then Char.ofNat (scalar b (rest.take (following b rest)))
    else '\uFFFD'
  | none => '\uFFFD'

theorem lossyChars_succ : lossyChars (turns + 1) (b :: rest) =
    if b < 0x80 then Char.ofNat b.toNat :: lossyChars turns rest
    else firstChar b rest :: lossyChars turns (rest.drop (following b rest)) := rfl

/-- More turns than there are bytes change nothing. -/
theorem lossyChars_eq (h : bytes.length ≤ turns) : lossyChars turns bytes = lossy bytes := by
  induction turns using Nat.strong_induction_on generalizing bytes with
  | _ turns ih =>
    cases bytes with
    | nil => cases turns <;> rfl
    | cons b rest =>
      obtain ⟨turns, rfl⟩ : ∃ n, turns = n + 1 :=
        Nat.exists_eq_add_one.mpr (Nat.lt_of_lt_of_le (Nat.zero_lt_succ _) h)
      rw [List.length_cons, Nat.add_le_add_iff_right] at h
      have hshort : (rest.drop (following b rest)).length ≤ rest.length := by
        rw [List.length_drop]
        exact Nat.sub_le _ _
      rw [lossy, List.length_cons, lossyChars_succ, lossyChars_succ,
        ih turns (Nat.lt_succ_self _) h, ih turns (Nat.lt_succ_self _) (hshort.trans h),
        ih rest.length (Nat.lt_succ_of_le h) (Nat.le_refl _),
        ih rest.length (Nat.lt_succ_of_le h) hshort]

@[simp] theorem lossy_nil : lossy [] = [] := rfl

theorem lossy_ascii (h : b.toNat < 0x80) : lossy (b :: rest) = Char.ofNat b.toNat :: lossy rest := by
  rw [lossy, List.length_cons, lossyChars_succ, if_pos (UInt8.lt_iff_toNat_lt.mpr h)]
  rfl

theorem lossy_sequence (h : 0x80 ≤ b.toNat) :
    lossy (b :: rest) = firstChar b rest :: lossy (rest.drop (following b rest)) := by
  have hshort : (rest.drop (following b rest)).length ≤ rest.length := by
    rw [List.length_drop]
    exact Nat.sub_le _ _
  rw [lossy, List.length_cons, lossyChars_succ, if_neg, lossyChars_eq hshort]
  rw [UInt8.lt_iff_toNat_lt]
  exact Nat.not_lt.mpr h

theorem firstChar_completes {tail : List UInt8} (h : Completes b tail) :
    firstChar b (tail ++ rest) = Char.ofNat (scalar b tail) := by
  have hfollowing : following b (tail ++ rest) = tail.length := following_of_completes h
  obtain ⟨lo, hi, c, mid, hs, -⟩ := h
  rw [firstChar, hs]
  simp only [hfollowing, List.take_left' rfl, if_pos]

/-- The bytes of a character are read back as it. -/
theorem lossy_encode (c : Char) (rest : List UInt8) :
    lossy (String.utf8EncodeChar c ++ rest) = c :: lossy rest := by
  rcases encode_cases c with ⟨hsmall, hencode⟩ | ⟨b, tail, hencode, hb, hcompletes, hscalar⟩
  · have hbyte := toNat_byte (n := c.toNat) (by omega)
    rw [hencode, List.singleton_append, lossy_ascii (by omega), hbyte, Char.ofNat_toNat]
  · rw [hencode, List.cons_append, lossy_sequence hb, firstChar_completes hcompletes, hscalar,
      Char.ofNat_toNat, following_of_completes hcompletes, List.drop_left' rfl]

theorem lossy_flatMap (cs : List Char) : lossy (cs.flatMap String.utf8EncodeChar) = cs := by
  induction cs with
  | nil => rfl
  | cons c cs ih => rw [List.flatMap_cons, lossy_encode, ih]

/-- The front of some bytes: a character with its bytes, or U+FFFD for some that make none. -/
theorem lossy_front (b : UInt8) (rest : List UInt8) : ∃ c piece left, b :: rest = piece ++ left ∧
    piece ≠ [] ∧ lossy (b :: rest) = c :: lossy left ∧
    (String.utf8EncodeChar c = piece ∨ c = '\uFFFD') := by
  rcases Nat.lt_or_ge b.toNat 0x80 with hb | hb
  · refine ⟨Char.ofNat b.toNat, [b], rest, rfl, List.cons_ne_nil _ _, lossy_ascii hb, Or.inl ?_⟩
    rw [encode_of (Or.inl (by omega)), if_pos (by omega), UInt8.ofNat_toNat]
  · refine ⟨_, b :: rest.take (following b rest), rest.drop (following b rest), ?_,
      List.cons_ne_nil _ _, lossy_sequence hb, ?_⟩
    · rw [List.cons_append, List.take_append_drop]
    · cases hs : sequence b with
      | none => exact Or.inr (by rw [firstChar, hs])
      | some found =>
        obtain ⟨len, lo, hi⟩ := found
        by_cases hf : following b rest + 1 = len
        · have hchar : firstChar b rest = Char.ofNat (scalar b (rest.take (following b rest))) := by
            rw [firstChar, hs]
            exact if_pos hf
          rw [hchar]
          exact Or.inl (encode_scalar (completes_of_following hs hf)).2
        · refine Or.inr ?_
          rw [firstChar, hs]
          exact if_neg hf

/-- Bytes that are read without a U+FFFD are the characters' own. -/
theorem encode_lossy (h : '\uFFFD' ∉ lossy bytes) :
    (lossy bytes).flatMap String.utf8EncodeChar = bytes := by
  induction hlen : bytes.length using Nat.strong_induction_on generalizing bytes with
  | _ n ih =>
    cases bytes with
    | nil => rfl
    | cons b rest =>
      obtain ⟨c, piece, left, hsplit, hne, hlossy, hpiece⟩ := lossy_front b rest
      rw [hlossy, List.mem_cons, not_or] at h
      have hshort : left.length < n := by
        have hlength := congrArg List.length hsplit
        rw [List.length_append] at hlength
        have := List.length_pos_iff.mpr hne
        omega
      rw [hlossy, List.flatMap_cons, ih _ hshort h.2 rfl, hsplit]
      rcases hpiece with hpiece | hpiece
      · rw [hpiece]
      · exact absurd hpiece.symm h.1

theorem takeWhile_take_append {p : UInt8 → Bool} (ha : p a = false) (n : ℕ) :
    ((l ++ a :: r).take n).takeWhile p = (l.take n).takeWhile p := by
  induction l generalizing n with
  | nil =>
    cases n with
    | zero => rfl
    | succ n =>
      rw [List.nil_append, List.take_succ_cons, List.takeWhile_cons_of_neg (by rw [ha]; nofun),
        List.take_nil, List.takeWhile_nil]
  | cons x l ih =>
    cases n with
    | zero => rfl
    | succ n =>
      rw [List.cons_append, List.take_succ_cons, List.take_succ_cons]
      by_cases hx : p x = true
      · rw [List.takeWhile_cons_of_pos hx, List.takeWhile_cons_of_pos hx, ih]
      · rw [List.takeWhile_cons_of_neg hx, List.takeWhile_cons_of_neg hx]

/-- A sequence does not go on over a byte below 0x80. -/
theorem following_append_ascii (ha : a.toNat < 0x80) :
    following b (l ++ a :: r) = following b l := by
  cases hs : sequence b with
  | none => rw [following_none hs, following_none hs]
  | some found =>
    obtain ⟨len, lo, hi⟩ := found
    cases l with
    | nil =>
      have hlo : 0x80 ≤ lo.toNat := by
        rcases sequence_cases hs with h | h | h <;> omega
      rw [List.nil_append, following_nil, following_cons hs, if_neg]
      rw [UInt8.le_iff_toNat_le]
      omega
    | cons c l =>
      have hcont : isContinuation a = false := by
        rw [← Bool.not_eq_true, isContinuation_iff]
        omega
      rw [List.cons_append, following_cons hs, following_cons hs, takeWhile_take_append hcont]

theorem firstChar_append_ascii (ha : a.toNat < 0x80) : firstChar b (l ++ a :: r) = firstChar b l := by
  rw [firstChar, following_append_ascii ha, List.take_append_of_le_length following_le]
  rfl

/-- A byte below 0x80 is read by itself, whatever stands around it. -/
theorem lossy_append_ascii (ha : a.toNat < 0x80) (l r : List UInt8) :
    lossy (l ++ a :: r) = lossy l ++ Char.ofNat a.toNat :: lossy r := by
  induction hlen : l.length using Nat.strong_induction_on generalizing l with
  | _ n ih =>
    cases l with
    | nil => exact lossy_ascii ha
    | cons b l =>
      rw [List.length_cons] at hlen
      rcases Nat.lt_or_ge b.toNat 0x80 with hb | hb
      · rw [List.cons_append, lossy_ascii hb, lossy_ascii hb, ih l.length (by omega) l rfl,
          List.cons_append]
      · have hshort : (l.drop (following b l)).length < n := by
          rw [List.length_drop]
          omega
        rw [List.cons_append, lossy_sequence hb, lossy_sequence hb, firstChar_append_ascii ha,
          following_append_ascii ha, List.drop_append_of_le_length following_le,
          ih _ hshort _ rfl, List.cons_append]

theorem toNat_ofNat_ascii (ha : a.toNat < 0x80) : (Char.ofNat a.toNat).toNat = a.toNat :=
  toNat_ofNat (Or.inl (by omega))

theorem mem_lossy_ascii (ha : a.toNat < 0x80) : Char.ofNat a.toNat ∈ lossy l ↔ a ∈ l := by
  constructor
  · intro h
    induction hlen : l.length using Nat.strong_induction_on generalizing l with
    | _ n ih =>
      cases l with
      | nil => exact absurd h List.not_mem_nil
      | cons b l =>
        obtain ⟨c, piece, left, hsplit, hne, hlossy, hpiece⟩ := lossy_front b l
        rw [hlossy, List.mem_cons] at h
        rw [hsplit]
        rcases h with rfl | h
        · rcases hpiece with hpiece | hpiece
          · rw [encode_of (Or.inl (by omega)), if_pos (by omega), UInt8.ofNat_toNat] at hpiece
            rw [← hpiece]
            exact List.mem_append_left _ (List.mem_singleton_self a)
          · have hvalue := congrArg Char.toNat hpiece
            rw [toNat_ofNat_ascii ha] at hvalue
            have : '\uFFFD'.toNat = 0xFFFD := rfl
            omega
        · have hshort : left.length < n := by
            have hlength := congrArg List.length hsplit
            rw [List.length_append] at hlength
            have := List.length_pos_iff.mpr hne
            omega
          exact List.mem_append_right _ (ih _ hshort h rfl)
  · intro h
    obtain ⟨before, after, rfl⟩ := List.append_of_mem h
    rw [lossy_append_ascii ha]
    exact List.mem_append_right _ List.mem_cons_self

/-- A byte that no sequence begins with is a U+FFFD of its own. -/
theorem lossy_stray (hb : b = 0xFE ∨ b = 0xFF) : lossy (b :: rest) = '\uFFFD' :: lossy rest := by
  have hs : sequence b = none := by
    rcases hb with rfl | rfl <;> decide
  have hlarge : 0x80 ≤ b.toNat := by
    rcases hb with rfl | rfl <;> decide
  rw [lossy_sequence hlarge, firstChar, hs, following_none hs, List.drop_zero]

/-- Another spelling, no longer, of a text in which a U+FFFD stands. -/
theorem respell (h : '\uFFFD' ∈ lossy bytes) :
    ∃ p, p ≠ bytes ∧ lossy p = lossy bytes ∧ p.length ≤ bytes.length := by
  induction hlen : bytes.length using Nat.strong_induction_on generalizing bytes with
  | _ n ih =>
    cases bytes with
    | nil => exact absurd h List.not_mem_nil
    | cons b rest =>
      obtain ⟨c, piece, left, hsplit, hne, hlossy, hpiece⟩ := lossy_front b rest
      have hlength := congrArg List.length hsplit
      rw [hlen, List.length_append] at hlength
      have hpos := List.length_pos_iff.mpr hne
      rw [hlossy, hsplit]
      by_cases hc : c = '\uFFFD'
      · obtain ⟨stray, hstray, hother⟩ : ∃ stray : UInt8, (stray = 0xFE ∨ stray = 0xFF) ∧
            stray :: left ≠ piece ++ left := by
          by_cases heq : 0xFE :: left = piece ++ left
          · refine ⟨0xFF, Or.inr rfl, fun heq' => ?_⟩
            exact absurd (List.cons.inj (heq.trans heq'.symm)).1 (by decide)
          · exact ⟨0xFE, Or.inl rfl, heq⟩
        refine ⟨stray :: left, hother, by rw [lossy_stray hstray, hc], ?_⟩
        rw [List.length_cons]
        omega
      · have hpiece : String.utf8EncodeChar c = piece := hpiece.resolve_right hc
        rw [hlossy, List.mem_cons] at h
        obtain ⟨p, hother, hsame, hshort⟩ :=
          ih left.length (by omega) (h.resolve_left (Ne.symm hc)) rfl
        refine ⟨piece ++ p, ?_, ?_, ?_⟩
        · exact fun heq => hother (List.append_cancel_left heq)
        · rw [← hpiece, lossy_encode, hsame]
        · rw [List.length_append]
          omega

end Lossy

end Utf8
