import NajmKernel.Themes

/-! Which texts a theme's parser reads as the format says: the six digits of a colour, but also a
plus for a digit, and no character across the bytes that a channel is cut at. -/
namespace Themes

open Attempts Attempt Framebuffers PackageStore

section Cuts

variable {n : ℕ} {text rest : List Char} {a b c : Char} {signed : Bool} {v : UInt8}

theorem cutAt_zero (text : List Char) : cutAt 0 text = some ([], text) := by
  cases text <;> rfl

theorem cutAt_cons (hn : n ≠ 0) : cutAt n (c :: text) =
    if c.utf8Size ≤ n then (cutAt (n - c.utf8Size) text).map fun cut => (c :: cut.1, cut.2)
    else none := by
  rw [cutAt, if_neg hn]

theorem byteLen_cons : byteLen (c :: text) = c.utf8Size + byteLen text := rfl

theorem byteLen_eq_zero : byteLen text = 0 ↔ text = [] := by
  cases text with
  | nil => exact ⟨fun _ => rfl, fun _ => rfl⟩
  | cons c text =>
    have := c.utf8Size_pos
    rw [byteLen_cons]
    exact ⟨fun h => absurd h (by omega), nofun⟩

/-- The two bytes in front of a text: two characters, one, or none that ends there. -/
theorem cutAt_two (text : List Char) (h : 2 ≤ byteLen text) :
    cutAt 2 text = none ∨
      (∃ c rest, text = c :: rest ∧ c.utf8Size = 2 ∧ cutAt 2 text = some ([c], rest)) ∨
      ∃ a b rest, text = a :: b :: rest ∧ a.utf8Size = 1 ∧ b.utf8Size = 1 ∧
        cutAt 2 text = some ([a, b], rest) := by
  cases text with
  | nil => exact absurd h (by decide)
  | cons a text =>
    have ha := a.utf8Size_pos
    rw [cutAt_cons (by decide)]
    by_cases hone : a.utf8Size = 1
    · rw [hone, if_pos (by decide)]
      cases text with
      | nil => exact absurd h (by rw [byteLen_cons, hone]; decide)
      | cons b rest =>
        have hb := b.utf8Size_pos
        rw [show 2 - 1 = 1 from rfl, cutAt_cons (by decide)]
        by_cases hnext : b.utf8Size = 1
        · refine Or.inr (Or.inr ⟨a, b, rest, rfl, hone, hnext, ?_⟩)
          rw [hnext, if_pos (Nat.le_refl _), Nat.sub_self, cutAt_zero]
          rfl
        · rw [if_neg (by omega)]
          exact Or.inl rfl
    · by_cases htwo : a.utf8Size = 2
      · refine Or.inr (Or.inl ⟨a, text, rfl, htwo, ?_⟩)
        rw [htwo, if_pos (Nat.le_refl _), Nat.sub_self, cutAt_zero]
        rfl
      · rw [if_neg (by omega)]
        exact Or.inl rfl

theorem cutAt_add {l : List Char} {m : ℕ} (h : cutAt m text = some (l, rest)) :
    cutAt (m + n) text = (cutAt n rest).map fun cut => (l ++ cut.1, cut.2) := by
  induction text generalizing m l with
  | nil =>
    unfold cutAt at h
    split at h
    next hm =>
      obtain ⟨rfl, rfl⟩ := Prod.mk.inj (Option.some.inj h)
      rw [hm, Nat.zero_add]
      simp
    · nomatch h
  | cons c text ih =>
    have hc := c.utf8Size_pos
    by_cases hm : m = 0
    · subst hm
      obtain ⟨rfl, rfl⟩ := Prod.mk.inj (Option.some.inj ((cutAt_zero _).symm.trans h))
      rw [Nat.zero_add]
      simp
    rw [cutAt_cons hm] at h
    split at h
    swap
    · nomatch h
    next hfits =>
    obtain ⟨⟨l', rest'⟩, hcut, hpair⟩ := Option.map_eq_some_iff.mp h
    obtain ⟨rfl, rfl⟩ := Prod.mk.inj hpair
    rw [cutAt_cons (by omega), if_pos (by omega), Nat.sub_add_comm hfits, ih hcut, Option.map_map]
    rfl

theorem hexDigit_lt (h : hexDigit c = some n) : n < 16 ∧ c.toNat < 0x80 := by
  unfold hexDigit at h
  simp only at h
  split_ifs at h <;> obtain rfl := Option.some.inj h <;> omega

theorem utf8Size_one (h : c.toNat < 0x80) : c.utf8Size = 1 := by
  have hval : c.val ≤ 0x7F := by
    rw [UInt32.le_iff_toNat_le]
    exact Nat.le_of_lt_succ h
  rw [Char.utf8Size]
  exact if_pos hval

theorem hexDigit_wide (h : c.utf8Size ≠ 1) : hexDigit c = none := by
  cases hdigit : hexDigit c with
  | none => rfl
  | some n => exact absurd (utf8Size_one (hexDigit_lt hdigit).2) h

end Cuts

section Channels

variable {n : ℕ} {text rest : List Char} {a b c : Char} {v : UInt8}

/-- Two characters that are read as a channel: two digits, or a plus and one. -/
def IsChannel (p : Char × Char) : Prop :=
  (hexDigit p.1 = none → p.1 = '+') ∧ (hexDigit p.2).isSome = true

def value (a b : Char) : Option UInt8 :=
  (hexDigit a).bind fun x => (hexDigit b).map fun y => UInt8.ofNat (x * 16 + y)

theorem fromHex_single (h : c.utf8Size ≠ 1) : fromHex [c] = none := by
  have hplus : c ≠ '+' := by
    rintro rfl
    exact h rfl
  simp [fromHex, hplus, hexDigit_wide h]

theorem fromHex_plus (b : Char) : fromHex ['+', b] = (hexDigit b).map UInt8.ofNat := by
  cases hdigit : hexDigit b with
  | none => simp [fromHex, hdigit]
  | some y =>
    have := (hexDigit_lt hdigit).1
    simp [fromHex, hdigit, show y < 256 by omega]

theorem fromHex_pair (ha : a ≠ '+') : fromHex [a, b] = value a b := by
  cases hx : hexDigit a with
  | none => simp [fromHex, value, ha, hx]
  | some x =>
    have := (hexDigit_lt hx).1
    cases hy : hexDigit b with
    | none => simp [fromHex, value, ha, hx, hy, show x < 256 by omega]
    | some y =>
      have := (hexDigit_lt hy).1
      simp [fromHex, value, ha, hx, hy, show x < 256 by omega, show x * 16 + y < 256 by omega]

theorem hexDigit_plus : hexDigit '+' = none := by decide

theorem fromHex_isSome : (fromHex [a, b]).isSome = true ↔ IsChannel (a, b) := by
  by_cases ha : a = '+'
  · subst ha
    rw [fromHex_plus, Option.isSome_map]
    exact ⟨fun h => ⟨fun _ => rfl, h⟩, fun h => h.2⟩
  · rw [fromHex_pair ha, value, IsChannel]
    cases hexDigit a <;> cases hexDigit b <;> simp [ha]

/-- What reading some channels comes to: a panic, no colour, or their values. -/
def outcome : ℕ → List Char → Option (Option (List UInt8))
  | 0, _ => some (some [])
  | n + 1, text => match cutAt 2 text with
    | none => none
    | some (piece, rest) => match fromHex piece with
      | none => some none
      | some v => (outcome n rest).map (Option.map (v :: ·))

/-- The values of so many pairs of digits, and nothing else. -/
def digits : ℕ → List Char → Option (List UInt8)
  | 0, [] => some []
  | n + 1, a :: b :: rest => (value a b).bind fun v => (digits n rest).map (v :: ·)
  | _, _ => none

def spelled (channels : List (Char × Char)) : List Char := channels.flatMap fun p => [p.1, p.2]

/-- Channels, and behind them either nothing, when a plus is among them or has been, or a character
that lies across the next cut. -/
def Misread (signed : Prop) (text : List Char) : Prop :=
  ∃ channels rest, text = spelled channels ++ rest ∧ (∀ p ∈ channels, IsChannel p) ∧
    (rest ≠ [] ∧ cutAt 2 rest = none ∨
      rest = [] ∧ (signed ∨ ∃ p ∈ channels, p.1 = '+'))

theorem misread_cons {signed : Prop} (ha : a.utf8Size = 1) (hb : b.utf8Size = 1) :
    Misread signed (a :: b :: rest) ↔ IsChannel (a, b) ∧ Misread (signed ∨ a = '+') rest := by
  constructor
  · rintro ⟨channels, left, htext, hchannels, hend⟩
    cases channels with
    | nil =>
      obtain rfl : a :: b :: rest = left := htext
      have hcut : cutAt 2 (a :: b :: rest) = some ([a, b], rest) := by
        rw [cutAt_cons (by decide), ha, if_pos (by decide), cutAt_cons (by decide), hb,
          if_pos (by decide), show 2 - 1 - 1 = 0 from rfl, cutAt_zero]
        rfl
      rcases hend with ⟨-, hnone⟩ | ⟨hnil, -⟩
      · rw [hcut] at hnone
        nomatch hnone
      · nomatch hnil
    | cons p channels =>
      obtain ⟨x, y⟩ := p
      obtain ⟨rfl, htext⟩ := List.cons.inj htext
      obtain ⟨rfl, rfl⟩ := List.cons.inj htext
      refine ⟨hchannels _ List.mem_cons_self, channels, left, rfl,
        fun q hq => hchannels q (List.mem_cons_of_mem _ hq), hend.imp_right ?_⟩
      rintro ⟨hnil, hplus⟩
      refine ⟨hnil, ?_⟩
      rcases hplus with hsigned | ⟨q, hq, hplus⟩
      · exact Or.inl (Or.inl hsigned)
      · rcases List.mem_cons.mp hq with rfl | hq
        · exact Or.inl (Or.inr hplus)
        · exact Or.inr ⟨q, hq, hplus⟩
  · rintro ⟨hfirst, channels, left, rfl, hchannels, hend⟩
    refine ⟨(a, b) :: channels, left, rfl, ?_, hend.imp_right ?_⟩
    · intro q hq
      rcases List.mem_cons.mp hq with rfl | hq
      · exact hfirst
      · exact hchannels q hq
    · rintro ⟨hnil, hplus⟩
      refine ⟨hnil, ?_⟩
      rcases hplus with (hsigned | hplus) | ⟨q, hq, hplus⟩
      · exact Or.inl hsigned
      · exact Or.inr ⟨(a, b), List.mem_cons_self, hplus⟩
      · exact Or.inr ⟨q, List.mem_cons_of_mem _ hq, hplus⟩

theorem map_cons_none {v : UInt8} {o : Option (Option (List UInt8))} :
    o.map (Option.map (v :: ·)) = some none ↔ o = some none := by
  rcases o with _ | _ | l <;> simp

theorem map_cons_inj {v : UInt8} {o : Option (Option (List UInt8))} {l : Option (List UInt8)} :
    o.map (Option.map (v :: ·)) = some (l.map (v :: ·)) ↔ o = some l := by
  rcases o with _ | _ | m <;> rcases l with _ | l <;> simp

/-- Reading gives the digits' values, or none behind a sign, exactly where the text is not misread. -/
theorem outcome_iff (signed : Prop) [Decidable signed] (hlen : byteLen text = 2 * n) :
    outcome n text = some (if signed then none else digits n text) ↔ ¬ Misread signed text := by
  induction n generalizing signed text with
  | zero =>
    obtain rfl := byteLen_eq_zero.mp hlen
    have hmisread : Misread signed [] ↔ signed := by
      constructor
      · rintro ⟨channels, rest, htext, -, hend⟩
        obtain ⟨hspelled, rfl⟩ := List.append_eq_nil_iff.mp htext.symm
        obtain rfl : channels = [] := by
          cases channels with
          | nil => rfl
          | cons => nomatch hspelled
        rcases hend with ⟨hne, -⟩ | ⟨-, hsigned | ⟨p, hp, -⟩⟩
        · exact absurd rfl hne
        · exact hsigned
        · nomatch hp
      · exact fun h => ⟨[], [], rfl, nofun, Or.inr ⟨rfl, Or.inl h⟩⟩
    rw [hmisread]
    by_cases hsigned : signed
    · rw [if_pos hsigned]
      exact ⟨nofun, fun h => absurd hsigned h⟩
    · rw [if_neg hsigned]
      exact ⟨fun _ => hsigned, fun _ => rfl⟩
  | succ n ih =>
    have hne : text ≠ [] := fun h => by
      rw [h] at hlen
      nomatch hlen
    rcases cutAt_two text (by omega) with
      hcut | ⟨c, rest, rfl, hc, hcut⟩ | ⟨a, b, rest, rfl, ha, hb, hcut⟩
    · rw [outcome, hcut]
      exact ⟨nofun, fun h => absurd ⟨[], text, rfl, nofun, Or.inl ⟨hne, hcut⟩⟩ h⟩
    · have hwide : c.utf8Size ≠ 1 := by omega
      have hdigits : digits (n + 1) (c :: rest) = none := by
        cases rest with
        | nil => rfl
        | cons b rest => rw [digits, value, hexDigit_wide hwide, Option.bind_none, Option.bind_none]
      rw [outcome, hcut, hdigits]
      simp only [fromHex_single hwide, ite_self, true_iff]
      rintro ⟨channels, left, htext, hchannels, hend⟩
      cases channels with
      | nil =>
        obtain rfl : c :: rest = left := htext
        rcases hend with ⟨-, hnone⟩ | ⟨hnil, -⟩
        · rw [hcut] at hnone
          nomatch hnone
        · nomatch hnil
      | cons p channels =>
        obtain ⟨x, y⟩ := p
        obtain ⟨rfl, -⟩ := List.cons.inj htext
        have hplus := (hchannels _ List.mem_cons_self).1 (hexDigit_wide hwide)
        simp only at hplus
        exact hwide (by rw [hplus]; rfl)
    · have hrest : byteLen rest = 2 * n := by
        rw [byteLen_cons, byteLen_cons] at hlen
        omega
      rw [misread_cons ha hb, outcome, hcut]
      simp only
      by_cases hchannel : IsChannel (a, b)
      swap
      · have hnone : fromHex [a, b] = none :=
          Option.not_isSome_iff_eq_none.mp (fun h => hchannel (fromHex_isSome.mp h))
        have hvalue : value a b = none := by
          by_cases ha : a = '+'
          · rw [value, ha, hexDigit_plus, Option.bind_none]
          · rw [← fromHex_pair ha, hnone]
        rw [hnone, digits, hvalue, Option.bind_none, ite_self]
        exact ⟨fun _ h => hchannel h.1, fun _ => rfl⟩
      obtain ⟨v, hv⟩ := Option.isSome_iff_exists.mp (fromHex_isSome.mpr hchannel)
      rw [hv, digits]
      simp only [hchannel, true_and]
      rw [← ih (signed ∨ a = '+') hrest]
      by_cases hplus : a = '+'
      · rw [hplus, value, hexDigit_plus, Option.bind_none, Option.bind_none, ite_self,
          if_pos (Or.inr rfl)]
        exact map_cons_none
      · rw [fromHex_pair hplus] at hv
        rw [hv, Option.bind_some]
        simp only [hplus, or_false]
        by_cases hsigned : signed
        · rw [if_pos hsigned, if_pos hsigned]
          exact map_cons_none
        · rw [if_neg hsigned, if_neg hsigned]
          exact map_cons_inj

end Channels

section Colours

variable {σ ε : Type} {u : σ} {text : List Char}

def toColour : List UInt8 → Option Colour
  | [r, g, b] => some ⟨r, g, b⟩
  | _ => none

/-- The colour that a `#`, or none, and six digits denote. -/
def hexColour (text : List Char) : Option Colour :=
  match withoutHash text with
  | [a, b, c, d, e, f] =>
    (value a b).bind fun r => (value c d).bind fun g => (value e f).map fun b => ⟨r, g, b⟩
  | _ => none

theorem value_isSome {a b : Char} {v : UInt8} (h : value a b = some v) :
    a.utf8Size = 1 ∧ b.utf8Size = 1 := by
  obtain ⟨x, hx, hmap⟩ := Option.bind_eq_some_iff.mp h
  obtain ⟨y, hy, -⟩ := Option.map_eq_some_iff.mp hmap
  exact ⟨utf8Size_one (hexDigit_lt hx).2, utf8Size_one (hexDigit_lt hy).2⟩

theorem hexColour_eq : hexColour text = (digits 3 (withoutHash text)).bind toColour := by
  unfold hexColour
  split
  next a b c d e f h =>
    rw [h]
    simp only [digits]
    cases value a b <;> cases value c d <;> cases value e f <;> rfl
  next hother =>
    rcases ht : withoutHash text with _ | ⟨a, _ | ⟨b, _ | ⟨c, _ | ⟨d, _ | ⟨e, _ | ⟨f, _ | ⟨g, rest⟩⟩⟩⟩⟩⟩⟩
    case cons.cons.cons.cons.cons.cons.nil => exact absurd ht (hother a b c d e f)
    case cons.cons.cons.cons.cons.cons.cons =>
      simp only [digits]
      cases value a b <;> cases value c d <;> cases value e f <;> rfl
    all_goals
      simp only [digits]
      try cases value a b
      all_goals try cases value c d
      all_goals rfl

theorem hexColour_length {c : Colour} (h : hexColour text = some c) :
    byteLen (withoutHash text) = 6 := by
  unfold hexColour at h
  split at h
  next a b c d e f ht =>
    obtain ⟨r, hr, h⟩ := Option.bind_eq_some_iff.mp h
    obtain ⟨g, hg, h⟩ := Option.bind_eq_some_iff.mp h
    obtain ⟨b', hb, -⟩ := Option.map_eq_some_iff.mp h
    rw [ht]
    simp only [byteLen, List.map_cons, List.map_nil, List.sum_cons, List.sum_nil, value_isSome hr,
      value_isSome hg, value_isSome hb]
    rfl
  · nomatch h

theorem sliceText_run {rest l : List Char} {m n : ℕ} (h : cutAt m text = some (l, rest)) :
    (sliceText text m (m + n) : Attempt σ ε (List Char)).run u =
      (cutAt n rest).map fun cut => (.ok cut.1, u) := by
  rw [sliceText, h, Option.bind_some, Nat.add_sub_cancel_left]
  simp only
  cases cutAt n rest with
  | none => rfl
  | some cut => rfl

/-- The channels are read one behind the other. -/
theorem parseHex_run : (parseHex text : Attempt σ ε (Option Colour)).run u =
    if byteLen (withoutHash text) ≠ 6 then some (.ok none, u)
    else (outcome 3 (withoutHash text)).map fun channels => (.ok (channels.bind toColour), u) := by
  unfold parseHex
  simp only
  by_cases hlen : byteLen (withoutHash text) ≠ 6
  · rw [if_pos hlen, if_pos hlen, run_pure]
  rw [if_neg hlen, if_neg hlen]
  generalize withoutHash text = t
  have hfirst := sliceText_run (ε := ε) (u := u) (n := 2) (cutAt_zero t)
  rw [run_bind, hfirst, outcome]
  cases hcut : cutAt 2 t with
  | none => rfl
  | some cut =>
  obtain ⟨piece, rest⟩ := cut
  simp only [Option.map_some]
  cases fromHex piece with
  | none => rfl
  | some r =>
  have hsecond := sliceText_run (ε := ε) (u := u) (n := 2) hcut
  simp only
  rw [run_bind, hsecond, outcome]
  cases hcut' : cutAt 2 rest with
  | none => rfl
  | some cut' =>
  obtain ⟨piece', rest'⟩ := cut'
  simp only [Option.map_some]
  cases fromHex piece' with
  | none => rfl
  | some g =>
  have hboth : cutAt 4 t = some (piece ++ piece', rest') := by
    rw [cutAt_add (n := 2) hcut, hcut']
    rfl
  have hthird := sliceText_run (ε := ε) (u := u) (n := 2) hboth
  simp only
  rw [run_bind, hthird, outcome]
  cases cutAt 2 rest' with
  | none => rfl
  | some cut'' =>
  obtain ⟨piece'', rest''⟩ := cut''
  simp only [Option.map_some]
  cases fromHex piece'' with
  | none => rfl
  | some b => rfl

/-- `parse_hex` answers with the colour that is denoted, or with none. -/
def Exact (text : List Char) : Prop :=
  (parseHex text : Attempt Unit Unit (Option Colour)).run () = some (.ok (hexColour text), ())

/-- A text of six bytes in which a character lies across a cut that is reached, or a plus stands for
a channel's first digit. -/
def Odd (text : List Char) : Prop :=
  byteLen (withoutHash text) = 6 ∧ Misread False (withoutHash text)

theorem parseHex_ordinary (h : ¬ Odd text) :
    (parseHex text : Attempt σ ε (Option Colour)).run u = some (.ok (hexColour text), u) := by
  rw [parseHex_run]
  by_cases hlen : byteLen (withoutHash text) = 6
  · rw [if_neg (not_not.mpr hlen), (outcome_iff (n := 3) False hlen).mpr (fun hm => h ⟨hlen, hm⟩),
      if_neg not_false, hexColour_eq]
    rfl
  · rw [if_pos hlen]
    cases hcolour : hexColour text with
    | none => rfl
    | some c => exact absurd (hexColour_length hcolour) hlen

theorem outcome_length {n : ℕ} {text : List Char} {l : List UInt8}
    (h : outcome n text = some (some l)) : l.length = n := by
  induction n generalizing text l with
  | zero =>
    obtain rfl := Option.some.inj (Option.some.inj h)
    rfl
  | succ n ih =>
    rw [outcome] at h
    split at h
    · nomatch h
    split at h
    · nomatch h
    obtain ⟨o, ho, hmap⟩ := Option.map_eq_some_iff.mp h
    obtain ⟨l', rfl, rfl⟩ := Option.map_eq_some_iff.mp hmap
    rw [List.length_cons, ih ho]

theorem digits_length {n : ℕ} {text : List Char} {l : List UInt8} (h : digits n text = some l) :
    l.length = n := by
  induction n generalizing text l with
  | zero =>
    cases text with
    | nil =>
      obtain rfl := Option.some.inj h
      rfl
    | cons => nomatch h
  | succ n ih =>
    rcases text with _ | ⟨a, _ | ⟨b, rest⟩⟩
    · nomatch h
    · nomatch h
    obtain ⟨v, -, hmap⟩ := Option.bind_eq_some_iff.mp h
    obtain ⟨l', hl', rfl⟩ := Option.map_eq_some_iff.mp hmap
    rw [List.length_cons, ih hl']

/-- Three values make one colour. -/
theorem toColour_inj {o o' : Option (List UInt8)} (ho : ∀ l, o = some l → l.length = 3)
    (ho' : ∀ l, o' = some l → l.length = 3) (h : o.bind toColour = o'.bind toColour) : o = o' := by
  rcases o with _ | l <;> rcases o' with _ | l'
  · rfl
  · obtain ⟨r, g, b, rfl⟩ := List.length_eq_three.mp (ho' l' rfl)
    nomatch h
  · obtain ⟨r, g, b, rfl⟩ := List.length_eq_three.mp (ho l rfl)
    nomatch h
  · obtain ⟨r, g, b, rfl⟩ := List.length_eq_three.mp (ho l rfl)
    obtain ⟨r', g', b', rfl⟩ := List.length_eq_three.mp (ho' l' rfl)
    obtain ⟨rfl, rfl, rfl⟩ := Colour.mk.inj (Option.some.inj h)
    rfl

theorem exact_iff (text : List Char) : Exact text ↔ ¬ Odd text := by
  refine ⟨fun hexact hodd => ?_, parseHex_ordinary⟩
  obtain ⟨hlen, hmisread⟩ := hodd
  rw [Exact, parseHex_run, if_neg (not_not.mpr hlen), hexColour_eq] at hexact
  obtain ⟨o, ho, hcolour⟩ := Option.map_eq_some_iff.mp hexact
  have hsame : o = digits 3 (withoutHash text) :=
    toColour_inj (fun l hl => outcome_length (ho.trans (congrArg some hl)))
      (fun l hl => digits_length hl) (Except.ok.inj (Prod.mk.inj hcolour).1)
  exact (outcome_iff (n := 3) False hlen).mp (by rw [ho, if_neg not_false, hsame]) hmisread

end Colours

section Settings

variable {σ ε : Type} {u : σ} {p q r : Progress} {line : List Char} {l l' : List (List Char)}
  {theme : Theme} {key : String} {colour : Colour}

/-- The lines that are neither blank nor comments. -/
def speaks (line : List Char) : Bool := trim line != [] && (trim line).head? != some '#'

/-- The key and the value of a line that has both. -/
def assignment (line : List Char) : Option (String × List Char) :=
  if speaks line then
    (splitOnce '=' (trim line)).map fun pair => (String.ofList (trim pair.1), trim pair.2)
  else none

def assignments (l : List (List Char)) : List (String × List Char) := l.filterMap assignment

/-- The colour that a key names in a theme. -/
def colourOf (theme : Theme) (key : String) : Option Colour :=
  match key with
  | "desktop" => some theme.desktop
  | "trust_bar" => some theme.trustBar
  | "trust_bar.edge" => some theme.trustBarEdge
  | "trust_bar.text" => some theme.trustBarText
  | "accent.home" => some theme.accentHome
  | "accent.gaming" => some theme.accentGaming
  | "accent.vault" => some theme.accentVault
  | "accent.system" => some theme.accentSystem
  | "pointer.fill" => some theme.pointerFill
  | "pointer.edge" => some theme.pointerEdge
  | _ => none

/-- What a line assigns to a key: the colour that its value denotes. -/
def valid (key : String) (a : String × List Char) : Option Colour :=
  if a.1 = key then hexColour a.2 else none

def lastValid (l : List (List Char)) (key : String) : Option Colour :=
  ((assignments l).filterMap (valid key)).getLast?

/-- Some lines have been read as the format says. -/
structure ReadAs (l : List (List Char)) (p q : Progress) : Prop where
  counted : q.applied + q.rejected = p.applied + p.rejected + (l.filter speaks).length
  colours : ∀ key, colourOf q.theme key =
    (colourOf p.theme key).map fun c => (lastValid l key).getD c

theorem assign_some (h : assign theme key colour = some q.theme) (k : String) :
    colourOf q.theme k = if k = key then some colour else colourOf theme k := by
  unfold assign at h
  split at h
  case h_11 => nomatch h
  all_goals
    rw [← Option.some.inj h]
    unfold colourOf
    split <;> (simp; try assumption)

theorem assign_none (h : assign theme key colour = none) : colourOf theme key = none := by
  unfold assign at h
  split at h
  case h_11 => simp_all [colourOf]
  all_goals cases h

theorem assign_known {theme' : Theme} (h : assign theme key colour = some theme') :
    colourOf theme key ≠ none := by
  unfold assign at h
  split at h
  case h_11 => nomatch h
  all_goals exact nofun

theorem readAs_refl (h : (l.filter speaks) = []) (hl : assignments l = []) : ReadAs l p p := by
  refine ⟨by rw [h, List.length_nil, Nat.add_zero], fun key => ?_⟩
  rw [lastValid, hl]
  exact Option.map_id'.symm

theorem lastValid_append : lastValid (l ++ l') key = (lastValid l' key).or (lastValid l key) := by
  rw [lastValid, assignments, List.filterMap_append, List.filterMap_append, List.getLast?_append]
  rfl

theorem ReadAs.trans (h : ReadAs l p q) (h' : ReadAs l' q r) : ReadAs (l ++ l') p r := by
  refine ⟨?_, fun key => ?_⟩
  · rw [h'.counted, h.counted, List.filter_append, List.length_append, Nat.add_assoc]
  · rw [h'.colours, h.colours, Option.map_map, lastValid_append]
    congr 1
    funext c
    cases lastValid l' key with
    | none => rw [Option.none_or]; rfl
    | some c' => rfl

/-- A line whose value is ordinary is skipped, rejected or applied, as the format says. -/
theorem readLine_readAs (p : Progress) (h : ∀ a, assignment line = some a → ¬ Odd a.2) :
    ∃ q, (readLine p line : Attempt σ ε Progress).run u = some (.ok q, u) ∧ ReadAs [line] p q := by
  unfold readLine
  simp only
  by_cases hspeaks : trim line = [] ∨ (trim line).head? = some '#'
  · have hsilent : speaks line = false := by
      rw [speaks]
      rcases hspeaks with h | h <;> simp [h]
    rw [if_pos hspeaks]
    refine ⟨p, rfl, readAs_refl ?_ ?_⟩
    · rw [List.filter_singleton, hsilent]
      rfl
    · rw [assignments, List.filterMap_cons, assignment, hsilent]
      rfl
  have hloud : speaks line = true := by
    rw [speaks]
    simpa [not_or] using hspeaks
  have hcount : ([line].filter speaks).length = 1 := by
    rw [List.filter_singleton, hloud]
    rfl
  rw [if_neg hspeaks]
  cases hsplit : splitOnce '=' (trim line) with
  | none =>
    have hnone : assignments [line] = [] := by
      rw [assignments, List.filterMap_cons, assignment, hloud, hsplit]
      rfl
    refine ⟨{ p with rejected := p.rejected + 1 }, rfl, ⟨?_, fun key => ?_⟩⟩
    · rw [hcount, Nat.add_assoc]
    · rw [lastValid, hnone]
      exact Option.map_id'.symm
  | some pair =>
    obtain ⟨name, value⟩ := pair
    have hassignment : assignment line = some (String.ofList (trim name), trim value) := by
      rw [assignment, hloud, hsplit]
      rfl
    have hlast : ∀ key, lastValid [line] key = valid key (String.ofList (trim name), trim value) := by
      intro key
      rw [lastValid, assignments, List.filterMap_cons, hassignment]
      cases hvalid : valid key (String.ofList (trim name), trim value) <;> simp [hvalid]
    simp only
    rw [run_bind_of_ok (parseHex_ordinary (h _ hassignment))]
    cases hcolour : hexColour (trim value) with
    | none =>
      refine ⟨{ p with rejected := p.rejected + 1 }, rfl, ⟨?_, fun key => ?_⟩⟩
      · rw [hcount, Nat.add_assoc]
      · rw [hlast, valid, hcolour, ite_self]
        exact Option.map_id'.symm
    | some colour =>
      simp only
      cases hassign : assign p.theme (String.ofList (trim name)) colour with
      | none =>
        refine ⟨{ p with rejected := p.rejected + 1 }, rfl, ⟨?_, fun key => ?_⟩⟩
        · rw [hcount, Nat.add_assoc]
        · rw [hlast, valid, hcolour]
          by_cases hkey : String.ofList (trim name) = key
          · rw [← hkey, assign_none hassign]
            rfl
          · rw [if_neg hkey]
            exact Option.map_id'.symm
      | some theme =>
        refine ⟨{ p with theme, applied := p.applied + 1 }, rfl, ⟨?_, fun key => ?_⟩⟩
        · rw [hcount]
          exact Nat.add_right_comm _ _ _
        · rw [hlast, valid, hcolour, assign_some (q := { p with theme }) hassign]
          by_cases hkey : String.ofList (trim name) = key
          · subst hkey
            rw [if_pos rfl, if_pos rfl]
            obtain ⟨c, hc⟩ := Option.ne_none_iff_exists'.mp (assign_known hassign)
            rw [hc]
            rfl
          · rw [if_neg (Ne.symm hkey), if_neg hkey]
            exact Option.map_id'.symm

theorem readLines_readAs (l : List (List Char)) (h : ∀ a ∈ assignments l, ¬ Odd a.2) (p : Progress) :
    ∃ q, (l.foldlM readLine p : Attempt σ ε Progress).run u = some (.ok q, u) ∧ ReadAs l p q := by
  induction l generalizing p with
  | nil => exact ⟨p, rfl, readAs_refl rfl rfl⟩
  | cons line l ih =>
    obtain ⟨q, hline, hfirst⟩ := readLine_readAs (u := u) (σ := σ) (ε := ε) p
      (fun a ha => h a (List.mem_filterMap.mpr ⟨line, List.mem_cons_self, ha⟩))
    obtain ⟨r, hrest, hlast⟩ := ih (fun a ha => by
      obtain ⟨other, hother, hassignment⟩ := List.mem_filterMap.mp ha
      exact h a (List.mem_filterMap.mpr ⟨other, List.mem_cons_of_mem _ hother, hassignment⟩)) q
    refine ⟨r, ?_, hfirst.trans hlast⟩
    rw [List.foldlM_cons, run_bind_of_ok hline, hrest]

/-- A theme file is read without a panic, every line that is neither blank nor a comment is counted,
and every colour is the last that was assigned to its key. -/
structure ReadExactly (text : List Char) : Prop where
  exact : ∀ a ∈ assignments (lines text), Exact a.2
  parsed : ∃ q, (parse text : Attempt Unit Unit Progress).run () = some (.ok q, ()) ∧
    q.applied + q.rejected = ((lines text).filter speaks).length ∧
    ∀ key, colourOf q.theme key =
      (colourOf Theme.default key).map fun c => (lastValid (lines text) key).getD c

/-- The colours and the files that are read as the format says are those without an odd value. -/
theorem themes_exact_iff (value text : List Char) :
    (Exact value ↔ ¬ Odd value) ∧
      (ReadExactly text ↔ ∀ a ∈ assignments (lines text), ¬ Odd a.2) := by
  refine ⟨exact_iff value, fun h a ha => (exact_iff a.2).mp (h.exact a ha), fun h => ?_⟩
  obtain ⟨q, hrun, hread⟩ :=
    readLines_readAs (σ := Unit) (ε := Unit) (u := ()) (lines text) h ⟨Theme.default, 0, 0⟩
  refine ⟨fun a ha => (exact_iff a.2).mpr (h a ha), q, hrun, ?_, hread.colours⟩
  rw [hread.counted]
  exact Nat.zero_add _

/-- A character of two bytes behind one of one byte is cut through, and three plus signs are read
as digits. -/
theorem odd_values_misread :
    (parseHex ['a', 'é', 'b', 'c', 'd'] : Attempt Unit Unit (Option Colour)).run () = none ∧
      (parse "desktop = aébcd".toList : Attempt Unit Unit Progress).run () = none ∧
      (parseHex ['+', '1', '+', '2', '+', '3'] : Attempt Unit Unit (Option Colour)).run () =
        some (.ok (some ⟨1, 2, 3⟩), ()) ∧
      hexColour ['+', '1', '+', '2', '+', '3'] = none := by
  refine ⟨rfl, rfl, rfl, rfl⟩

end Settings

end Themes
