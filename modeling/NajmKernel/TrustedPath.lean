import NajmKernel.Drawing
import NajmKernel.PairedRuns
import NajmKernel.SurfaceMoves

/-! The strip at the top of the screen: what is seen there comes from the kernel alone. -/
namespace Compositor

open Framebuffers
open Attempts Attempt

section Pixels

variable {ε : Type} {fb : Framebuffer} {s s' : Screen} {x y x' y' : ℕ} {c : Colour}

/-- How many of a pixel's bytes carry its colour. -/
def channels (fb : Framebuffer) : ℕ :=
  match fb.format with
  | .rgb => min fb.bytesPerPixel 3
  | .bgr => min fb.bytesPerPixel 3
  | .u8 => 1
  | .other => fb.bytesPerPixel

/-- The colour of a pixel, by the bytes that carry it. -/
def colourAt (fb : Framebuffer) (s : Screen) (x y : ℕ) : List UInt8 :=
  (List.range (channels fb)).map fun i => s (fb.offset x y + i)

theorem length_packed (hpixels : 1 ≤ fb.bytesPerPixel) (c : Colour) :
    (fb.packed c).length = channels fb := by
  unfold Framebuffer.packed channels
  cases fb.format <;> simp <;> omega

theorem channels_le (hpixels : 1 ≤ fb.bytesPerPixel) : channels fb ≤ fb.bytesPerPixel := by
  unfold channels
  cases fb.format with
  | rgb => exact Nat.min_le_left _ _
  | bgr => exact Nat.min_le_left _ _
  | u8 => exact hpixels
  | other => exact le_refl _

theorem colourAt_write_self (hpixels : 1 ≤ fb.bytesPerPixel) :
    colourAt fb (write s (fb.offset x y) (fb.packed c)) x y = fb.packed c := by
  apply List.ext_getElem
  · rw [length_packed hpixels]
    simp [colourAt]
  · intro i _ hi
    simp [colourAt, write, hi]

theorem offset_row (hm : fb.Mapped) (hx : x < fb.width) :
    fb.offset x y + fb.bytesPerPixel ≤ (y + 1) * fb.stride := by
  calc fb.offset x y + fb.bytesPerPixel
      = y * fb.stride + (x + 1) * fb.bytesPerPixel := by
        rw [Framebuffer.offset, Nat.add_mul, Nat.one_mul, Nat.add_assoc]
    _ ≤ y * fb.stride + fb.stride :=
        Nat.add_le_add_left (Nat.le_trans (Nat.mul_le_mul_right _ hx) hm.rows) _
    _ = (y + 1) * fb.stride := by rw [Nat.add_mul, Nat.one_mul]

/-- No two pixels of a row, and no two rows, share a byte. -/
theorem offset_apart (hm : fb.Mapped) (hx : x < fb.width) (hx' : x' < fb.width)
    (hne : ¬ (x = x' ∧ y = y')) :
    fb.offset x y + fb.bytesPerPixel ≤ fb.offset x' y' ∨
      fb.offset x' y' + fb.bytesPerPixel ≤ fb.offset x y := by
  have hrow : ∀ {a b a' b' : ℕ}, a < fb.width → b < b' →
      fb.offset a b + fb.bytesPerPixel ≤ fb.offset a' b' := by
    intro a b a' b' ha hb
    have hend : (b + 1) * fb.stride ≤ fb.offset a' b' :=
      Nat.le_trans (Nat.mul_le_mul_right _ hb) (Nat.le_add_right _ _)
    exact Nat.le_trans (offset_row hm ha) hend
  have hcolumn : ∀ {a a' b : ℕ}, a < a' → fb.offset a b + fb.bytesPerPixel ≤ fb.offset a' b := by
    intro a a' b ha
    have hle := Nat.mul_le_mul_right fb.bytesPerPixel ha
    rw [Nat.succ_mul] at hle
    unfold Framebuffer.offset
    omega
  rcases Nat.lt_trichotomy y y' with hy | rfl | hy
  · exact Or.inl (hrow hx hy)
  · rcases Nat.lt_trichotomy x x' with h | rfl | h
    · exact Or.inl (hcolumn h)
    · exact absurd ⟨rfl, rfl⟩ hne
    · exact Or.inr (hcolumn h)
  · exact Or.inr (hrow hx' hy)

theorem colourAt_write_other (hm : fb.Mapped) (hx : x < fb.width) (hx' : x' < fb.width)
    (hne : ¬ (x = x' ∧ y = y')) :
    colourAt fb (write s (fb.offset x' y') (fb.packed c)) x y = colourAt fb s x y := by
  apply List.map_congr_left
  intro i hi
  have hi := List.mem_range.mp hi
  have hle := channels_le hm.pixels
  have hlen := length_packed hm.pixels c
  have hapart := offset_apart hm hx hx' hne
  exact if_neg (by omega)

theorem offset_end (hm : fb.Mapped) (hx : x < fb.width) (hy : y < fb.height) :
    fb.offset x y + fb.bytesPerPixel ≤ fb.len :=
  Nat.le_trans (offset_row hm hx) (Nat.le_trans (Nat.mul_le_mul_right _ hy) hm.mapping)

/-- A pixel of the screen is written, and none beside it. -/
theorem setPixel_ok (hm : fb.Mapped)
    (h : (setPixel fb x y c : Attempt Screen ε Unit).run s = some (.ok (), s')) :
    s' = if x < fb.width ∧ y < fb.height then write s (fb.offset x y) (fb.packed c) else s := by
  rw [setPixel] at h
  by_cases hin : x < fb.width ∧ y < fb.height
  · rw [if_neg (by omega), run_demand_bind] at h
    split at h
    · rw [if_neg (Nat.not_lt.mpr (offset_end hm hin.1 hin.2)), run_of] at h
      rw [if_pos hin]
      exact (Prod.mk.inj (Option.some.inj h)).2.symm
    · exact absurd h nofun
  · rw [if_pos (by omega), run_pure] at h
    rw [if_neg hin]
    exact (Prod.mk.inj (Option.some.inj h)).2.symm

end Pixels

section Strips

variable {ε : Type} {fb : Framebuffer} {s s' t t' : Screen} {x y width height len : ℕ} {c : Colour}

/-- The two screens show the same colours in the reserved strip. -/
def StripAgrees (fb : Framebuffer) (s t : Screen) : Prop :=
  ∀ x y, x < fb.width → y < fb.height → y < trustBarHeight → colourAt fb s x y = colourAt fb t x y

/-- A pixel that is drawn either shows its own colour or the one it had. -/
theorem setPixel_colourAt (hm : fb.Mapped) {x' y' : ℕ} (hx' : x' < fb.width) (hy' : y' < fb.height)
    (h : (setPixel fb x y c : Attempt Screen ε Unit).run s = some (.ok (), s')) :
    colourAt fb s' x' y' = if x' = x ∧ y' = y then fb.packed c else colourAt fb s x' y' := by
  rw [setPixel_ok hm h]
  by_cases heq : x' = x ∧ y' = y
  · obtain ⟨rfl, rfl⟩ := heq
    rw [if_pos ⟨hx', hy'⟩, if_pos ⟨rfl, rfl⟩, colourAt_write_self hm.pixels]
  · rw [if_neg heq]
    split
    · next hin => exact colourAt_write_other hm hx' hin.1 heq
    · rfl

theorem coupled_setPixel (hm : fb.Mapped) (hlen : { fb with len := len }.Mapped) :
    Coupled (StripAgrees fb) (StripAgrees fb) (setPixel fb x y c : Attempt Screen ε Unit)
      (setPixel { fb with len := len } x y c) := by
  intro s t _ _ s' t' h hs ht
  refine ⟨rfl, fun x' y' hx' hy' hstrip => ?_⟩
  have ht' : colourAt fb t' x' y' = if x' = x ∧ y' = y then fb.packed c
      else colourAt fb t x' y' := setPixel_colourAt hlen hx' hy' ht
  rw [setPixel_colourAt hm hx' hy' hs, ht', h x' y' hx' hy' hstrip]

theorem coupled_fillRect (hm : fb.Mapped) (hlen : { fb with len := len }.Mapped) :
    Coupled (StripAgrees fb) (StripAgrees fb)
      (fillRect fb x y width height c : Attempt Screen ε Unit)
      (fillRect { fb with len := len } x y width height c) :=
  .bind (.sum _ _ _) fun _ => .bind (.sum _ _ _) fun _ => .forM fun _ _ => .forM fun _ _ =>
    coupled_setPixel hm hlen

theorem coupled_drawText (hm : fb.Mapped) (hlen : { fb with len := len }.Mapped) (text : String) :
    Coupled (StripAgrees fb) (StripAgrees fb) (drawText fb x y text c : Attempt Screen ε Unit)
      (drawText { fb with len := len } x y text c) := by
  refine .bind (.foldlM (fun cursor character _ => ?_) x) fun _ => .pure ()
  refine .bind (.forM fun column _ => .bind (.sum _ _ _) fun _ => .forM fun row _ => ?_)
    fun _ => .sum _ _ _
  exact .ite (fun _ => .bind (.sum _ _ _) fun _ => coupled_setPixel hm hlen) fun _ => .pure ()

theorem coupled_drawSignature (hm : fb.Mapped) (hlen : { fb with len := len }.Mapped)
    (signature : List Colour) :
    Coupled (StripAgrees fb) (StripAgrees fb) (drawSignature fb signature : Attempt Screen ε Unit)
      (drawSignature { fb with len := len } signature) :=
  .bind (.foldlM (fun _ _ _ => .bind (coupled_fillRect hm hlen) fun _ => .sum _ _ _) _) fun _ =>
    .pure ()

theorem fillRect_ok (h : (fillRect fb x y width height c : Attempt Screen ε Unit).run s =
      some (.ok (), s')) :
    ((List.range' y (min (y + height) fb.height - y)).forM fun row =>
      (List.range' x (min (x + width) fb.width - x)).forM fun column =>
        (setPixel fb column row c : Attempt Screen ε Unit)).run s = some (.ok (), s') := by
  rw [fillRect] at h
  exact (run_sum_bind_ok.mp (run_sum_bind_ok.mp h).2).2

/-- A pixel of the rectangle shows its colour. -/
theorem fillRect_colourAt (hm : fb.Mapped) {x' y' : ℕ} (hx' : x' < fb.width) (hy' : y' < fb.height)
    (hx : x ≤ x' ∧ x' < x + width) (hy : y ≤ y' ∧ y' < y + height)
    (h : (fillRect fb x y width height c : Attempt Screen ε Unit).run s = some (.ok (), s')) :
    colourAt fb s' x' y' = fb.packed c := by
  have hpixel : ∀ column row s s', colourAt fb s x' y' = fb.packed c →
      (setPixel fb column row c : Attempt Screen ε Unit).run s = some (.ok (), s') →
      colourAt fb s' x' y' = fb.packed c := by
    intro column row s s' hs hrun
    rw [setPixel_colourAt hm hx' hy' hrun, hs, ite_self]
  refine forM_establishes (P := fun s => colourAt fb s x' y' = fb.packed c) (a := y') ?_ (fun row _ s s' hs hrun => ?_) (fun s s' hrun => ?_)
    (fillRect_ok h)
  · rw [List.mem_range'_1]
    omega
  · exact forM_keeps (P := fun s => colourAt fb s x' y' = fb.packed c)
      (fun column _ s s' => hpixel column row s s') hrun hs
  · refine forM_establishes (P := fun s => colourAt fb s x' y' = fb.packed c) (a := x') ?_
      (fun column _ s s' => hpixel column y' s s') (fun s s' hrun => ?_) hrun
    · rw [List.mem_range'_1]
      omega
    · rw [setPixel_colourAt hm hx' hy' hrun, if_pos ⟨rfl, rfl⟩]

/-- The bar covers the whole strip, whatever was there. -/
theorem coupled_fillBar (hm : fb.Mapped) (hlen : { fb with len := len }.Mapped) :
    Coupled (fun _ _ => True) (StripAgrees fb)
      (fillRect fb 0 0 fb.width trustBarHeight c : Attempt Screen ε Unit)
      (fillRect { fb with len := len } 0 0 fb.width trustBarHeight c) := by
  intro s t _ _ s' t' _ hs ht
  refine ⟨rfl, fun x y hx hy hstrip => ?_⟩
  have hx0 : 0 ≤ x ∧ x < 0 + fb.width := ⟨Nat.zero_le _, by omega⟩
  have hy0 : 0 ≤ y ∧ y < 0 + trustBarHeight := ⟨Nat.zero_le _, by omega⟩
  have ht' : colourAt fb t' x y = fb.packed c := fillRect_colourAt hlen hx hy hx0 hy0 ht
  rw [fillRect_colourAt hm hx hy hx0 hy0 hs, ht']

theorem coupled_drawTrustBar (hm : fb.Mapped) (hlen : { fb with len := len }.Mapped)
    (theme : Theme) (realm : Option ℕ) (signature : List Colour) :
    Coupled (fun _ _ => True) (StripAgrees fb)
      (drawTrustBar fb theme realm signature : Attempt Screen ε Unit)
      (drawTrustBar { fb with len := len } theme realm signature) := by
  refine .bind (coupled_fillBar hm hlen) fun _ => .bind (coupled_fillRect hm hlen) fun _ => ?_
  cases realm with
  | none =>
    exact .bind (coupled_fillRect hm hlen) fun _ => .bind (coupled_drawText hm hlen _) fun _ =>
      coupled_drawSignature hm hlen signature
  | some kind =>
    exact .bind (coupled_fillRect hm hlen) fun _ => .bind (coupled_drawText hm hlen _) fun _ =>
      coupled_drawSignature hm hlen signature

end Strips

section Frames

variable {ε : Type} {fb : Framebuffer} {c c' d d' : State} {s s' t t' : Screen} {len : ℕ}
  {l l' : List Surface} {toggle toggle' : Bool} {pointer pointer' : ℕ × ℕ}

theorem find_moved (h : List.Forall₂ Surface.Moved l l') (id : ℕ) :
    (l'.find? fun s => s.id == id).map (·.realmKind) =
      (l.find? fun s => s.id == id).map (·.realmKind) := by
  induction h with
  | nil => rfl
  | cons hs _ ih =>
    rw [List.find?_cons, List.find?_cons, hs.id]
    split
    · exact congrArg some hs.realmKind
    · exact ih

theorem focusedRealm_eq (c : State) : focusedRealm c = c.focused.bind fun id =>
    (c.surfaces.find? fun s => s.id == id).map (·.realmKind) := by
  rw [focusedRealm]
  cases c.focused with
  | none => rfl
  | some id => cases hf : c.surfaces.find? fun s => s.id == id <;> simp [hf]

theorem onState_ok {α : Type} {x : Attempt State ε α} {a : α} :
    (onState x : Attempt (State × Screen) ε α).run (c, s) = some (.ok a, (c', s')) ↔
      x.run c = some (.ok a, c') ∧ s' = s := by
  rw [onState, run_of, Option.map_eq_some_iff]
  simp [eq_comm]

theorem onScreen_ok {α : Type} {x : Attempt Screen ε α} {a : α} :
    (onScreen x : Attempt (State × Screen) ε α).run (c, s) = some (.ok a, (c', s')) ↔
      x.run s = some (.ok a, s') ∧ c' = c := by
  rw [onScreen, run_of, Option.map_eq_some_iff]
  simp [eq_comm]

/-- A presentation that leaves the layout alone draws its frame and counts it. -/
theorem presentOn_false (hfb : c.framebuffer = some fb)
    (h : (presentOn false pointer : Attempt (State × Screen) ε Unit).run (c, s) =
      some (.ok (), (c', s'))) :
    (drawFrame fb c pointer : Attempt Screen ε Unit).run s = some (.ok (), s') ∧
      (present false : Attempt State ε Unit).run c = some (.ok (), c') := by
  rw [presentOn] at h
  obtain ⟨u, ⟨d, t⟩, hget, hrest⟩ := run_bind_ok.mp h
  obtain ⟨hread, rfl⟩ := onState_ok.mp hget
  obtain ⟨hu, rfl⟩ := Prod.mk.inj (Option.some.inj hread)
  obtain rfl := Except.ok.inj hu
  rw [hfb] at hrest
  obtain ⟨⟨⟩, ⟨d, t⟩, hdraw, hcount⟩ := run_bind_ok.mp hrest
  obtain ⟨hframe, rfl⟩ := onScreen_ok.mp hdraw
  obtain ⟨hcounted, rfl⟩ := onState_ok.mp hcount
  refine ⟨hframe, ?_⟩
  rw [present, if_neg Bool.false_ne_true, run_bind_of_ok (run_of _), hfb]
  exact hcounted

theorem presentOn_true :
    (presentOn true pointer : Attempt (State × Screen) ε Unit) =
      (do onState toggleLayout; presentOn false pointer) := rfl

/-- What a presentation draws its frame from: the layout may have moved the surfaces before. -/
theorem presentOn_drawn (hfb : c.framebuffer = some fb)
    (h : (presentOn toggle pointer : Attempt (State × Screen) ε Unit).run (c, s) =
      some (.ok (), (c', s'))) :
    ∃ u, u.theme = c.theme ∧ u.signature = c.signature ∧ focusedRealm u = focusedRealm c ∧
      (drawFrame fb u pointer : Attempt Screen ε Unit).run s = some (.ok (), s') := by
  cases toggle with
  | false => exact ⟨c, rfl, rfl, rfl, (presentOn_false hfb h).1⟩
  | true =>
    rw [presentOn_true] at h
    obtain ⟨⟨⟩, ⟨u, t⟩, hflip, hrest⟩ := run_bind_ok.mp h
    obtain ⟨htoggle, rfl⟩ := onState_ok.mp hflip
    obtain ⟨mode, l, rfl, hl⟩ := toggleLayout_moved htoggle
    have hframe := presentOn_false (c := { c with layout := mode, surfaces := l }) hfb hrest
    refine ⟨{ c with layout := mode, surfaces := l }, rfl, rfl, ?_, hframe.1⟩
    rw [focusedRealm_eq, focusedRealm_eq]
    exact Option.bind_congr fun id _ => find_moved hl id

theorem drawFrame_ok (h : (drawFrame fb c pointer : Attempt Screen ε Unit).run s =
      some (.ok (), s')) :
    ∃ u, (drawTrustBar fb c.theme (focusedRealm c) c.signature : Attempt Screen ε Unit).run u =
      some (.ok (), s') := by
  obtain ⟨⟨⟩, _, _, hsurfaces⟩ := run_bind_ok.mp h
  obtain ⟨⟨⟩, _, _, hpointer⟩ := run_bind_ok.mp hsurfaces
  obtain ⟨⟨⟩, u, _, hbar⟩ := run_bind_ok.mp hpointer
  exact ⟨u, hbar⟩

/-- The strip shows the same in both, whatever the surfaces, the pointers and the screens were. -/
theorem trust_strip_agrees (hc : c.framebuffer = some fb)
    (hd : d.framebuffer = some { fb with len := len }) (hm : fb.Mapped)
    (hlen : { fb with len := len }.Mapped) (htheme : c.theme = d.theme)
    (hsignature : c.signature = d.signature) (hrealm : focusedRealm c = focusedRealm d)
    (hs : (presentOn toggle pointer : Attempt (State × Screen) ε Unit).run (c, s) =
      some (.ok (), (c', s')))
    (ht : (presentOn toggle' pointer' : Attempt (State × Screen) ε Unit).run (d, t) =
      some (.ok (), (d', t'))) :
    ∀ x y, x < fb.width → y < fb.height → y < trustBarHeight →
      colourAt fb s' x y = colourAt { fb with len := len } t' x y := by
  obtain ⟨c₁, hc₁theme, hc₁signature, hc₁realm, hdraw⟩ := presentOn_drawn hc hs
  obtain ⟨d₁, hd₁theme, hd₁signature, hd₁realm, hdraw'⟩ := presentOn_drawn hd ht
  obtain ⟨u, hbar⟩ := drawFrame_ok hdraw
  obtain ⟨v, hbar'⟩ := drawFrame_ok hdraw'
  rw [hc₁theme, hc₁signature, hc₁realm, htheme, hsignature, hrealm] at hbar
  rw [hd₁theme, hd₁signature, hd₁realm] at hbar'
  exact (coupled_drawTrustBar hm hlen _ _ _ u v () () s' t' trivial hbar hbar').2

/-- A grey screen with eight rows below the strip. -/
def greyScreen : Framebuffer := ⟨64, 28, 64, 1, .u8, 1792⟩

/-- A vault window in focus on its own. -/
def vaultDesktop : State :=
  ⟨some greyScreen, [⟨1, 7, 2, 3, 20, 2, 1, .windowed, List.replicate 8 9⟩], 2, some 1, .default,
    .floating, [⟨200, 0, 0⟩, ⟨0, 0, 200⟩], 0, 0, 0⟩

/-- A vault window in focus beside another one. -/
def sharedDesktop : State :=
  { vaultDesktop with
    surfaces := [⟨1, 3, 0, 0, 22, 1, 1, .windowed, [1, 2, 3, 4]⟩,
      ⟨2, 4, 2, 9, 21, 1, 2, .windowed, List.replicate 8 5⟩]
    focused := some 2 }

theorem trust_strip_agrees_vault : ∃ p q,
    (presentOn false (0, 0) : Attempt (State × Screen) Empty Unit).run
      (vaultDesktop, fun _ => 0) = some (.ok (), p) ∧
    (presentOn true (30, 8) : Attempt (State × Screen) Empty Unit).run
      (sharedDesktop, fun _ => 7) = some (.ok (), q) ∧
    ∀ x y, x < 64 → y < 28 → y < trustBarHeight →
      colourAt greyScreen p.2 x y = colourAt greyScreen q.2 x y := by
  have hm : greyScreen.Mapped := ⟨by decide, by decide, by decide, by decide⟩
  have hs : ((presentOn false (0, 0) : Attempt (State × Screen) Empty Unit).run
      (vaultDesktop, fun _ => 0)).isSome = true := by
    decide +kernel
  have ht : ((presentOn true (30, 8) : Attempt (State × Screen) Empty Unit).run
      (sharedDesktop, fun _ => 7)).isSome = true := by
    decide +kernel
  obtain ⟨⟨⟨⟨⟩⟩ | ⟨⟨⟩⟩, c, s⟩, hs⟩ := Option.isSome_iff_exists.mp hs
  obtain ⟨⟨⟨⟨⟩⟩ | ⟨⟨⟩⟩, d, t⟩, ht⟩ := Option.isSome_iff_exists.mp ht
  have hc : vaultDesktop.framebuffer = some greyScreen := rfl
  have hd : sharedDesktop.framebuffer = some { greyScreen with len := 1792 } := rfl
  exact ⟨(c, s), (d, t), hs, ht, trust_strip_agrees hc hd hm hm rfl rfl rfl hs ht⟩

end Frames

end Compositor
