import NajmKernel.InputDrivers

/-! What the delivered events say of the devices: the buttons that are held, and the keys. -/
namespace InputQueue

variable {q : EventQueue} {e : InputEvent} {es : List InputEvent} {count : ℕ}

/-- The events of a ring, the oldest first. -/
def contents (q : EventQueue) : List InputEvent :=
  (List.range q.len).map fun i => q.events ((q.head + i) % queueCapacity)

structure EventQueue.Sound (q : EventQueue) : Prop where
  head : q.head < queueCapacity
  len : q.len ≤ queueCapacity

theorem empty_sound : empty.Sound := ⟨by decide, Nat.zero_le _⟩

theorem push_dropped (q : EventQueue) (e : InputEvent) :
    (push q e).dropped = if q.len = queueCapacity then q.dropped + 1 else q.dropped := by
  unfold push
  split <;> rfl

/-- A ring that is not full grows by the event at its end. -/
theorem push_contents (hq : q.Sound) (hroom : q.len ≠ queueCapacity) (e : InputEvent) :
    (push q e).Sound ∧ contents (push q e) = contents q ++ [e] := by
  have hcapacity : queueCapacity = 256 := rfl
  have hhead := hq.head
  have hlen := hq.len
  unfold push
  simp only [if_neg hroom]
  refine ⟨⟨hhead, by simp only; omega⟩, ?_⟩
  rw [contents, contents, List.range_succ, List.map_append]
  refine congrArg₂ _ (List.map_congr_left fun i hi => ?_) ?_
  · have hi := List.mem_range.mp hi
    have hplace : (q.head + i) % queueCapacity ≠ (q.head + q.len) % queueCapacity := by
      rw [hcapacity]
      omega
    exact Function.update_of_ne hplace _ _
  · rw [List.map_singleton]
    exact congrArg (fun e' => [e']) (Function.update_self _ _ _)

/-- Without its oldest event a ring is a ring of the others. -/
theorem contents_pop (hq : q.Sound) (hzero : q.len ≠ 0) (dropped : ℕ) :
    EventQueue.Sound ⟨q.events, (q.head + 1) % queueCapacity, q.len - 1, dropped⟩ ∧
      contents q = q.events q.head ::
        contents ⟨q.events, (q.head + 1) % queueCapacity, q.len - 1, dropped⟩ := by
  have hcapacity : queueCapacity = 256 := rfl
  have hhead := hq.head
  have hlen := hq.len
  refine ⟨⟨Nat.mod_lt _ (by omega), by simp only; omega⟩, ?_⟩
  obtain ⟨n, hn⟩ := Nat.exists_eq_succ_of_ne_zero hzero
  rw [contents, contents, hn, List.range_succ_eq_map, List.map_cons, List.map_map, Nat.add_zero,
    Nat.mod_eq_of_lt hhead]
  refine congrArg _ (List.map_congr_left fun i _ => ?_)
  have hplace : (q.head + i.succ) % queueCapacity =
      ((q.head + 1) % queueCapacity + i) % queueCapacity := by
    rw [hcapacity]
    omega
  exact congrArg q.events hplace

theorem poll_contents (count : ℕ) (hq : q.Sound) :
    (poll count q).2.Sound ∧ (poll count q).1 = (contents q).take count ∧
      contents (poll count q).2 = (contents q).drop count ∧
      (poll count q).2.dropped = q.dropped := by
  induction count generalizing q with
  | zero => exact ⟨hq, rfl, rfl, rfl⟩
  | succ count ih =>
    rw [poll]
    by_cases hzero : q.len = 0
    · have hnil : contents q = [] := by rw [contents, hzero]; rfl
      rw [if_pos hzero, hnil, List.take_nil, List.drop_nil]
      exact ⟨hq, rfl, rfl, rfl⟩
    obtain ⟨hsound, hcons⟩ := contents_pop hq hzero q.dropped
    obtain ⟨hsound', htaken, hleft, hdropped⟩ := ih hsound
    rw [if_neg hzero, hcons, List.take_succ_cons, List.drop_succ_cons]
    exact ⟨hsound', congrArg _ htaken, hleft, hdropped⟩

def pushAll (q : EventQueue) (es : List InputEvent) : EventQueue := es.foldl push q

theorem pushAll_dropped_le (es : List InputEvent) (q : EventQueue) :
    q.dropped ≤ (pushAll q es).dropped := by
  induction es generalizing q with
  | nil => exact Nat.le_refl _
  | cons e es ih =>
    refine Nat.le_trans ?_ (ih (push q e))
    rw [push_dropped]
    split
    · exact Nat.le_succ _
    · exact Nat.le_refl _

/-- Where none is dropped, the events stand in the ring in their order. -/
theorem pushAll_contents (hq : q.Sound) (hkept : (pushAll q es).dropped = q.dropped) :
    (pushAll q es).Sound ∧ contents (pushAll q es) = contents q ++ es := by
  induction es generalizing q with
  | nil => exact ⟨hq, (List.append_nil _).symm⟩
  | cons e es ih =>
    have hmore := pushAll_dropped_le es (push q e)
    have hroom : q.len ≠ queueCapacity := by
      intro hfull
      rw [push_dropped, if_pos hfull] at hmore
      exact absurd (Nat.le_trans hmore (Nat.le_of_eq hkept)) (Nat.not_succ_le_self _)
    obtain ⟨hsound, hpushed⟩ := push_contents hq hroom e
    have hkept' : (pushAll (push q e) es).dropped = (push q e).dropped := by
      rw [push_dropped, if_neg hroom]
      exact hkept
    obtain ⟨hsound', hrest⟩ := ih hsound hkept'
    refine ⟨hsound', hrest.trans ?_⟩
    rw [hpushed, List.append_assoc, List.singleton_append]

end InputQueue

namespace InputDrivers

open InputQueue TransitionSystem

section Meanings

/-- The set of buttons after an event, by its mask. -/
def applyButtons (held : UInt8) (e : InputEvent) : UInt8 :=
  if e.kind = pointerButtonDown then held ||| UInt8.ofNat e.code
  else if e.kind = pointerButtonUp then held &&& ~~~UInt8.ofNat e.code
  else held

/-- The buttons that the events say are held. -/
def heldButtons (events : List InputEvent) : UInt8 := events.foldl applyButtons 0

/-- What the programs have received or will. -/
def delivered (s : Session) : List InputEvent := s.received ++ contents s.driver.queue

def IsKey (e : InputEvent) : Prop := e.kind = keyDown ∨ e.kind = keyUp

/-- The keyboard has sent the press of a key. -/
def Pressed (s : Session) (code : ℕ) : Prop :=
  ∃ byte ∈ s.scancodes, isRelease byte = false ∧ keyOf byte = code

/-- The ring loses nothing to an event. -/
def Roomy (s : Session) (e : Event) : Prop :=
  ∀ u, next s e = some u → u.driver.queue.dropped = s.driver.queue.dropped

/-- What an event delivers agrees with the devices. -/
structure Faithful (s : Session) (e : Event) : Prop where
  buttons : ∀ flags second byte u, e = .mouseByte byte → s.driver.packet = [flags, second] →
    flags &&& 0xC0 = 0 → next s e = some u → heldButtons (delivered u) = flags &&& 0x07
  keys : ∀ code u new, next s e = some u → delivered u = delivered s ++ new →
    ⟨keyUp, code, 0, 0⟩ ∈ new → Pressed s code → ⟨keyDown, code, 0, 0⟩ ∈ delivered s
  hotkey : ∀ u, next s e = some u → ∀ event ∈ delivered u, IsKey event → event.code ≠ scancodeF1

instance decidableRoomy (s : Session) (e : Event) : Decidable (Roomy s e) :=
  match h : next s e with
  | some u => decidable_of_iff (u.driver.queue.dropped = s.driver.queue.dropped)
      ⟨fun heq _ ht => Option.some.inj (h.symm.trans ht) ▸ heq, fun hroom => hroom u h⟩
  | none => isTrue fun _ ht => nomatch h.symm.trans ht

/-- One button goes down and another up. -/
def Mixed (buttons previous : UInt8) : Prop :=
  buttons &&& (buttons ^^^ previous) ≠ 0 ∧ previous &&& (buttons ^^^ previous) ≠ 0

/-- No release of the hotkey, and no report of buttons that go both ways. -/
def Plain (s : Session) : Event → Prop
  | .scancode byte => ¬ (isRelease byte = true ∧ keyOf byte = scancodeF1)
  | .mouseByte _ => ∀ flags second, s.driver.packet = [flags, second] → flags &&& 0xC0 = 0 →
    ¬ Mixed (flags &&& 0x07) s.driver.previousButtons
  | _ => True

instance decidableMixed (buttons previous : UInt8) : Decidable (Mixed buttons previous) :=
  inferInstanceAs (Decidable (_ ∧ _))

instance decidablePlain (s : Session) : ∀ e, Decidable (Plain s e)
  | .scancode byte => inferInstanceAs (Decidable (¬ _))
  | .mouseByte _ =>
    match h : s.driver.packet with
    | [flags, second] => decidable_of_iff (flags &&& 0xC0 = 0 →
        ¬ Mixed (flags &&& 0x07) s.driver.previousButtons)
      ⟨fun hwhole flags' second' hpacket => by
        obtain ⟨rfl, -⟩ := List.cons.inj (h.symm.trans hpacket)
        exact hwhole, fun hplain => hplain flags second h⟩
    | [] => isTrue fun _ _ hpacket => nomatch h.symm.trans hpacket
    | [_] => isTrue fun _ _ hpacket => nomatch h.symm.trans hpacket
    | _ :: _ :: _ :: _ => isTrue fun _ _ hpacket => nomatch h.symm.trans hpacket
  | .poll _ => isTrue trivial
  | .takeLayoutToggle => isTrue trivial

end Meanings

section Buttons

variable {b p : UInt8}

theorem xor_eq_zero (h : b ^^^ p = 0) : b = p := UInt8.xor_eq_zero_iff.mp h

theorem or_changed (h : p &&& (b ^^^ p) = 0) : p ||| (b ^^^ p) = b := by
  rw [← UInt8.toBitVec_inj] at h ⊢
  ext i hi
  have hbit := congrArg (fun v : BitVec 8 => v[i]) h
  simp only [UInt8.toBitVec_and, UInt8.toBitVec_xor, UInt8.toBitVec_or, BitVec.getElem_and,
    BitVec.getElem_xor, BitVec.getElem_or] at hbit ⊢
  cases hp : p.toBitVec[i] <;> cases hb : b.toBitVec[i] <;> simp_all

theorem and_changed (h : b &&& (b ^^^ p) = 0) : p &&& ~~~(b ^^^ p) = b := by
  rw [← UInt8.toBitVec_inj] at h ⊢
  ext i hi
  have hbit := congrArg (fun v : BitVec 8 => v[i]) h
  simp only [UInt8.toBitVec_and, UInt8.toBitVec_xor, UInt8.toBitVec_not, BitVec.getElem_and,
    BitVec.getElem_xor, BitVec.getElem_not] at hbit ⊢
  cases hp : p.toBitVec[i] <;> cases hb : b.toBitVec[i] <;> simp_all

theorem or_changed_ne (h : p &&& (b ^^^ p) ≠ 0) : p ||| (b ^^^ p) ≠ b := by
  intro heq
  apply h
  rw [← UInt8.toBitVec_inj] at heq ⊢
  ext i hi
  have hbit := congrArg (fun v : BitVec 8 => v[i]) heq
  simp only [UInt8.toBitVec_and, UInt8.toBitVec_xor, UInt8.toBitVec_or, BitVec.getElem_and,
    BitVec.getElem_xor, BitVec.getElem_or] at hbit ⊢
  cases hp : p.toBitVec[i] <;> cases hb : b.toBitVec[i] <;> simp_all

end Buttons

section Steps

variable {s u : Session} {e : Event} {d : Driver} {flags second third byte : UInt8}

/-- The events of a whole report. -/
def packetEvents (d : Driver) (flags second third : UInt8) : List InputEvent :=
  let dx := movement flags 0x10 second
  let dy := movement flags 0x20 third
  if flags &&& 0xC0 ≠ 0 then []
  else
    let x := clamp (asI64 (d.pointer.1 + dx)) d.bounds.1
    let y := clamp (asI64 (d.pointer.2 - dy)) d.bounds.2
    let buttons := flags &&& 0x07
    let changed := buttons ^^^ d.previousButtons
    let kind := if buttons &&& changed ≠ 0 then pointerButtonDown else pointerButtonUp
    (if dx ≠ 0 ∨ dy ≠ 0 then [⟨pointerMotion, 0, x, y⟩] else []) ++
      if changed ≠ 0 then [⟨kind, changed.toNat, x, y⟩] else []

theorem onPacket_queue (d : Driver) (flags second third : UInt8) :
    (onPacket d flags second third).queue = pushAll d.queue (packetEvents d flags second third) := by
  unfold onPacket packetEvents
  simp only
  split
  · rfl
  rw [pushAll, List.foldl_append]
  split <;> split <;> rfl

theorem onPacket_previous (d : Driver) (flags second third : UInt8) :
    (onPacket d flags second third).previousButtons =
      if flags &&& 0xC0 ≠ 0 then d.previousButtons else flags &&& 0x07 := by
  unfold onPacket
  simp only
  split
  · rfl
  · rfl

/-- The events that an event of the devices puts into the ring. -/
def emitted (s : Session) : Event → List InputEvent
  | .scancode byte =>
    if isRelease byte = false ∧ keyOf byte = scancodeF1 then []
    else [⟨if isRelease byte then keyUp else keyDown, keyOf byte, 0, 0⟩]
  | .mouseByte byte => match s.driver.packet with
    | [flags, second] => packetEvents s.driver flags second byte
    | _ => []
  | _ => []

theorem onScancode_queue (d : Driver) (byte : UInt8) : (onScancode d byte).queue = pushAll d.queue
    (if isRelease byte = false ∧ keyOf byte = scancodeF1 then []
      else [⟨if isRelease byte then keyUp else keyDown, keyOf byte, 0, 0⟩]) := by
  unfold onScancode
  simp only
  split <;> rfl

theorem emitted_report (h : s.driver.packet = [flags, second]) :
    emitted s (.mouseByte byte) = packetEvents s.driver flags second byte := by
  rw [emitted, h]

theorem emitted_none (h : ∀ flags second, s.driver.packet ≠ [flags, second]) :
    emitted s (.mouseByte byte) = [] := by
  rw [emitted]
  split
  next flags second hpacket => exact absurd hpacket (h flags second)
  · rfl

theorem onMouseByte_queue (s : Session) (byte : UInt8) :
    (onMouseByte s.driver byte).queue = pushAll s.driver.queue (emitted s (.mouseByte byte)) := by
  unfold onMouseByte
  split
  next flags second h =>
    rw [emitted_report h]
    exact onPacket_queue _ _ _ _
  next hother =>
    rw [emitted_none hother]
    split <;> rfl

/-- What is delivered grows by what is put into the ring, and a poll only moves it. -/
theorem next_delivered (hsound : s.driver.queue.Sound) (hroom : Roomy s e)
    (h : next s e = some u) :
    u.driver.queue.Sound ∧ delivered u = delivered s ++ emitted s e := by
  have hkept := hroom u h
  cases e with
  | scancode byte =>
    obtain rfl := Option.some.inj h
    simp only [onScancode_queue] at hkept
    obtain ⟨hsound', hcontents⟩ := pushAll_contents hsound hkept
    refine ⟨(onScancode_queue _ _).symm ▸ hsound', ?_⟩
    rw [delivered, onScancode_queue, hcontents, ← List.append_assoc]
    rfl
  | mouseByte byte =>
    obtain rfl := Option.some.inj h
    simp only [onMouseByte_queue] at hkept
    obtain ⟨hsound', hcontents⟩ := pushAll_contents hsound hkept
    refine ⟨(onMouseByte_queue _ _).symm ▸ hsound', ?_⟩
    rw [delivered, onMouseByte_queue, hcontents, ← List.append_assoc]
    rfl
  | poll count =>
    obtain rfl := Option.some.inj h
    obtain ⟨hsound', htaken, hleft, -⟩ := poll_contents count hsound
    refine ⟨hsound', ?_⟩
    simp only [delivered, emitted, htaken, hleft, List.append_assoc, List.take_append_drop,
      List.append_nil]
  | takeLayoutToggle =>
    obtain rfl := Option.some.inj h
    exact ⟨hsound, (List.append_nil _).symm⟩

theorem heldButtons_append (events more : List InputEvent) :
    heldButtons (events ++ more) = more.foldl applyButtons (heldButtons events) := List.foldl_append

theorem applyButtons_other {held : UInt8} {event : InputEvent} (hdown : event.kind ≠ pointerButtonDown)
    (hup : event.kind ≠ pointerButtonUp) : applyButtons held event = held := by
  rw [applyButtons, if_neg hdown, if_neg hup]

/-- A report leaves the held buttons as its masks have them. -/
theorem held_packet (held : UInt8) (hover : flags &&& 0xC0 = 0) :
    (packetEvents d flags second third).foldl applyButtons held =
      let buttons := flags &&& 0x07
      let changed := buttons ^^^ d.previousButtons
      if changed = 0 then held
      else if buttons &&& changed ≠ 0 then held ||| changed
      else held &&& ~~~changed := by
  have hmotion : ∀ l : List InputEvent, (∀ event ∈ l, event.kind = pointerMotion) →
      l.foldl applyButtons held = held := by
    intro l hl
    induction l with
    | nil => rfl
    | cons event l ih =>
      have hkind := hl event List.mem_cons_self
      rw [List.foldl_cons, applyButtons_other (by rw [hkind]; decide) (by rw [hkind]; decide),
        ih fun other hother => hl other (List.mem_cons_of_mem _ hother)]
  unfold packetEvents
  simp only
  rw [if_neg (not_not.mpr hover), List.foldl_append, hmotion]
  · generalize flags &&& 0x07 = buttons
    by_cases hchanged : buttons ^^^ d.previousButtons = 0
    · rw [if_pos hchanged, if_neg (not_not.mpr hchanged)]
      rfl
    · rw [if_neg hchanged, if_pos hchanged, List.foldl_cons, List.foldl_nil, applyButtons]
      by_cases hdown : buttons &&& (buttons ^^^ d.previousButtons) ≠ 0
      · simp only [if_pos hdown, if_pos, UInt8.ofNat_toNat]
      · simp only [if_neg hdown, UInt8.ofNat_toNat]
        rfl
  · intro event hevent
    split at hevent
    · rw [List.mem_singleton.mp hevent]
    · nomatch hevent

theorem packetEvents_pointer (hover : flags &&& 0xC0 = 0) :
    ∀ event ∈ packetEvents d flags second third, ¬ IsKey event := by
  unfold packetEvents
  simp only
  rw [if_neg (not_not.mpr hover)]
  intro event hevent
  obtain hevent | hevent := List.mem_append.mp hevent
  · split at hevent
    · rw [List.mem_singleton.mp hevent]
      simp only [IsKey]
      decide
    · nomatch hevent
  · split at hevent
    · rw [List.mem_singleton.mp hevent]
      simp only [IsKey]
      split <;> decide
    · nomatch hevent

end Steps

section Runs

variable {s u : Session} {e : Event} {width height : ℕ}

/-- The events tell the buttons, the keys and nothing of the hotkey. -/
structure Agrees (s : Session) : Prop where
  sound : s.driver.queue.Sound
  buttons : heldButtons (delivered s) = s.driver.previousButtons
  hotkey : ∀ event ∈ delivered s, IsKey event → event.code ≠ scancodeF1
  pressed : ∀ code, Pressed s code → code ≠ scancodeF1 → ⟨keyDown, code, 0, 0⟩ ∈ delivered s

theorem boot_agrees (width height : ℕ) : Agrees (boot width height) where
  sound := empty_sound
  buttons := rfl
  hotkey := fun _ hevent => nomatch hevent
  pressed := fun _ ⟨_, hbyte, _⟩ => nomatch hbyte

/-- An event that puts no key event into the ring, nor changes the buttons. -/
theorem quiet_step (hs : Agrees s) (hsound : u.driver.queue.Sound)
    (hdelivered : delivered u = delivered s)
    (hbuttons : u.driver.previousButtons = s.driver.previousButtons)
    (hscancodes : u.scancodes = s.scancodes) : Agrees u where
  sound := hsound
  buttons := by rw [hdelivered, hbuttons, hs.buttons]
  hotkey := by rw [hdelivered]; exact hs.hotkey
  pressed := by
    rw [hdelivered]
    intro code hpressed
    refine hs.pressed code ?_
    rwa [Pressed, ← hscancodes]

theorem scancode_step {byte : UInt8} (hs : Agrees s) (hroom : Roomy s (.scancode byte))
    (h : next s (.scancode byte) = some u) :
    (Faithful s (.scancode byte) ↔ Plain s (.scancode byte)) ∧
      (Plain s (.scancode byte) → Agrees u) := by
  obtain ⟨hsound, hdelivered⟩ := next_delivered hs.sound hroom h
  have hscancodes : u.scancodes = s.scancodes ++ [byte] := by rw [← Option.some.inj h]
  have hbuttons : u.driver.previousButtons = s.driver.previousButtons := by
    rw [← Option.some.inj h]
    simp only [onScancode]
    split <;> rfl
  have hfaithful_plain (hf : Faithful s (.scancode byte)) : Plain s (.scancode byte) := by
    rintro ⟨hreleased, hcode⟩
    have hemitted : emitted s (.scancode byte) = [⟨keyUp, scancodeF1, 0, 0⟩] := by
      rw [emitted, hreleased, hcode, if_neg fun h => Bool.noConfusion h.1, if_pos rfl]
    refine hf.hotkey u h ⟨keyUp, scancodeF1, 0, 0⟩ ?_ (Or.inr rfl) rfl
    rw [hdelivered, hemitted]
    exact List.mem_append_right _ (List.mem_singleton_self _)
  have hagrees (hplain : Plain s (.scancode byte)) : Agrees u := by
    refine ⟨hsound, ?_, ?_, ?_⟩
    · rw [hbuttons, hdelivered, heldButtons_append, ← hs.buttons, emitted]
      split
      · rfl
      · rw [List.foldl_cons, List.foldl_nil]
        refine applyButtons_other ?_ ?_
        all_goals
          simp only
          split <;> decide
    · intro event hevent
      rw [hdelivered] at hevent
      obtain hevent | hevent := List.mem_append.mp hevent
      · exact hs.hotkey event hevent
      rw [emitted] at hevent
      split at hevent
      · nomatch hevent
      · next hother =>
        rw [List.mem_singleton.mp hevent]
        intro _ hcode
        cases hreleased : isRelease byte with
        | false => exact hother ⟨hreleased, hcode⟩
        | true => exact hplain ⟨hreleased, hcode⟩
    · rintro code ⟨byte', hbyte', hpress, hkey⟩ hcode
      rw [hdelivered]
      rw [hscancodes] at hbyte'
      obtain hbyte' | hbyte' := List.mem_append.mp hbyte'
      · exact List.mem_append_left _ (hs.pressed code ⟨byte', hbyte', hpress, hkey⟩ hcode)
      rw [List.mem_singleton.mp hbyte'] at hpress hkey
      refine List.mem_append_right _ ?_
      rw [emitted, hkey, hpress, if_neg fun h => hcode h.2]
      exact List.mem_singleton_self _
  refine ⟨⟨hfaithful_plain, fun hplain => ⟨?_, ?_, ?_⟩⟩, hagrees⟩
  · intro flags second byte' u' hevent
    nomatch hevent
  · intro code u' new hu hnew hup hpressed
    obtain rfl : u' = u := Option.some.inj (hu.symm.trans h)
    obtain rfl := List.append_cancel_left (hnew.symm.trans hdelivered)
    have hmem : ⟨keyUp, code, 0, 0⟩ ∈ delivered u' := by
      rw [hdelivered]
      exact List.mem_append_right _ hup
    exact hs.pressed code hpressed ((hagrees hplain).hotkey _ hmem (Or.inr rfl))
  · intro u' hu
    obtain rfl : u' = u := Option.some.inj (hu.symm.trans h)
    exact (hagrees hplain).hotkey

/-- A byte that ends no report. -/
theorem partial_step {byte : UInt8} (hs : Agrees s) (hroom : Roomy s (.mouseByte byte))
    (h : next s (.mouseByte byte) = some u)
    (hpacket : ∀ flags second, s.driver.packet ≠ [flags, second]) : Agrees u := by
  obtain ⟨hsound, hdelivered⟩ := next_delivered hs.sound hroom h
  rw [emitted_none hpacket, List.append_nil] at hdelivered
  refine quiet_step hs hsound hdelivered ?_ ?_
  · rw [← Option.some.inj h]
    simp only
    unfold onMouseByte
    split
    · next flags second hp => exact absurd hp (hpacket flags second)
    · split <;> rfl
  · rw [← Option.some.inj h]

/-- The byte that ends a report. -/
theorem report_step {byte flags second : UInt8} (hs : Agrees s) (hroom : Roomy s (.mouseByte byte))
    (h : next s (.mouseByte byte) = some u) (hpacket : s.driver.packet = [flags, second]) :
    (∀ event ∈ delivered u, IsKey event → event ∈ delivered s) ∧
      (flags &&& 0xC0 ≠ 0 → Agrees u) ∧
      (flags &&& 0xC0 = 0 → (heldButtons (delivered u) = flags &&& 0x07 ↔
        ¬ Mixed (flags &&& 0x07) s.driver.previousButtons)) ∧
      (heldButtons (delivered u) = flags &&& 0x07 → flags &&& 0xC0 = 0 → Agrees u) := by
  obtain ⟨hsound, hdelivered⟩ := next_delivered hs.sound hroom h
  have hprevious : u.driver.previousButtons =
      if flags &&& 0xC0 ≠ 0 then s.driver.previousButtons else flags &&& 0x07 := by
    rw [← Option.some.inj h]
    simp only [onMouseByte, hpacket]
    exact onPacket_previous _ _ _ _
  have hscancodes : u.scancodes = s.scancodes := by rw [← Option.some.inj h]
  rw [emitted_report hpacket] at hdelivered
  have hkeys : ∀ event ∈ delivered u, IsKey event → event ∈ delivered s := by
    intro event hevent hkey
    rw [hdelivered] at hevent
    obtain hevent | hevent := List.mem_append.mp hevent
    · exact hevent
    by_cases hover : flags &&& 0xC0 = 0
    · exact absurd hkey (packetEvents_pointer hover event hevent)
    · rw [packetEvents] at hevent
      simp only [if_pos hover] at hevent
      nomatch hevent
  refine ⟨hkeys, fun hover => ?_, fun hover => ?_, fun hheld hover => ?_⟩
  · have hnone : packetEvents s.driver flags second byte = [] := by
      rw [packetEvents]
      exact if_pos hover
    rw [hnone, List.append_nil] at hdelivered
    rw [if_pos hover] at hprevious
    exact quiet_step hs hsound hdelivered hprevious hscancodes
  · rw [hdelivered, heldButtons_append, held_packet _ hover, hs.buttons]
    generalize flags &&& 0x07 = buttons
    generalize s.driver.previousButtons = previous
    simp only [Mixed]
    by_cases hchanged : buttons ^^^ previous = 0
    · rw [if_pos hchanged, hchanged, UInt8.and_zero]
      exact ⟨fun _ hmixed => hmixed.1 rfl, fun _ => (xor_eq_zero hchanged).symm⟩
    rw [if_neg hchanged]
    by_cases hdown : buttons &&& (buttons ^^^ previous) = 0
    · rw [if_neg (not_not.mpr hdown)]
      exact ⟨fun _ hmixed => hmixed.1 hdown, fun _ => and_changed hdown⟩
    rw [if_pos hdown]
    constructor
    · intro heq hmixed
      exact or_changed_ne hmixed.2 heq
    · intro hmixed
      exact or_changed (not_not.mp fun hup => hmixed ⟨hdown, hup⟩)
  · rw [if_neg (not_not.mpr hover)] at hprevious
    refine ⟨hsound, hheld.trans hprevious.symm, ?_, ?_⟩
    · intro event hevent hkey
      exact hs.hotkey event (hkeys event hevent hkey) hkey
    · rw [hdelivered]
      intro code hpressed hcode
      rw [Pressed, hscancodes] at hpressed
      exact List.mem_append_left _ (hs.pressed code hpressed hcode)

theorem mouseByte_step {byte : UInt8} (hs : Agrees s) (hroom : Roomy s (.mouseByte byte))
    (h : next s (.mouseByte byte) = some u) :
    (Faithful s (.mouseByte byte) ↔ Plain s (.mouseByte byte)) ∧
      (Plain s (.mouseByte byte) → Agrees u) := by
  obtain ⟨-, hdelivered⟩ := next_delivered hs.sound hroom h
  by_cases hpacket : ∃ flags second, s.driver.packet = [flags, second]
  · obtain ⟨flags, second, hpacket⟩ := hpacket
    obtain ⟨hkeys, hover, hbuttons, hagrees⟩ := report_step hs hroom h hpacket
    refine ⟨⟨fun hf => ?_, fun hplain => ⟨?_, ?_, ?_⟩⟩, fun hplain => ?_⟩
    · intro flags' second' hpacket' hwhole
      obtain ⟨rfl, htail⟩ := List.cons.inj (hpacket'.symm.trans hpacket)
      exact (hbuttons hwhole).mp (hf.buttons flags' second byte u rfl hpacket hwhole h)
    · intro flags' second' byte' u' hevent hpacket' hwhole hu
      obtain rfl : u' = u := Option.some.inj (hu.symm.trans h)
      obtain ⟨rfl, htail⟩ := List.cons.inj (hpacket'.symm.trans hpacket)
      exact (hbuttons hwhole).mpr (hplain flags' second hpacket hwhole)
    · intro code u' new hu hnew hup hpressed
      obtain rfl : u' = u := Option.some.inj (hu.symm.trans h)
      have hmem : ⟨keyUp, code, 0, 0⟩ ∈ delivered s :=
        hkeys _ (hnew ▸ List.mem_append_right _ hup) (Or.inr rfl)
      exact hs.pressed code hpressed (hs.hotkey _ hmem (Or.inr rfl))
    · intro u' hu event hevent hkey
      obtain rfl : u' = u := Option.some.inj (hu.symm.trans h)
      exact hs.hotkey event (hkeys event hevent hkey) hkey
    · by_cases hwhole : flags &&& 0xC0 = 0
      · exact hagrees ((hbuttons hwhole).mpr (hplain flags second hpacket hwhole)) hwhole
      · exact hover hwhole
  · have hpacket : ∀ flags second, s.driver.packet ≠ [flags, second] :=
      fun flags second hp => hpacket ⟨flags, second, hp⟩
    have hu := partial_step hs hroom h hpacket
    refine ⟨⟨fun _ flags second hp => absurd hp (hpacket flags second), fun _ => ⟨?_, ?_, ?_⟩⟩,
      fun _ => hu⟩
    · intro flags second _ _ _ hp
      exact absurd hp (hpacket flags second)
    · intro code u' new hu' hnew hup _
      obtain rfl : u' = u := Option.some.inj (hu'.symm.trans h)
      rw [List.append_cancel_left (hnew.symm.trans hdelivered), emitted_none hpacket] at hup
      nomatch hup
    · intro u' hu'
      obtain rfl : u' = u := Option.some.inj (hu'.symm.trans h)
      exact hu.hotkey

/-- An event of the programs puts nothing into the ring. -/
theorem reader_step (hs : Agrees s) (hroom : Roomy s e) (h : next s e = some u)
    (hemitted : emitted s e = []) (hbuttons : u.driver.previousButtons = s.driver.previousButtons)
    (hscancodes : u.scancodes = s.scancodes) (hmouse : ∀ byte, e ≠ .mouseByte byte) :
    Faithful s e ∧ Agrees u := by
  obtain ⟨hsound, hdelivered⟩ := next_delivered hs.sound hroom h
  rw [hemitted, List.append_nil] at hdelivered
  have hu := quiet_step hs hsound hdelivered hbuttons hscancodes
  refine ⟨⟨?_, ?_, ?_⟩, hu⟩
  · intro flags second byte u' hevent
    exact absurd hevent (hmouse byte)
  · intro code u' new hu' hnew hup _
    obtain rfl : u' = u := Option.some.inj (hu'.symm.trans h)
    rw [List.append_right_eq_self.mp (hnew.symm.trans hdelivered)] at hup
    nomatch hup
  · intro u' hu'
    obtain rfl : u' = u := Option.some.inj (hu'.symm.trans h)
    exact hu.hotkey

theorem event_step (hs : Agrees s) (hroom : Roomy s e) (h : next s e = some u) :
    (Faithful s e ↔ Plain s e) ∧ (Plain s e → Agrees u) := by
  cases e with
  | scancode byte => exact scancode_step hs hroom h
  | mouseByte byte => exact mouseByte_step hs hroom h
  | poll count =>
    obtain ⟨hf, hu⟩ := reader_step hs hroom h rfl (by rw [← Option.some.inj h])
      (by rw [← Option.some.inj h]) fun _ => Event.noConfusion
    exact ⟨iff_of_true hf trivial, fun _ => hu⟩
  | takeLayoutToggle =>
    obtain ⟨hf, hu⟩ := reader_step hs hroom h rfl (by rw [← Option.some.inj h])
      (by rw [← Option.some.inj h]) fun _ => Event.noConfusion
    exact ⟨iff_of_true hf trivial, fun _ => hu⟩

theorem next_some (s : Session) (e : Event) : ∃ u, next s e = some u := by
  cases e <;> exact ⟨_, rfl⟩

theorem run_faithful_iff {es : List Event} (hs : Agrees s) (hroom : Meets next Roomy s es) :
    Meets next Faithful s es ↔ Meets next Plain s es := by
  induction es generalizing s with
  | nil => exact Iff.rfl
  | cons e es ih =>
    obtain ⟨hroom, hrooms⟩ := hroom
    obtain ⟨u, hu⟩ := next_some s e
    obtain ⟨hiff, hkeeps⟩ := event_step hs hroom hu
    refine and_congr_right_iff.mpr ?_ |>.trans (and_congr_left' hiff)
    intro hf
    refine forall_congr' fun t => forall_congr' fun ht => ?_
    obtain rfl : t = u := Option.some.inj (ht.symm.trans hu)
    exact ih (hkeeps (hiff.mp hf)) (hrooms t ht)

/-- The events that are delivered tell the buttons and the keys of the devices as they are, just
where no report has a button going down with another going up and the hotkey is not released. -/
theorem edges_faithful_iff (width height : ℕ) (es : List Event)
    (hroom : Meets next Roomy (boot width height) es) :
    Meets next Faithful (boot width height) es ↔ Meets next Plain (boot width height) es :=
  run_faithful_iff (boot_agrees width height) hroom

/-- The left button is pressed and released again. -/
theorem edges_faithful_iff_click :
    Meets next Faithful (boot 640 480) [.mouseByte 0x09, .mouseByte 0, .mouseByte 0,
      .poll 8, .mouseByte 0x08, .mouseByte 0, .mouseByte 0] := by
  exact (edges_faithful_iff 640 480 _ (by decide)).mpr (by decide)

/-- A report that releases the left button and presses the right one is told as a press of both, and
the release of the hotkey is delivered. -/
theorem mixed_report_misread :
    let chord : List Event := [.mouseByte 0x09, .mouseByte 0, .mouseByte 0,
      .mouseByte 0x0A, .mouseByte 0, .mouseByte 0]
    let hotkey : List Event := [.scancode 0x3B, .scancode 0xBB]
    (Meets next Roomy (boot 640 480) chord ∧ ¬ Meets next Faithful (boot 640 480) chord) ∧
      Meets next Roomy (boot 640 480) hotkey ∧ ¬ Meets next Faithful (boot 640 480) hotkey := by
  refine ⟨⟨by decide, ?_⟩, by decide, ?_⟩
  · rintro ⟨-, h⟩
    have h := h _ rfl |>.2 _ rfl |>.2 _ rfl |>.2 _ rfl |>.2 _ rfl |>.1.buttons 0x0A 0 0 _ rfl rfl
      (by decide) rfl
    revert h
    decide
  · rintro ⟨-, h⟩
    have h := h _ rfl |>.1.hotkey _ rfl ⟨keyUp, scancodeF1, 0, 0⟩ (by decide) (Or.inr rfl)
    exact h rfl

end Runs

end InputDrivers
