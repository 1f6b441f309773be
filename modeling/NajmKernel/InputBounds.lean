import NajmKernel.DropOldest
import NajmKernel.InputStreams

/-! The ring of events against a queue that drops its oldest event, and the pointer against the
screen. -/
namespace InputQueue

section Rings

variable {q : EventQueue} {l : DropOldest.Queue InputEvent}

/-- An operation on the ring: what it returns, and the ring after it. -/
def operate (q : EventQueue) : DropOldest.Op InputEvent → List InputEvent × EventQueue
  | .push e => ([], push q e)
  | .poll count => poll count q

/-- The ring has the events of the queue, and has dropped as many. -/
structure Holds (q : EventQueue) (l : DropOldest.Queue InputEvent) : Prop where
  sound : q.Sound
  items : contents q = l.items
  dropped : q.dropped = l.dropped

theorem contents_length (q : EventQueue) : (contents q).length = q.len := by
  rw [contents, List.length_map, List.length_range]

/-- A full ring loses its oldest event and grows by the new one at its end. -/
theorem push_full (hq : q.Sound) (hfull : q.len = queueCapacity) (e : InputEvent) :
    (push q e).Sound ∧ contents (push q e) = (contents q).tail ++ [e] := by
  have hzero : q.len ≠ 0 := by rw [hfull]; decide
  have hroom : q.len - 1 ≠ queueCapacity := by rw [hfull]; decide
  obtain ⟨hpopped, hcons⟩ := contents_pop hq hzero (q.dropped + 1)
  -- with its oldest event gone the ring has room, and the event is pushed as into any such ring
  have hpush : push q e = push { q with
      head := (q.head + 1) % queueCapacity, len := q.len - 1, dropped := q.dropped + 1 } e := by
    unfold push
    rw [if_pos hfull, if_neg hroom]
  rw [hpush, hcons, List.tail_cons]
  exact push_contents hpopped hroom e

theorem push_holds (h : Holds q l) (e : InputEvent) :
    Holds (push q e) (l.push queueCapacity e) := by
  have hlength : l.items.length = q.len := by rw [← h.items, contents_length]
  unfold DropOldest.Queue.push
  rw [hlength]
  by_cases hfull : q.len = queueCapacity
  · obtain ⟨hsound, hcontents⟩ := push_full h.sound hfull e
    rw [if_pos hfull]
    refine ⟨hsound, ?_, ?_⟩
    · rw [hcontents, h.items]
    · rw [push_dropped, if_pos hfull, h.dropped]
  · obtain ⟨hsound, hcontents⟩ := push_contents h.sound hfull e
    rw [if_neg hfull]
    refine ⟨hsound, ?_, ?_⟩
    · rw [hcontents, h.items]
    · rw [push_dropped, if_neg hfull, h.dropped]

theorem operate_holds (q : EventQueue) (l : DropOldest.Queue InputEvent)
    (op : DropOldest.Op InputEvent) (h : Holds q l) :
    (operate q op).1 = (DropOldest.step queueCapacity l op).1 ∧
      Holds (operate q op).2 (DropOldest.step queueCapacity l op).2 := by
  cases op with
  | push e => exact ⟨rfl, push_holds h e⟩
  | poll count =>
    obtain ⟨hsound, htaken, hleft, hdropped⟩ := poll_contents count h.sound
    refine ⟨?_, hsound, ?_, ?_⟩
    · exact htaken.trans (congrArg (List.take count) h.items)
    · exact hleft.trans (congrArg (List.drop count) h.items)
    · exact hdropped.trans h.dropped

theorem empty_holds : Holds empty ⟨[], 0⟩ := ⟨empty_sound, rfl, rfl⟩

/-- The operations' answers are those of a queue that drops its oldest, each event is returned once
at most and in its turn, and every event is accounted for. -/
structure Queues (ops : List (DropOldest.Op InputEvent)) : Prop where
  simulates : (DropOldest.answers operate empty ops).1 =
    (DropOldest.answers (DropOldest.step queueCapacity) ⟨[], 0⟩ ops).1
  holds : Holds (DropOldest.answers operate empty ops).2
    (DropOldest.answers (DropOldest.step queueCapacity) ⟨[], 0⟩ ops).2
  inOrder : ((DropOldest.answers operate empty ops).1.flatten ++
    contents (DropOldest.answers operate empty ops).2).Sublist (DropOldest.pushed ops)
  account : (DropOldest.pushed ops).length =
    (DropOldest.answers operate empty ops).1.flatten.length +
      (DropOldest.answers operate empty ops).2.len +
        (DropOldest.answers operate empty ops).2.dropped

theorem ring_queues (ops : List (DropOldest.Op InputEvent)) : Queues ops := by
  obtain ⟨hanswers, hholds⟩ := DropOldest.answers_of_simulates operate_holds empty_holds ops
  have hcapacity : 0 < queueCapacity := by decide
  have haccount := DropOldest.answers_account hcapacity (⟨[], 0⟩ : DropOldest.Queue InputEvent) ops
  refine ⟨hanswers, hholds, ?_, ?_⟩
  · rw [hanswers, hholds.items]
    exact DropOldest.answers_in_order queueCapacity ⟨[], 0⟩ ops
  · rw [hanswers, hholds.dropped, ← contents_length, hholds.items, ← haccount, List.length_nil,
      Nat.zero_add, Nat.zero_add]

end Rings

end InputQueue

namespace InputDrivers

open InputQueue TransitionSystem

section Bounds

variable {width height : ℕ} {s u : Session} {e : Event} {d : Driver}

/-- Records the size of the screen, and puts the pointer in its middle. -/
def setBounds (width height : ℕ) (d : Driver) : Driver :=
  { d with bounds := (width, height), pointer := (width / 2, height / 2) }

/-- On a screen of the size. -/
def OnScreen (width height x y : ℕ) : Prop := x ≤ width - 1 ∧ y ≤ height - 1

/-- The pointer is on the screen, and so is every motion that the next byte puts into the ring. -/
structure Confined (width height : ℕ) (s : Session) : Prop where
  pointer : OnScreen width height s.driver.pointer.1 s.driver.pointer.2
  motions : ∀ byte, ∃ new, (onMouseByte s.driver byte).queue = pushAll s.driver.queue new ∧
    ∀ event ∈ new, event.kind = pointerMotion → OnScreen width height event.x event.y

theorem clamp_le (coordinate : ℤ) {bound : ℕ} (hbound : 0 < bound) :
    clamp coordinate bound ≤ bound - 1 := by
  unfold clamp
  rw [if_pos hbound]
  exact Nat.min_le_right _ _

/-- The size of the screen is known, and the pointer is on it. -/
structure Bounded (width height : ℕ) (d : Driver) : Prop where
  bounds : d.bounds = (width, height)
  pointer : OnScreen width height d.pointer.1 d.pointer.2

theorem setBounds_bounded (hwidth : 0 < width) (hheight : 0 < height) (d : Driver) :
    Bounded width height (setBounds width height d) where
  bounds := rfl
  pointer := by
    simp only [setBounds, OnScreen]
    omega

theorem onScancode_bounded (hd : Bounded width height d) (byte : UInt8) :
    Bounded width height (onScancode d byte) := by
  unfold onScancode
  simp only
  split
  · exact ⟨hd.bounds, hd.pointer⟩
  · exact ⟨hd.bounds, hd.pointer⟩

theorem onPacket_bounded (hwidth : 0 < width) (hheight : 0 < height)
    (hd : Bounded width height d) (flags second third : UInt8) :
    Bounded width height (onPacket d flags second third) := by
  have hclamped (x y : ℤ) : OnScreen width height (clamp x d.bounds.1) (clamp y d.bounds.2) := by
    rw [hd.bounds]
    exact ⟨clamp_le x hwidth, clamp_le y hheight⟩
  unfold onPacket
  simp only
  split
  · exact hd
  · refine ⟨?_, ?_⟩
    · split <;> split <;> exact hd.bounds
    · split <;> split <;> exact hclamped _ _

theorem onMouseByte_bounded (hwidth : 0 < width) (hheight : 0 < height)
    (hd : Bounded width height d) (byte : UInt8) : Bounded width height (onMouseByte d byte) := by
  unfold onMouseByte
  split
  next flags second hpacket =>
    have hempty : Bounded width height { d with packet := [] } := ⟨hd.bounds, hd.pointer⟩
    exact onPacket_bounded hwidth hheight hempty flags second byte
  next =>
    split
    · exact hd
    · exact ⟨hd.bounds, hd.pointer⟩

theorem next_bounded (hwidth : 0 < width) (hheight : 0 < height) :
    Preserves next Any fun s => Bounded width height s.driver := by
  intro s e u hs _ h
  cases e with
  | scancode byte =>
    obtain rfl := Option.some.inj h
    exact onScancode_bounded hs byte
  | mouseByte byte =>
    obtain rfl := Option.some.inj h
    exact onMouseByte_bounded hwidth hheight hs byte
  | poll count =>
    obtain rfl := Option.some.inj h
    exact ⟨hs.bounds, hs.pointer⟩
  | takeLayoutToggle =>
    obtain rfl := Option.some.inj h
    exact ⟨hs.bounds, hs.pointer⟩

/-- A motion has the place at which the report leaves the pointer. -/
theorem packetEvents_onScreen (hwidth : 0 < width) (hheight : 0 < height)
    (hd : d.bounds = (width, height)) (flags second third : UInt8) :
    ∀ event ∈ packetEvents d flags second third, OnScreen width height event.x event.y := by
  have hclamped (x y : ℤ) : OnScreen width height (clamp x d.bounds.1) (clamp y d.bounds.2) := by
    rw [hd]
    exact ⟨clamp_le x hwidth, clamp_le y hheight⟩
  intro event hevent
  simp only [packetEvents] at hevent
  split at hevent
  · cases hevent
  obtain hevent | hevent := List.mem_append.mp hevent
  · split at hevent
    · rw [List.mem_singleton.mp hevent]
      exact hclamped _ _
    · cases hevent
  · split at hevent
    · rw [List.mem_singleton.mp hevent]
      exact hclamped _ _
    · cases hevent

theorem confined_of_bounded (hwidth : 0 < width) (hheight : 0 < height)
    (hs : Bounded width height s.driver) : Confined width height s where
  pointer := hs.pointer
  motions := by
    intro byte
    refine ⟨emitted s (.mouseByte byte), onMouseByte_queue s byte, ?_⟩
    intro event hevent _
    simp only [emitted] at hevent
    split at hevent
    next flags second hpacket =>
      exact packetEvents_onScreen hwidth hheight hs.bounds flags second byte event hevent
    · cases hevent

theorem bounded_always (hwidth : 0 < width) (hheight : 0 < height) (s : Session)
    (es : List Event) :
    Always next (Confined width height) { s with driver := setBounds width height s.driver } es := by
  refine always_iff.mpr fun es₁ es₂ u _ hu => ?_
  have hstart := setBounds_bounded hwidth hheight s.driver
  exact confined_of_bounded hwidth hheight
    (exec_invariant (next_bounded hwidth hheight) hstart (meets_any _ _ _) hu)

end Bounds

/-- The ring is a queue of its capacity that drops its oldest event, and from the moment at which
the size of the screen is known no byte of the mouse takes the pointer or a motion off it. -/
theorem input_queue_and_pointer :
    (∀ ops : List (DropOldest.Op InputEvent), Queues ops) ∧
      ∀ (width height : ℕ), 0 < width → 0 < height → ∀ (s : Session) (es : List Event),
        Always next (Confined width height)
          { s with driver := setBounds width height s.driver } es :=
  ⟨ring_queues, fun _ _ hwidth hheight s es => bounded_always hwidth hheight s es⟩

end InputDrivers
