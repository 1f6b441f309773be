import Mathlib.Data.List.Nodup
import Mathlib.Data.List.Pairwise
import NajmKernel.Ports
import NajmKernel.TransitionSystem

/-! What the operations on the ports come to in any order of any processes: messages arrive in the
order they were accepted in, and at the process alone that owned the name when it was asked for. -/
namespace Ports

open Attempts Attempt TransitionSystem

section Histories

inductive Operation where
  | create (owner : ℕ) (name : List UInt8)
  | connect (name : List UInt8)
  | send (sender handle : ℕ) (bytes : List UInt8)
  | recv (receiver handle : ℕ)
  | close (owner handle : ℕ)
  | closeAllFor (owner : ℕ)
  deriving DecidableEq, Repr

inductive Answer where
  | handle (h : ℕ)
  | sent (length : ℕ)
  | message (m : Message)
  | done
  deriving DecidableEq, Repr

def perform : Operation → Attempt Table IpcError Answer
  | .create owner name => do pure (.handle (← create owner name))
  | .connect name => do pure (.handle (← connect name))
  | .send sender handle bytes => do pure (.sent (← send sender handle bytes))
  | .recv receiver handle => do pure (.message (← recv receiver handle))
  | .close owner handle => do
    close owner handle
    pure .done
  | .closeAllFor owner => of fun t => some (.ok .done, closeAllFor owner t)

/-- What has been answered: the handles with their creators, the handles that `connect` gave with
the owner the name then had, the accepted messages, and the received ones with their receivers. -/
structure History where
  created : List (ℕ × ℕ)
  connected : List (ℕ × ℕ)
  accepted : List (ℕ × Message)
  received : List (ℕ × ℕ × Message)
  deriving DecidableEq, Repr

def History.record (h : History) (t : Table) : Operation → Except IpcError Answer → History
  | .create owner _, .ok (.handle n) => { h with created := h.created ++ [(n, owner)] }
  | .connect name, .ok (.handle n) => { h with
      connected := h.connected ++
        (t.ports.filter fun p => p.name == PeParser.fromUtf8Lossy name).map fun p => (n, p.owner) }
  | .send sender n bytes, .ok (.sent _) => { h with
      accepted := h.accepted ++ [(n, ⟨sender, bytes⟩)] }
  | .recv receiver n, .ok (.message m) => { h with received := h.received ++ [(n, receiver, m)] }
  | _, _ => h

/-- The messages accepted for a handle, in their order. -/
def History.sentTo (h : History) (handle : ℕ) : List Message :=
  (h.accepted.filter fun a => a.1 == handle).map Prod.snd

def History.receivedFrom (h : History) (handle : ℕ) : List Message :=
  (h.received.filter fun a => a.1 == handle).map fun a => a.2.2

structure Exchange where
  table : Table
  history : History
  deriving DecidableEq, Repr

def start : Exchange := ⟨⟨[], 1⟩, ⟨[], [], [], []⟩⟩

def next (x : Exchange) (o : Operation) : Option Exchange :=
  ((perform o).run x.table).map fun (answer, table) =>
    ⟨table, x.history.record x.table o answer⟩

end Histories

section Laws

/-- The refused sends apart, nothing has changed. -/
def Unmoved (t t' : Table) : Prop :=
  t'.nextHandle = t.nextHandle ∧
    t'.ports.map (fun p => { p with dropped := 0 }) = t.ports.map fun p => { p with dropped := 0 }

structure Lawful (x : Exchange) : Prop where
  names : (x.table.ports.map (·.name)).Nodup
  handles : (x.history.created.map Prod.fst).Nodup
  few : x.table.ports.length ≤ maxPorts
  short : ∀ p ∈ x.table.ports,
    p.queue.length ≤ queueDepth ∧ ∀ m ∈ p.queue, m.bytes.length ≤ maxMessage
  inOrder : ∀ handle, x.history.receivedFrom handle <+: x.history.sentTo handle
  queued : ∀ p ∈ x.table.ports,
    x.history.sentTo p.handle = x.history.receivedFrom p.handle ++ p.queue
  creatorReceives : ∀ handle receiver m, (handle, receiver, m) ∈ x.history.received →
    (handle, receiver) ∈ x.history.created
  connectedReceives : ∀ handle owner receiver m, (handle, owner) ∈ x.history.connected →
    (handle, receiver, m) ∈ x.history.received → receiver = owner
  errors : ∀ o e t, (perform o).run x.table = some (.error e, t) → Unmoved x.table t

/-- The checks of `create`. -/
def Table.admits (t : Table) (name : List UInt8) : Bool :=
  nameIsValid name && decide (t.ports.length < maxPorts) &&
    !t.ports.any fun p => p.name == PeParser.fromUtf8Lossy name

/-- A port is made only while a handle is left that has not been given out. -/
def Unspent (x : Exchange) : Operation → Prop
  | .create _ name => x.table.admits name → x.history.created.length < 2 ^ 64
  | _ => True

end Laws

section Steps

variable {t : Table} {x y : Exchange} {o : Operation} {h : ℕ}

theorem Table.find_some {p : Port} (hp : t.find h = some p) : p ∈ t.ports ∧ p.handle = h :=
  ⟨List.mem_of_find?_eq_some hp, by simpa using List.find?_some hp⟩

/-- What one operation can do, its checks included. -/
inductive Moves (x : Exchange) : Operation → Exchange → Prop
  | created {owner name} (admits : x.table.admits name = true) :
      Moves x (.create owner name) ⟨
        { x.table with nextHandle := (x.table.nextHandle + 1) % 2 ^ 64 }.insert
          ⟨x.table.nextHandle, PeParser.fromUtf8Lossy name, owner, [], 0⟩,
        { x.history with created := x.history.created ++ [(x.table.nextHandle, owner)] }⟩
  | connected {name p} (found : p ∈ x.table.ports)
      (named : p.name = PeParser.fromUtf8Lossy name) :
      Moves x (.connect name) ⟨x.table, { x.history with
        connected := x.history.connected ++
          (x.table.ports.filter fun q => q.name == PeParser.fromUtf8Lossy name).map
            fun q => (p.handle, q.owner) }⟩
  | accepted {sender handle bytes p} (found : x.table.find handle = some p)
      (short : bytes.length ≤ maxMessage) (room : p.queue.length < queueDepth) :
      Moves x (.send sender handle bytes) ⟨
        x.table.modify handle fun q => { q with queue := q.queue ++ [⟨sender, bytes⟩] },
        { x.history with accepted := x.history.accepted ++ [(handle, ⟨sender, bytes⟩)] }⟩
  | received {receiver handle p m queue} (found : x.table.find handle = some p)
      (owner : p.owner = receiver) (front : p.queue = m :: queue) :
      Moves x (.recv receiver handle) ⟨
        x.table.modify handle fun q => { q with queue := queue },
        { x.history with received := x.history.received ++ [(handle, receiver, m)] }⟩
  | closed {owner handle} :
      Moves x (.close owner handle)
        ⟨{ x.table with ports := x.table.ports.filter fun p => p.handle != handle }, x.history⟩
  | closedAll {owner} : Moves x (.closeAllFor owner) ⟨closeAllFor owner x.table, x.history⟩
  | counted {sender handle bytes} : Moves x (.send sender handle bytes)
      ⟨x.table.modify handle fun q => { q with dropped := q.dropped + 1 }, x.history⟩
  | refused {o : Operation} : Moves x o x

theorem create_run (owner : ℕ) (name : List UInt8) :
    (∃ e, (create owner name).run t = some (.error e, t)) ∧ t.admits name = false ∨
    (create owner name).run t = some (.ok t.nextHandle,
      { t with nextHandle := (t.nextHandle + 1) % 2 ^ 64 }.insert
        ⟨t.nextHandle, PeParser.fromUtf8Lossy name, owner, [], 0⟩) ∧ t.admits name = true := by
  rw [create, run_of]
  by_cases hvalid : nameIsValid name = false
  · exact Or.inl ⟨⟨.badName, by rw [if_pos hvalid]⟩, by simp [Table.admits, hvalid]⟩
  by_cases hfull : maxPorts ≤ t.ports.length
  · refine Or.inl ⟨⟨.exhausted, by rw [if_neg hvalid, if_pos hfull]⟩, ?_⟩
    simp [Table.admits, Nat.not_lt.mpr hfull]
  by_cases htaken : (t.ports.any fun p => p.name == PeParser.fromUtf8Lossy name) = true
  · refine Or.inl ⟨⟨.nameTaken, by rw [if_neg hvalid, if_neg hfull, if_pos htaken]⟩, ?_⟩
    simp only [Table.admits, htaken, Bool.not_true, Bool.and_false]
  · refine Or.inr ⟨by rw [if_neg hvalid, if_neg hfull, if_neg htaken], ?_⟩
    simp only [Table.admits, Bool.eq_true_of_not_eq_false hvalid, Nat.lt_of_not_le hfull,
      Bool.eq_false_of_not_eq_true htaken, decide_true, Bool.not_false, Bool.and_true]

theorem connect_run (name : List UInt8) :
    (∃ e, (connect name).run t = some (.error e, t)) ∨
    ∃ p ∈ t.ports, p.name = PeParser.fromUtf8Lossy name ∧
      (connect name).run t = some (.ok p.handle, t) := by
  rw [connect, run_of]
  by_cases hvalid : nameIsValid name = false
  · exact Or.inl ⟨.badName, by rw [if_pos hvalid]⟩
  rw [if_neg hvalid]
  cases hf : t.ports.find? fun p => p.name == PeParser.fromUtf8Lossy name with
  | none => exact Or.inl ⟨.notFound, rfl⟩
  | some p =>
    exact Or.inr ⟨p, List.mem_of_find?_eq_some hf, by simpa using List.find?_some hf, rfl⟩

theorem send_run {sender handle : ℕ} {bytes : List UInt8} {r : Except IpcError ℕ} {t' : Table}
    (h : (send sender handle bytes).run t = some (r, t')) :
    (∃ e, r = .error e) ∧ (t' = t ∨
      t' = t.modify handle fun q => { q with dropped := q.dropped + 1 }) ∨
    ∃ p, t.find handle = some p ∧ bytes.length ≤ maxMessage ∧ p.queue.length < queueDepth ∧
      r = .ok bytes.length ∧
      t' = t.modify handle fun q => { q with queue := q.queue ++ [⟨sender, bytes⟩] } := by
  rw [send, run_of] at h
  by_cases hlong : bytes.length > maxMessage
  · rw [if_pos hlong, Option.some.injEq, Prod.mk.injEq] at h
    exact Or.inl ⟨⟨_, h.1.symm⟩, Or.inl h.2.symm⟩
  rw [if_neg hlong] at h
  cases hf : t.find handle with
  | none =>
    simp only [hf, Option.some.injEq, Prod.mk.injEq] at h
    exact Or.inl ⟨⟨_, h.1.symm⟩, Or.inl h.2.symm⟩
  | some p =>
    simp only [hf] at h
    by_cases hfull : queueDepth ≤ p.queue.length
    · rw [if_pos hfull] at h
      by_cases hcount : p.dropped + 1 < 2 ^ 64
      · rw [if_pos hcount, Option.some.injEq, Prod.mk.injEq] at h
        exact Or.inl ⟨⟨_, h.1.symm⟩, Or.inr h.2.symm⟩
      · rw [if_neg hcount] at h
        exact absurd h nofun
    · rw [if_neg hfull, Option.some.injEq, Prod.mk.injEq] at h
      exact Or.inr ⟨p, rfl, Nat.le_of_not_lt hlong, Nat.lt_of_not_le hfull, h.1.symm, h.2.symm⟩

theorem recv_run (receiver handle : ℕ) :
    (∃ e, (recv receiver handle).run t = some (.error e, t)) ∨
    ∃ p m queue, t.find handle = some p ∧ p.owner = receiver ∧ p.queue = m :: queue ∧
      (recv receiver handle).run t =
        some (.ok m, t.modify handle fun q => { q with queue := queue }) := by
  rw [recv, run_of]
  cases hf : t.find handle with
  | none => exact Or.inl ⟨.badHandle, rfl⟩
  | some p =>
    by_cases howner : p.owner = receiver
    · cases hq : p.queue with
      | nil => exact Or.inl ⟨.wouldBlock, by simp [howner, hq]⟩
      | cons m queue => exact Or.inr ⟨p, m, queue, rfl, howner, hq, by simp [howner, hq]⟩
    · exact Or.inl ⟨.badHandle, by simp [howner]⟩

theorem close_run (owner handle : ℕ) :
    (∃ e, (close owner handle).run t = some (.error e, t)) ∨
    (close owner handle).run t =
      some (.ok (), { t with ports := t.ports.filter fun p => p.handle != handle }) := by
  rw [close, run_of]
  cases hf : t.find handle with
  | none => exact Or.inl ⟨.badHandle, rfl⟩
  | some p =>
    by_cases howner : p.owner = owner
    · exact Or.inr (by simp [howner])
    · exact Or.inl ⟨.badHandle, by simp [howner]⟩

theorem next_moves (hy : next x o = some y) : Moves x o y := by
  obtain ⟨⟨r, t⟩, hr, rfl⟩ := Option.map_eq_some_iff.mp hy
  cases o with
  | create owner name =>
    rcases create_run (t := x.table) owner name with ⟨⟨e, he⟩, -⟩ | ⟨hok, hadmits⟩
    · rw [perform, run_bind, he, Option.some.injEq, Prod.mk.injEq] at hr
      obtain ⟨rfl, rfl⟩ := hr
      exact .refused
    · rw [perform, run_bind_of_ok hok, run_pure, Option.some.injEq, Prod.mk.injEq] at hr
      obtain ⟨rfl, rfl⟩ := hr
      exact .created hadmits
  | connect name =>
    rcases connect_run (t := x.table) name with ⟨e, he⟩ | ⟨p, hp, hname, hok⟩
    · rw [perform, run_bind, he, Option.some.injEq, Prod.mk.injEq] at hr
      obtain ⟨rfl, rfl⟩ := hr
      exact .refused
    · rw [perform, run_bind_of_ok hok, run_pure, Option.some.injEq, Prod.mk.injEq] at hr
      obtain ⟨rfl, rfl⟩ := hr
      exact .connected hp hname
  | send sender handle bytes =>
    rw [perform, run_bind] at hr
    cases hs : (send sender handle bytes).run x.table with
    | none => simp [hs] at hr
    | some s =>
      obtain ⟨s, t'⟩ := s
      rw [hs] at hr
      obtain ⟨⟨e, rfl⟩, ht⟩ | ⟨p, hp, hshort, hroom, rfl, rfl⟩ := send_run hs
      · simp only [Option.some.injEq, Prod.mk.injEq] at hr
        obtain ⟨rfl, rfl⟩ := hr
        rcases ht with rfl | rfl
        · exact .refused
        · exact .counted
      · simp only [run_pure, Option.some.injEq, Prod.mk.injEq] at hr
        obtain ⟨rfl, rfl⟩ := hr
        exact .accepted hp hshort hroom
  | recv receiver handle =>
    rcases recv_run (t := x.table) receiver handle with ⟨e, he⟩ | ⟨p, m, queue, hp, ho, hq, hok⟩
    · rw [perform, run_bind, he, Option.some.injEq, Prod.mk.injEq] at hr
      obtain ⟨rfl, rfl⟩ := hr
      exact .refused
    · rw [perform, run_bind_of_ok hok, run_pure, Option.some.injEq, Prod.mk.injEq] at hr
      obtain ⟨rfl, rfl⟩ := hr
      exact .received hp ho hq
  | close owner handle =>
    rcases close_run (t := x.table) owner handle with ⟨e, he⟩ | hok
    · rw [perform, run_bind, he, Option.some.injEq, Prod.mk.injEq] at hr
      obtain ⟨rfl, rfl⟩ := hr
      exact .refused
    · rw [perform, run_bind_of_ok hok, run_pure, Option.some.injEq, Prod.mk.injEq] at hr
      obtain ⟨rfl, rfl⟩ := hr
      exact .closed
  | closeAllFor owner =>
    rw [perform, run_of, Option.some.injEq, Prod.mk.injEq] at hr
    obtain ⟨rfl, rfl⟩ := hr
    exact .closedAll

/-- What a change to one port leaves alone, it leaves alone in the table. -/
theorem Table.modify_map {α : Type} (t : Table) (handle : ℕ) {f : Port → Port} (g : Port → α)
    (hg : ∀ p, g (f p) = g p) : (t.modify handle f).ports.map g = t.ports.map g := by
  rw [Table.modify, List.map_map]
  apply List.map_congr_left
  intro p _
  rw [Function.comp_apply]
  split
  · exact hg p
  · rfl

theorem Table.mem_modify {handle : ℕ} {f : Port → Port} {p : Port}
    (hp : p ∈ (t.modify handle f).ports) :
    ∃ q ∈ t.ports, q.handle = handle ∧ p = f q ∨ q.handle ≠ handle ∧ p = q := by
  obtain ⟨q, hq, rfl⟩ := List.mem_map.mp hp
  refine ⟨q, hq, ?_⟩
  by_cases hh : q.handle = handle
  · exact Or.inl ⟨hh, by rw [if_pos hh]⟩
  · exact Or.inr ⟨hh, by rw [if_neg hh]⟩

/-- An operation that changes nothing but the answer's form fails as it did. -/
theorem run_map_error {α : Type} {z : Attempt Table IpcError α} {f : α → Answer} {e : IpcError}
    {t' : Table} (h : (do pure (f (← z)) : Attempt Table IpcError Answer).run t =
      some (.error e, t')) : z.run t = some (.error e, t') := by
  rw [run_bind] at h
  rcases hrun : z.run t with _ | ⟨e' | a, u⟩
  · simp [hrun] at h
  · simpa [hrun] using h
  · simp [hrun] at h

theorem error_unmoved {e : IpcError} {t' : Table}
    (h : (perform o).run t = some (.error e, t')) : Unmoved t t' := by
  have hstays : ∀ {α : Type} {z : Attempt Table IpcError α}, z.run t = some (.error e, t') →
      (∃ e, z.run t = some (.error e, t)) → t' = t := by
    intro α z hz ⟨e', he⟩
    rw [hz, Option.some.injEq, Prod.mk.injEq] at he
    exact he.2
  cases o with
  | create owner name =>
    rcases create_run (t := t) owner name with ⟨he, -⟩ | ⟨hok, -⟩
    · obtain rfl := hstays (run_map_error h) he
      exact ⟨rfl, rfl⟩
    · exact absurd ((run_map_error h).symm.trans hok) (by simp)
  | connect name =>
    rcases connect_run (t := t) name with he | ⟨p, -, -, hok⟩
    · obtain rfl := hstays (run_map_error h) he
      exact ⟨rfl, rfl⟩
    · exact absurd ((run_map_error h).symm.trans hok) (by simp)
  | send sender handle bytes =>
    obtain ⟨-, rfl | rfl⟩ | ⟨p, -, -, -, hr, -⟩ := send_run (run_map_error h)
    · exact ⟨rfl, rfl⟩
    · exact ⟨rfl, t.modify_map handle (f := fun q => { q with dropped := q.dropped + 1 })
        (fun p => { p with dropped := 0 }) fun _ => rfl⟩
    · exact absurd hr nofun
  | recv receiver handle =>
    rcases recv_run (t := t) receiver handle with he | ⟨p, m, queue, -, -, -, hok⟩
    · obtain rfl := hstays (run_map_error h) he
      exact ⟨rfl, rfl⟩
    · exact absurd ((run_map_error h).symm.trans hok) (by simp)
  | close owner handle =>
    rcases close_run (t := t) owner handle with he | hok
    · obtain rfl := hstays (run_map_error (f := fun _ => .done) h) he
      exact ⟨rfl, rfl⟩
    · exact absurd ((run_map_error (f := fun _ => .done) h).symm.trans hok) (by simp)
  | closeAllFor owner => exact absurd h (by simp [perform])

end Steps

section Invariants

variable {t : Table} {x y : Exchange} {o : Operation} {handle : ℕ} {made : List (ℕ × ℕ)}

/-- The ports stand in the order of their handles, and the handles were given out in turn. -/
structure Placed (t : Table) (created : List (ℕ × ℕ)) : Prop where
  issued : created.map Prod.fst = (List.range' 1 created.length).map (· % 2 ^ 64)
  nextHandle : t.nextHandle = (1 + created.length) % 2 ^ 64
  sorted : (t.ports.map (·.handle)).Pairwise (· < ·)
  names : (t.ports.map (·.name)).Nodup
  owned : ∀ p ∈ t.ports, (p.handle, p.owner) ∈ created
  few : t.ports.length ≤ maxPorts

/-- Where each message is: received, or still in its port's queue. -/
structure Delivered (x : Exchange) : Prop where
  short : ∀ p ∈ x.table.ports,
    p.queue.length ≤ queueDepth ∧ ∀ m ∈ p.queue, m.bytes.length ≤ maxMessage
  inOrder : ∀ handle, x.history.receivedFrom handle <+: x.history.sentTo handle
  queued : ∀ p ∈ x.table.ports,
    x.history.sentTo p.handle = x.history.receivedFrom p.handle ++ p.queue
  known : ∀ a ∈ x.history.accepted, a.1 ∈ x.history.created.map Prod.fst
  creatorReceives : ∀ handle receiver m, (handle, receiver, m) ∈ x.history.received →
    (handle, receiver) ∈ x.history.created
  ownerConnected : ∀ c ∈ x.history.connected, c ∈ x.history.created

theorem Placed.handles (h : Placed t made) (hfew : made.length ≤ 2 ^ 64) :
    (made.map Prod.fst).Nodup := by
  rw [h.issued, List.nodup_map_iff_inj_on List.nodup_range']
  intro a ha b hb hab
  rw [List.mem_range'_1] at ha hb
  omega

/-- The next handle has not been given out while there is one left. -/
theorem Placed.fresh (h : Placed t made) (hfew : made.length < 2 ^ 64) :
    t.nextHandle ∉ made.map Prod.fst := by
  rw [h.issued, h.nextHandle, List.mem_map]
  rintro ⟨a, ha, hab⟩
  rw [List.mem_range'_1] at ha
  omega

theorem Placed.handle_created (h : Placed t made) {p : Port} (hp : p ∈ t.ports) :
    p.handle ∈ made.map Prod.fst :=
  List.mem_map.mpr ⟨_, h.owned p hp, rfl⟩

theorem Placed.fresh_port (h : Placed t made) (hfew : made.length < 2 ^ 64) :
    ∀ q ∈ t.ports, q.handle ≠ t.nextHandle := by
  intro q hq heq
  have := h.handle_created hq
  rw [heq] at this
  exact h.fresh hfew this

theorem Placed.same_port (h : Placed t made) {p q : Port} (hp : p ∈ t.ports) (hq : q ∈ t.ports)
    (heq : p.handle = q.handle) : p = q :=
  List.inj_on_of_nodup_map (h.sorted.imp Nat.ne_of_lt) hp hq heq

theorem Placed.same_name (h : Placed t made) {p q : Port} (hp : p ∈ t.ports) (hq : q ∈ t.ports)
    (heq : p.name = q.name) : p = q :=
  List.inj_on_of_nodup_map h.names hp hq heq

theorem Table.insert_perm {p : Port} (h : ∀ q ∈ t.ports, q.handle ≠ p.handle) :
    (t.insert p).ports.Perm (p :: t.ports) := by
  have hge : t.ports.filter (fun q => decide (p.handle < q.handle)) =
      t.ports.filter fun q => !decide (q.handle < p.handle) := by
    apply List.filter_congr
    intro q hq
    have := h q hq
    simp only [← decide_not, decide_eq_decide]
    omega
  rw [Table.insert, hge]
  exact List.perm_middle.trans ((List.filter_append_perm _ t.ports).cons p)

theorem Table.insert_sorted {p : Port} (h : (t.ports.map (·.handle)).Pairwise (· < ·)) :
    ((t.insert p).ports.map (·.handle)).Pairwise (· < ·) := by
  rw [List.pairwise_map] at h ⊢
  rw [Table.insert, List.pairwise_append, List.pairwise_cons]
  refine ⟨h.filter _, ⟨?_, h.filter _⟩, ?_⟩
  · intro q hq
    exact of_decide_eq_true (List.mem_filter.mp hq).2
  · intro a ha b hb
    have hap : a.handle < p.handle := of_decide_eq_true (List.mem_filter.mp ha).2
    rcases List.mem_cons.mp hb with rfl | hb
    · exact hap
    · have hpb : p.handle < b.handle := of_decide_eq_true (List.mem_filter.mp hb).2
      exact hap.trans hpb

theorem Placed.modify (h : Placed t made) (handle : ℕ) {f : Port → Port}
    (hf : ∀ p, (f p).handle = p.handle ∧ (f p).name = p.name ∧ (f p).owner = p.owner) :
    Placed (t.modify handle f) made where
  issued := h.issued
  nextHandle := h.nextHandle
  sorted := by
    rw [t.modify_map handle (·.handle) fun p => (hf p).1]
    exact h.sorted
  names := by
    rw [t.modify_map handle (·.name) fun p => (hf p).2.1]
    exact h.names
  owned := by
    intro p hp
    obtain ⟨q, hq, ⟨-, rfl⟩ | ⟨-, rfl⟩⟩ := Table.mem_modify hp
    · rw [(hf q).1, (hf q).2.2]
      exact h.owned q hq
    · exact h.owned p hq
  few := by
    rw [Table.modify, List.length_map]
    exact h.few

theorem Placed.filter (h : Placed t made) (g : Port → Bool) :
    Placed { t with ports := t.ports.filter g } made where
  issued := h.issued
  nextHandle := h.nextHandle
  sorted := h.sorted.sublist (List.filter_sublist.map _)
  names := h.names.sublist (List.filter_sublist.map _)
  owned p hp := h.owned p (List.mem_of_mem_filter hp)
  few := (List.length_filter_le _ _).trans h.few

theorem Placed.insert (h : Placed t made) (hfew : made.length < 2 ^ 64) {owner : ℕ}
    {name : List UInt8} (hadmits : t.admits name = true) :
    Placed ({ t with nextHandle := (t.nextHandle + 1) % 2 ^ 64 }.insert
      ⟨t.nextHandle, PeParser.fromUtf8Lossy name, owner, [], 0⟩)
      (made ++ [(t.nextHandle, owner)]) := by
  have hperm := Table.insert_perm (t := { t with nextHandle := (t.nextHandle + 1) % 2 ^ 64 })
    (p := ⟨t.nextHandle, PeParser.fromUtf8Lossy name, owner, [], 0⟩) (h.fresh_port hfew)
  rw [Table.admits, Bool.and_eq_true, Bool.and_eq_true, decide_eq_true_eq, Bool.not_eq_true',
    List.any_eq_false] at hadmits
  obtain ⟨⟨-, hroom⟩, huntaken⟩ := hadmits
  constructor
  · rw [List.map_append, h.issued, List.length_append, List.length_singleton,
      List.range'_concat, List.map_append, h.nextHandle]
    simp
  · rw [List.length_append, List.length_singleton]
    change (t.nextHandle + 1) % 2 ^ 64 = _
    rw [h.nextHandle, Nat.mod_add_mod, Nat.add_assoc]
  · exact Table.insert_sorted h.sorted
  · rw [(hperm.map (·.name)).nodup_iff, List.map_cons, List.nodup_cons]
    refine ⟨fun hmem => ?_, h.names⟩
    obtain ⟨q, hq, hname⟩ := List.mem_map.mp hmem
    exact huntaken q hq (by rw [hname, beq_self_eq_true])
  · intro p hp
    rcases List.mem_cons.mp (hperm.mem_iff.mp hp) with rfl | hp
    · exact List.mem_append_right _ (List.mem_singleton.mpr rfl)
    · exact List.mem_append_left _ (h.owned p hp)
  · rw [hperm.length_eq]
    exact hroom

theorem sentTo_record {history : History} {n : ℕ} {m : Message} :
    ({ history with accepted := history.accepted ++ [(n, m)] } : History).sentTo handle =
      history.sentTo handle ++ if n = handle then [m] else [] := by
  rw [History.sentTo, List.filter_append, List.map_append]
  by_cases hn : n = handle
  · simp [hn, History.sentTo]
  · simp [hn, History.sentTo]

theorem receivedFrom_record {history : History} {n receiver : ℕ} {m : Message} :
    ({ history with received := history.received ++ [(n, receiver, m)] } : History).receivedFrom
      handle = history.receivedFrom handle ++ if n = handle then [m] else [] := by
  rw [History.receivedFrom, List.filter_append, List.map_append]
  by_cases hn : n = handle
  · simp [hn, History.receivedFrom]
  · simp [hn, History.receivedFrom]

/-- Nothing has been accepted for a handle that has not been given out. -/
theorem Delivered.sentTo_fresh (h : Delivered x)
    (hfresh : handle ∉ x.history.created.map Prod.fst) : x.history.sentTo handle = [] := by
  rw [History.sentTo, List.map_eq_nil_iff, List.filter_eq_nil_iff]
  intro a ha heq
  rw [beq_iff_eq] at heq
  exact hfresh (heq ▸ h.known a ha)

theorem Delivered.receivedFrom_fresh (h : Delivered x)
    (hfresh : handle ∉ x.history.created.map Prod.fst) : x.history.receivedFrom handle = [] := by
  have hpre := h.inOrder handle
  rw [h.sentTo_fresh hfresh] at hpre
  exact List.prefix_nil.mp hpre

/-- The ports that are left, with the queues they had. -/
theorem Delivered.fewer (h : Delivered x) {t : Table}
    (ht : ∀ p ∈ t.ports, ∃ q ∈ x.table.ports, p.handle = q.handle ∧ p.queue = q.queue) :
    Delivered ⟨t, x.history⟩ where
  short := by
    intro p hp
    obtain ⟨q, hq, -, hqueue⟩ := ht p hp
    rw [hqueue]
    exact h.short q hq
  inOrder := h.inOrder
  queued := by
    intro p hp
    obtain ⟨q, hq, hhandle, hqueue⟩ := ht p hp
    rw [hqueue, hhandle]
    exact h.queued q hq
  known := h.known
  creatorReceives := h.creatorReceives
  ownerConnected := h.ownerConnected

theorem Delivered.created (h : Delivered x) (hplaced : Placed x.table x.history.created)
    (hfew : x.history.created.length < 2 ^ 64) {owner : ℕ} {name : String} :
    Delivered ⟨{ x.table with nextHandle := (x.table.nextHandle + 1) % 2 ^ 64 }.insert
        ⟨x.table.nextHandle, name, owner, [], 0⟩,
      { x.history with created := x.history.created ++ [(x.table.nextHandle, owner)] }⟩ := by
  have hfresh := hplaced.fresh hfew
  have hperm := Table.insert_perm
    (t := { x.table with nextHandle := (x.table.nextHandle + 1) % 2 ^ 64 })
    (p := ⟨x.table.nextHandle, name, owner, [], 0⟩) (hplaced.fresh_port hfew)
  constructor
  · intro p hp
    rcases List.mem_cons.mp (hperm.mem_iff.mp hp) with rfl | hp
    · exact ⟨Nat.zero_le _, nofun⟩
    · exact h.short p hp
  · exact h.inOrder
  · intro p hp
    rcases List.mem_cons.mp (hperm.mem_iff.mp hp) with rfl | hp
    · change x.history.sentTo _ = x.history.receivedFrom _ ++ []
      rw [h.sentTo_fresh hfresh, h.receivedFrom_fresh hfresh, List.append_nil]
    · exact h.queued p hp
  · intro a ha
    rw [List.map_append]
    exact List.mem_append_left _ (h.known a ha)
  · intro handle receiver m hm
    exact List.mem_append_left _ (h.creatorReceives handle receiver m hm)
  · intro c hc
    exact List.mem_append_left _ (h.ownerConnected c hc)

theorem Delivered.accepted (h : Delivered x) (hplaced : Placed x.table x.history.created)
    {m : Message} {p : Port} (found : x.table.find handle = some p)
    (short : m.bytes.length ≤ maxMessage) (room : p.queue.length < queueDepth) :
    Delivered ⟨x.table.modify handle fun q => { q with queue := q.queue ++ [m] },
      { x.history with accepted := x.history.accepted ++ [(handle, m)] }⟩ := by
  obtain ⟨hp, rfl⟩ := Table.find_some found
  constructor
  · intro q hq
    obtain ⟨r, hr, ⟨heq, rfl⟩ | ⟨-, rfl⟩⟩ := Table.mem_modify hq
    · obtain rfl := hplaced.same_port hr hp heq
      refine ⟨?_, fun a ha => ?_⟩
      · rw [List.length_append, List.length_singleton]
        exact room
      rcases List.mem_append.mp ha with ha | ha
      · exact (h.short _ hp).2 a ha
      · rwa [List.mem_singleton.mp ha]
    · exact h.short _ hr
  · intro n
    rw [sentTo_record]
    exact (h.inOrder n).trans (List.prefix_append _ _)
  · intro q hq
    obtain ⟨r, hr, ⟨heq, rfl⟩ | ⟨hne, rfl⟩⟩ := Table.mem_modify hq
    · change _ = x.history.receivedFrom r.handle ++ (r.queue ++ [m])
      rw [sentTo_record, if_pos heq.symm, ← List.append_assoc]
      exact congrArg (· ++ [m]) (h.queued r hr)
    · rw [sentTo_record, if_neg fun heq => hne heq.symm, List.append_nil]
      exact h.queued _ hr
  · intro a ha
    rcases List.mem_append.mp ha with ha | ha
    · exact h.known a ha
    · rw [List.mem_singleton.mp ha]
      exact hplaced.handle_created hp
  · exact h.creatorReceives
  · exact h.ownerConnected

theorem Delivered.received (h : Delivered x) (hplaced : Placed x.table x.history.created)
    {m : Message} {queue : List Message} {p : Port} (found : x.table.find handle = some p)
    (front : p.queue = m :: queue) :
    Delivered ⟨x.table.modify handle fun q => { q with queue := queue },
      { x.history with received := x.history.received ++ [(handle, p.owner, m)] }⟩ := by
  obtain ⟨hp, rfl⟩ := Table.find_some found
  have hqueued := h.queued p hp
  rw [front] at hqueued
  constructor
  · intro q hq
    obtain ⟨r, hr, ⟨heq, rfl⟩ | ⟨-, rfl⟩⟩ := Table.mem_modify hq
    · have hshort := h.short p hp
      rw [front] at hshort
      exact ⟨(Nat.le_succ _).trans hshort.1, fun a ha => hshort.2 a (List.mem_cons_of_mem _ ha)⟩
    · exact h.short _ hr
  · intro n
    change _ <+: x.history.sentTo n
    rw [receivedFrom_record]
    by_cases hn : p.handle = n
    · subst hn
      rw [if_pos rfl, hqueued, List.prefix_append_right_inj]
      exact ⟨queue, rfl⟩
    · rw [if_neg hn, List.append_nil]
      exact h.inOrder n
  · intro q hq
    change x.history.sentTo q.handle = _
    obtain ⟨r, hr, ⟨heq, rfl⟩ | ⟨hne, rfl⟩⟩ := Table.mem_modify hq
    · change x.history.sentTo r.handle = History.receivedFrom _ r.handle ++ queue
      rw [receivedFrom_record, if_pos heq.symm, heq, hqueued, List.append_assoc]
      rfl
    · rw [receivedFrom_record, if_neg fun heq => hne heq.symm, List.append_nil]
      exact h.queued _ hr
  · exact h.known
  · intro n receiver m' hm
    rcases List.mem_append.mp hm with hm | hm
    · exact h.creatorReceives n receiver m' hm
    · obtain ⟨rfl, rfl, rfl⟩ := by simpa using hm
      exact hplaced.owned p hp
  · exact h.ownerConnected

theorem Delivered.connected (h : Delivered x) (hplaced : Placed x.table x.history.created)
    {name : String} {p : Port} (found : p ∈ x.table.ports) (named : p.name = name) :
    Delivered ⟨x.table, { x.history with connected := x.history.connected ++
      (x.table.ports.filter fun q => q.name == name).map fun q => (p.handle, q.owner) }⟩ where
  short := h.short
  inOrder := h.inOrder
  queued := h.queued
  known := h.known
  creatorReceives := h.creatorReceives
  ownerConnected := by
    intro c hc
    rcases List.mem_append.mp hc with hc | hc
    · exact h.ownerConnected c hc
    · obtain ⟨q, hq, rfl⟩ := List.mem_map.mp hc
      obtain ⟨hq, hname⟩ := List.mem_filter.mp hq
      rw [beq_iff_eq] at hname
      obtain rfl := hplaced.same_name found hq (named.trans hname.symm)
      exact hplaced.owned p found

theorem start_placed : Placed start.table start.history.created :=
  ⟨rfl, rfl, .nil, .nil, nofun, Nat.zero_le _⟩

theorem start_delivered : Delivered start :=
  ⟨nofun, fun _ => List.prefix_rfl, nofun, nofun, nofun, nofun⟩

theorem moves_keep (hm : Moves x o y) (hunspent : Unspent x o)
    (hplaced : Placed x.table x.history.created) (h : Delivered x) :
    Placed y.table y.history.created ∧ Delivered y := by
  cases hm with
  | created admits =>
    have hfew := hunspent admits
    exact ⟨hplaced.insert hfew admits, h.created hplaced hfew⟩
  | connected found named => exact ⟨hplaced, h.connected hplaced found named⟩
  | accepted found short room =>
    exact ⟨hplaced.modify _ fun _ => ⟨rfl, rfl, rfl⟩, h.accepted hplaced found short room⟩
  | received found owner front =>
    subst owner
    exact ⟨hplaced.modify _ fun _ => ⟨rfl, rfl, rfl⟩, h.received hplaced found front⟩
  | closed =>
    exact ⟨hplaced.filter _, h.fewer fun p hp => ⟨p, List.mem_of_mem_filter hp, rfl, rfl⟩⟩
  | closedAll =>
    exact ⟨hplaced.filter _, h.fewer fun p hp => ⟨p, List.mem_of_mem_filter hp, rfl, rfl⟩⟩
  | counted =>
    refine ⟨hplaced.modify _ fun _ => ⟨rfl, rfl, rfl⟩, h.fewer fun p hp => ?_⟩
    obtain ⟨q, hq, ⟨-, rfl⟩ | ⟨-, rfl⟩⟩ := Table.mem_modify hp
    · exact ⟨q, hq, rfl, rfl⟩
    · exact ⟨p, hq, rfl, rfl⟩
  | refused => exact ⟨hplaced, h⟩

end Invariants

section Runs

variable {x y : Exchange} {o : Operation} {os : List Operation}

/-- Every handle is a number of 64 bits. -/
def Below (x : Exchange) : Prop :=
  x.table.nextHandle < 2 ^ 64 ∧ ∀ c ∈ x.history.created, c.1 < 2 ^ 64

theorem moves_below (hm : Moves x o y) (h : Below x) : Below y := by
  cases hm with
  | created admits =>
    refine ⟨Nat.mod_lt _ (by decide), fun c hc => ?_⟩
    rcases List.mem_append.mp hc with hc | hc
    · exact h.2 c hc
    · rw [List.mem_singleton.mp hc]
      exact h.1
  | _ => exact h

theorem run_below (hx : exec next start os = some x) : Below x := by
  refine exec_invariant ?_ ⟨by decide, by simp [start]⟩ (meets_any next start os) hx
  intro x o y h _ hy
  exact moves_below (next_moves hy) h

theorem Below.few (h : Below x) (hnodup : (x.history.created.map Prod.fst).Nodup) :
    x.history.created.length ≤ 2 ^ 64 := by
  have hsub : x.history.created.map Prod.fst ⊆ List.range (2 ^ 64) := by
    intro n hn
    obtain ⟨c, hc, rfl⟩ := List.mem_map.mp hn
    exact List.mem_range.mpr (h.2 c hc)
  have hle := (List.subperm_of_subset hnodup hsub).length_le
  rwa [List.length_map, List.length_range] at hle

theorem moves_created_le (hm : Moves x o y) :
    x.history.created.length ≤ y.history.created.length := by
  cases hm with
  | created admits =>
    rw [List.length_append]
    exact Nat.le_add_right _ _
  | _ => exact le_rfl

theorem exec_created_le (hy : exec next x os = some y) :
    x.history.created.length ≤ y.history.created.length := by
  induction os generalizing x with
  | nil =>
    obtain rfl : x = y := by simpa using hy
    exact le_rfl
  | cons o os ih =>
    obtain ⟨u, hu, hy⟩ := exec_cons.mp hy
    exact (moves_created_le (next_moves hu)).trans (ih hy)

theorem next_create {owner : ℕ} {name : List UInt8} (hadmits : x.table.admits name = true) :
    next x (.create owner name) = some ⟨
      { x.table with nextHandle := (x.table.nextHandle + 1) % 2 ^ 64 }.insert
        ⟨x.table.nextHandle, PeParser.fromUtf8Lossy name, owner, [], 0⟩,
      { x.history with created := x.history.created ++ [(x.table.nextHandle, owner)] }⟩ := by
  obtain ⟨-, hrefused⟩ | ⟨hok, -⟩ := create_run (t := x.table) owner name
  · rw [hadmits] at hrefused
    exact absurd hrefused nofun
  · rw [next, perform, run_bind_of_ok hok, run_pure]
    rfl

/-- A run that ends with few enough ports made never made one too many. -/
theorem meets_of_few (hy : exec next x os = some y) (hfew : y.history.created.length ≤ 2 ^ 64) :
    Meets next Unspent x os := by
  induction os generalizing x with
  | nil => trivial
  | cons o os ih =>
    obtain ⟨u, hu, hy⟩ := exec_cons.mp hy
    refine ⟨?_, fun v hv => ?_⟩
    · cases o with
      | create owner name =>
        intro hadmits
        obtain rfl := Option.some.inj ((next_create hadmits).symm.trans hu)
        have hle := exec_created_le hy
        rw [List.length_append, List.length_singleton] at hle
        exact hle.trans hfew
      | _ => trivial
    · obtain rfl := Option.some.inj (hu.symm.trans hv)
      exact ih hy

theorem lawful_of_kept (hfew : x.history.created.length ≤ 2 ^ 64)
    (hplaced : Placed x.table x.history.created) (h : Delivered x) : Lawful x where
  names := hplaced.names
  handles := hplaced.handles hfew
  few := hplaced.few
  short := h.short
  inOrder := h.inOrder
  queued := h.queued
  creatorReceives := h.creatorReceives
  connectedReceives := by
    intro handle owner receiver m hconnected hreceived
    have hsame := List.inj_on_of_nodup_map (hplaced.handles hfew)
      (h.creatorReceives handle receiver m hreceived) (h.ownerConnected _ hconnected) rfl
    exact (Prod.mk.inj hsame).2
  errors _ _ _ := error_unmoved

/-- The invariant along a run, with the count of the ports made in it. -/
theorem run_kept (hm : Meets next Unspent start os) (hx : exec next start os = some x) :
    (Placed x.table x.history.created ∧ Delivered x) ∧ x.history.created.length ≤ 2 ^ 64 := by
  have hstep : Preserves next Unspent fun x => (Placed x.table x.history.created ∧ Delivered x) ∧
      x.history.created.length ≤ 2 ^ 64 := by
    rintro x o y ⟨⟨hplaced, h⟩, hfew⟩ hunspent hy
    have hmoves := next_moves hy
    refine ⟨moves_keep hmoves hunspent hplaced h, ?_⟩
    cases hmoves with
    | created admits =>
      rw [List.length_append, List.length_singleton]
      exact hunspent admits
    | _ => exact hfew
  exact exec_invariant hstep ⟨⟨start_placed, start_delivered⟩, Nat.zero_le _⟩ hm hx

/-- The ports keep their laws until the handles run out. -/
theorem ports_lawful_iff (hx : exec next start os = some x) :
    Lawful x ↔ Meets next Unspent start os := by
  constructor
  · intro h
    exact meets_of_few hx ((run_below hx).few h.handles)
  · intro hm
    obtain ⟨⟨hplaced, h⟩, hfew⟩ := run_kept hm hx
    exact lawful_of_kept hfew hplaced h

/-- The state that a port with one message sent to it and received comes to. -/
def relayed : Exchange :=
  ⟨⟨[⟨1, PeParser.fromUtf8Lossy [0x61], 1, [], 0⟩], 2⟩,
    ⟨[(1, 1)], [(1, 1)], [(1, ⟨2, [7]⟩)], [(1, 1, ⟨2, [7]⟩)]⟩⟩

theorem ports_lawful_iff_relayed : Lawful relayed := by
  have hrun : exec next start [.create 1 [0x61], .connect [0x61], .send 2 1 [7], .recv 1 1] =
    some relayed := by decide
  exact (ports_lawful_iff hrun).mpr (meets_of_few hrun (by decide))

/-- A process makes a port and ends, again and again. -/
def restarts (n : ℕ) : List Operation :=
  (List.replicate n [.create 1 [0x61], .closeAllFor 1]).flatten

theorem restarts_run (n : ℕ) : ∃ x, exec next start (restarts n) = some x ∧
    x.table.ports = [] ∧ x.history.created.length = n := by
  induction n with
  | zero => exact ⟨start, rfl, rfl, rfl⟩
  | succ n ih =>
    obtain ⟨x, hx, hports, hlen⟩ := ih
    have hadmits : x.table.admits [0x61] = true := by
      rw [Table.admits, hports]
      decide
    have hcreate : next x (.create 1 [0x61]) = some _ := next_create hadmits
    obtain ⟨y, hy, hrest⟩ : ∃ y, next x (.create 1 [0x61]) = some y ∧
        (closeAllFor 1 y.table).ports = [] ∧ y.history.created.length = n + 1 := by
      refine ⟨_, hcreate, ?_, ?_⟩
      · simp [closeAllFor, Table.insert, hports]
      · rw [List.length_append, List.length_singleton, hlen]
    refine ⟨⟨closeAllFor 1 y.table, y.history⟩, ?_, hrest⟩
    rw [restarts, List.replicate_succ', List.flatten_append]
    exact exec_append.mpr ⟨x, hx, exec_cons.mpr ⟨y, hy, rfl⟩⟩

/-- After as many ports as there are handles, one is given out again. -/
theorem handle_reissued :
    ∃ x, exec next start (restarts (2 ^ 64 + 1)) = some x ∧ ¬ Lawful x := by
  obtain ⟨x, hx, -, hlen⟩ := restarts_run (2 ^ 64 + 1)
  refine ⟨x, hx, fun h => ?_⟩
  have hfew := (run_below hx).few h.handles
  rw [hlen] at hfew
  omega

end Runs

end Ports
