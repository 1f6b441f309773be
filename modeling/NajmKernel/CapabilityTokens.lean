import Mathlib.Algebra.Group.Nat.Defs
import NajmKernel.TransitionSystem

/-! The kernel's capability tokens: issued under numbers, copied from holder to holder, and revoked
with all their copies. The gated operations, and which tokens they accept in any run. -/
namespace CapabilityTokens

open TransitionSystem

section Tokens

/-- The rights, each with a marker type of its own in the source. -/
inductive Right where
  | serialWrite
  | timerRead
  deriving DecidableEq, Repr

/-- What a holder has: the type says for which right, and only `issue` and `derive` make one. -/
structure Capability (right : Right) where
  id : ℕ
  deriving DecidableEq, Repr

inductive CapabilityError where
  | revoked
  deriving DecidableEq, Repr

structure State where
  nextCapabilityId : ℕ
  revoked : List ℕ
  console : List UInt8
  timerTicks : ℕ
  deriving DecidableEq, Repr

/-- `fetch_add` wraps around. -/
def issue (right : Right) (s : State) : Capability right × State :=
  (⟨s.nextCapabilityId⟩, { s with nextCapabilityId := (s.nextCapabilityId + 1) % 2 ^ 64 })

namespace Capability

variable {right : Right}

def derive (cap : Capability right) : Capability right := ⟨cap.id⟩

/-- It takes the token; its copies stay with their holders. -/
def revoke (cap : Capability right) (s : State) : State := { s with revoked := cap.id :: s.revoked }

def isRevoked (cap : Capability right) (s : State) : Bool := s.revoked.contains cap.id

end Capability

def writeWithCapability (cap : Capability .serialWrite) (text : List UInt8) (s : State) :
    Except CapabilityError Unit × State :=
  if cap.isRevoked s then (.error .revoked, s) else (.ok (), { s with console := s.console ++ text })

def ticksWithCapability (cap : Capability .timerRead) (s : State) : Except CapabilityError ℕ :=
  if cap.isRevoked s then .error .revoked else .ok s.timerTicks

end Tokens

section Sessions

structure Token where
  right : Right
  capability : Capability right
  deriving DecidableEq, Repr

/-- The right of each issue, the issue that each token goes back to, and the issues of which a token
has been revoked. -/
structure History where
  issued : List Right
  lineage : List ℕ
  ended : List ℕ
  deriving DecidableEq, Repr

/-- The tokens in the order in which they were made; one that was revoked or dropped is gone. -/
structure Session where
  state : State
  held : List (Option Token)
  history : History
  deriving DecidableEq, Repr

inductive Event where
  | issue (right : Right)
  | derive (holder : ℕ)
  | revoke (holder : ℕ)
  | drop (holder : ℕ)
  | write (holder : ℕ) (text : List UInt8)
  | ticks (holder : ℕ)
  | tick

def Session.token (x : Session) (holder : ℕ) : Option Token := (x.held[holder]?).join

/-- A token of another right does not fit the operation, and one that is gone fits none. -/
def next (x : Session) : Event → Option Session
  | .issue right =>
    let (cap, s) := issue right x.state
    some ⟨s, x.held ++ [some ⟨right, cap⟩], { x.history with
      issued := x.history.issued ++ [right]
      lineage := x.history.lineage ++ [x.history.issued.length] }⟩
  | .derive holder => (x.token holder).map fun t =>
    ⟨x.state, x.held ++ [some ⟨t.right, t.capability.derive⟩], { x.history with
      lineage := x.history.lineage ++ [x.history.lineage.getD holder 0] }⟩
  | .revoke holder => (x.token holder).map fun t =>
    ⟨t.capability.revoke x.state, x.held.set holder none, { x.history with
      ended := x.history.ended ++ [x.history.lineage.getD holder 0] }⟩
  | .drop holder => (x.token holder).map fun _ => { x with held := x.held.set holder none }
  | .write holder text =>
    match x.token holder with
    | some ⟨.serialWrite, cap⟩ => some { x with state := (writeWithCapability cap text x.state).2 }
    | _ => none
  | .ticks holder =>
    match x.token holder with
    | some ⟨.timerRead, _⟩ => some x
    | _ => none
  | .tick => some { x with state := { x.state with timerTicks := (x.state.timerTicks + 1) % 2 ^ 64 } }

def start : Session := ⟨⟨0, [], [], 0⟩, [], ⟨[], [], []⟩⟩

end Sessions

section Lineages

variable {x y : Session} {e : Event} {es : List Event} {holder l : ℕ} {t : Token} {right : Right}

/-- A token's number is that of its issue, and the revoked numbers are those of the ended issues, so
far as 64 bits tell them apart. -/
structure Linked (x : Session) : Prop where
  holders : x.held.length = x.history.lineage.length
  tokens : ∀ holder t, x.token holder = some t → ∃ l, x.history.lineage[holder]? = some l ∧
    x.history.issued[l]? = some t.right ∧ t.capability.id = l % 2 ^ 64
  next : x.state.nextCapabilityId = x.history.issued.length % 2 ^ 64
  revoked : ∀ id, id ∈ x.state.revoked ↔ ∃ l ∈ x.history.ended, l % 2 ^ 64 = id
  ended : ∀ l ∈ x.history.ended, l < x.history.issued.length

theorem token_append {held : List (Option Token)} {new : Token} {h : History} {s : State}
    (ht : (⟨s, held ++ [some new], h⟩ : Session).token holder = some t) :
    (held[holder]?).join = some t ∧ holder < held.length ∨ holder = held.length ∧ t = new := by
  have ht : ((held ++ [some new])[holder]?).join = some t := ht
  rcases Nat.lt_trichotomy holder held.length with hlt | heq | hgt
  · rw [List.getElem?_append_left hlt] at ht
    exact Or.inl ⟨ht, hlt⟩
  · subst heq
    simp only [List.getElem?_append_right (Nat.le_refl _), Nat.sub_self, List.getElem?_cons_zero,
      Option.join_some, Option.some.injEq] at ht
    exact Or.inr ⟨rfl, ht.symm⟩
  · rw [List.getElem?_eq_none (by simp; omega)] at ht
    cases ht

/-- A token that is taken away leaves the others. -/
theorem token_set {other : ℕ} {h : History} {s : State}
    (ht : (⟨s, x.held.set other none, h⟩ : Session).token holder = some t) :
    x.token holder = some t := by
  have ht : ((x.held.set other none)[holder]?).join = some t := ht
  rw [List.getElem?_set] at ht
  split at ht
  · split at ht <;> cases ht
  · exact ht

/-- A new token, of an issue there is or of the one that is made for it. -/
theorem Linked.grown (h : Linked x) {s : State} {new : Token} {issued : List Right}
    (hissued : ∀ l, l < x.history.issued.length → issued[l]? = x.history.issued[l]?)
    (hnew : issued[l]? = some new.right ∧ new.capability.id = l % 2 ^ 64)
    (hnext : s.nextCapabilityId = issued.length % 2 ^ 64) (hrevoked : s.revoked = x.state.revoked)
    (hlength : x.history.issued.length ≤ issued.length) :
    Linked ⟨s, x.held ++ [some new], ⟨issued, x.history.lineage ++ [l], x.history.ended⟩⟩ where
  holders := by simp [h.holders]
  tokens holder t ht := by
    rcases token_append ht with ⟨ht, hlt⟩ | ⟨rfl, rfl⟩
    · obtain ⟨k, hk, hright, hid⟩ := h.tokens holder t ht
      refine ⟨k, ?_, ?_, hid⟩
      · rwa [List.getElem?_append_left (h.holders ▸ hlt)]
      · obtain ⟨hkt, -⟩ := List.getElem?_eq_some_iff.mp hright
        rwa [hissued k hkt]
    · refine ⟨l, ?_, hnew⟩
      rw [h.holders, List.getElem?_append_right (Nat.le_refl _), Nat.sub_self,
        List.getElem?_cons_zero]
  next := hnext
  revoked id := hrevoked ▸ h.revoked id
  ended k hk := Nat.lt_of_lt_of_le (h.ended k hk) hlength

/-- A token is gone, and its issue has ended or not. -/
theorem Linked.taken (h : Linked x) {other : ℕ} {s : State} {ended : List ℕ}
    (hnext : s.nextCapabilityId = x.state.nextCapabilityId)
    (hrevoked : ∀ id, id ∈ s.revoked ↔ ∃ l ∈ ended, l % 2 ^ 64 = id)
    (hended : ∀ l ∈ ended, l < x.history.issued.length) :
    Linked ⟨s, x.held.set other none, { x.history with ended := ended }⟩ where
  holders := List.length_set.trans h.holders
  tokens holder t ht := h.tokens holder t (token_set ht)
  next := hnext.trans h.next
  revoked := hrevoked
  ended := hended

/-- The issue of a token that is held. -/
theorem Linked.issue_of (h : Linked x) (ht : x.token holder = some t) :
    x.history.issued[x.history.lineage.getD holder 0]? = some t.right ∧
      t.capability.id = x.history.lineage.getD holder 0 % 2 ^ 64 := by
  obtain ⟨l, hl, hright, hid⟩ := h.tokens holder t ht
  rw [List.getD_eq_getElem?_getD, hl, Option.getD_some]
  exact ⟨hright, hid⟩

theorem next_linked (h : Linked x) (hy : next x e = some y) : Linked y := by
  cases e with
  | issue right =>
    obtain rfl := Option.some.inj hy
    refine h.grown (fun l hl => List.getElem?_append_left hl) ⟨?_, h.next⟩ ?_ rfl (by simp)
    · simp
    · change (x.state.nextCapabilityId + 1) % 2 ^ 64 = _
      rw [h.next, List.length_append, List.length_singleton]
      omega
  | derive holder =>
    obtain ⟨t, ht, rfl⟩ := Option.map_eq_some_iff.mp hy
    exact h.grown (fun l _ => rfl) (h.issue_of ht) h.next rfl (Nat.le_refl _)
  | revoke holder =>
    obtain ⟨t, ht, rfl⟩ := Option.map_eq_some_iff.mp hy
    obtain ⟨hright, hid⟩ := h.issue_of ht
    refine h.taken rfl (fun id => ?_) fun l hl => ?_
    · change id ∈ t.capability.id :: x.state.revoked ↔ _
      rw [List.mem_cons, h.revoked id, hid]
      constructor
      · rintro (rfl | ⟨l, hl, rfl⟩)
        · exact ⟨_, List.mem_append_right _ (List.mem_singleton_self _), rfl⟩
        · exact ⟨l, List.mem_append_left _ hl, rfl⟩
      · rintro ⟨l, hl, rfl⟩
        rcases List.mem_append.mp hl with hl | hl
        · exact Or.inr ⟨l, hl, rfl⟩
        · exact Or.inl (by rw [List.mem_singleton.mp hl])
    · rcases List.mem_append.mp hl with hl | hl
      · exact h.ended l hl
      · obtain ⟨hlt, -⟩ := List.getElem?_eq_some_iff.mp hright
        rwa [List.mem_singleton.mp hl]
  | drop holder =>
    obtain ⟨t, ht, rfl⟩ := Option.map_eq_some_iff.mp hy
    exact h.taken rfl h.revoked h.ended
  | write holder text =>
    rw [next] at hy
    split at hy
    · obtain rfl := Option.some.inj hy
      rw [writeWithCapability]
      split
      · exact ⟨h.holders, h.tokens, h.next, h.revoked, h.ended⟩
      · exact ⟨h.holders, h.tokens, h.next, h.revoked, h.ended⟩
    · cases hy
  | ticks holder =>
    rw [next] at hy
    split at hy
    · obtain rfl := Option.some.inj hy
      exact h
    · cases hy
  | tick =>
    obtain rfl := Option.some.inj hy
    exact ⟨h.holders, h.tokens, h.next, h.revoked, h.ended⟩

theorem start_linked : Linked start where
  holders := rfl
  tokens holder t ht := by simp [start, Session.token] at ht
  next := rfl
  revoked id := by simp [start]
  ended l hl := by simp [start] at hl

theorem Linked.isRevoked_iff (h : Linked x) (ht : x.token holder = some t)
    (hl : x.history.lineage[holder]? = some l) :
    t.capability.isRevoked x.state = true ↔ ∃ k ∈ x.history.ended, k % 2 ^ 64 = l % 2 ^ 64 := by
  obtain ⟨-, hid⟩ := h.issue_of ht
  rw [Capability.isRevoked, List.contains_iff_mem, h.revoked, hid, List.getD_eq_getElem?_getD, hl,
    Option.getD_some]

/-- In any run with no more issues than there are numbers, whoever copies, uses, drops and revokes
which tokens: each goes back to one issue, of its own right, and is refused exactly where a token of
that issue has been revoked. -/
theorem tokens_lapse_together (hx : exec next start es = some x)
    (hissues : x.history.issued.length ≤ 2 ^ 64) (ht : x.token holder = some t) :
    ∃ l, x.history.lineage[holder]? = some l ∧ x.history.issued[l]? = some t.right ∧
      (∀ cap, t = ⟨.serialWrite, cap⟩ → ∀ text, writeWithCapability cap text x.state =
        if l ∈ x.history.ended then (.error .revoked, x.state)
        else (.ok (), { x.state with console := x.state.console ++ text })) ∧
      ∀ cap, t = ⟨.timerRead, cap⟩ → ticksWithCapability cap x.state =
        if l ∈ x.history.ended then .error .revoked else .ok x.state.timerTicks := by
  have hstep : Preserves next Any Linked := fun _ _ _ h _ hy => next_linked h hy
  have h := exec_invariant hstep start_linked (meets_any next _ es) hx
  obtain ⟨l, hl, hright, -⟩ := h.tokens holder t ht
  have hlt : l < x.history.issued.length := (List.getElem?_eq_some_iff.mp hright).1
  have hrevoked : t.capability.isRevoked x.state = true ↔ l ∈ x.history.ended := by
    rw [h.isRevoked_iff ht hl]
    constructor
    · rintro ⟨k, hk, heq⟩
      have hkt := h.ended k hk
      rw [Nat.mod_eq_of_lt (by omega), Nat.mod_eq_of_lt (by omega)] at heq
      exact heq ▸ hk
    · exact fun hmem => ⟨l, hmem, rfl⟩
  refine ⟨l, hl, hright, ?_, ?_⟩
  · rintro cap rfl text
    rw [writeWithCapability]
    exact if_congr hrevoked rfl rfl
  · rintro cap rfl
    rw [ticksWithCapability]
    exact if_congr hrevoked rfl rfl

/-- A copy is refused once the original is revoked, and another issue's token is not. -/
theorem tokens_lapse_together_copy : ∃ x, exec next start
      [.issue .serialWrite, .derive 0, .issue .serialWrite, .revoke 0] = some x ∧
    writeWithCapability ⟨0⟩ [0x61] x.state = (.error .revoked, x.state) ∧
    (writeWithCapability ⟨1⟩ [0x61] x.state).1 = .ok () := by
  obtain ⟨x, hx, hcopy, hother, hissued, hlineage, hended⟩ : ∃ x, exec next start
      [.issue .serialWrite, .derive 0, .issue .serialWrite, .revoke 0] = some x ∧
    x.token 1 = some ⟨.serialWrite, ⟨0⟩⟩ ∧ x.token 2 = some ⟨.serialWrite, ⟨1⟩⟩ ∧
    x.history.issued.length = 2 ∧ x.history.lineage = [0, 0, 1] ∧ x.history.ended = [0] :=
    ⟨_, rfl, rfl, rfl, rfl, rfl, rfl⟩
  have hissues : x.history.issued.length ≤ 2 ^ 64 := by omega
  obtain ⟨l, hl, -, hwrite, -⟩ := tokens_lapse_together hx hissues hcopy
  obtain ⟨k, hk, -, hwritten, -⟩ := tokens_lapse_together hx hissues hother
  rw [hlineage] at hl hk
  obtain rfl : 0 = l := Option.some.inj hl
  obtain rfl : 1 = k := Option.some.inj hk
  refine ⟨x, hx, ?_, ?_⟩
  · rw [hwrite _ rfl, hended]
    rfl
  · rw [hwritten _ rfl, hended]
    rfl

end Lineages

end CapabilityTokens
