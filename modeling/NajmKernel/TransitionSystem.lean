import Mathlib.Logic.Relation
import Mathlib.Data.List.Basic

/-! Deterministic event-driven transition systems: executions of event lists, executions
whose events all meet a condition, and the induction rules for state and history
invariants. An event that is not enabled has no successor. -/
namespace TransitionSystem

variable {S E : Type*}

/-- Executes a list of events from left to right, failing at the first disabled one. -/
def exec (next : S → E → Option S) : S → List E → Option S
  | s, [] => some s
  | s, e :: es => (next s e).bind fun u => exec next u es

@[simp] theorem exec_nil (next : S → E → Option S) (s : S) : exec next s [] = some s := rfl

theorem exec_cons {next : S → E → Option S} {s v : S} {e : E} {es : List E} :
    exec next s (e :: es) = some v ↔ ∃ u, next s e = some u ∧ exec next u es = some v := by
  simp [exec, Option.bind_eq_some_iff]

theorem exec_append {next : S → E → Option S} {es fs : List E} {s v : S} :
    exec next s (es ++ fs) = some v ↔
      ∃ u, exec next s es = some u ∧ exec next u fs = some v := by
  induction es generalizing s with
  | nil => simp
  | cons e es ih =>
    simp only [List.cons_append, exec_cons, ih]
    constructor
    · rintro ⟨t, ht, u, hu, hv⟩
      exact ⟨u, ⟨t, ht, hu⟩, hv⟩
    · rintro ⟨u, ⟨t, ht, hu⟩, hv⟩
      exact ⟨t, ht, u, hu, hv⟩

theorem exec_snoc {next : S → E → Option S} {es : List E} {s v : S} {e : E} :
    exec next s (es ++ [e]) = some v ↔ ∃ u, exec next s es = some u ∧ next u e = some v := by
  simp [exec_append, exec_cons]

/-- Every event of the list is taken in a state in which the condition allows it. -/
def Meets (next : S → E → Option S) (allowed : S → E → Prop) : S → List E → Prop
  | _, [] => True
  | s, e :: es => allowed s e ∧ ∀ u, next s e = some u → Meets next allowed u es

@[simp] theorem meets_nil (next : S → E → Option S) (allowed : S → E → Prop) (s : S) :
    Meets next allowed s [] := trivial

theorem meets_append {next : S → E → Option S} {allowed : S → E → Prop} {es fs : List E}
    {s u : S} (hu : exec next s es = some u) :
    Meets next allowed s (es ++ fs) ↔
      Meets next allowed s es ∧ Meets next allowed u fs := by
  induction es generalizing s with
  | nil =>
    obtain rfl : s = u := by simpa using hu
    simp
  | cons e es ih =>
    obtain ⟨t, ht, hu⟩ := exec_cons.mp hu
    simp only [List.cons_append, Meets, ht, Option.some.injEq, forall_eq', ih hu, and_assoc]

instance decidableMeets (next : S → E → Option S) (allowed : S → E → Prop)
    [∀ s e, Decidable (allowed s e)] : ∀ s es, Decidable (Meets next allowed s es)
  | _, [] => isTrue trivial
  | s, e :: es =>
    match hn : next s e with
    | none => decidable_of_iff (allowed s e) (by simp [Meets, hn])
    | some u =>
      have := decidableMeets next allowed u es
      decidable_of_iff (allowed s e ∧ Meets next allowed u es) (by simp [Meets, hn])

/-- The condition, read off each prefix of the run. -/
theorem meets_iff {next : S → E → Option S} {allowed : S → E → Prop} {s : S} {es : List E} :
    Meets next allowed s es ↔
      ∀ es₁ e es₂ u, es = es₁ ++ e :: es₂ → exec next s es₁ = some u → allowed u e := by
  constructor
  · rintro hm es₁ e es₂ u rfl hu
    exact ((meets_append hu).mp hm).2.1
  · intro h
    induction es generalizing s with
    | nil => trivial
    | cons e es ih =>
      refine ⟨h [] e es s rfl rfl, fun t ht => ih ?_⟩
      intro es₁ f es₂ u hes hu
      exact h (e :: es₁) f es₂ u (by simp [hes]) (exec_cons.mpr ⟨t, ht, hu⟩)

theorem Meets.mono {next : S → E → Option S} {allowed allowed' : S → E → Prop}
    (h : ∀ s e, allowed s e → allowed' s e) {s : S} {es : List E}
    (hm : Meets next allowed s es) : Meets next allowed' s es := by
  induction es generalizing s with
  | nil => trivial
  | cons e es ih => exact ⟨h s e hm.1, fun u hu => ih (hm.2 u hu)⟩

/-- The property holds in every state that the run passes through. -/
def Always (next : S → E → Option S) (Q : S → Prop) : S → List E → Prop
  | s, [] => Q s
  | s, e :: es => Q s ∧ ∀ u, next s e = some u → Always next Q u es

theorem Always.head {next : S → E → Option S} {Q : S → Prop} {s : S} {es : List E}
    (h : Always next Q s es) : Q s := by
  cases es with
  | nil => exact h
  | cons e es => exact h.1

theorem always_iff {next : S → E → Option S} {Q : S → Prop} {s : S} {es : List E} :
    Always next Q s es ↔ ∀ es₁ es₂ u, es = es₁ ++ es₂ → exec next s es₁ = some u → Q u := by
  induction es generalizing s with
  | nil =>
    constructor
    · intro h es₁ es₂ u hes hu
      obtain ⟨rfl, _⟩ := List.append_eq_nil_iff.mp hes.symm
      obtain rfl : s = u := by simpa using hu
      exact h
    · intro h
      exact h [] [] s rfl rfl
  | cons e es ih =>
    constructor
    · rintro ⟨hs, hrest⟩ es₁ es₂ u hes hu
      cases es₁ with
      | nil =>
        obtain rfl : s = u := by simpa using hu
        exact hs
      | cons f fs =>
        obtain ⟨rfl, rfl⟩ := List.cons.inj hes
        obtain ⟨t, ht, hu⟩ := exec_cons.mp hu
        exact ih.mp (hrest t ht) fs es₂ u rfl hu
    · intro h
      refine ⟨h [] _ s rfl rfl, fun t ht => ih.mpr ?_⟩
      intro es₁ es₂ u hes hu
      exact h (e :: es₁) es₂ u (by simp [hes]) (exec_cons.mpr ⟨t, ht, hu⟩)

/-- An invariant is kept by one event that the condition allows. -/
def Preserves (next : S → E → Option S) (allowed : S → E → Prop) (Inv : S → Prop) : Prop :=
  ∀ s e u, Inv s → allowed s e → next s e = some u → Inv u

/-- What `n` steps can have come to, where each step adds to it at most once. -/
theorem exec_counted {next : S → E → Option S} {Within : ℕ → S → Prop}
    (hstep : ∀ n s e u, Within n s → next s e = some u → Within (n + 1) u) {n : ℕ} {es : List E}
    {s v : S} (hs : Within n s) (hv : exec next s es = some v) : Within (n + es.length) v := by
  induction es generalizing n s with
  | nil =>
    obtain rfl : s = v := by simpa using hv
    exact hs
  | cons e es ih =>
    obtain ⟨u, hu, hv⟩ := exec_cons.mp hv
    have hend := ih (hstep n s e u hs hu) hv
    rwa [Nat.add_right_comm, Nat.add_assoc] at hend

/-- What every allowed event keeps, every execution of allowed events keeps. -/
theorem exec_invariant {next : S → E → Option S} {allowed : S → E → Prop} {Inv : S → Prop}
    (hstep : Preserves next allowed Inv) {es : List E} {s v : S} (hs : Inv s)
    (hm : Meets next allowed s es) (hv : exec next s es = some v) : Inv v := by
  induction es generalizing s with
  | nil =>
    obtain rfl : s = v := by simpa using hv
    exact hs
  | cons e es ih =>
    obtain ⟨u, hu, hv⟩ := exec_cons.mp hv
    exact ih (hstep s e u hs hm.1 hu) (hm.2 u hu) hv

/-- No restriction on the events. -/
def Any (_ : S) (_ : E) : Prop := True

theorem meets_any (next : S → E → Option S) (s : S) (es : List E) : Meets next Any s es := by
  induction es generalizing s with
  | nil => trivial
  | cons e es ih => exact ⟨trivial, fun u _ => ih u⟩

/-- The states that some execution of allowed events from an initial state ends in. -/
def ReachableBy (next : S → E → Option S) (allowed : S → E → Prop) (initial : S → Prop)
    (v : S) : Prop :=
  ∃ s es, initial s ∧ Meets next allowed s es ∧ exec next s es = some v

def Reachable (next : S → E → Option S) (initial : S → Prop) (v : S) : Prop :=
  ∃ s es, initial s ∧ exec next s es = some v

theorem reachable_iff_any {next : S → E → Option S} {initial : S → Prop} {v : S} :
    Reachable next initial v ↔ ReachableBy next Any initial v := by
  simp [Reachable, ReachableBy, meets_any]

theorem ReachableBy.invariant {next : S → E → Option S} {allowed : S → E → Prop}
    {initial Inv : S → Prop} (hinit : ∀ s, initial s → Inv s)
    (hstep : Preserves next allowed Inv) {v : S}
    (h : ReachableBy next allowed initial v) : Inv v := by
  obtain ⟨s, es, hs, hm, hv⟩ := h
  exact exec_invariant hstep (hinit s hs) hm hv

theorem Reachable.invariant {next : S → E → Option S} {initial Inv : S → Prop}
    (hinit : ∀ s, initial s → Inv s)
    (hstep : Preserves next Any Inv) {v : S} (h : Reachable next initial v) : Inv v :=
  (reachable_iff_any.mp h).invariant hinit hstep

/-- An invariant that implies the property makes it hold all along. -/
theorem Meets.always {next : S → E → Option S} {allowed : S → E → Prop} {Inv Q : S → Prop}
    (hstep : Preserves next allowed Inv) (himp : ∀ s, Inv s → Q s) {s : S} {es : List E}
    (hm : Meets next allowed s es) (hs : Inv s) : Always next Q s es := by
  induction es generalizing s with
  | nil => exact himp s hs
  | cons e es ih =>
    exact ⟨himp s hs, fun u hu => ih (hm.2 u hu) (hstep s e u hs hm.1 hu)⟩

/-- Where a forbidden event breaks the property at once, holding all along forbids it. -/
theorem Always.meets {next : S → E → Option S} {allowed : S → E → Prop} {Inv Q : S → Prop}
    (hstep : Preserves next Any Inv)
    (hbreak : ∀ s e, Inv s → ¬ allowed s e → ∃ u, next s e = some u ∧ ¬ Q u) {s : S}
    {es : List E} (hs : Inv s) (h : Always next Q s es) : Meets next allowed s es := by
  induction es generalizing s with
  | nil => trivial
  | cons e es ih =>
    refine ⟨?_, fun u hu => ih (hstep s e u hs trivial hu) (h.2 u hu)⟩
    by_contra hna
    obtain ⟨u, hu, hq⟩ := hbreak s e hs hna
    exact hq (h.2 u hu).head

/-- The same for a run that comes to its end, where a forbidden event may also be disabled. -/
theorem Always.meets_of_exec {next : S → E → Option S} {allowed : S → E → Prop} {I Q : S → Prop}
    (hstep : Preserves next Any I)
    (hbreak : ∀ s e u, I s → ¬ allowed s e → next s e = some u → ¬ Q u) {s v : S} {es : List E}
    (hs : I s) (hv : exec next s es = some v) (h : Always next Q s es) :
    Meets next allowed s es := by
  induction es generalizing s with
  | nil => trivial
  | cons e es ih =>
    obtain ⟨u, hu, hv⟩ := exec_cons.mp hv
    have hQ := h.2 u hu
    refine ⟨?_, fun t ht => ?_⟩
    · by_contra hna
      exact hbreak s e u hs hna hu hQ.head
    · obtain rfl := Option.some.inj (hu.symm.trans ht)
      exact ih (hstep s e u hs trivial hu) hv hQ

/-- The events are all allowed, and executing them ends in a state with the property. -/
def Arrives (next : S → E → Option S) (allowed : S → E → Prop) (s : S) (es : List E)
    (Q : S → Prop) : Prop :=
  Meets next allowed s es ∧ ∃ v, exec next s es = some v ∧ Q v

theorem arrives_nil {next : S → E → Option S} {allowed : S → E → Prop} {Q : S → Prop} {s : S}
    (h : Q s) : Arrives next allowed s [] Q :=
  ⟨trivial, s, rfl, h⟩

theorem arrives_cons {next : S → E → Option S} {allowed : S → E → Prop} {Q : S → Prop} {s u : S}
    {e : E} {es : List E} (ha : allowed s e) (hu : next s e = some u)
    (h : Arrives next allowed u es Q) : Arrives next allowed s (e :: es) Q := by
  obtain ⟨hm, v, hv, hQ⟩ := h
  refine ⟨⟨ha, fun t ht => ?_⟩, v, exec_cons.mpr ⟨u, hu, hv⟩, hQ⟩
  obtain rfl := Option.some.inj (hu.symm.trans ht)
  exact hm

theorem Arrives.append {next : S → E → Option S} {allowed : S → E → Prop} {P Q : S → Prop} {s : S}
    {es fs : List E} (h : Arrives next allowed s es P)
    (hrest : ∀ u, P u → Arrives next allowed u fs Q) : Arrives next allowed s (es ++ fs) Q := by
  obtain ⟨hm, u, hu, hP⟩ := h
  obtain ⟨hm', v, hv, hQ⟩ := hrest u hP
  exact ⟨(meets_append hu).mpr ⟨hm, hm'⟩, v, exec_append.mpr ⟨u, hu, hv⟩, hQ⟩

/-- A run under observation: `note` updates what has been seen before each step. -/
def observed {O : Type*} (next : S → E → Option S) (note : S → E → O → O) :
    S × O → E → Option (S × O)
  | (s, o), e => (next s e).map fun u => (u, note s e o)

/-- Every run can be observed. -/
theorem exists_observed {O : Type*} {next : S → E → Option S} (note : S → E → O → O) {es : List E}
    {s v : S} (o : O) (h : exec next s es = some v) :
    ∃ o', exec (observed next note) (s, o) es = some (v, o') := by
  induction es generalizing s o with
  | nil => exact ⟨o, by simpa using h⟩
  | cons e es ih =>
    obtain ⟨u, hu, hv⟩ := exec_cons.mp h
    obtain ⟨o', ho⟩ := ih (note s e o) hv
    exact ⟨o', exec_cons.mpr ⟨(u, note s e o), by simp [observed, hu], ho⟩⟩

/-- The invariant may use another invariant already known to hold in every state. -/
theorem Preserves.strengthen {next : S → E → Option S} {allowed : S → E → Prop}
    {Inv Inv' : S → Prop} (h : Preserves next allowed Inv)
    (h' : ∀ s e u, Inv s → Inv' s → allowed s e → next s e = some u → Inv' u) :
    Preserves next allowed fun s => Inv s ∧ Inv' s := by
  intro s e u ⟨hi, hi'⟩ ha hn
  exact ⟨h s e u hi ha hn, h' s e u hi hi' ha hn⟩

section Components

variable {I V : Type*} [DecidableEq I]

/-- A value that each event of a list in turn changes as `turn` allows. -/
def Turns (turn : E → V → V → Prop) : List E → V → V → Prop
  | [], v, w => v = w
  | e :: es, v, w => ∃ u, turn e v u ∧ Turns turn es u w

/-- Where an event changes no component but the one it names, every component comes about by the
events that name it. -/
theorem exec_components {next : S → E → Option S} {allowed : S → E → Prop} {Inv : S → Prop}
    {part : S → I → V} {target : E → I} {turn : E → V → V → Prop}
    (hinv : Preserves next allowed Inv)
    (hturn : ∀ s e u, Inv s → allowed s e → next s e = some u →
      turn e (part s (target e)) (part u (target e)) ∧ ∀ i, i ≠ target e → part u i = part s i)
    {s v : S} {es : List E} (hs : Inv s) (hmeets : Meets next allowed s es)
    (hrun : exec next s es = some v) (i : I) :
    Turns turn (es.filter fun e => target e = i) (part s i) (part v i) := by
  induction es generalizing s with
  | nil =>
    obtain rfl : s = v := by simpa using hrun
    rfl
  | cons e es ih =>
    obtain ⟨u, hu, hv⟩ := exec_cons.mp hrun
    obtain ⟨hmine, hothers⟩ := hturn s e u hs hmeets.1 hu
    have hrest := ih (hinv s e u hs hmeets.1 hu) (hmeets.2 u hu) hv
    by_cases hi : target e = i
    · subst hi
      rw [List.filter_cons_of_pos (by simp)]
      exact ⟨_, hmine, hrest⟩
    · rw [List.filter_cons_of_neg (by simpa using hi), ← hothers i (Ne.symm hi)]
      exact hrest

end Components

end TransitionSystem
