import Mathlib.Data.Set.Basic
import Mathlib.Order.Bounds.Basic
import NajmKernel.Syscalls

/-! What descriptors are for: each process has files under numbers of its own, each with a cursor.
Nothing here is of the kernel's tables but the numbers of its errors. -/
namespace Descriptors

open Syscalls (encodeError EBADF EFAULT EINVAL ENOTSUP)

structure File where
  contents : List UInt8
  isDirectory : Bool
  deriving DecidableEq, Repr

structure Opened where
  file : File
  cursor : ℕ
  deriving DecidableEq, Repr

/-- The descriptors of a process. -/
abbrev Table := ℕ → Option Opened

/-- What is asked of a table. The target of an open is the file that its path names, or the error
that the path comes to; `fits` says of a length whether the buffer of a read can take as much. -/
inductive Request where
  | openFile (target : Except ℕ File)
  | read (descriptor len : ℕ) (fits : ℕ → Bool)
  | seek (descriptor offset whence : ℕ)
  | close (descriptor : ℕ)

/-- The value that a request returns, and the bytes that it delivers. -/
structure Answer where
  raw : ℕ
  delivered : List UInt8
  deriving DecidableEq, Repr

section Requests

def firstDynamic : ℕ := 3
def maxTransfer : ℕ := 2 ^ 20

def empty : Table := fun _ => none

def refuse (errno : ℕ) : Answer := ⟨encodeError errno, []⟩

/-- The descriptors that an open may hand out. -/
def free (t : Table) : Set ℕ := {d | firstDynamic ≤ d ∧ t d = none}

def Opened.remaining (o : Opened) : ℕ := o.file.contents.length - o.cursor

/-- The bytes that a read of this length delivers. -/
def Opened.following (o : Opened) (len : ℕ) : List UInt8 :=
  (o.file.contents.drop o.cursor).take (min len (min maxTransfer o.remaining))

/-- Where a seek leads, which is never beyond the end. -/
def Opened.target (o : Opened) (offset whence : ℕ) : Option ℕ :=
  match whence with
  | 0 => some (min offset o.file.contents.length)
  | 1 => some (min (o.cursor + offset) o.file.contents.length)
  | 2 => some (o.file.contents.length - offset)
  | _ => none

def read (t : Table) (descriptor len : ℕ) (fits : ℕ → Bool) : Answer × Table :=
  if descriptor = 0 then (⟨0, []⟩, t)
  else match t descriptor with
    | none => (refuse EBADF, t)
    | some o =>
      if o.file.isDirectory then (refuse ENOTSUP, t)
      else
        let data := o.following len
        if fits data.length then
          (⟨data.length, data⟩,
            Function.update t descriptor (some { o with cursor := o.cursor + data.length }))
        else (refuse EFAULT, t)

def seek (t : Table) (descriptor offset whence : ℕ) : Answer × Table :=
  match t descriptor with
  | none => (refuse EBADF, t)
  | some o => match o.target offset whence with
    | none => (refuse EINVAL, t)
    | some cursor =>
      (⟨cursor, []⟩, Function.update t descriptor (some { o with cursor := cursor }))

def close (t : Table) (descriptor : ℕ) : Answer × Table :=
  match t descriptor with
  | none => (refuse EBADF, t)
  | some _ => (⟨0, []⟩, Function.update t descriptor none)

/-- An open takes the least descriptor that is free. -/
inductive Step (t : Table) : Request → Answer → Table → Prop
  | opens {file d} (least : IsLeast (free t) d) :
      Step t (.openFile (.ok file)) ⟨d, []⟩ (Function.update t d (some ⟨file, 0⟩))
  | fails {raw} : Step t (.openFile (.error raw)) ⟨raw, []⟩ t
  | reads {d len fits} : Step t (.read d len fits) (read t d len fits).1 (read t d len fits).2
  | seeks {d offset whence} :
      Step t (.seek d offset whence) (seek t d offset whence).1 (seek t d offset whence).2
  | closes {d} : Step t (.close d) (close t d).1 (close t d).2

end Requests

section Runs

/-- The tables of the processes. -/
abbrev Tables := ℕ → Table

inductive Observation where
  | spawned (pid : ℕ)
  | called (pid : ℕ) (request : Request) (answer : Answer)

/-- What is observed of the tables, one after another. -/
inductive Runs : Tables → List Observation → Tables → Prop
  | done {T} : Runs T [] T
  | spawned {T T' pid os} (rest : Runs (Function.update T pid empty) os T') :
      Runs T (.spawned pid :: os) T'
  | called {T T' pid request answer t os} (step : Step (T pid) request answer t)
      (rest : Runs (Function.update T pid t) os T') :
      Runs T (.called pid request answer :: os) T'

/-- A request, without its answer. -/
def Observation.asked : Observation → ℕ ⊕ ℕ × Request
  | .spawned pid => .inl pid
  | .called pid request _ => .inr (pid, request)

end Runs

section Laws

variable {t t' t'' : Table} {T T' T'' : Tables} {request : Request} {answer answer' : Answer}
  {os os' : List Observation} {o : Opened}

theorem target_le {offset whence cursor : ℕ} (h : o.target offset whence = some cursor) :
    cursor ≤ o.file.contents.length := by
  unfold Opened.target at h
  split at h
  · exact Option.some.inj h ▸ Nat.min_le_right _ _
  · exact Option.some.inj h ▸ Nat.min_le_right _ _
  · exact Option.some.inj h ▸ Nat.sub_le _ _
  · nomatch h

theorem following_length (o : Opened) (len : ℕ) :
    (o.following len).length = min len (min maxTransfer o.remaining) := by
  rw [Opened.following, List.length_take, List.length_drop, Opened.remaining]
  omega

/-- The answer and the table after it follow from the request. -/
theorem Step.unique (h : Step t request answer t') (h' : Step t request answer' t'') :
    answer = answer' ∧ t' = t'' := by
  cases h with
  | opens least =>
    cases h' with
    | opens least' =>
      obtain rfl := least.unique least'
      exact ⟨rfl, rfl⟩
  | fails => cases h'; exact ⟨rfl, rfl⟩
  | reads => cases h'; exact ⟨rfl, rfl⟩
  | seeks => cases h'; exact ⟨rfl, rfl⟩
  | closes => cases h'; exact ⟨rfl, rfl⟩

/-- Of a sequence of requests there is one sequence of answers. -/
theorem Runs.unique (h : Runs T os T') (h' : Runs T os' T'')
    (hasked : os.map Observation.asked = os'.map Observation.asked) : os = os' ∧ T' = T'' := by
  induction h generalizing os' with
  | done =>
    obtain rfl := List.map_eq_nil_iff.mp hasked.symm
    cases h'
    exact ⟨rfl, rfl⟩
  | spawned _ ih =>
    cases h' with
    | done => nomatch hasked
    | spawned rest =>
      obtain ⟨hpid, hrest⟩ := List.cons.inj hasked
      obtain rfl := Sum.inl.inj hpid
      obtain ⟨rfl, rfl⟩ := ih rest hrest
      exact ⟨rfl, rfl⟩
    | called _ rest => nomatch (List.cons.inj hasked).1
  | called step _ ih =>
    cases h' with
    | done => nomatch hasked
    | spawned rest => nomatch (List.cons.inj hasked).1
    | called step' rest =>
      obtain ⟨hrequest, hrest⟩ := List.cons.inj hasked
      obtain ⟨rfl, rfl⟩ := Prod.mk.inj (Sum.inr.inj hrequest)
      obtain ⟨rfl, rfl⟩ := step.unique step'
      obtain ⟨rfl, rfl⟩ := ih rest hrest
      exact ⟨rfl, rfl⟩

/-- No console descriptor is open, and no cursor is beyond its end. -/
def Sound (t : Table) : Prop :=
  ∀ d o, t d = some o → firstDynamic ≤ d ∧ o.cursor ≤ o.file.contents.length

theorem empty_sound : Sound empty := fun _ _ ho => nomatch ho

theorem sound_update {d : ℕ} {slot : Option Opened} (ht : Sound t)
    (hslot : ∀ o, slot = some o → firstDynamic ≤ d ∧ o.cursor ≤ o.file.contents.length) :
    Sound (Function.update t d slot) := by
  intro e o ho
  by_cases he : e = d
  · subst he
    rw [Function.update_self] at ho
    exact hslot o ho
  · rw [Function.update_of_ne he] at ho
    exact ht e o ho

theorem read_sound (ht : Sound t) (d len : ℕ) (fits : ℕ → Bool) : Sound (read t d len fits).2 := by
  unfold read
  split
  · exact ht
  cases ho : t d with
  | none => exact ht
  | some o =>
    simp only
    split
    · exact ht
    split
    · obtain ⟨hd, hcursor⟩ := ht d o ho
      refine sound_update ht fun o' ho' => ?_
      obtain rfl := Option.some.inj ho'
      refine ⟨hd, ?_⟩
      have hlength := following_length o len
      rw [Opened.remaining] at hlength
      simp only
      omega
    · exact ht

theorem seek_sound (ht : Sound t) (d offset whence : ℕ) : Sound (seek t d offset whence).2 := by
  unfold seek
  cases ho : t d with
  | none => exact ht
  | some o =>
    simp only
    cases hcursor : o.target offset whence with
    | none => exact ht
    | some cursor =>
      have hle : cursor ≤ o.file.contents.length := target_le hcursor
      refine sound_update ht fun o' ho' => ?_
      obtain rfl := Option.some.inj ho'
      exact ⟨(ht d o ho).1, hle⟩

theorem Step.sound (ht : Sound t) (h : Step t request answer t') : Sound t' := by
  cases h with
  | opens least =>
    refine sound_update ht fun o ho => ?_
    obtain rfl := Option.some.inj ho
    exact ⟨least.1.1, Nat.zero_le _⟩
  | fails => exact ht
  | reads => exact read_sound ht _ _ _
  | seeks => exact seek_sound ht _ _ _
  | closes =>
    unfold close
    split
    · exact ht
    · exact sound_update ht fun _ ho => nomatch ho

theorem Runs.sound (hT : ∀ pid, Sound (T pid)) (h : Runs T os T') : ∀ pid, Sound (T' pid) := by
  induction h with
  | done => exact hT
  | @spawned T _ pid _ _ ih =>
    refine ih fun other => ?_
    by_cases hother : other = pid
    · subst hother
      rw [Function.update_self]
      exact empty_sound
    · rw [Function.update_of_ne hother]
      exact hT other
  | @called T _ pid _ _ _ _ step _ ih =>
    refine ih fun other => ?_
    by_cases hother : other = pid
    · subst hother
      rw [Function.update_self]
      exact step.sound (hT other)
    · rw [Function.update_of_ne hother]
      exact hT other

/-- The descriptor that a request is about. -/
def Request.descriptor : Request → Answer → Option ℕ
  | .openFile (.ok _), answer => some answer.raw
  | .openFile (.error _), _ => none
  | .read d _ _, _ => some d
  | .seek d _ _, _ => some d
  | .close d, _ => some d

/-- No other descriptor is changed. -/
theorem Step.others {d : ℕ} (h : Step t request answer t') (hd : request.descriptor answer ≠ some d) :
    t' d = t d := by
  cases h with
  | opens => exact Function.update_of_ne (fun he => hd (congrArg some he.symm)) _ _
  | fails => rfl
  | @reads e =>
    have he : d ≠ e := fun he => hd (congrArg some he.symm)
    unfold read
    split
    · rfl
    split
    · rfl
    split
    · rfl
    simp only
    split
    · exact Function.update_of_ne he _ _
    · rfl
  | @seeks e =>
    have he : d ≠ e := fun he => hd (congrArg some he.symm)
    unfold seek
    split
    · rfl
    split
    · rfl
    · exact Function.update_of_ne he _ _
  | @closes e =>
    have he : d ≠ e := fun he => hd (congrArg some he.symm)
    unfold close
    split
    · rfl
    · exact Function.update_of_ne he _ _

end Laws

end Descriptors
