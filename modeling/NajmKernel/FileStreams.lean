import NajmKernel.ArchiveRoundTrip
import NajmKernel.DirectoryLists

/-! A file read piece by piece: whatever else happens between the reads, the pieces are the file in
its order, and nothing is missing when a read comes to nothing. -/
namespace Descriptors

open Syscalls (EFAULT encodeError)

section Streams

/-- The bytes that a read of this descriptor of the process has delivered. -/
def Observation.delivered (pid d : ℕ) : Observation → List UInt8
  | .called p (.read e _ _) answer => if p = pid ∧ e = d then answer.delivered else []
  | _ => []

def delivered (pid d : ℕ) (os : List Observation) : List UInt8 :=
  os.flatMap (Observation.delivered pid d)

/-- Neither the process nor its descriptor is given away, and its cursor moves by reads only. -/
def Observation.Keeps (pid d : ℕ) : Observation → Prop
  | .spawned p => p ≠ pid
  | .called p (.seek e _ _) _ => ¬ (p = pid ∧ e = d)
  | .called p (.close e) _ => ¬ (p = pid ∧ e = d)
  | _ => True

instance (pid d : ℕ) : (x : Observation) → Decidable (x.Keeps pid d)
  | .spawned p => inferInstanceAs (Decidable (p ≠ pid))
  | .called p (.seek e _ _) _ => inferInstanceAs (Decidable ¬ (p = pid ∧ e = d))
  | .called p (.close e) _ => inferInstanceAs (Decidable ¬ (p = pid ∧ e = d))
  | .called _ (.openFile _) _ => isTrue trivial
  | .called _ (.read _ _ _) _ => isTrue trivial

variable {T T' : Tables} {t t' : Table} {pid d : ℕ} {o : Opened} {request : Request}
  {answer : Answer} {os os' : List Observation} {x : Observation}

/-- The descriptor after some bytes have been delivered. -/
def Opened.after (o : Opened) (bytes : List UInt8) : Opened :=
  { o with cursor := o.cursor + bytes.length }

theorem after_append (o : Opened) (bytes more : List UInt8) :
    o.after (bytes ++ more) = (o.after bytes).after more := by
  rw [Opened.after, Opened.after, Opened.after, List.length_append, Nat.add_assoc]

theorem delivered_other {p : ℕ} (hp : p ≠ pid) :
    (Observation.called p request answer).delivered pid d = [] := by
  cases request with
  | read => exact if_neg fun h => hp h.1
  | openFile => rfl
  | seek => rfl
  | close => rfl

/-- What a read of an open file does, by whether the buffer takes it. -/
theorem read_open (len : ℕ) (fits : ℕ → Bool) (hd : firstDynamic ≤ d) (ho : t d = some o)
    (hfile : o.file.isDirectory = false) :
    read t d len fits = (⟨(o.following len).length, o.following len⟩,
        Function.update t d (some (o.after (o.following len)))) ∨
      read t d len fits = (refuse EFAULT, t) := by
  have hpos : d ≠ 0 := by
    unfold firstDynamic at hd
    omega
  rw [read, if_neg hpos, ho]
  simp only [hfile, Bool.false_eq_true, if_false]
  by_cases hfits : fits (o.following len).length = true
  · rw [if_pos hfits]
    exact Or.inl rfl
  · rw [if_neg hfits]
    exact Or.inr rfl

theorem Step.stream (h : Step t request answer t') (hd : firstDynamic ≤ d) (ho : t d = some o)
    (hfile : o.file.isDirectory = false)
    (hkeeps : (Observation.called pid request answer).Keeps pid d) :
    t' d = some (o.after ((Observation.called pid request answer).delivered pid d)) ∧
      (Observation.called pid request answer).delivered pid d <+:
        o.file.contents.drop o.cursor := by
  cases h with
  | @opens file e least =>
    have he : d ≠ e := by
      rintro rfl
      cases ho.symm.trans least.1.2
    refine ⟨?_, List.nil_prefix⟩
    rw [Function.update_of_ne he, ho]
    rfl
  | fails => exact ⟨ho, List.nil_prefix⟩
  | @reads e len fits =>
    by_cases he : e = d
    · subst he
      rw [Observation.delivered, if_pos ⟨rfl, rfl⟩]
      obtain hread | hread := read_open len fits hd ho hfile
      · rw [hread]
        exact ⟨Function.update_self _ _ _, List.take_prefix _ _⟩
      · rw [hread]
        exact ⟨ho, List.nil_prefix⟩
    · rw [Observation.delivered, if_neg fun h => he h.2]
      refine ⟨?_, List.nil_prefix⟩
      rw [Step.others (show Step t (.read e len fits) _ _ from .reads)
        fun h => he (Option.some.inj h), ho]
      rfl
  | @seeks e offset whence =>
    refine ⟨?_, List.nil_prefix⟩
    rw [Step.others (show Step t (.seek e offset whence) _ _ from .seeks)
      fun h => hkeeps ⟨rfl, Option.some.inj h⟩, ho]
    rfl
  | @closes e =>
    refine ⟨?_, List.nil_prefix⟩
    rw [Step.others (show Step t (.close e) _ _ from .closes)
      fun h => hkeeps ⟨rfl, Option.some.inj h⟩, ho]
    rfl

theorem append_prefix {a b l : List UInt8} (ha : a <+: l) (hb : b <+: l.drop a.length) :
    a ++ b <+: l := by
  obtain ⟨rest, rfl⟩ := ha
  rw [List.drop_left] at hb
  exact List.prefix_append_right_inj a |>.mpr hb

/-- Along a run the cursor stands behind what has been delivered, which is the file from where the
cursor was. -/
theorem Runs.stream (h : Runs T os T') (hd : firstDynamic ≤ d) (ho : T pid d = some o)
    (hfile : o.file.isDirectory = false) (hkeeps : ∀ x ∈ os, x.Keeps pid d) :
    T' pid d = some (o.after (delivered pid d os)) ∧
      delivered pid d os <+: o.file.contents.drop o.cursor := by
  induction h generalizing o with
  | done => exact ⟨ho, List.nil_prefix⟩
  | @spawned T T' p os rest ih =>
    have hp : pid ≠ p := fun h => hkeeps _ List.mem_cons_self h.symm
    refine ih ?_ hfile fun x hx => hkeeps x (List.mem_cons_of_mem _ hx)
    rw [Function.update_of_ne hp]
    exact ho
  | @called T T' p request answer t os step rest ih =>
    have hrest : ∀ x ∈ os, x.Keeps pid d := fun x hx => hkeeps x (List.mem_cons_of_mem _ hx)
    by_cases hp : p = pid
    · subst hp
      obtain ⟨hopen, hpiece⟩ := step.stream hd ho hfile (hkeeps _ List.mem_cons_self)
      have hself := (congrFun (Function.update_self p t T) d).trans hopen
      obtain ⟨hend, hpieces⟩ := ih hself hfile hrest
      rw [delivered, List.flatMap_cons]
      refine ⟨?_, append_prefix hpiece ?_⟩
      · rw [hend, ← after_append]
        rfl
      · rw [List.drop_drop]
        exact hpieces
    · rw [delivered, List.flatMap_cons, delivered_other hp, List.nil_append]
      refine ih ?_ hfile hrest
      rw [Function.update_of_ne (Ne.symm hp)]
      exact ho

theorem Runs.split (h : Runs T (os ++ os') T') : ∃ T₁, Runs T os T₁ ∧ Runs T₁ os' T' := by
  induction os generalizing T with
  | nil => exact ⟨T, .done, h⟩
  | cons x os ih =>
    cases h with
    | spawned rest =>
      obtain ⟨T₁, hleft, hright⟩ := ih rest
      exact ⟨T₁, .spawned hleft, hright⟩
    | called step rest =>
      obtain ⟨T₁, hleft, hright⟩ := ih rest
      exact ⟨T₁, .called step hleft, hright⟩

/-- A read that asks for something and gets nothing has found the end. -/
theorem read_ends {len : ℕ} {fits : ℕ → Bool} (hd : firstDynamic ≤ d) (ho : t d = some o)
    (hfile : o.file.isDirectory = false) (hlen : 0 < len) (hraw : (read t d len fits).1.raw = 0) :
    o.file.contents.drop o.cursor = [] := by
  obtain hread | hread := read_open len fits hd ho hfile
  · rw [hread] at hraw
    have hlength := following_length o len
    have hmax : 0 < maxTransfer := by decide
    rw [show (o.following len).length = 0 from hraw, Opened.remaining] at hlength
    exact List.drop_eq_nil_of_le (by omega)
  · rw [hread] at hraw
    exact absurd hraw (by simp only [refuse]; decide)

/-- When a read comes to nothing, everything from the cursor on has been delivered. -/
theorem Runs.stream_ends {len : ℕ} {fits : ℕ → Bool} {data : List UInt8}
    (h : Runs T (os ++ .called pid (.read d len fits) ⟨0, data⟩ :: os') T')
    (hd : firstDynamic ≤ d) (ho : T pid d = some o) (hfile : o.file.isDirectory = false)
    (hkeeps : ∀ x ∈ os, x.Keeps pid d) (hlen : 0 < len) :
    delivered pid d os = o.file.contents.drop o.cursor := by
  obtain ⟨T₁, hleft, hright⟩ := h.split
  obtain ⟨hopen, hpieces⟩ := hleft.stream hd ho hfile hkeeps
  cases hright with
  | called step rest =>
    generalize hanswer : (⟨0, data⟩ : Answer) = answer at step
    cases step with
    | reads =>
      have hend := read_ends hd hopen hfile hlen (congrArg Answer.raw hanswer).symm
      rw [Opened.after, ← List.drop_drop] at hend
      refine hpieces.eq_of_length_le ?_
      exact List.drop_eq_nil_iff.mp hend

end Streams

end Descriptors

namespace Syscalls

open Attempts Attempt TransitionSystem
open Descriptors (Opened Observation delivered)

section Streams

variable {files : List (String × List UInt8)} {f : String × List UInt8} {archive bytes : List UInt8}
  {contents : FileSystem.Contents} {fs : FileSystem.Mounted} {k u v w : Kernel} {es₁ es₂ : List Event}
  {file : Descriptors.File} {ptr len flags raw n d : ℕ} {node : FileSystem.Node}

theorem readUserPath_error {space : UserMemory.UserSpace}
    (h : readUserPath space ptr len = .error raw) :
    ∃ errno ∈ [EINVAL, EFAULT], raw = encodeError errno := by
  rw [readUserPath] at h
  split at h
  · exact ⟨EINVAL, by decide, (Except.error.inj h).symm⟩
  split at h
  · exact ⟨EFAULT, by decide, (Except.error.inj h).symm⟩
  split at h
  · cases h
  · exact ⟨EINVAL, by decide, (Except.error.inj h).symm⟩

/-- What an open is refused with is an error. -/
theorem named_error (h : named archive k ptr len flags = .error raw) :
    ∃ errno ∈ [EPERM, ENOTSUP, EINVAL, EFAULT, ENOENT], raw = encodeError errno := by
  rw [named] at h
  by_cases hright : k.holds .fileRead = false
  · rw [if_pos hright] at h
    exact ⟨EPERM, by decide, (Except.error.inj h).symm⟩
  rw [if_neg hright] at h
  by_cases hwrite : flags &&& openWrite ≠ 0
  · rw [if_pos hwrite] at h
    exact ⟨ENOTSUP, by decide, (Except.error.inj h).symm⟩
  rw [if_neg hwrite] at h
  cases hpath : readUserPath k.space ptr len with
  | error e =>
    rw [hpath] at h
    obtain ⟨errno, hmem, he⟩ := readUserPath_error hpath
    have hsub : [EINVAL, EFAULT] ⊆ [EPERM, ENOTSUP, EINVAL, EFAULT, ENOENT] := by decide
    exact ⟨errno, hsub hmem, (Except.error.inj h).symm.trans he⟩
  | ok path =>
    rw [hpath] at h
    dsimp only at h
    cases hnode : FileSystem.lookup k.fs path with
    | none =>
      rw [hnode] at h
      exact ⟨ENOENT, by decide, (Except.error.inj h).symm⟩
    | some node =>
      rw [hnode] at h
      dsimp only at h
      by_cases hdirectory : flags &&& openDirectory ≠ 0 ∧ node.isDirectory = false
      · rw [if_pos hdirectory] at h
        exact ⟨ENOTSUP, by decide, (Except.error.inj h).symm⟩
      rw [if_neg hdirectory] at h
      by_cases hlong : (FileSystem.utf8 path).length > FileSystem.maxPath
      · rw [if_pos hlong] at h
        exact ⟨EINVAL, by decide, (Except.error.inj h).symm⟩
      · rw [if_neg hlong] at h
        cases h

/-- What an open names is the node of its path. -/
theorem named_ok {path : String} (h : named archive k ptr len flags = .ok file)
    (hpath : readUserPath k.space ptr len = .ok path) :
    ∃ node, FileSystem.lookup k.fs path = some node ∧ file = fileOf archive node := by
  rw [named, hpath] at h
  by_cases hright : k.holds .fileRead = false
  · rw [if_pos hright] at h
    cases h
  rw [if_neg hright] at h
  by_cases hwrite : flags &&& openWrite ≠ 0
  · rw [if_pos hwrite] at h
    cases h
  rw [if_neg hwrite] at h
  dsimp only at h
  cases hnode : FileSystem.lookup k.fs path with
  | none =>
    rw [hnode] at h
    cases h
  | some node =>
    rw [hnode] at h
    dsimp only at h
    split at h
    · cases h
    split at h
    · cases h
    · exact ⟨node, rfl, (Except.ok.inj h).symm⟩

/-- The node of a packed file has the bytes of the file. -/
theorem fileOf_packed (hpacked : FileSystem.Packed files contents)
    (hsize : FileSystem.headerSize + contents.length * FileSystem.entrySize +
      (FileSystem.blob contents).length < 2 ^ 63)
    (hfs : FileSystem.Holds contents fs) (hplaced : Placed (FileSystem.archiveOf contents) node)
    (hf : f ∈ files) (hlookup : FileSystem.lookup (some fs) f.1 = some node) :
    fileOf (FileSystem.archiveOf contents) node = ⟨f.2, false⟩ := by
  rw [← hfs.archive] at hplaced ⊢
  have hordinary : node.isDirectory = false := by
    by_contra hdirectory
    have hnone := (hpacked.directory_iff f.1).mpr
      ((hfs.isDirectory_iff hpacked).mp ⟨node, hlookup, Bool.eq_true_of_not_eq_false hdirectory⟩)
    have hsome := (hpacked.file_iff f.1 f.2).mpr hf
    cases List.inj_on_of_nodup_map hpacked.nodup hnone hsome rfl
  have hreads := hfs.reads hpacked hsize hf (σ := Unit) (ε := Unit) ()
  have hread := FileSystem.read_run (σ := Unit) (ε := Unit) (u := ()) hplaced.inside 0 node.len
  rw [FileSystem.readAll, hlookup] at hreads
  dsimp only at hreads
  rw [if_neg (by rw [hordinary]; decide), run_bind_of_ok hread, if_neg (by rw [hordinary]; decide),
    run_pure, Nat.add_zero, Nat.sub_zero, Nat.min_self] at hreads
  obtain ⟨hanswer, -⟩ := Prod.mk.inj (Option.some.inj hreads)
  rw [fileOf, hordinary, Option.some.inj (Except.ok.inj hanswer)]

/-- An open that succeeds has put the file it names, at its start, under the descriptor. -/
theorem opened_descriptor
    (hanswers : Answers archive k 18 n (.openFile (named archive k ptr len flags)) d w)
    (hd : isError d = false) : firstDynamic ≤ d ∧ ∃ file,
      named archive k ptr len flags = .ok file ∧
        tables archive w k.currentPid d = some ⟨file, 0⟩ := by
  obtain ⟨t, hstep, htables⟩ := hanswers.step
  have hnow : tables archive w k.currentPid = t := by
    rw [htables, Function.update_self]
  generalize hanswer : answered 18 n d w = answer at hstep
  cases hnamed : named archive k ptr len flags with
  | error raw =>
    rw [hnamed] at hstep
    cases hstep
    have hraw : d = raw := congrArg Descriptors.Answer.raw hanswer
    obtain ⟨errno, hmem, herrno⟩ := named_error hnamed
    have herror : ∀ e ∈ [EPERM, ENOTSUP, EINVAL, EFAULT, ENOENT],
        isError (encodeError e) = true := by decide
    rw [hraw, herrno, herror errno hmem] at hd
    cases hd
  | ok file =>
    rw [hnamed] at hstep
    cases hstep with
    | @opens _ e hleast =>
      obtain rfl : d = e := congrArg Descriptors.Answer.raw hanswer
      exact ⟨hleast.1.1, file, rfl, hnow.trans (funext fun _ => rfl) ▸ Function.update_self _ _ _⟩

/-- A packed file, opened by its path and read while other things happen: what is delivered is the
file in its order, and all of it once a read comes to nothing. -/
theorem file_streamed {s : Option FileSystem.Mounted} {a₁ a₂ a₃ : UInt64}
    (hbuilt : (FileSystem.buildArchive files : Attempt Unit Unit _).run () = some (.ok bytes, ()))
    (hmany : (FileSystem.namespaceOf files).ncard < 2 ^ 32)
    (hmount : (FileSystem.mount bytes).run s = some (.ok n, k.fs)) (hboot : Booted k)
    (hfixed : ∀ fs, Event.mount fs ∉ es₁ ++ es₂) (hbefore : exec next k es₁ = some u)
    (hf : f ∈ files) (hpath : readUserPath u.space a₁.toNat a₂.toNat = .ok f.1)
    (hopen : u.call 18 a₁ a₂ a₃ = some (.ok d, w)) (hd : isError d = false)
    (hafter : exec next w es₂ = some v)
    (hkeeps : ∀ x ∈ observations bytes w es₂, x.Keeps u.currentPid d) :
    delivered u.currentPid d (observations bytes w es₂) <+: f.2 ∧
      ∀ os os' len fits data, observations bytes w es₂ =
          os ++ .called u.currentPid (.read d len fits) ⟨0, data⟩ :: os' →
        0 < len → delivered u.currentPid d os = f.2 := by
  obtain ⟨contents, hpacked, hsize, rfl⟩ := FileSystem.buildArchive_ok hbuilt
  rw [hpacked.ncard_namespace] at hmany
  obtain ⟨n', fs, hmounted, hholds⟩ := hpacked.mount_holds hsize hmany s
  obtain ⟨-, hfs⟩ := Prod.mk.inj (Option.some.inj (hmount.symm.trans hmounted))
  have hfixed₁ : ∀ fs, Event.mount fs ∉ es₁ := fun fs h => hfixed fs (List.mem_append_left _ h)
  have hfixed₂ : ∀ fs, Event.mount fs ∉ es₂ := fun fs h => hfixed fs (List.mem_append_right _ h)
  obtain ⟨htidy, -⟩ := run_simulates (boot_tidy hmount hboot) hfixed₁ hbefore
  obtain ⟨hsame, -⟩ := run_keepsNamed hfixed₁ hbefore
  obtain ⟨request, raw, w', hrequest, hcall, hanswers⟩ :=
    call_answers htidy (show 18 ∈ [17, 18, 19, 20] by decide) a₁.toNat a₂.toNat a₃.toNat
  obtain rfl := Option.some.inj hrequest
  obtain ⟨hraw, rfl⟩ := Prod.mk.inj (Option.some.inj (hopen.symm.trans hcall))
  obtain rfl := Except.ok.inj hraw
  obtain ⟨hdynamic, file, hnamed, hentry⟩ := opened_descriptor hanswers hd
  obtain ⟨node, hlookup, rfl⟩ := named_ok hnamed hpath
  rw [hsame, hfs] at hlookup
  have hplaced : Placed (FileSystem.archiveOf contents) node := by
    obtain ⟨fs', hfs', -, hnodes⟩ := htidy.fs
    obtain rfl := Option.some.inj (hfs'.symm.trans (hsame.trans hfs))
    exact hnodes _ (FileSystem.lookup_mem hlookup)
  rw [fileOf_packed hpacked hsize hholds hplaced hf hlookup] at hentry
  obtain ⟨-, hruns⟩ := run_simulates hanswers.tidy hfixed₂ hafter
  obtain ⟨-, hpieces⟩ := hruns.stream hdynamic hentry rfl hkeeps
  refine ⟨hpieces, ?_⟩
  intro os os' len fits data hsplit hlen
  rw [hsplit] at hruns hkeeps
  exact hruns.stream_ends hdynamic hentry rfl
    (fun x hx => hkeeps x (List.mem_append_left _ hx)) hlen

def streamFiles : List (String × List UInt8) := [("/a", [0x61, 0x62, 0x63])]

def streamArchive : List UInt8 :=
  match (FileSystem.buildArchive streamFiles : Attempt Unit Unit _).run () with
  | some (.ok bytes, ()) => bytes
  | _ => []

def streamBoot : Kernel :=
  { boot with fs := some ⟨[("/", ⟨0, 0, true⟩), ("/a", ⟨312, 3, false⟩)], streamArchive⟩ }

/-- The program is about to open `/a`. -/
def streamStart : List Event := [.spawn Realms.home smallSpace, .switch 1, .enter]

/-- The file is read in two pieces, with another process created in between. -/
def streamReads : List Event :=
  [.syscall 17 3 0x400100 2, .spawn Realms.home smallSpace, .syscall 17 3 0x400100 2]

theorem file_streamed_small : ∃ u w v, exec next streamBoot streamStart = some u ∧
    u.call 18 0x400000 2 0 = some (.ok 3, w) ∧ exec next w streamReads = some v ∧
      delivered u.currentPid 3 (observations streamArchive w streamReads) <+:
        [0x61, 0x62, 0x63] := by
  have hbuilt : (FileSystem.buildArchive streamFiles : Attempt Unit Unit _).run () =
      some (.ok streamArchive, ()) := by decide +kernel
  have hmany : (FileSystem.namespaceOf streamFiles).ncard < 2 ^ 32 := by
    obtain ⟨contents, hpacked, -, hbytes⟩ := FileSystem.buildArchive_ok hbuilt
    have hlength := congrArg List.length hbytes
    rw [hpacked.length_archiveOf, show streamArchive.length = 315 by decide +kernel,
      show FileSystem.entrySize = 144 from rfl] at hlength
    rw [hpacked.ncard_namespace]
    omega
  have hmount : (FileSystem.mount streamArchive).run none = some (.ok 2, streamBoot.fs) := by
    decide +kernel
  have hrun : ((exec next streamBoot streamStart).bind fun u =>
      (u.call 18 0x400000 2 0).bind fun opened => (exec next opened.2 streamReads).map fun _ =>
        ((opened.1.toOption, decide (readUserPath u.space (0x400000 : UInt64).toNat
          (2 : UInt64).toNat = .ok "/a")),
          decide (∀ x ∈ observations streamArchive opened.2 streamReads, x.Keeps u.currentPid 3))) =
      some ((some 3, true), true) := by decide +kernel
  obtain ⟨u, hu, hrun⟩ := Option.bind_eq_some_iff.mp hrun
  obtain ⟨⟨r, w⟩, hw, hrun⟩ := Option.bind_eq_some_iff.mp hrun
  obtain ⟨v, hv, hfacts⟩ := Option.map_eq_some_iff.mp hrun
  obtain ⟨hopened, hkeeps⟩ := Prod.mk.inj hfacts
  obtain ⟨hd, hpath⟩ := Prod.mk.inj hopened
  cases r with
  | error => cases hd
  | ok d =>
    obtain rfl : d = 3 := Option.some.inj hd
    have hstreamed := file_streamed hbuilt hmany hmount (fun _ => rfl) ?_ hu (f := ("/a", _))
      List.mem_cons_self (of_decide_eq_true hpath) hw (by decide) hv (of_decide_eq_true hkeeps)
    · exact ⟨u, w, v, hu, hw, hv, hstreamed.1⟩
    · intro fs hmem
      simp [streamStart, streamReads] at hmem

end Streams

end Syscalls
