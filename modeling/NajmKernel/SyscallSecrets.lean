import NajmKernel.DescriptorRuns
import NajmKernel.PairedRuns
import NajmKernel.SyscallWrites

/-! What a syscall tells its program: nothing of the clock, the archive or the input that the
program's rights do not cover, by two runs that differ there only. -/
namespace Syscalls

open KernelMachine (ProgramExit)
open Realms
open Attempts Attempt UserMemory

section Views

/-- A process without the right to read files has none open. -/
def Sealed (k : Kernel) : Prop :=
  ∀ pid p, k.processes pid = some p → p.profile.allows .fileRead = false →
    ∀ d : ℕ, (p.files[d]?).join = none

/-- Two kernels that the process on the processor may tell apart by its rights only: they differ
in the clock, the files and the input as far as it may not read them. -/
structure Alike (k u : Kernel) : Prop where
  currentPid : u.currentPid = k.currentPid
  supervised : u.supervised = k.supervised
  profile : u.currentProfile = k.currentProfile
  isProcess : u.currentProcess.isSome = k.currentProcess.isSome
  space : u.space = k.space
  ports : u.ports = k.ports
  compositor : u.compositor = k.compositor
  ticks : k.holds .timerRead = true → u.ticks = k.ticks
  fs : k.holds .fileRead = true → u.fs = k.fs
  files : k.holds .fileRead = true → u.files = k.files
  slots : ∀ d, (getFile u d).isSome = (getFile k d).isSome
  input : k.holds .inputRead = true → u.input = k.input

/-- What the program sees of its memory is the same. -/
def SameSpace (k u : Kernel) : Prop := u.space = k.space ∧ u.currentPid = k.currentPid

/-- Alike, and without a file open that may not be read. -/
structure Views (k u : Kernel) : Prop extends Alike k u where
  shut : k.holds .fileRead = false → ∀ d, getFile k d = none

variable {k u : Kernel}

theorem Alike.holds (h : Alike k u) (right : Right) : u.holds right = k.holds right := by
  rw [Kernel.holds, Kernel.holds, h.profile]

theorem Views.getFile (h : Views k u) (d : ℕ) : getFile u d = getFile k d := by
  cases hf : k.holds .fileRead with
  | true => rw [Syscalls.getFile, Syscalls.getFile, h.files hf]
  | false =>
    have hslot := h.slots d
    rw [h.shut hf d, Option.isSome_none, Option.isSome_eq_false_iff, Option.isNone_iff_eq_none]
      at hslot
    rw [h.shut hf d, hslot]

theorem Views.sameSpace (h : Views k u) : SameSpace k u := ⟨h.space, h.currentPid⟩

theorem getFile_of_sealed (h : Sealed k) (hright : k.holds .fileRead = false) (d : ℕ) :
    getFile k d = none := by
  rw [getFile, Kernel.files]
  cases hp : k.currentProcess with
  | none => simp
  | some p =>
    rw [Kernel.holds, Kernel.currentProfile, hp] at hright
    exact h _ p (processes_of_current hp) hright d

end Views

section Rules

variable {α β : Type} {P Q R : Kernel → Kernel → Prop} {number : ℕ}

theorem coupled_pure (h : ∀ k u, P k u → Q k u) (a : α) :
    Coupled P Q (pure a : Call α) (pure a : Call α) := by
  intro k u b c k' u' hP hk hu
  obtain ⟨hb, hs⟩ := Coupled.pure a k u b c k' u' hP hk hu
  exact ⟨hb, h _ _ hs⟩

theorem coupled_throw (e : ProgramExit) : Coupled P Q (throw e : Call α) (throw e : Call α) := by
  intro k u b c k' u' _ hk
  nomatch hk

/-- What both kernels hold alike may be looked at. -/
theorem coupled_gets {f : Kernel → α} {g : α → Call β} (hf : ∀ k u, P k u → f u = f k)
    (hg : ∀ a, Coupled (fun k u => P k u ∧ f k = a) Q (g a) (g a)) :
    Coupled P Q (gets f >>= g) (gets f >>= g) := by
  intro k u b c k' u' hP hk hu
  rw [run_gets_bind] at hk hu
  rw [hf k u hP] at hu
  exact hg (f k) k u b c k' u' ⟨hP, rfl⟩ hk hu

theorem coupled_modifies {f : Kernel → Kernel} {g : Unit → Call β}
    (hf : ∀ k u, P k u → R (f k) (f u)) (hg : Coupled R Q (g ()) (g ())) :
    Coupled P Q (modifies f >>= g) (modifies f >>= g) := by
  intro k u b c k' u' hP hk hu
  rw [run_modifies_bind] at hk hu
  exact hg _ _ b c k' u' (hf k u hP) hk hu

theorem coupled_turns {body : β → Call (ForInStep β)} (h : ∀ b, Coupled P P (body b) (body b))
    (n : ℕ) (b : β) : Coupled P P (Attempt.turns body n b) (Attempt.turns body n b) := by
  induction n generalizing b with
  | zero => exact Coupled.pure b
  | succ n ih =>
    refine Coupled.bind (h b) fun r => ?_
    cases r with
    | done b => exact Coupled.pure b
    | yield b => exact ih b

theorem coupled_requiring {right : Right} {body : Call ℕ} (hP : ∀ k u, P k u → Views k u)
    (hbody : Coupled (fun k u => P k u ∧ k.holds right = true) SameSpace body body) :
    Coupled P SameSpace (requiring right body) (requiring right body) := by
  refine coupled_gets (fun k u h => (hP k u h).holds right) fun held => ?_
  cases held with
  | true => exact hbody
  | false => exact coupled_pure (fun k u h => (hP k u h.1).sameSpace) _

theorem coupled_forProcess {body : ℕ → Call ℕ} (hP : ∀ k u, P k u → Views k u)
    (hbody : ∀ pid, Coupled (fun k u => P k u ∧ k.currentPid = pid) SameSpace (body pid)
      (body pid)) : Coupled P SameSpace (forProcess body) (forProcess body) := by
  refine coupled_gets (fun k u h => (hP k u h).currentPid) fun pid => ?_
  exact Coupled.ite (fun _ => coupled_pure (fun k u h => (hP k u h.1).sameSpace) _)
    fun _ => hbody pid

theorem sameSpace_write {k u : Kernel} {space : UserSpace} (h : SameSpace k u) :
    SameSpace { k with spaces := Function.update k.spaces k.currentPid space }
      { u with spaces := Function.update u.spaces u.currentPid space } := by
  refine ⟨?_, h.2⟩
  change Function.update u.spaces u.currentPid space u.currentPid =
    Function.update k.spaces k.currentPid space k.currentPid
  rw [Function.update_self, Function.update_self]

theorem coupled_answerWith (hP : ∀ k u, P k u → SameSpace k u) (ptr : ℕ) (data : List UInt8)
    (answer : ℕ) : Coupled P SameSpace (answerWith ptr data answer) (answerWith ptr data answer) := by
  refine coupled_gets (fun k u h => by rw [(hP k u h).1]) fun copied => ?_
  cases copied with
  | none => exact coupled_pure (fun k u h => hP k u h.1) _
  | some space =>
    exact coupled_modifies (fun k u h => sameSpace_write (hP k u h.1)) (Coupled.pure answer)

theorem coupled_ipc {x : Attempt Ports.Table Ports.IpcError α}
    (hports : ∀ k u, P k u → u.ports = k.ports) (hspace : ∀ k u, P k u → SameSpace k u) :
    Coupled P SameSpace (ipc x) (ipc x) := by
  intro k u b c k' u' hP hk hu
  rw [ipc, run_of] at hk hu
  rw [hports k u hP] at hu
  obtain ⟨⟨r, t⟩, hx, hk⟩ := Option.map_eq_some_iff.mp hk
  obtain ⟨⟨r', t'⟩, hx', hu⟩ := Option.map_eq_some_iff.mp hu
  obtain ⟨rfl, rfl⟩ := Prod.mk.inj (Option.some.inj (hx.symm.trans hx'))
  obtain ⟨hb, rfl⟩ := Prod.mk.inj hk
  obtain ⟨hc, rfl⟩ := Prod.mk.inj hu
  exact ⟨(Except.ok.inj hb).symm.trans (Except.ok.inj hc), hspace k u hP⟩

/-- The screen answers alike, and only it changes. -/
theorem coupled_graphics {x : Attempt Compositor.State ProgramExit α}
    (hcompositor : ∀ k u, P k u → u.compositor = k.compositor)
    (hspace : ∀ k u, P k u → SameSpace k u) :
    Coupled P SameSpace (graphics x) (graphics x) := by
  intro k u b c k' u' hP hk hu
  rw [graphics, run_of] at hk hu
  rw [hcompositor k u hP] at hu
  obtain ⟨⟨r, t⟩, hx, hk⟩ := Option.map_eq_some_iff.mp hk
  obtain ⟨⟨r', t'⟩, hx', hu⟩ := Option.map_eq_some_iff.mp hu
  obtain ⟨rfl, rfl⟩ := Prod.mk.inj (Option.some.inj (hx.symm.trans hx'))
  obtain ⟨rfl, rfl⟩ := Prod.mk.inj hk
  obtain ⟨hc, rfl⟩ := Prod.mk.inj hu
  exact ⟨(Except.ok.inj hc), hspace k u hP⟩

/-- Where nothing is answered, only the memory counts. -/
theorem coupled_quiet {x y : Call Unit} (hP : ∀ k u, P k u → SameSpace k u)
    (hx : ∀ k, Leads Quiet x k) (hy : ∀ u, Leads Quiet y u) : Coupled P SameSpace x y := by
  rintro k u ⟨⟩ ⟨⟩ k' u' h hk hu
  obtain ⟨hspaces, hpid⟩ := hx k _ k' hk
  obtain ⟨hspaces', hpid'⟩ := hy u _ u' hu
  obtain ⟨hspace, hsame⟩ := hP k u h
  refine ⟨rfl, ?_, by rw [hpid, hpid', hsame]⟩
  rw [Kernel.space, Kernel.space] at hspace ⊢
  rw [hspaces', hspaces, hpid', hpid, hspace]

end Rules

section Handlers

theorem coupled_sysWrite (descriptor ptr len : ℕ) :
    Coupled Views SameSpace (sysWrite descriptor ptr len) (sysWrite descriptor ptr len) := by
  refine Coupled.ite (fun _ => coupled_pure (fun k u h => h.sameSpace) _) fun _ => ?_
  refine coupled_gets (fun k u h => by rw [h.space]) fun copied => ?_
  cases copied with
  | none => exact coupled_pure (fun k u h => h.1.sameSpace) _
  | some bytes => exact coupled_modifies (fun k u h => h.1.sameSpace) (Coupled.pure _)

theorem coupled_cstrTurn (c : CstrCursor) : Coupled Views Views (cstrTurn c) (cstrTurn c) := by
  refine Coupled.ite (fun _ => Coupled.pure _) fun _ => ?_
  refine coupled_gets (fun k u h => by rw [h.space]) fun copied => ?_
  cases copied with
  | none => exact coupled_pure (fun k u h => h.1) _
  | some chunk =>
    dsimp only
    cases chunk.findIdx? (· == 0) with
    | none => exact Coupled.bind (Coupled.sum _ _ _) fun _ => coupled_pure (fun k u h => h.1) _
    | some terminator => exact coupled_pure (fun k u h => h.1) _

theorem coupled_sysWriteCstr (ptr : ℕ) :
    Coupled Views SameSpace (sysWriteCstr ptr) (sysWriteCstr ptr) := by
  refine Coupled.bind (coupled_turns coupled_cstrTurn maxCstr ⟨0, ptr⟩) fun c => ?_
  refine Coupled.ite (fun _ => ?_) fun _ => coupled_sysWrite _ _ _
  refine coupled_gets (fun k u h => by rw [h.space]) fun copied => ?_
  exact Coupled.ite (fun _ => coupled_pure (fun k u h => h.1.sameSpace) _)
    fun _ => coupled_pure (fun k u h => h.1.sameSpace) _

theorem coupled_sysExit (status : ℕ) :
    Coupled Views SameSpace (sysExit status) (sysExit status) := by
  refine coupled_gets (fun k u h => by rw [h.supervised, h.currentPid]) fun running => ?_
  exact Coupled.ite (fun _ => coupled_throw _) fun _ => coupled_pure (fun k u h => h.1.sameSpace) _

theorem coupled_sysRealmInfo (out : ℕ) :
    Coupled Views SameSpace (sysRealmInfo out) (sysRealmInfo out) := by
  refine coupled_gets (fun k u h => h.currentPid) fun pid => ?_
  refine coupled_gets (fun k u h => h.1.profile) fun profile => ?_
  cases profile with
  | none => exact coupled_pure (fun k u h => h.1.1.sameSpace) _
  | some profile => exact coupled_answerWith (fun k u h => h.1.1.sameSpace) _ _ _

/-- Placing a file is possible in both kernels or in neither. -/
theorem coupled_openFile {P : Kernel → Kernel → Prop} (hP : ∀ k u, P k u → Views k u)
    (hfiles : ∀ k u, P k u → u.files = k.files) (file : OpenFile) :
    Coupled P SameSpace (openFile file) (openFile file) := by
  intro k u b c k' u' h hk hu
  rw [openFile, run_gets_bind] at hk hu
  have hviews := hP k u h
  cases hp : k.currentProcess with
  | none =>
    have hq : u.currentProcess = none := by
      have hsome := hviews.isProcess
      rw [hp] at hsome
      exact Option.not_isSome_iff_eq_none.mp (by rw [hsome]; simp)
    rw [hp] at hk
    rw [hq] at hu
    obtain ⟨hb, rfl⟩ := Prod.mk.inj (Option.some.inj hk)
    obtain ⟨hc, rfl⟩ := Prod.mk.inj (Option.some.inj hu)
    exact ⟨(Except.ok.inj hb).symm.trans (Except.ok.inj hc), hviews.sameSpace⟩
  | some p =>
    obtain ⟨q, hq⟩ : ∃ q, u.currentProcess = some q := by
      rw [← Option.isSome_iff_exists, hviews.isProcess, hp]
      rfl
    have hsame : q.files = p.files := by
      have := hfiles k u h
      rwa [files_of_process hp, files_of_process hq] at this
    rw [hp] at hk
    rw [hq] at hu
    simp only [hsame] at hu
    obtain ⟨hb, rfl⟩ := Prod.mk.inj (Option.some.inj hk)
    obtain ⟨hc, rfl⟩ := Prod.mk.inj (Option.some.inj hu)
    exact ⟨(Except.ok.inj hb).symm.trans (Except.ok.inj hc), hviews.sameSpace⟩

theorem coupled_sysOpen (ptr len flags : ℕ) :
    Coupled Views SameSpace (sysOpen ptr len flags) (sysOpen ptr len flags) := by
  refine coupled_requiring (fun k u h => h) ?_
  refine Coupled.ite (fun _ => coupled_pure (fun k u h => h.1.sameSpace) _) fun _ => ?_
  refine coupled_gets (fun k u h => by rw [h.1.space]) fun path => ?_
  cases path with
  | error e => exact coupled_pure (fun k u h => h.1.1.sameSpace) _
  | ok path =>
    refine coupled_gets (fun k u h => by rw [h.1.1.fs h.1.2]) fun node => ?_
    cases node with
    | none => exact coupled_pure (fun k u h => h.1.1.1.sameSpace) _
    | some node =>
      refine Coupled.ite (fun _ => coupled_pure (fun k u h => h.1.1.1.sameSpace) _) fun _ => ?_
      cases OpenFile.new node path with
      | none => exact coupled_pure (fun k u h => h.1.1.1.sameSpace) _
      | some file =>
        refine Coupled.bind (coupled_openFile (fun k u h => h.1.1.1)
          (fun k u h => h.1.1.1.files h.1.1.2) file) fun descriptor => ?_
        cases descriptor with
        | none => exact Coupled.pure _
        | some descriptor => exact Coupled.pure _

theorem Views.fs_of_open {k u : Kernel} {d : ℕ} {file : OpenFile} (h : Views k u)
    (hopen : Syscalls.getFile k d = some file) : u.fs = k.fs := by
  apply h.fs
  by_contra hright
  rw [h.shut (Bool.eq_false_iff.mpr hright) d] at hopen
  nomatch hopen

theorem coupled_fileRead {P : Kernel → Kernel → Prop} (fs : Option FileSystem.Mounted)
    (node : FileSystem.Node) (offset count : ℕ) :
    Coupled P P (FileSystem.read fs node offset count : Call (List UInt8))
      (FileSystem.read fs node offset count : Call (List UInt8)) := by
  refine Coupled.ite (fun _ => Coupled.pure _) fun _ => ?_
  cases fs with
  | none => exact Coupled.pure _
  | some fs =>
    exact Coupled.bind (Coupled.sum _ _ _) fun _ => Coupled.bind (Coupled.sum _ _ _) fun _ =>
      Coupled.pure _

theorem sameSpace_setProcess {k u : Kernel} {f g : Process → Process} (h : SameSpace k u) :
    SameSpace (k.setProcess f) (u.setProcess g) := h

/-- Moving a file's position answers nothing, and leaves the memory. -/
theorem quiet_setFilePosition (k : Kernel) (descriptor position : ℕ) :
    Leads Quiet (discard (setFilePosition descriptor position)) k :=
  (leads_setFilePosition (admits_quiet (show 18 ∉ [17, 21, 22, 51, 64, 82, 83] by decide))
    (by decide) descriptor position).discard

theorem coupled_sysRead (descriptor ptr len : ℕ) :
    Coupled Views SameSpace (sysRead descriptor ptr len) (sysRead descriptor ptr len) := by
  refine Coupled.ite (fun _ => coupled_pure (fun k u h => h.sameSpace) _) fun _ => ?_
  refine Coupled.ite (fun _ => coupled_pure (fun k u h => h.sameSpace) _) fun _ => ?_
  refine coupled_gets (fun k u h => h.getFile descriptor) fun opened => ?_
  cases opened with
  | none => exact coupled_pure (fun k u h => h.1.sameSpace) _
  | some file =>
    refine Coupled.ite (fun _ => coupled_pure (fun k u h => h.1.sameSpace) _) fun _ => ?_
    refine coupled_gets (fun k u h => h.1.fs_of_open h.2) fun fs => ?_
    refine Coupled.bind (coupled_fileRead fs _ _ _) fun data => ?_
    refine coupled_gets (fun k u h => by rw [h.1.1.space]) fun copied => ?_
    cases copied with
    | none => exact coupled_pure (fun k u h => h.1.1.1.sameSpace) _
    | some space =>
      refine coupled_modifies (fun k u h => sameSpace_write h.1.1.1.sameSpace) ?_
      refine Coupled.bind (Coupled.sum _ _ _) fun position => ?_
      refine Coupled.bind (coupled_quiet (fun k u h => h)
        (fun k => quiet_setFilePosition k descriptor position)
        (fun u => quiet_setFilePosition u descriptor position)) fun _ => ?_
      exact Coupled.pure _

theorem coupled_sysClose (descriptor : ℕ) :
    Coupled Views SameSpace (sysClose descriptor) (sysClose descriptor) := by
  have hclose : Coupled Views SameSpace (closeFile descriptor) (closeFile descriptor) := by
    refine coupled_gets (fun k u h => h.getFile descriptor) fun opened => ?_
    cases opened with
    | none => exact coupled_pure (fun k u h => h.1.sameSpace) _
    | some file =>
      exact coupled_modifies (fun k u h => sameSpace_setProcess h.1.sameSpace) (Coupled.pure _)
  exact Coupled.bind hclose fun _ => Coupled.ite (fun _ => Coupled.pure _) fun _ => Coupled.pure _

theorem coupled_setFilePosition {P : Kernel → Kernel → Prop} (hP : ∀ k u, P k u → Views k u)
    (descriptor position : ℕ) : Coupled P SameSpace (setFilePosition descriptor position)
      (setFilePosition descriptor position) := by
  refine coupled_gets (fun k u h => (hP k u h).getFile descriptor) fun opened => ?_
  cases opened with
  | none => exact coupled_pure (fun k u h => (hP k u h.1).sameSpace) _
  | some file =>
    exact coupled_modifies (fun k u h => sameSpace_setProcess (hP k u h.1).sameSpace)
      (Coupled.pure _)

theorem coupled_sysSeek (descriptor offset whence : ℕ) :
    Coupled Views SameSpace (sysSeek descriptor offset whence)
      (sysSeek descriptor offset whence) := by
  refine coupled_gets (fun k u h => h.getFile descriptor) fun opened => ?_
  cases opened with
  | none => exact coupled_pure (fun k u h => h.1.sameSpace) _
  | some file =>
    dsimp only
    cases seekTarget file offset whence with
    | none => exact coupled_pure (fun k u h => h.1.sameSpace) _
    | some position =>
      exact Coupled.bind (coupled_setFilePosition (fun k u h => h.1) descriptor position) fun _ =>
        Coupled.ite (fun _ => Coupled.pure _) fun _ => Coupled.pure _

theorem coupled_sysStat (ptr len out : ℕ) :
    Coupled Views SameSpace (sysStat ptr len out) (sysStat ptr len out) := by
  refine coupled_requiring (fun k u h => h) ?_
  refine coupled_gets (fun k u h => by rw [h.1.space]) fun path => ?_
  cases path with
  | error e => exact coupled_pure (fun k u h => h.1.1.sameSpace) _
  | ok path =>
    refine coupled_gets (fun k u h => by rw [h.1.1.fs h.1.2]) fun node => ?_
    cases node with
    | none => exact coupled_pure (fun k u h => h.1.1.1.sameSpace) _
    | some node => exact coupled_answerWith (fun k u h => h.1.1.1.sameSpace) _ _ _

theorem coupled_sysReaddir (descriptor ptr len : ℕ) :
    Coupled Views SameSpace (sysReaddir descriptor ptr len) (sysReaddir descriptor ptr len) := by
  refine coupled_gets (fun k u h => h.getFile descriptor) fun opened => ?_
  cases opened with
  | none => exact coupled_pure (fun k u h => h.1.sameSpace) _
  | some file =>
    refine Coupled.ite (fun _ => coupled_pure (fun k u h => h.1.sameSpace) _) fun _ => ?_
    refine coupled_gets (fun k u h => by rw [h.1.fs_of_open h.2]) fun children => ?_
    cases children with
    | none => exact coupled_pure (fun k u h => h.1.1.sameSpace) _
    | some children => exact coupled_answerWith (fun k u h => h.1.1.sameSpace) _ _ _

theorem coupled_ipcAnswer {P : Kernel → Kernel → Prop} (r : Except Ports.IpcError ℕ) :
    Coupled P P (ipcAnswer r) (ipcAnswer r) := by
  cases r with
  | ok n => exact Coupled.pure _
  | error e => exact Coupled.pure _

theorem coupled_sysPortCreate (ptr len : ℕ) :
    Coupled Views SameSpace (sysPortCreate ptr len) (sysPortCreate ptr len) := by
  refine coupled_requiring (fun k u h => h) (coupled_forProcess (fun k u h => h.1) fun pid => ?_)
  refine coupled_gets (fun k u h => by rw [h.1.1.space]) fun name => ?_
  cases name with
  | none => exact coupled_pure (fun k u h => h.1.1.1.sameSpace) _
  | some name =>
    exact Coupled.bind (coupled_ipc (fun k u h => h.1.1.1.ports)
      fun k u h => h.1.1.1.sameSpace) fun r => coupled_ipcAnswer r

theorem coupled_sysPortConnect (ptr len : ℕ) :
    Coupled Views SameSpace (sysPortConnect ptr len) (sysPortConnect ptr len) := by
  refine coupled_requiring (fun k u h => h) ?_
  refine coupled_gets (fun k u h => by rw [h.1.space]) fun name => ?_
  cases name with
  | none => exact coupled_pure (fun k u h => h.1.1.sameSpace) _
  | some name =>
    exact Coupled.bind (coupled_ipc (fun k u h => h.1.1.ports) fun k u h => h.1.1.sameSpace)
      fun r => coupled_ipcAnswer r

theorem coupled_sysPortSend (handle ptr len : ℕ) :
    Coupled Views SameSpace (sysPortSend handle ptr len) (sysPortSend handle ptr len) := by
  refine coupled_requiring (fun k u h => h) (coupled_forProcess (fun k u h => h.1) fun pid => ?_)
  refine Coupled.ite (fun _ => coupled_pure (fun k u h => h.1.1.sameSpace) _) fun _ => ?_
  refine coupled_gets (fun k u h => by rw [h.1.1.space]) fun copied => ?_
  cases copied with
  | none => exact coupled_pure (fun k u h => h.1.1.1.sameSpace) _
  | some bytes =>
    exact Coupled.bind (coupled_ipc (fun k u h => h.1.1.1.ports)
      fun k u h => h.1.1.1.sameSpace) fun r => coupled_ipcAnswer r

theorem coupled_sysPortRecv (handle ptr len : ℕ) :
    Coupled Views SameSpace (sysPortRecv handle ptr len) (sysPortRecv handle ptr len) := by
  refine coupled_forProcess (fun k u h => h) fun pid => ?_
  refine Coupled.bind (coupled_ipc (fun k u h => h.1.ports) fun k u h => h.1.sameSpace)
    fun r => ?_
  cases r with
  | error e => exact Coupled.pure _
  | ok message => exact coupled_answerWith (fun k u h => h) _ _ _

theorem coupled_sysPortClose (handle : ℕ) :
    Coupled Views SameSpace (sysPortClose handle) (sysPortClose handle) := by
  refine coupled_forProcess (fun k u h => h) fun pid => ?_
  refine Coupled.bind (coupled_ipc (fun k u h => h.1.ports) fun k u h => h.1.sameSpace)
    fun r => ?_
  cases r with
  | error e => exact Coupled.pure _
  | ok _ => exact Coupled.pure _

theorem coupled_sysSurfaceCreate (width height : ℕ) :
    Coupled Views SameSpace (sysSurfaceCreate width height) (sysSurfaceCreate width height) := by
  refine coupled_requiring (fun k u h => h) ?_
  refine coupled_gets (fun k u h => h.1.profile) fun profile => ?_
  cases profile with
  | none => exact coupled_pure (fun k u h => h.1.1.sameSpace) _
  | some profile =>
    refine coupled_gets (fun k u h => h.1.1.currentPid) fun pid => ?_
    refine Coupled.bind (coupled_graphics (fun k u h => h.1.1.1.compositor)
      fun k u h => h.1.1.1.sameSpace) fun r => ?_
    cases r with
    | none => exact Coupled.pure _
    | some id => exact Coupled.pure _

theorem quiet_presentThrottled (k : Kernel) : Leads Quiet presentThrottled k :=
  leads_presentThrottled (admits_quiet (by decide)) rfl

/-- Whether this tick has been presented shows on the screen only. -/
theorem coupled_sysSurfaceCommit (id ptr len : ℕ) :
    Coupled Views SameSpace (sysSurfaceCommit id ptr len) (sysSurfaceCommit id ptr len) := by
  refine coupled_forProcess (fun k u h => h) fun pid => ?_
  refine coupled_gets (fun k u h => by rw [h.1.compositor]) fun size => ?_
  cases size with
  | none => exact coupled_pure (fun k u h => h.1.1.sameSpace) _
  | some size =>
    refine Coupled.demand_bind fun _ => ?_
    refine Coupled.ite (fun _ => coupled_pure (fun k u h => h.1.1.sameSpace) _) fun _ => ?_
    refine coupled_gets (fun k u h => by rw [h.1.1.space]) fun data => ?_
    refine Coupled.bind (coupled_graphics (fun k u h => h.1.1.1.compositor)
      fun k u h => h.1.1.1.sameSpace) fun shown => ?_
    refine Coupled.ite (fun _ => ?_) fun _ => Coupled.pure _
    exact Coupled.bind (coupled_quiet (fun k u h => h) quiet_presentThrottled
      quiet_presentThrottled) fun _ => Coupled.pure _

theorem coupled_sysSurfaceInfo (id out : ℕ) :
    Coupled Views SameSpace (sysSurfaceInfo id out) (sysSurfaceInfo id out) := by
  refine coupled_gets (fun k u h => h.currentPid) fun pid => ?_
  refine coupled_gets (fun k u h => by rw [h.1.compositor]) fun size => ?_
  cases size with
  | none => exact coupled_pure (fun k u h => h.1.1.sameSpace) _
  | some size =>
    exact Coupled.demand_bind fun _ => coupled_answerWith (fun k u h => h.1.1.sameSpace) _ _ _

theorem coupled_sysInputPoll (out count : ℕ) :
    Coupled Views SameSpace (sysInputPoll out count) (sysInputPoll out count) := by
  refine coupled_requiring (fun k u h => h) ?_
  refine Coupled.ite (fun _ => coupled_pure (fun k u h => h.1.sameSpace) _) fun _ => ?_
  refine coupled_gets (fun k u h => by rw [h.1.input h.2]) fun polled => ?_
  refine coupled_modifies (R := SameSpace) (fun k u h => h.1.1.sameSpace) ?_
  exact Coupled.ite (fun _ => Coupled.pure _) fun _ => coupled_answerWith (fun k u h => h) _ _ _

/-- A call other than the two that read the clock answers alike in kernels that are alike. -/
theorem coupled_dispatch {number : ℕ} (hclock : number ≠ 65 ∧ number ≠ 66) (arg1 arg2 arg3 : ℕ) :
    Coupled Views SameSpace (dispatch number arg1 arg2 arg3) (dispatch number arg1 arg2 arg3) := by
  unfold dispatch
  split
  · exact coupled_sysExit _
  · exact coupled_pure (fun k u h => h.sameSpace) _
  · exact coupled_gets (fun k u h => h.currentPid) fun pid =>
      coupled_pure (fun k u h => h.1.sameSpace) pid
  · exact coupled_sysWrite _ _ _
  · exact coupled_sysRead _ _ _
  · exact coupled_sysOpen _ _ _
  · exact coupled_sysClose _
  · exact coupled_sysSeek _ _ _
  · exact coupled_sysReaddir _ _ _
  · exact coupled_sysStat _ _ _
  · exact coupled_sysWriteCstr _
  · exact coupled_sysPortCreate _ _
  · exact coupled_sysPortConnect _ _
  · exact coupled_sysPortSend _ _ _
  · exact coupled_sysPortRecv _ _ _
  · exact coupled_sysPortClose _
  · exact coupled_sysRealmInfo _
  · exact absurd rfl hclock.1
  · exact absurd rfl hclock.2
  · exact coupled_sysSurfaceCreate _ _
  · exact coupled_sysSurfaceCommit _ _ _
  · exact coupled_sysSurfaceInfo _ _
  · exact coupled_sysInputPoll _ _
  · exact coupled_pure (fun k u h => h.sameSpace) _

/-- With the right to read it, the clock is one of the things that are alike. -/
theorem coupled_clock {number : ℕ} (hclock : number = 65 ∨ number = 66) (arg1 arg2 arg3 : ℕ) :
    Coupled (fun k u => Views k u ∧ k.holds .timerRead = true) SameSpace
      (dispatch number arg1 arg2 arg3) (dispatch number arg1 arg2 arg3) := by
  obtain rfl | rfl := hclock
  · exact coupled_gets (fun k u h => h.1.ticks h.2) fun ticks =>
      coupled_pure (fun k u h => h.1.1.sameSpace) ticks
  · refine coupled_gets (fun k u h => h.1.ticks h.2) fun ticks => ?_
    exact Coupled.demand_bind fun _ => coupled_pure (fun k u h => h.1.1.sameSpace) _

end Handlers

end Syscalls
