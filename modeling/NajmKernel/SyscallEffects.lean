import NajmKernel.Effects
import NajmKernel.PortHistories
import NajmKernel.Syscalls

/-! What a syscall can change, by its number: the changes are few, and a relation that admits each
of them admits the call. -/
namespace Syscalls

open KernelMachine (ProgramExit)
open Realms
open Attempts Attempt UserMemory

section Changes

variable {R : Kernel → Kernel → Prop} {k : Kernel} {number : ℕ}

/-- The changes of the call with this number, each in the state that it is made in. -/
structure Admits (R : Kernel → Kernel → Prop) (number : ℕ) : Prop where
  space : number ∈ [17, 21, 22, 51, 64, 82, 83] →
    ∀ k s, R k { k with spaces := Function.update k.spaces k.currentPid s }
  files : number ∈ [17, 18, 19, 20] → ∀ k (f : List (Option OpenFile) → List (Option OpenFile)),
    R k (k.setProcess fun p => { p with files := f p.files })
  console : number = 16 ∨ number = 23 → ∀ k bytes, R k { k with console := k.console ++ bytes }
  create : number = 48 → ∀ k name r t, k.holds .ipcCreate = true →
    (Ports.create k.currentPid name).run k.ports = some (r, t) → R k { k with ports := t }
  send : number = 50 → ∀ k handle bytes r t, k.holds .ipcConnect = true →
    (Ports.send k.currentPid handle bytes).run k.ports = some (r, t) → R k { k with ports := t }
  recv : number = 51 → ∀ k handle r t,
    (Ports.recv k.currentPid handle).run k.ports = some (r, t) → R k { k with ports := t }
  close : number = 52 → ∀ k handle r t,
    (Ports.close k.currentPid handle).run k.ports = some (r, t) → R k { k with ports := t }
  surface : number = 80 → ∀ k kind width height mode (r : Except ProgramExit (Option ℕ)) c,
    k.holds .surfaceCreate = true →
    (Compositor.createSurface k.currentPid kind width height mode).run k.compositor = some (r, c) →
    R k { k with compositor := c }
  commit : number = 81 → ∀ k id len data (r : Except ProgramExit Bool) c,
    (Compositor.commitSurfaceFromUser id k.currentPid len data).run k.compositor = some (r, c) →
    R k { k with compositor := c }
  throttle : number = 81 → ∀ k, R k { k with
    layoutToggle := false
    compositor := { k.compositor with lastPresentTick := k.ticks } }
  present : number = 81 → ∀ k toggle (r : Except ProgramExit Unit) c,
    (Compositor.present toggle).run k.compositor = some (r, c) → R k { k with compositor := c }
  input : number = 83 → ∀ k count, k.holds .inputRead = true →
    R k { k with input := (InputQueue.poll count k.input).2 }

theorem currentPid_ne_zero {p : Process} (hp : k.currentProcess = some p) : k.currentPid ≠ 0 := by
  intro hzero
  rw [Kernel.currentProcess, if_pos hzero] at hp
  nomatch hp

theorem processes_of_current {p : Process} (hp : k.currentProcess = some p) :
    k.processes k.currentPid = some p := by
  rwa [Kernel.currentProcess, if_neg (currentPid_ne_zero hp)] at hp

theorem process_of_holds {right : Realms.Right} (h : k.holds right = true) :
    ∃ p, k.currentProcess = some p := by
  rw [Kernel.holds, Kernel.currentProfile] at h
  cases hp : k.currentProcess with
  | none =>
    rw [hp] at h
    nomatch h
  | some p => exact ⟨p, rfl⟩

theorem copyToUser_some {s s' : UserSpace} {ptr : ℕ} {data : List UInt8}
    (h : copyToUser s ptr data = some s') : data.length ≤ maxUserTransfer ∧
      rangeIsUser s ptr data.length true = true ∧ s' = s.write ptr data := by
  rw [copyToUser] at h
  split at h
  · nomatch h
  next hsize =>
    split at h
    next hrange => exact ⟨Nat.not_lt.mp hsize, hrange, (Option.some.inj h).symm⟩
    · nomatch h

theorem read_write (s : UserSpace) (ptr : ℕ) (data : List UInt8) :
    (s.write ptr data).read ptr data.length = data := by
  apply List.ext_getElem
  · simp [UserSpace.read]
  · intro i _ hi
    simp [UserSpace.read, UserSpace.write, hi]

theorem run_gets_bind {α β : Type} {f : Kernel → α} {g : α → Call β} :
    (gets f >>= g).run k = (g (f k)).run k := rfl

theorem run_modifies_bind {β : Type} {f : Kernel → Kernel} {g : Unit → Call β} :
    (modifies f >>= g).run k = (g ()).run (f k) := rfl

theorem leads_gets {α β : Type} {f : Kernel → α} {g : α → Call β} (h : Leads R (g (f k)) k) :
    Leads R (gets f >>= g) k := h

theorem leads_modifies [IsPreorder Kernel R] {β : Type} {f : Kernel → Kernel} {g : Unit → Call β}
    (hf : R k (f k)) (hg : Leads R (g ()) (f k)) : Leads R (modifies f >>= g) k :=
  fun r u hu => trans_of R hf (hg r u hu)

theorem leads_ipc {α : Type} {x : Attempt Ports.Table Ports.IpcError α}
    (h : ∀ r t, x.run k.ports = some (r, t) → R k { k with ports := t }) : Leads R (ipc x) k := by
  intro r u hu
  rw [ipc, run_of] at hu
  obtain ⟨⟨r', t⟩, hx, heq⟩ := Option.map_eq_some_iff.mp hu
  obtain ⟨-, rfl⟩ := Prod.mk.inj heq
  exact h r' t hx

theorem leads_graphics {α : Type} {x : Attempt Compositor.State ProgramExit α}
    (h : ∀ r c, x.run k.compositor = some (r, c) → R k { k with compositor := c }) :
    Leads R (graphics x) k := by
  intro r u hu
  rw [graphics, run_of] at hu
  obtain ⟨⟨r', c⟩, hx, heq⟩ := Option.map_eq_some_iff.mp hu
  obtain ⟨-, rfl⟩ := Prod.mk.inj heq
  exact h r' c hx

end Changes

section Handlers

variable {R : Kernel → Kernel → Prop} [IsPreorder Kernel R] {k : Kernel} {number : ℕ}

theorem leads_requiring {right : Right} {body : Call ℕ}
    (h : k.holds right = true → Leads R body k) : Leads R (requiring right body) k :=
  leads_gets (Leads.ite h fun _ => Leads.pure _)

theorem leads_forProcess {body : ℕ → Call ℕ} (h : Leads R (body k.currentPid) k) :
    Leads R (forProcess body) k :=
  leads_gets (Leads.ite (fun _ => Leads.pure _) fun _ => h)

theorem leads_answerWith (h : Admits R number) (hnumber : number ∈ [17, 21, 22, 51, 64, 82, 83])
    (ptr : ℕ) (data : List UInt8) (answer : ℕ) :
    Leads R (answerWith ptr data answer) k := by
  refine leads_gets ?_
  cases copyToUser k.space ptr data with
  | none => exact Leads.pure _
  | some s => exact leads_modifies (h.space hnumber k s) (Leads.pure _)

theorem leads_ipcAnswer (r : Except Ports.IpcError ℕ) : Leads R (ipcAnswer r) k := by
  cases r with
  | ok n => exact Leads.pure _
  | error e => exact Leads.pure _

theorem leads_openFile (h : Admits R number) (hnumber : number ∈ [17, 18, 19, 20])
    (file : OpenFile) : Leads R (openFile file) k := by
  refine leads_gets ?_
  cases k.currentProcess with
  | none => exact Leads.pure _
  | some p =>
    exact leads_modifies (h.files hnumber k fun _ => (placeFile p.files file).1) (Leads.pure _)

theorem leads_setFilePosition (h : Admits R number) (hnumber : number ∈ [17, 18, 19, 20])
    (descriptor position : ℕ) :
    Leads R (setFilePosition descriptor position) k := by
  refine leads_gets ?_
  cases getFile k descriptor with
  | none => exact Leads.pure _
  | some file =>
    exact leads_modifies
      (h.files hnumber k fun files => files.set descriptor (some { file with position := position }))
      (Leads.pure _)

theorem leads_closeFile (h : Admits R number) (hnumber : number ∈ [17, 18, 19, 20])
    (descriptor : ℕ) :
    Leads R (closeFile descriptor) k := by
  refine leads_gets ?_
  cases getFile k descriptor with
  | none => exact Leads.pure _
  | some file =>
    exact leads_modifies (h.files hnumber k fun files => files.set descriptor none) (Leads.pure _)

theorem leads_sysWrite (h : Admits R number) (hnumber : number = 16 ∨ number = 23)
    (descriptor ptr len : ℕ) : Leads R (sysWrite descriptor ptr len) k := by
  refine Leads.ite (fun _ => Leads.pure _) fun _ => leads_gets ?_
  cases copyFromUser k.space ptr len with
  | none => exact Leads.pure _
  | some bytes => exact leads_modifies (h.console hnumber k _) (Leads.pure _)

theorem leads_cstrTurn (c : CstrCursor) : Leads R (cstrTurn c) k := by
  refine Leads.ite (fun _ => Leads.pure _) fun _ => leads_gets ?_
  cases copyFromUser k.space c.address (min (4096 - c.address % 4096) (maxCstr - c.length)) with
  | none => exact Leads.pure _
  | some chunk =>
    dsimp only
    cases chunk.findIdx? (· == 0) with
    | none => exact Leads.sum_bind (Leads.pure _)
    | some terminator => exact Leads.pure _

theorem leads_sysWriteCstr (h : Admits R number) (hnumber : number = 16 ∨ number = 23) (ptr : ℕ) :
    Leads R (sysWriteCstr ptr) k := by
  refine Leads.bind (Leads.turns (fun b s => leads_cstrTurn b) _ _ _) fun c u _ => ?_
  refine Leads.ite (fun _ => leads_gets ?_) fun _ => leads_sysWrite h hnumber _ _ _
  exact Leads.ite (fun _ => Leads.pure _) fun _ => Leads.pure _

theorem leads_sysExit (status : ℕ) : Leads R (sysExit status) k :=
  leads_gets (Leads.ite (fun _ => Leads.throw _) fun _ => Leads.pure _)

theorem leads_sysUptimeMs : Leads R sysUptimeMs k :=
  leads_gets (Leads.demand_bind fun _ => Leads.pure _)

theorem leads_sysRealmInfo (h : Admits R number) (hnumber : number = 64) (out : ℕ) :
    Leads R (sysRealmInfo out) k := by
  refine leads_gets (leads_gets ?_)
  cases k.currentProfile with
  | none => exact Leads.pure _
  | some profile => exact leads_answerWith h (by simp [hnumber]) _ _ _

theorem leads_sysOpen (h : Admits R number) (hnumber : number = 18) (ptr len flags : ℕ) :
    Leads R (sysOpen ptr len flags) k := by
  refine leads_requiring fun _ => Leads.ite (fun _ => Leads.pure _) fun _ => leads_gets ?_
  cases readUserPath k.space ptr len with
  | error e => exact Leads.pure _
  | ok path =>
    refine leads_gets ?_
    cases FileSystem.lookup k.fs path with
    | none => exact Leads.pure _
    | some node =>
      refine Leads.ite (fun _ => Leads.pure _) fun _ => ?_
      cases OpenFile.new node path with
      | none => exact Leads.pure _
      | some file =>
        refine Leads.bind (leads_openFile h (by simp [hnumber]) file) fun descriptor u _ => ?_
        cases descriptor with
        | none => exact Leads.pure _
        | some descriptor => exact Leads.pure _

theorem leads_fileRead (fs : Option FileSystem.Mounted) (node : FileSystem.Node)
    (offset count : ℕ) : Leads R (FileSystem.read fs node offset count : Call (List UInt8)) k := by
  refine Leads.ite (fun _ => Leads.pure _) fun _ => ?_
  cases fs with
  | none => exact Leads.pure _
  | some fs => exact Leads.sum_bind (Leads.sum_bind (Leads.pure _))

theorem leads_sysRead (h : Admits R number) (hnumber : number = 17) (descriptor ptr len : ℕ) :
    Leads R (sysRead descriptor ptr len) k := by
  refine Leads.ite (fun _ => Leads.pure _) fun _ => Leads.ite (fun _ => Leads.pure _) fun _ =>
    leads_gets ?_
  cases getFile k descriptor with
  | none => exact Leads.pure _
  | some file =>
    refine Leads.ite (fun _ => Leads.pure _) fun _ => leads_gets ?_
    refine Leads.bind (leads_fileRead _ _ _ _) fun data u _ => leads_gets ?_
    cases copyToUser u.space ptr data with
    | none => exact Leads.pure _
    | some space =>
      refine leads_modifies (h.space (by simp [hnumber]) u space) (Leads.sum_bind ?_)
      exact Leads.bind (leads_setFilePosition h (by simp [hnumber]) descriptor _).discard
        fun _ _ _ => Leads.pure _

theorem leads_sysClose (h : Admits R number) (hnumber : number = 19) (descriptor : ℕ) :
    Leads R (sysClose descriptor) k :=
  Leads.bind (leads_closeFile h (by simp [hnumber]) descriptor) fun _ _ _ =>
    Leads.ite (fun _ => Leads.pure _) fun _ => Leads.pure _

theorem leads_sysSeek (h : Admits R number) (hnumber : number = 20) (descriptor offset whence : ℕ) :
    Leads R (sysSeek descriptor offset whence) k := by
  refine leads_gets ?_
  cases getFile k descriptor with
  | none => exact Leads.pure _
  | some file =>
    dsimp only
    cases seekTarget file offset whence with
    | none => exact Leads.pure _
    | some position =>
      exact Leads.bind (leads_setFilePosition h (by simp [hnumber]) descriptor position) fun _ _ _ =>
        Leads.ite (fun _ => Leads.pure _) fun _ => Leads.pure _

theorem leads_sysStat (h : Admits R number) (hnumber : number = 22) (ptr len out : ℕ) :
    Leads R (sysStat ptr len out) k := by
  refine leads_requiring fun _ => leads_gets ?_
  cases readUserPath k.space ptr len with
  | error e => exact Leads.pure _
  | ok path =>
    refine leads_gets ?_
    cases FileSystem.lookup k.fs path with
    | none => exact Leads.pure _
    | some node => exact leads_answerWith h (by simp [hnumber]) _ _ _

theorem leads_sysReaddir (h : Admits R number) (hnumber : number = 21) (descriptor ptr len : ℕ) :
    Leads R (sysReaddir descriptor ptr len) k := by
  refine leads_gets ?_
  cases getFile k descriptor with
  | none => exact Leads.pure _
  | some file =>
    refine Leads.ite (fun _ => Leads.pure _) fun _ => leads_gets ?_
    cases FileSystem.readDir k.fs file.path with
    | none => exact Leads.pure _
    | some children => exact leads_answerWith h (by simp [hnumber]) _ _ _

theorem leads_sysPortCreate (h : Admits R number) (hnumber : number = 48) (ptr len : ℕ) :
    Leads R (sysPortCreate ptr len) k := by
  refine leads_requiring fun hright => leads_forProcess (leads_gets ?_)
  cases readIpcName k.space ptr len with
  | none => exact Leads.pure _
  | some name =>
    exact Leads.bind (leads_ipc fun r t => h.create hnumber k name r t hright) fun r _ _ =>
      leads_ipcAnswer r

theorem leads_sysPortConnect (ptr len : ℕ) : Leads R (sysPortConnect ptr len) k := by
  refine leads_requiring fun _ => leads_gets ?_
  cases readIpcName k.space ptr len with
  | none => exact Leads.pure _
  | some name =>
    refine Leads.bind (leads_ipc fun r t ht => ?_) fun r _ _ => leads_ipcAnswer r
    rcases Ports.connect_run (t := k.ports) name with ⟨e, he⟩ | ⟨p, -, -, hok⟩
    · obtain ⟨-, rfl⟩ := Prod.mk.inj (Option.some.inj (he.symm.trans ht))
      exact refl_of R k
    · obtain ⟨-, rfl⟩ := Prod.mk.inj (Option.some.inj (hok.symm.trans ht))
      exact refl_of R k

theorem leads_sysPortSend (h : Admits R number) (hnumber : number = 50) (handle ptr len : ℕ) :
    Leads R (sysPortSend handle ptr len) k := by
  refine leads_requiring fun hright => leads_forProcess (Leads.ite (fun _ => Leads.pure _)
    fun _ => leads_gets ?_)
  cases copyFromUser k.space ptr len with
  | none => exact Leads.pure _
  | some bytes =>
    exact Leads.bind (leads_ipc fun r t => h.send hnumber k handle bytes r t hright) fun r _ _ =>
      leads_ipcAnswer r

theorem leads_sysPortRecv (h : Admits R number) (hnumber : number = 51) (handle ptr len : ℕ) :
    Leads R (sysPortRecv handle ptr len) k := by
  refine leads_forProcess (Leads.bind (leads_ipc fun r t => h.recv hnumber k handle r t)
    fun r u _ => ?_)
  cases r with
  | error e => exact Leads.pure _
  | ok m => exact leads_answerWith h (by simp [hnumber]) _ _ _

theorem leads_sysPortClose (h : Admits R number) (hnumber : number = 52) (handle : ℕ) :
    Leads R (sysPortClose handle) k := by
  refine leads_forProcess (Leads.bind (leads_ipc fun r t => h.close hnumber k handle r t)
    fun r u _ => ?_)
  cases r with
  | error e => exact Leads.pure _
  | ok m => exact Leads.pure _

theorem leads_sysSurfaceCreate (h : Admits R number) (hnumber : number = 80) (width height : ℕ) :
    Leads R (sysSurfaceCreate width height) k := by
  refine leads_requiring fun hright => leads_gets ?_
  cases k.currentProfile with
  | none => exact Leads.pure _
  | some profile =>
    refine leads_gets (Leads.bind (leads_graphics fun r c hr =>
      h.surface hnumber k _ _ _ _ r c hright hr) fun r _ _ => ?_)
    cases r with
    | none => exact Leads.pure _
    | some id => exact Leads.pure _

theorem leads_presentThrottled (h : Admits R number) (hnumber : number = 81) :
    Leads R presentThrottled k := by
  refine leads_gets (Leads.ite (fun _ => ?_) fun _ => Leads.pure _)
  exact leads_modifies (h.throttle hnumber k)
    (leads_graphics fun r c hr => h.present hnumber _ _ r c hr)

theorem leads_sysSurfaceCommit (h : Admits R number) (hnumber : number = 81) (id ptr len : ℕ) :
    Leads R (sysSurfaceCommit id ptr len) k := by
  refine leads_forProcess (leads_gets ?_)
  cases Compositor.surfaceGeometry k.compositor id k.currentPid with
  | none => exact Leads.pure _
  | some size =>
    refine Leads.demand_bind fun _ => Leads.ite (fun _ => Leads.pure _) fun _ => leads_gets ?_
    refine Leads.bind (leads_graphics fun r c hr => h.commit hnumber k _ _ _ r c hr)
      fun shown u _ => ?_
    exact Leads.ite (fun _ => Leads.bind (leads_presentThrottled h hnumber) fun _ _ _ =>
      Leads.pure _) fun _ => Leads.pure _

theorem leads_sysSurfaceInfo (h : Admits R number) (hnumber : number = 82) (id out : ℕ) :
    Leads R (sysSurfaceInfo id out) k := by
  refine leads_gets (leads_gets ?_)
  cases Compositor.surfaceGeometry k.compositor id k.currentPid with
  | none => exact Leads.pure _
  | some size => exact Leads.demand_bind fun _ => leads_answerWith h (by simp [hnumber]) _ _ _

theorem leads_sysInputPoll (h : Admits R number) (hnumber : number = 83) (out count : ℕ) :
    Leads R (sysInputPoll out count) k := by
  refine leads_requiring fun hright => Leads.ite (fun _ => Leads.pure _) fun _ => leads_gets ?_
  refine leads_modifies (h.input hnumber k (min count 64) hright) ?_
  exact Leads.ite (fun _ => Leads.pure _) fun _ => leads_answerWith h (by simp [hnumber]) _ _ _

/-- What each change of a call is admitted by, the call is. -/
theorem leads_dispatch (h : Admits R number) (arg1 arg2 arg3 : ℕ) :
    Leads R (dispatch number arg1 arg2 arg3) k := by
  unfold dispatch
  split
  · exact leads_sysExit _
  · exact Leads.pure _
  · exact leads_gets (Leads.pure _)
  · exact leads_sysWrite h (Or.inl rfl) _ _ _
  · exact leads_sysRead h rfl _ _ _
  · exact leads_sysOpen h rfl _ _ _
  · exact leads_sysClose h rfl _
  · exact leads_sysSeek h rfl _ _ _
  · exact leads_sysReaddir h rfl _ _ _
  · exact leads_sysStat h rfl _ _ _
  · exact leads_sysWriteCstr h (Or.inr rfl) _
  · exact leads_sysPortCreate h rfl _ _
  · exact leads_sysPortConnect _ _
  · exact leads_sysPortSend h rfl _ _ _
  · exact leads_sysPortRecv h rfl _ _ _
  · exact leads_sysPortClose h rfl _
  · exact leads_sysRealmInfo h rfl _
  · exact leads_gets (Leads.pure _)
  · exact leads_sysUptimeMs
  · exact leads_sysSurfaceCreate h rfl _ _
  · exact leads_sysSurfaceCommit h rfl _ _ _
  · exact leads_sysSurfaceInfo h rfl _ _
  · exact leads_sysInputPoll h rfl _ _
  · exact Leads.pure _

end Handlers

end Syscalls
