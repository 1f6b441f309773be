import NajmKernel.FileStreams
import NajmKernel.PathSpellings
import NajmKernel.SyscallAnswers

/-! What programs make of the answers: no value is ever taken for an error, and no error for another
one, whatever the kernel has counted and handed out by then. -/
namespace Descriptors

variable {n : ℕ} {t t' : Table} {T T' : Tables} {request : Request} {answer : Answer}
  {os : List Observation}

/-- With `n` requests behind it, a table has no file further up. -/
def Table.Low (n : ℕ) (t : Table) : Prop := ∀ d, firstDynamic + n ≤ d → t d = none

theorem Table.Low.mono {m : ℕ} (hmn : m ≤ n) (ht : Table.Low m t) : Table.Low n t :=
  fun d hd => ht d (by omega)

theorem Table.Low.update (ht : Table.Low n t) {d : ℕ} (hd : d ≤ firstDynamic + n)
    (slot : Option Opened) : Table.Low (n + 1) (Function.update t d slot) := by
  intro e he
  rw [Function.update_of_ne (by omega)]
  exact ht e (by omega)

theorem Table.Low.lt_of_open (ht : Table.Low n t) {d : ℕ} {o : Opened} (h : t d = some o) :
    d < firstDynamic + n := by
  by_contra hd
  rw [ht d (not_lt.mp hd)] at h
  cases h

/-- An open takes none beyond the first that has not been reached yet. -/
theorem Table.Low.least_le (ht : Table.Low n t) {d : ℕ} (h : IsLeast (free t) d) :
    d ≤ firstDynamic + n :=
  h.2 ⟨Nat.le_add_right _ _, ht _ le_rfl⟩

theorem Step.low (h : Step t request answer t') (ht : Table.Low n t) : Table.Low (n + 1) t' := by
  have hmono := ht.mono (Nat.le_succ n)
  cases h with
  | opens least => exact ht.update (ht.least_le least) _
  | fails => exact hmono
  | @reads d len fits =>
    rw [read]
    split
    · exact hmono
    · cases hd : t d with
      | none => exact hmono
      | some o =>
        dsimp only
        split
        · exact hmono
        · split
          · exact ht.update (ht.lt_of_open hd).le _
          · exact hmono
  | @seeks d offset whence =>
    rw [seek]
    cases hd : t d with
    | none => exact hmono
    | some o =>
      dsimp only
      split
      · exact hmono
      · exact ht.update (ht.lt_of_open hd).le _
  | @closes d =>
    rw [close]
    cases hd : t d with
    | none => exact hmono
    | some o => exact ht.update (ht.lt_of_open hd).le _

theorem Runs.low (h : Runs T os T') (hT : ∀ pid, Table.Low n (T pid)) (pid : ℕ) :
    Table.Low (n + os.length) (T' pid) := by
  induction h generalizing n with
  | done => exact hT pid
  | @spawned T T' p os rest ih =>
    rw [List.length_cons, ← Nat.succ_add_eq_add_succ]
    refine ih fun q => ?_
    by_cases hq : q = p
    · subst hq
      rw [Function.update_self]
      exact fun d _ => rfl
    · rw [Function.update_of_ne hq]
      exact (hT q).mono (Nat.le_succ n)
  | @called T T' p request answer t os step rest ih =>
    rw [List.length_cons, ← Nat.succ_add_eq_add_succ]
    refine ih fun q => ?_
    by_cases hq : q = p
    · subst hq
      rw [Function.update_self]
      exact step.low (hT q)
    · rw [Function.update_of_ne hq]
      exact (hT q).mono (Nat.le_succ n)

end Descriptors

namespace Syscalls

open Compositor (Bounded)
open Framebuffers
open KernelMachine (ProgramExit)
open Realms
open Attempts Attempt UserMemory TransitionSystem

section Results

variable {raw errno : ℕ}

/-- What a raw answer means to a program. -/
def decode (raw : ℕ) : Except ℕ ℕ := if isError raw then .error (encodeError raw) else .ok raw

/-- The errors that the kernel has for a program. -/
def errors : List ℕ :=
  [ENOSYS, EFAULT, ENOENT, EINVAL, EPERM, ENOMEM, EEXIST, EAGAIN, EBADF, ENOTSUP]

/-- An answer in the lower half of the range, or one of the errors. -/
def Told (raw : ℕ) : Prop := raw < 2 ^ 63 ∨ ∃ errno ∈ errors, raw = encodeError errno

theorem told_small (h : raw < 2 ^ 63) : Told raw := Or.inl h

theorem told_errno (h : errno ∈ errors) : Told (encodeError errno) := Or.inr ⟨errno, h, rfl⟩

theorem decode_small (h : raw < 2 ^ 63) : decode raw = .ok raw := by
  have hvalue : ¬ isError raw = true := by
    rw [isError, encodeError, decide_eq_true_eq]
    omega
  rw [decode, if_neg hvalue]

theorem decode_errno (h : errno ∈ errors) : decode (encodeError errno) = .error errno := by
  have hall : ∀ e ∈ errors, isError (encodeError e) = true ∧ encodeError (encodeError e) = e := by
    decide
  obtain ⟨herror, htwice⟩ := hall errno h
  rw [decode, if_pos herror, htwice]

theorem Told.decoded (h : Told raw) : raw < 2 ^ 63 ∧ decode raw = .ok raw ∨
    ∃ errno ∈ errors, raw = encodeError errno ∧ decode raw = .error errno := by
  obtain hsmall | ⟨errno, hmem, rfl⟩ := h
  · exact Or.inl ⟨hsmall, decode_small hsmall⟩
  · exact Or.inr ⟨errno, hmem, rfl, decode_errno hmem⟩

theorem told_ipcError (e : Ports.IpcError) : Told (ipcError e) := by
  cases e <;> exact told_errno (by decide)

end Results

section Numbers

variable {n number : ℕ} {k u v : Kernel}

/-- The numbers that can have been given out in `n` steps. -/
structure Numbered (n : ℕ) (k : Kernel) : Prop where
  nextPid : k.nextPid ≤ n + 1
  processes : ∀ pid p, k.processes pid = some p → pid ≤ n
  currentPid : k.currentPid ≤ n
  nextHandle : k.ports.nextHandle ≤ n + 1
  handles : ∀ p ∈ k.ports.ports, p.handle ≤ n

theorem Numbered.mono {m : ℕ} (hmn : m ≤ n) (hk : Numbered m k) : Numbered n k where
  nextPid := hk.nextPid.trans (by omega)
  processes pid p hp := (hk.processes pid p hp).trans hmn
  currentPid := hk.currentPid.trans hmn
  nextHandle := hk.nextHandle.trans (by omega)
  handles p hp := (hk.handles p hp).trans hmn

theorem Numbered.setProcess (hk : Numbered n k) (f : Process → Process) :
    Numbered n (k.setProcess f) where
  nextPid := hk.nextPid
  processes pid p hp := by
    by_cases hpid : pid = k.currentPid
    · exact hpid ▸ hk.currentPid
    · exact hk.processes pid p ((Function.update_of_ne hpid _ _).symm.trans hp)
  currentPid := hk.currentPid
  nextHandle := hk.nextHandle
  handles := hk.handles

theorem Numbered.ports {t : Ports.Table} (hk : Numbered n k)
    (hnext : t.nextHandle = k.ports.nextHandle)
    (hports : ∀ p ∈ t.ports, ∃ q ∈ k.ports.ports, p.handle = q.handle) :
    Numbered n { k with ports := t } where
  nextPid := hk.nextPid
  processes := hk.processes
  currentPid := hk.currentPid
  nextHandle := hnext.le.trans hk.nextHandle
  handles p hp := by
    obtain ⟨q, hq, heq⟩ := hports p hp
    exact heq.le.trans (hk.handles q hq)

theorem Numbered.modify {handle : ℕ} {f : Ports.Port → Ports.Port} (hk : Numbered n k)
    (hf : ∀ p, (f p).handle = p.handle) : Numbered n { k with ports := k.ports.modify handle f } := by
  refine hk.ports rfl fun p hp => ?_
  obtain ⟨q, hq, rfl⟩ := List.mem_map.mp hp
  refine ⟨q, hq, ?_⟩
  split
  · exact hf q
  · rfl

theorem Numbered.filter {keep : Ports.Port → Bool} (hk : Numbered n k) :
    Numbered n { k with ports := { k.ports with ports := k.ports.ports.filter keep } } :=
  hk.ports rfl fun p hp => ⟨p, List.mem_of_mem_filter hp, rfl⟩

/-- A call that gives out no number of these. -/
def KeepsNumbers (k u : Kernel) : Prop := ∀ n, Numbered n k → Numbered n u

instance : IsPreorder Kernel KeepsNumbers where
  refl _ _ h := h
  trans _ _ _ h h' n hk := h' n (h n hk)

theorem admits_keepsNumbers (hnumber : number ≠ 48) : Admits KeepsNumbers number where
  space _ _ _ _ hk := ⟨hk.nextPid, hk.processes, hk.currentPid, hk.nextHandle, hk.handles⟩
  files _ _ _ _ hk := hk.setProcess _
  console _ _ _ _ hk := ⟨hk.nextPid, hk.processes, hk.currentPid, hk.nextHandle, hk.handles⟩
  create h := absurd h hnumber
  send _ _ _ _ _ _ _ hr _ hk := by
    obtain ⟨-, rfl | rfl⟩ | ⟨p, -, -, -, -, rfl⟩ := Ports.send_run hr
    · exact hk
    · exact hk.modify fun _ => rfl
    · exact hk.modify fun _ => rfl
  recv _ _ _ _ _ hr _ hk := by
    obtain ⟨e, he⟩ | ⟨p, m, queue, -, -, -, hok⟩ := Ports.recv_run _ _
    · obtain ⟨-, rfl⟩ := Prod.mk.inj (Option.some.inj (he.symm.trans hr))
      exact hk
    · obtain ⟨-, rfl⟩ := Prod.mk.inj (Option.some.inj (hok.symm.trans hr))
      exact hk.modify fun _ => rfl
  close _ _ _ _ _ hr _ hk := by
    obtain ⟨e, he⟩ | hok := Ports.close_run _ _
    · obtain ⟨-, rfl⟩ := Prod.mk.inj (Option.some.inj (he.symm.trans hr))
      exact hk
    · obtain ⟨-, rfl⟩ := Prod.mk.inj (Option.some.inj (hok.symm.trans hr))
      exact hk.filter
  surface _ _ _ _ _ _ _ _ _ _ _ hk :=
    ⟨hk.nextPid, hk.processes, hk.currentPid, hk.nextHandle, hk.handles⟩
  commit _ _ _ _ _ _ _ _ _ hk :=
    ⟨hk.nextPid, hk.processes, hk.currentPid, hk.nextHandle, hk.handles⟩
  throttle _ _ _ hk := ⟨hk.nextPid, hk.processes, hk.currentPid, hk.nextHandle, hk.handles⟩
  present _ _ _ _ _ _ _ hk :=
    ⟨hk.nextPid, hk.processes, hk.currentPid, hk.nextHandle, hk.handles⟩
  input _ _ _ _ _ hk := ⟨hk.nextPid, hk.processes, hk.currentPid, hk.nextHandle, hk.handles⟩

/-- A new port gets the next handle. -/
theorem create_numbered {name : List UInt8} {r : Except Ports.IpcError ℕ} {t : Ports.Table}
    (hk : Numbered n k) (h : (Ports.create k.currentPid name).run k.ports = some (r, t)) :
    Numbered (n + 1) { k with ports := t } := by
  obtain ⟨⟨e, he⟩, -⟩ | ⟨hok, -⟩ := Ports.create_run (t := k.ports) k.currentPid name
  · obtain ⟨-, rfl⟩ := Prod.mk.inj (Option.some.inj (he.symm.trans h))
    exact hk.mono (Nat.le_succ n)
  · obtain ⟨-, rfl⟩ := Prod.mk.inj (Option.some.inj (hok.symm.trans h))
    have hnext := hk.nextHandle
    refine ⟨hk.nextPid.trans (by omega), fun pid p hp => (hk.processes pid p hp).trans (by omega),
      hk.currentPid.trans (by omega), (Nat.mod_le _ _).trans (Nat.succ_le_succ hnext), fun p hp => ?_⟩
    rcases List.mem_append.mp hp with hp | hp
    · exact (hk.handles p (List.mem_of_mem_filter hp)).trans (by omega)
    · rcases List.mem_cons.mp hp with rfl | hp
      · exact hnext
      · exact (hk.handles p (List.mem_of_mem_filter hp)).trans (by omega)

theorem sysPortCreate_numbers (hk : Numbered n k) (ptr len : ℕ) :
    Leads (fun _ u => Numbered (n + 1) u) (sysPortCreate ptr len) k := by
  have hrefused (e : ℕ) : Leads (fun _ u => Numbered (n + 1) u) (pure e : Call ℕ) k :=
    Leads.of_run run_pure (hk.mono (Nat.le_succ n))
  refine leads_gets (Leads.ite (fun _ => leads_gets (Leads.ite (fun _ => hrefused _) fun _ =>
    leads_gets ?_)) fun _ => hrefused _)
  cases readIpcName k.space ptr len with
  | none => exact hrefused _
  | some name =>
    have hcreated : Leads (fun _ u => Numbered (n + 1) u)
        (ipc (Ports.create k.currentPid name)) k := leads_ipc fun r t ht => create_numbered hk ht
    exact Leads.bind_cases (fun e u hu => hcreated _ u hu) fun r u hu r' u' hu' =>
      leads_ipcAnswer (R := KeepsNumbers) r r' u' hu' (n + 1) (hcreated _ u hu)

theorem dispatch_numbers (hk : Numbered n k) (arg1 arg2 arg3 : ℕ) :
    Leads (fun _ u => Numbered (n + 1) u) (dispatch number arg1 arg2 arg3) k := by
  by_cases hnumber : number = 48
  · subst hnumber
    exact sysPortCreate_numbers hk _ _
  · intro r u hu
    exact leads_dispatch (admits_keepsNumbers hnumber) _ _ _ r u hu (n + 1) (hk.mono (Nat.le_succ n))

theorem next_numbered {e : Event} (hk : Numbered n k) (h : next k e = some u) :
    Numbered (n + 1) u := by
  have hmono := hk.mono (Nat.le_succ n)
  cases e with
  | spawn profile space =>
    obtain rfl := Option.some.inj h
    have hnext := hk.nextPid
    refine ⟨(Nat.mod_le _ _).trans (Nat.succ_le_succ hnext), fun pid p hp => ?_,
      hmono.currentPid, hmono.nextHandle, hmono.handles⟩
    by_cases hpid : pid = k.nextPid
    · exact hpid ▸ hnext
    · exact hmono.processes pid p ((Function.update_of_ne hpid _ _).symm.trans hp)
  | switch pid =>
    obtain ⟨hpid, h⟩ := Option.ite_none_right_eq_some.mp h
    obtain rfl := Option.some.inj h
    refine ⟨hmono.nextPid, hmono.processes, ?_, hmono.nextHandle, hmono.handles⟩
    obtain rfl | hsome := hpid
    · exact Nat.zero_le _
    · obtain ⟨p, hp⟩ := Option.isSome_iff_exists.mp hsome
      exact hmono.processes pid p hp
  | enter =>
    obtain ⟨-, h⟩ := Option.ite_none_left_eq_some.mp h
    obtain rfl := Option.some.inj h
    have hset := hmono.setProcess fun p => { p with state := .running }
    exact ⟨hset.nextPid, hset.processes, hset.currentPid, hset.nextHandle, hset.handles⟩
  | compute bytes =>
    obtain ⟨-, h⟩ := Option.ite_none_right_eq_some.mp h
    obtain rfl := Option.some.inj h
    exact ⟨hmono.nextPid, hmono.processes, hmono.currentPid, hmono.nextHandle, hmono.handles⟩
  | syscall number arg1 arg2 arg3 =>
    obtain ⟨-, h⟩ := Option.ite_none_right_eq_some.mp h
    obtain ⟨⟨r, w⟩, hcall, hsettled⟩ := Option.map_eq_some_iff.mp h
    have hw := dispatch_numbers hk _ _ _ r w hcall
    cases r with
    | ok raw => exact hsettled ▸ hw
    | error exit =>
      have hset := hw.setProcess fun p => { p with state := .exited exit }
      exact hsettled ▸
        ⟨hset.nextPid, hset.processes, hset.currentPid, hset.nextHandle, hset.handles⟩
  | fault exit =>
    obtain ⟨-, h⟩ := Option.ite_none_right_eq_some.mp h
    obtain rfl := Option.some.inj h
    have hset := hmono.setProcess fun p => { p with state := .exited exit }
    exact ⟨hset.nextPid, hset.processes, hset.currentPid, hset.nextHandle, hset.handles⟩
  | removeSurfaces =>
    obtain ⟨-, h⟩ := Option.ite_none_right_eq_some.mp h
    obtain ⟨⟨r, w⟩, hrun, rfl⟩ := Option.map_eq_some_iff.mp h
    rw [graphics, run_of] at hrun
    obtain ⟨⟨r', c⟩, -, heq⟩ := Option.map_eq_some_iff.mp hrun
    obtain ⟨-, rfl⟩ := Prod.mk.inj heq
    exact ⟨hmono.nextPid, hmono.processes, hmono.currentPid, hmono.nextHandle, hmono.handles⟩
  | closePorts =>
    obtain ⟨-, h⟩ := Option.ite_none_right_eq_some.mp h
    obtain rfl := Option.some.inj h
    exact hmono.filter
  | tick =>
    obtain rfl := Option.some.inj h
    exact ⟨hmono.nextPid, hmono.processes, hmono.currentPid, hmono.nextHandle, hmono.handles⟩
  | input e =>
    obtain rfl := Option.some.inj h
    exact ⟨hmono.nextPid, hmono.processes, hmono.currentPid, hmono.nextHandle, hmono.handles⟩
  | toggleLayout =>
    obtain rfl := Option.some.inj h
    exact ⟨hmono.nextPid, hmono.processes, hmono.currentPid, hmono.nextHandle, hmono.handles⟩
  | mount fs =>
    obtain rfl := Option.some.inj h
    exact ⟨hmono.nextPid, hmono.processes, hmono.currentPid, hmono.nextHandle, hmono.handles⟩

theorem run_numbered {es : List Event} (hk : Numbered n k) (h : exec next k es = some v) :
    Numbered (n + es.length) v :=
  exec_counted (fun _ _ _ _ hw hu => next_numbered hw hu) hk h

end Numbers

section Values

variable {α β : Type} {archive : List UInt8} {fb : Framebuffer} {n number : ℕ} {k u v : Kernel}
  {Q : α → Prop}

theorem gives_gets {f : Kernel → β} {g : β → Call α} (h : Gives Q (g (f k)) k) :
    Gives Q (gets f >>= g) k := h

theorem gives_modifies {f : Kernel → Kernel} {g : Unit → Call α} (h : Gives Q (g ()) (f k)) :
    Gives Q (modifies f >>= g) k := h

theorem gives_errno {errno : ℕ} (h : errno ∈ errors) :
    Gives Told (pure (encodeError errno) : Call ℕ) k := Gives.pure (told_errno h)

theorem gives_zero : Gives Told (pure 0 : Call ℕ) k := Gives.pure (told_small (by decide))

theorem gives_requiring {right : Right} {body : Call ℕ} (h : Gives Told body k) :
    Gives Told (requiring right body) k :=
  gives_gets (Gives.ite (fun _ => h) fun _ => gives_errno (by decide))

theorem gives_forProcess {body : ℕ → Call ℕ} (h : Gives Told (body k.currentPid) k) :
    Gives Told (forProcess body) k :=
  gives_gets (Gives.ite (fun _ => gives_errno (by decide)) fun _ => h)

theorem gives_answerWith {ptr answer : ℕ} {data : List UInt8}
    (h : data.length ≤ maxUserTransfer → Told answer) :
    Gives Told (answerWith ptr data answer) k := by
  refine gives_gets ?_
  cases hcopy : copyToUser k.space ptr data with
  | none => exact gives_errno (by decide)
  | some space => exact gives_modifies (Gives.pure (h (copyToUser_some hcopy).1))

theorem gives_ipc {x : Attempt Ports.Table Ports.IpcError β}
    {f : Except Ports.IpcError β → Call ℕ}
    (hf : ∀ r t, x.run k.ports = some (r, t) → Gives Told (f r) { k with ports := t }) :
    Gives Told (ipc x >>= f) k := by
  refine Gives.bind fun r u hu => ?_
  rw [ipc, run_of] at hu
  obtain ⟨⟨r', t⟩, hrun, heq⟩ := Option.map_eq_some_iff.mp hu
  obtain ⟨hr, rfl⟩ := Prod.mk.inj heq
  obtain rfl := Except.ok.inj hr
  exact hf r' t hrun

theorem gives_graphics {x : Attempt Compositor.State ProgramExit β} {f : β → Call ℕ}
    (hf : ∀ a c, x.run k.compositor = some (.ok a, c) →
      Gives Told (f a) { k with compositor := c }) :
    Gives Told (graphics x >>= f) k := by
  refine Gives.bind fun a u hu => ?_
  obtain ⟨c, hrun, rfl⟩ := graphics_ok hu
  exact hf a c hrun

theorem gives_ipcAnswer {r : Except Ports.IpcError ℕ} (h : ∀ a, r = .ok a → Told a) :
    Gives Told (ipcAnswer r) k := by
  cases r with
  | error e => exact Gives.pure (told_ipcError e)
  | ok a => exact Gives.pure (h a rfl)

theorem told_transfer {a : ℕ} (h : a ≤ maxUserTransfer) : Told a :=
  told_small (h.trans_lt (by decide))

theorem sysExit_told (status : ℕ) : Gives Told (sysExit status) k :=
  gives_gets (Gives.ite (fun _ => Gives.throw _) fun _ => gives_errno (by decide))

theorem sysWrite_told (descriptor ptr len : ℕ) : Gives Told (sysWrite descriptor ptr len) k := by
  refine Gives.ite (fun _ => gives_errno (by decide)) fun _ => gives_gets ?_
  cases hcopy : copyFromUser k.space ptr len with
  | none => exact gives_errno (by decide)
  | some bytes =>
    have hsize := (copyFromUser_isSome.mp (Option.isSome_of_eq_some hcopy)).1
    have hlength := FileSystem.copyFromUser_length hcopy
    exact gives_modifies (Gives.pure (told_transfer (hlength.le.trans hsize)))

theorem sysWriteCstr_told (ptr : ℕ) : Gives Told (sysWriteCstr ptr) k := by
  obtain ⟨m, hm, hrun⟩ := run_sysWriteCstr k ptr
  refine Gives.of_run hrun ?_
  split
  · exact told_transfer (hm.capped.trans (by decide))
  · exact told_errno (by decide)

theorem sysUptimeMs_told : Gives Told sysUptimeMs k := by
  refine gives_gets (Gives.demand_bind fun hfits => Gives.pure (told_small ?_))
  unfold timerHz
  omega

theorem sysRealmInfo_told (out : ℕ) : Gives Told (sysRealmInfo out) k := by
  refine gives_gets (gives_gets ?_)
  cases k.currentProfile with
  | none => exact gives_errno (by decide)
  | some profile => exact gives_answerWith fun _ => told_small (by decide)

theorem sysStat_told (ptr len out : ℕ) : Gives Told (sysStat ptr len out) k := by
  refine gives_requiring (gives_gets ?_)
  cases hpath : readUserPath k.space ptr len with
  | error e =>
    obtain ⟨errno, hmem, rfl⟩ := readUserPath_error hpath
    exact gives_errno ((show [EINVAL, EFAULT] ⊆ errors by decide) hmem)
  | ok path =>
    refine gives_gets ?_
    cases FileSystem.lookup k.fs path with
    | none => exact gives_errno (by decide)
    | some node => exact gives_answerWith fun _ => told_small (by decide)

theorem sysReaddir_told (descriptor ptr len : ℕ) :
    Gives Told (sysReaddir descriptor ptr len) k := by
  refine gives_gets ?_
  cases getFile k descriptor with
  | none => exact gives_errno (by decide)
  | some file =>
    refine Gives.ite (fun _ => gives_errno (by decide)) fun _ => gives_gets ?_
    cases FileSystem.readDir k.fs file.path with
    | none => exact gives_errno (by decide)
    | some children => exact gives_answerWith told_transfer

theorem sysPortCreate_told (hk : Numbered n k) (hn : n < 2 ^ 62) (ptr len : ℕ) :
    Gives Told (sysPortCreate ptr len) k := by
  have hnext := hk.nextHandle
  refine gives_requiring (gives_forProcess (gives_gets ?_))
  cases readIpcName k.space ptr len with
  | none => exact gives_errno (by decide)
  | some name =>
    refine gives_ipc fun r t ht => gives_ipcAnswer fun a ha => told_small ?_
    obtain ⟨⟨e, he⟩, -⟩ | ⟨hok, -⟩ := Ports.create_run (t := k.ports) k.currentPid name
    · obtain ⟨rfl, -⟩ := Prod.mk.inj (Option.some.inj (he.symm.trans ht))
      cases ha
    · obtain ⟨rfl, -⟩ := Prod.mk.inj (Option.some.inj (hok.symm.trans ht))
      obtain rfl := Except.ok.inj ha
      omega

theorem sysPortConnect_told (hk : Numbered n k) (hn : n < 2 ^ 62) (ptr len : ℕ) :
    Gives Told (sysPortConnect ptr len) k := by
  refine gives_requiring (gives_gets ?_)
  cases readIpcName k.space ptr len with
  | none => exact gives_errno (by decide)
  | some name =>
    refine gives_ipc fun r t ht => gives_ipcAnswer fun a ha => told_small ?_
    obtain ⟨e, he⟩ | ⟨p, hp, -, hok⟩ := Ports.connect_run (t := k.ports) name
    · obtain ⟨rfl, -⟩ := Prod.mk.inj (Option.some.inj (he.symm.trans ht))
      cases ha
    · obtain ⟨rfl, -⟩ := Prod.mk.inj (Option.some.inj (hok.symm.trans ht))
      obtain rfl := Except.ok.inj ha
      have hhandle := hk.handles p hp
      omega

theorem sysPortSend_told (handle ptr len : ℕ) : Gives Told (sysPortSend handle ptr len) k := by
  refine gives_requiring (gives_forProcess (Gives.ite (fun _ => gives_errno (by decide)) fun _ =>
    gives_gets ?_))
  cases copyFromUser k.space ptr len with
  | none => exact gives_errno (by decide)
  | some bytes =>
    refine gives_ipc fun r t ht => gives_ipcAnswer fun a ha => told_small ?_
    obtain ⟨⟨e, rfl⟩, -⟩ | ⟨p, -, hshort, -, rfl, -⟩ := Ports.send_run ht
    · cases ha
    · obtain rfl := Except.ok.inj ha
      exact hshort.trans_lt (by decide)

theorem sysPortRecv_told (handle ptr len : ℕ) : Gives Told (sysPortRecv handle ptr len) k := by
  refine gives_forProcess (gives_ipc fun r t _ => ?_)
  cases r with
  | error e => exact Gives.pure (told_ipcError e)
  | ok message => exact gives_answerWith told_transfer

theorem sysPortClose_told (handle : ℕ) : Gives Told (sysPortClose handle) k := by
  refine gives_forProcess (gives_ipc fun r t _ => ?_)
  cases r with
  | error e => exact Gives.pure (told_ipcError e)
  | ok a => exact gives_zero

theorem sysSurfaceCreate_told (hk : Counted fb n k) (hn : n < 2 ^ 62) (width height : ℕ) :
    Gives Told (sysSurfaceCreate width height) k := by
  have hnext := hk.compositor.nextSurfaceId
  refine gives_requiring (gives_gets ?_)
  cases k.currentProfile with
  | none => exact gives_errno (by decide)
  | some profile =>
    refine gives_gets (gives_graphics fun r c hc => ?_)
    obtain ⟨rfl, -⟩ | ⟨s, l, rfl, -⟩ := Compositor.createSurface_ok hc
    · exact gives_errno (by decide)
    · exact Gives.pure (told_small (by omega))

theorem sysSurfaceCommit_told (id ptr len : ℕ) : Gives Told (sysSurfaceCommit id ptr len) k := by
  refine gives_forProcess (gives_gets ?_)
  cases Compositor.surfaceGeometry k.compositor id k.currentPid with
  | none => exact gives_errno (by decide)
  | some size =>
    refine Gives.demand_bind fun _ => Gives.ite (fun _ => gives_errno (by decide)) fun _ =>
      gives_gets (gives_graphics fun accepted c _ => Gives.ite (fun _ => ?_) fun _ =>
        gives_errno (by decide))
    exact Gives.bind fun _ _ _ => gives_zero

theorem sysSurfaceInfo_told (id out : ℕ) : Gives Told (sysSurfaceInfo id out) k := by
  refine gives_gets (gives_gets ?_)
  cases Compositor.surfaceGeometry k.compositor id k.currentPid with
  | none => exact gives_errno (by decide)
  | some size =>
    exact Gives.demand_bind fun _ => gives_answerWith fun _ => told_small (by decide)

theorem sysInputPoll_told (out count : ℕ) : Gives Told (sysInputPoll out count) k := by
  have hfew := poll_length (min count 64) k.input
  refine gives_requiring (Gives.ite (fun _ => gives_zero) fun _ => gives_gets ?_)
  refine gives_modifies (Gives.ite (fun _ => gives_zero) fun _ => gives_answerWith fun _ =>
    told_small ?_)
  omega

/-- An open file is no longer than the archive. -/
theorem opened_length {d pid : ℕ} {o : Descriptors.Opened} (h : tables archive k pid d = some o) :
    o.file.contents.length ≤ archive.length := by
  obtain ⟨file, -, rfl⟩ := Option.map_eq_some_iff.mp h
  rw [openedOf, fileOf, List.length_take, List.length_drop]
  omega

/-- The answers of the descriptors: the first free one, the bytes read, and the place in a file. -/
theorem step_told {t t' : Descriptors.Table} {request : Descriptors.Request}
    {answer : Descriptors.Answer} (h : Descriptors.Step t request answer t')
    (ht : Descriptors.Table.Low n t) (hn : n < 2 ^ 62)
    (hfiles : ∀ d o, t d = some o → o.file.contents.length < 2 ^ 63)
    (hrefused : ∀ raw, request = .openFile (.error raw) → Told raw) : Told answer.raw := by
  cases h with
  | opens least =>
    have hdescriptor := ht.least_le least
    unfold Descriptors.firstDynamic at hdescriptor
    exact told_small (by dsimp only; omega)
  | fails => exact hrefused _ rfl
  | @reads d len fits =>
    rw [Descriptors.read]
    split
    · exact told_small (show 0 < 2 ^ 63 by decide)
    · cases hd : t d with
      | none => exact told_errno (by decide)
      | some o =>
        dsimp only
        split
        · exact told_errno (by decide)
        · split
          · refine told_small (Nat.lt_of_le_of_lt ?_ (show Descriptors.maxTransfer < 2 ^ 63 by decide))
            dsimp only
            rw [Descriptors.following_length]
            omega
          · exact told_errno (by decide)
  | @seeks d offset whence =>
    rw [Descriptors.seek]
    cases hd : t d with
    | none => exact told_errno (by decide)
    | some o =>
      dsimp only
      cases htarget : o.target offset whence with
      | none => exact told_errno (by decide)
      | some cursor =>
        exact told_small ((Descriptors.target_le htarget).trans_lt (hfiles d o hd))
  | @closes d =>
    rw [Descriptors.close]
    cases hd : t d with
    | none => exact told_errno (by decide)
    | some o => exact told_small (show 0 < 2 ^ 63 by decide)

theorem files_told (htidy : Tidy archive k)
    (hlow : Descriptors.Table.Low n (tables archive k k.currentPid)) (hn : n < 2 ^ 62)
    (hlong : archive.length < 2 ^ 63) (hnumber : number ∈ [17, 18, 19, 20]) (arg1 arg2 arg3 : ℕ) :
    Gives Told (dispatch number arg1 arg2 arg3) k := by
  obtain ⟨request, raw, w, hrequest, hrun, hanswers⟩ := call_answers htidy hnumber arg1 arg2 arg3
  obtain ⟨t, hstep, -⟩ := hanswers.step
  refine Gives.of_run hrun (step_told hstep hlow hn
    (fun d o ho => (opened_length ho).trans_lt hlong) fun refusal hrefused => ?_)
  subst hrefused
  simp only [List.mem_cons, List.not_mem_nil, or_false] at hnumber
  obtain rfl | rfl | rfl | rfl := hnumber
  · cases hrequest
  · obtain ⟨errno, hmem, rfl⟩ := named_error (Descriptors.Request.openFile.inj
      (Option.some.inj hrequest))
    exact told_errno ((show [EPERM, ENOTSUP, EINVAL, EFAULT, ENOENT] ⊆ errors by decide) hmem)
  · cases hrequest
  · cases hrequest

theorem dispatch_told (htidy : Tidy archive k) (hk : Counted fb n k) (hnumbered : Numbered n k)
    (hlow : Descriptors.Table.Low n (tables archive k k.currentPid)) (hn : n < 2 ^ 62)
    (hlong : archive.length < 2 ^ 63) (arg1 arg2 arg3 : ℕ) :
    Gives Told (dispatch number arg1 arg2 arg3) k := by
  by_cases hfiles : number ∈ [17, 18, 19, 20]
  · exact files_told htidy hlow hn hlong hfiles _ _ _
  have hpid := hnumbered.currentPid
  have hticks := hk.ticks
  unfold dispatch
  split
  · exact sysExit_told _
  · exact gives_zero
  · exact gives_gets (Gives.pure (told_small (by omega)))
  · exact sysWrite_told _ _ _
  · exact absurd (by decide) hfiles
  · exact absurd (by decide) hfiles
  · exact absurd (by decide) hfiles
  · exact absurd (by decide) hfiles
  · exact sysReaddir_told _ _ _
  · exact sysStat_told _ _ _
  · exact sysWriteCstr_told _
  · exact sysPortCreate_told hnumbered hn _ _
  · exact sysPortConnect_told hnumbered hn _ _
  · exact sysPortSend_told _ _ _
  · exact sysPortRecv_told _ _ _
  · exact sysPortClose_told _
  · exact sysRealmInfo_told _
  · exact gives_gets (Gives.pure (told_small (by omega)))
  · exact sysUptimeMs_told
  · exact sysSurfaceCreate_told hk hn _ _
  · exact sysSurfaceCommit_told _ _ _
  · exact sysSurfaceInfo_told _ _
  · exact sysInputPoll_told _ _
  · exact gives_errno (by decide)

/-- A step is observed at most once. -/
theorem observed_length (e : Event) : (observed archive k e).length ≤ 1 := by
  cases e with
  | syscall number arg1 arg2 arg3 =>
    rw [observed]
    split
    · exact le_rfl
    · exact Nat.zero_le 1
  | spawn profile space => exact le_rfl
  | _ => exact Nat.zero_le 1

theorem observations_length (es : List Event) :
    (observations archive k es).length ≤ es.length := by
  induction es generalizing k with
  | nil => exact le_rfl
  | cons e es ih =>
    have hone : (observed archive k e).length ≤ 1 := observed_length e
    rw [observations, List.length_append, List.length_cons]
    cases next k e with
    | none =>
      dsimp only
      rw [List.length_nil]
      omega
    | some u =>
      have hrest : (observations archive u es).length ≤ es.length := ih
      dsimp only
      omega

/-- Over a mounted archive, in any run: what a syscall returns is a value that no program takes for
an error, or one of the errors, which every program takes for itself. -/
theorem result_decoded {fs : Option FileSystem.Mounted} {entries raw : ℕ} {es : List Event}
    {number arg1 arg2 arg3 : UInt64} (hlong : archive.length < 2 ^ 63)
    (hmount : (FileSystem.mount archive).run fs = some (.ok entries, k.fs)) (hboot : Booted k)
    (hcounted : Counted fb n k) (hnumbered : Numbered n k) (hfixed : ∀ fs, Event.mount fs ∉ es)
    (hrun : exec next k es = some v) (hn : n + es.length < 2 ^ 62)
    (hcall : v.call number arg1 arg2 arg3 = some (.ok raw, u)) :
    raw < 2 ^ 63 ∧ decode raw = .ok raw ∨
      ∃ errno ∈ errors, raw = encodeError errno ∧ decode raw = .error errno := by
  obtain ⟨htidy, hruns⟩ := run_simulates (boot_tidy hmount hboot) hfixed hrun
  have hlow : Descriptors.Table.Low (n + es.length) (tables archive v v.currentPid) := by
    refine (hruns.low (n := 0) (fun pid d _ => ?_) v.currentPid).mono ?_
    · rw [tables, Kernel.files, Kernel.currentProcess, hboot]
      split <;> rfl
    · have hfew : (observations archive k es).length ≤ es.length := observations_length es
      omega
  exact (dispatch_told htidy (run_counted hcounted hrun) (run_numbered hnumbered hrun) hlow hn
    hlong _ _ _ raw u hcall).decoded

theorem screenBoot_numbered : Numbered 0 screenBoot where
  nextPid := le_rfl
  processes pid p hp := by cases hp
  currentPid := le_rfl
  nextHandle := le_rfl
  handles p hp := absurd hp List.not_mem_nil

/-- A process is told its number, and that there is no such call as the last. -/
theorem result_decoded_getpid : ∃ v, exec next screenBoot screenRun = some v ∧
    v.call 2 0 0 0 = some (.ok 1, v) ∧ decode 1 = .ok 1 ∧
    v.call 99 0 0 0 = some (.ok (encodeError ENOSYS), v) ∧
    decode (encodeError ENOSYS) = .error ENOSYS := by
  have hcurrent : (exec next screenBoot screenRun).map Kernel.currentPid = some 1 := by
    decide +kernel
  obtain ⟨v, hv, hpid⟩ := Option.map_eq_some_iff.mp hcurrent
  have hgetpid : v.call 2 0 0 0 = some (.ok 1, v) := hpid ▸ rfl
  have hunknown : v.call 99 0 0 0 = some (.ok (encodeError ENOSYS), v) := rfl
  have hlong : smallArchive.length < 2 ^ 63 := by decide +kernel
  have hvalue := result_decoded hlong screenBoot_mounts (fun _ => rfl) screenBoot_counted
    screenBoot_numbered screenRun_fixed hv (by decide) hgetpid
  have herror := result_decoded hlong screenBoot_mounts (fun _ => rfl) screenBoot_counted
    screenBoot_numbered screenRun_fixed hv (by decide) hunknown
  refine ⟨v, hv, hgetpid, ?_, hunknown, ?_⟩
  · obtain ⟨-, hdecoded⟩ | ⟨errno, hmem, heq, -⟩ := hvalue
    · exact hdecoded
    · exact absurd heq ((show ∀ e ∈ errors, 1 ≠ encodeError e by decide) errno hmem)
  · obtain ⟨hsmall, -⟩ | ⟨errno, hmem, heq, hdecoded⟩ := herror
    · exact absurd hsmall (by decide)
    · have hsame := (show ∀ e ∈ errors, encodeError ENOSYS = encodeError e → e = ENOSYS by decide)
        errno hmem heq
      exact hsame ▸ hdecoded

end Values

end Syscalls
