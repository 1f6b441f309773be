import NajmKernel.ProcessTeardown
import NajmKernel.SyscallSecrets

/-! Which rights a syscall needs for what it does: over every run, its effects are the caller's to
have but for the console and the clock, which no handler asks a right for. -/
namespace Syscalls

open KernelMachine (ProgramExit)
open Realms
open Attempts Attempt UserMemory TransitionSystem

section Rights

/-- What a syscall leaves behind is covered: a new port, a message more in a queue, or a new
surface takes a right. -/
structure Confined (k u : Kernel) : Prop where
  rights : ∀ right, u.holds right = k.holds right
  ports : k.holds .ipcCreate = false →
    ∀ p ∈ u.ports.ports, ∃ q ∈ k.ports.ports, q.handle = p.handle
  messages : k.holds .ipcConnect = false → ∀ p ∈ u.ports.ports, p.queue = [] ∨
    ∃ q ∈ k.ports.ports, q.handle = p.handle ∧ p.queue <:+ q.queue
  surfaces : k.holds .surfaceCreate = false →
    ∀ s ∈ u.compositor.surfaces, ∃ t ∈ k.compositor.surfaces, t.id = s.id

/-- A call that returned `r` and left `u` had no effect that its caller's rights do not cover. -/
structure Respects (k : Kernel) (number arg1 arg2 arg3 : ℕ) (r : Except ProgramExit ℕ)
    (u : Kernel) : Prop where
  noProcess : k.currentProcess = none → ∀ right, k.holds right = false
  console : k.holds .serialWrite = false → u.console = k.console
  confined : Confined k u
  connected : number = 49 → k.holds .ipcConnect = false → ∀ n, r = .ok n → isError n = true
  /-- The clock, the files and the input that the caller may not read do not show. -/
  secrets : ∀ v n m w, Alike k v → r = .ok n →
    (dispatch number arg1 arg2 arg3).run v = some (.ok m, w) → m = n ∧ w.space = u.space

/-- The calls that put bytes on the console: a `write` of some bytes that can be read, and a
`write_cstr` of a string that can be read and is not empty. -/
def Prints (k : Kernel) (number arg1 arg2 arg3 : ℕ) : Prop :=
  number = 16 ∧ (arg1 = stdout ∨ arg1 = stderr) ∧ arg3 ≠ 0 ∧
      (copyFromUser k.space arg2 arg3).isSome = true ∨
    number = 23 ∧ (copyFromUser k.space arg1 1).isSome = true ∧ k.space.bytes arg1 ≠ 0

/-- A caller that prints or reads the clock has the right to. -/
structure Allowed (k : Kernel) (number arg1 arg2 arg3 : ℕ) : Prop where
  console : Prints k number arg1 arg2 arg3 → k.holds .serialWrite = true
  clock : number = 65 ∨ number = 66 → k.holds .timerRead = true

end Rights

section Confinement

variable {k u : Kernel} {number : ℕ}

theorem Confined.refl (k : Kernel) : Confined k k where
  rights _ := rfl
  ports _ p hp := ⟨p, hp, rfl⟩
  messages _ p hp := Or.inr ⟨p, hp, rfl, List.suffix_refl _⟩
  surfaces _ s hs := ⟨s, hs, rfl⟩

theorem Confined.trans {v : Kernel} (h : Confined k u) (h' : Confined u v) : Confined k v where
  rights right := (h'.rights right).trans (h.rights right)
  ports hright p hp := by
    obtain ⟨q, hq, hqp⟩ := h'.ports ((h.rights _).trans hright) p hp
    obtain ⟨t, ht, htq⟩ := h.ports hright q hq
    exact ⟨t, ht, htq.trans hqp⟩
  messages hright p hp := by
    obtain hnil | ⟨q, hq, hqp, hsuffix⟩ := h'.messages ((h.rights _).trans hright) p hp
    · exact Or.inl hnil
    obtain hnil | ⟨t, ht, htq, hsuffix'⟩ := h.messages hright q hq
    · rw [hnil, List.suffix_nil] at hsuffix
      exact Or.inl hsuffix
    · exact Or.inr ⟨t, ht, htq.trans hqp, hsuffix.trans hsuffix'⟩
  surfaces hright s hs := by
    obtain ⟨t, ht, hts⟩ := h'.surfaces ((h.rights _).trans hright) s hs
    obtain ⟨w, hw, hwt⟩ := h.surfaces hright t ht
    exact ⟨w, hw, hwt.trans hts⟩

instance : IsPreorder Kernel Confined where
  refl := Confined.refl
  trans _ _ _ := Confined.trans

theorem holds_setProcess {f : Process → Process} (hf : ∀ p, (f p).profile = p.profile)
    (right : Right) : (k.setProcess f).holds right = k.holds right := by
  have hprofile : (k.setProcess f).currentProfile = k.currentProfile := by
    rw [Kernel.currentProfile, Kernel.currentProfile, Kernel.currentProcess]
    by_cases hpid : k.currentPid = 0
    · rw [if_pos (show (k.setProcess f).currentPid = 0 from hpid), Kernel.currentProcess,
        if_pos hpid]
    · rw [if_neg (show (k.setProcess f).currentPid ≠ 0 from hpid)]
      have hset : (k.setProcess f).processes (k.setProcess f).currentPid =
          k.currentProcess.map f := Function.update_self ..
      rw [hset]
      cases k.currentProcess with
      | none => rfl
      | some p => exact congrArg some (hf p)
  rw [Kernel.holds, Kernel.holds, hprofile]

theorem confined_ports {t : Ports.Table}
    (hports : k.holds .ipcCreate = false → ∀ p ∈ t.ports, ∃ q ∈ k.ports.ports, q.handle = p.handle)
    (hmessages : k.holds .ipcConnect = false → ∀ p ∈ t.ports, p.queue = [] ∨
      ∃ q ∈ k.ports.ports, q.handle = p.handle ∧ p.queue <:+ q.queue) :
    Confined k { k with ports := t } :=
  { Confined.refl k with ports := hports, messages := hmessages }

/-- A change of the ports of one handle that keeps the handle and puts no message there. -/
theorem confined_modify {handle : ℕ} {f : Ports.Port → Ports.Port}
    (hhandle : ∀ p, (f p).handle = p.handle)
    (hqueue : k.holds .ipcConnect = false → ∀ p ∈ k.ports.ports, p.handle = handle →
      (f p).queue = [] ∨ ∃ q ∈ k.ports.ports, q.handle = p.handle ∧ (f p).queue <:+ q.queue) :
    Confined k { k with ports := k.ports.modify handle f } := by
  apply confined_ports
  · intro _ p hp
    obtain ⟨q, hq, rfl⟩ := List.mem_map.mp hp
    refine ⟨q, hq, ?_⟩
    split
    · exact (hhandle q).symm
    · rfl
  · intro hright p hp
    obtain ⟨q, hq, rfl⟩ := List.mem_map.mp hp
    split
    next heq =>
      rw [hhandle]
      exact hqueue hright q hq heq
    · exact Or.inr ⟨q, hq, rfl, List.suffix_refl _⟩

theorem confined_compositor {c : Compositor.State} (h : Compositor.Continues k.compositor c) :
    Confined k { k with compositor := c } :=
  { Confined.refl k with surfaces := fun _ s hs => (h s hs).imp fun _ ht => ⟨ht.1, ht.2.1⟩ }

theorem confined_recv {owner handle : ℕ} {r : Except Ports.IpcError Ports.Message}
    {t : Ports.Table} (h : (Ports.recv owner handle).run k.ports = some (r, t)) :
    Confined k { k with ports := t } := by
  obtain ⟨e, he⟩ | ⟨p, m, queue, hp, -, hqueue, hok⟩ := Ports.recv_run (t := k.ports) owner handle
  · obtain ⟨-, rfl⟩ := Prod.mk.inj (Option.some.inj (he.symm.trans h))
    exact Confined.refl k
  · obtain ⟨-, rfl⟩ := Prod.mk.inj (Option.some.inj (hok.symm.trans h))
    refine confined_modify (fun _ => rfl) fun _ q hq hhandle => Or.inr ⟨p, ?_⟩
    obtain ⟨hmem, hsame⟩ := Ports.Table.find_some hp
    refine ⟨hmem, hsame.trans hhandle.symm, ?_⟩
    rw [hqueue]
    exact List.suffix_cons m queue

theorem confined_send {sender handle : ℕ} {bytes : List UInt8} {r : Except Ports.IpcError ℕ}
    {t : Ports.Table} (hright : k.holds .ipcConnect = true)
    (h : (Ports.send sender handle bytes).run k.ports = some (r, t)) :
    Confined k { k with ports := t } := by
  have hvacuous {P : Prop} (hno : k.holds .ipcConnect = false) : P := by
    rw [hright] at hno
    nomatch hno
  obtain ⟨-, rfl | rfl⟩ | ⟨p, -, -, -, -, rfl⟩ := Ports.send_run h
  · exact Confined.refl k
  · exact confined_modify (fun _ => rfl) hvacuous
  · exact confined_modify (fun _ => rfl) hvacuous

theorem confined_create {owner : ℕ} {name : List UInt8} {r : Except Ports.IpcError ℕ}
    {t : Ports.Table} (hright : k.holds .ipcCreate = true)
    (h : (Ports.create owner name).run k.ports = some (r, t)) :
    Confined k { k with ports := t } := by
  obtain ⟨⟨e, he⟩, -⟩ | ⟨hok, -⟩ := Ports.create_run (t := k.ports) owner name
  · obtain ⟨-, rfl⟩ := Prod.mk.inj (Option.some.inj (he.symm.trans h))
    exact Confined.refl k
  · obtain ⟨-, rfl⟩ := Prod.mk.inj (Option.some.inj (hok.symm.trans h))
    apply confined_ports
    · intro hno
      rw [hright] at hno
      nomatch hno
    · intro _ p hp
      obtain hp | hp := List.mem_append.mp hp
      · exact Or.inr ⟨p, List.mem_of_mem_filter hp, rfl, List.suffix_refl _⟩
      obtain rfl | hp := List.mem_cons.mp hp
      · exact Or.inl rfl
      · exact Or.inr ⟨p, List.mem_of_mem_filter hp, rfl, List.suffix_refl _⟩

theorem confined_close {owner handle : ℕ} {r : Except Ports.IpcError Unit} {t : Ports.Table}
    (h : (Ports.close owner handle).run k.ports = some (r, t)) :
    Confined k { k with ports := t } := by
  obtain ⟨e, he⟩ | hok := Ports.close_run (t := k.ports) owner handle
  · obtain ⟨-, rfl⟩ := Prod.mk.inj (Option.some.inj (he.symm.trans h))
    exact Confined.refl k
  · obtain ⟨-, rfl⟩ := Prod.mk.inj (Option.some.inj (hok.symm.trans h))
    exact confined_ports (fun _ p hp => ⟨p, List.mem_of_mem_filter hp, rfl⟩)
      fun _ p hp => Or.inr ⟨p, List.mem_of_mem_filter hp, rfl, List.suffix_refl _⟩

theorem admits_confined (number : ℕ) : Admits Confined number where
  space _ k s := { Confined.refl k with }
  files _ k f := { Confined.refl k with rights := holds_setProcess fun _ => rfl }
  console _ k _ := { Confined.refl k with }
  create _ _ _ _ _ hright h := confined_create hright h
  send _ _ _ _ _ _ hright h := confined_send hright h
  recv _ _ _ _ _ h := confined_recv h
  close _ _ _ _ _ h := confined_close h
  surface _ k _ _ _ _ _ c hright _ := { Confined.refl k with
    surfaces := fun hno => by
      rw [hright] at hno
      nomatch hno }
  commit _ k id len data r c h :=
    confined_compositor (Compositor.leads_commitSurfaceFromUser id k.currentPid len data r c h)
  throttle _ k := { Confined.refl k with }
  present _ k toggle r c h := confined_compositor (Compositor.leads_present toggle r c h)
  input _ k _ _ := { Confined.refl k with }

/-- Every call, whatever its number and arguments, is confined. -/
theorem call_confined {arg1 arg2 arg3 : ℕ} {r : Except ProgramExit ℕ}
    (h : (dispatch number arg1 arg2 arg3).run k = some (r, u)) : Confined k u :=
  leads_dispatch (admits_confined number) arg1 arg2 arg3 r u h

theorem connect_error {ptr len n : ℕ} (hright : k.holds .ipcConnect = false)
    (h : (sysPortConnect ptr len).run k = some (.ok n, u)) : isError n = true := by
  rw [sysPortConnect, run_requiring, hright] at h
  obtain ⟨hn, -⟩ := Prod.mk.inj (Option.some.inj h)
  rw [← Except.ok.inj hn]
  decide

end Confinement

section Files

variable {k u : Kernel} {number : ℕ}

/-- The processes are the same but for the files of the one that calls. -/
def SameProfiles (k u : Kernel) : Prop :=
  u.currentPid = k.currentPid ∧ ∀ pid q, u.processes pid = some q →
    ∃ p, k.processes pid = some p ∧ q.profile = p.profile ∧ (pid ≠ k.currentPid → q = p)

instance : IsPreorder Kernel SameProfiles where
  refl _ := ⟨rfl, fun _ q hq => ⟨q, hq, rfl, fun _ => rfl⟩⟩
  trans _ _ _ h h' := by
    refine ⟨h'.1.trans h.1, fun _ q hq => ?_⟩
    obtain ⟨p, hp, hprofile, hother⟩ := h'.2 _ q hq
    obtain ⟨o, ho, hprofile', hother'⟩ := h.2 _ p hp
    refine ⟨o, ho, hprofile.trans hprofile', fun hpid => ?_⟩
    rw [hother (h.1 ▸ hpid), hother' hpid]

theorem sameProfiles_of_eq (hpid : u.currentPid = k.currentPid)
    (hprocesses : u.processes = k.processes) : SameProfiles k u :=
  ⟨hpid, fun _ q hq => ⟨q, hprocesses ▸ hq, rfl, fun _ => rfl⟩⟩

theorem sameProfiles_setProcess {f : Process → Process} (hf : ∀ p, (f p).profile = p.profile) :
    SameProfiles k (k.setProcess f) := by
  refine ⟨rfl, fun pid q hq => ?_⟩
  rw [Kernel.setProcess] at hq
  by_cases hpid : pid = k.currentPid
  · subst hpid
    simp only [Function.update_self, Option.map_eq_some_iff] at hq
    obtain ⟨p, hp, rfl⟩ := hq
    exact ⟨p, processes_of_current hp, hf p, fun hne => absurd rfl hne⟩
  · simp only [Function.update_of_ne hpid] at hq
    exact ⟨q, hq, rfl, fun _ => rfl⟩

theorem admits_sameProfiles (number : ℕ) : Admits SameProfiles number where
  space _ _ _ := sameProfiles_of_eq rfl rfl
  files _ _ _ := sameProfiles_setProcess fun _ => rfl
  console _ _ _ := sameProfiles_of_eq rfl rfl
  create _ _ _ _ _ _ _ := sameProfiles_of_eq rfl rfl
  send _ _ _ _ _ _ _ _ := sameProfiles_of_eq rfl rfl
  recv _ _ _ _ _ _ := sameProfiles_of_eq rfl rfl
  close _ _ _ _ _ _ := sameProfiles_of_eq rfl rfl
  surface _ _ _ _ _ _ _ _ _ _ := sameProfiles_of_eq rfl rfl
  commit _ _ _ _ _ _ _ _ := sameProfiles_of_eq rfl rfl
  throttle _ _ := sameProfiles_of_eq rfl rfl
  present _ _ _ _ _ _ := sameProfiles_of_eq rfl rfl
  input _ _ _ _ := sameProfiles_of_eq rfl rfl

/-- Without the right, and so without a file open, the requests on files change nothing. -/
theorem call_shut (hright : k.holds .fileRead = false) (hshut : ∀ d, getFile k d = none)
    (hnumber : number ∈ [17, 18, 19, 20]) (arg1 arg2 arg3 : ℕ) :
    ∃ raw, (dispatch number arg1 arg2 arg3).run k = some (.ok raw, k) := by
  simp only [List.mem_cons, List.not_mem_nil, or_false] at hnumber
  obtain rfl | rfl | rfl | rfl := hnumber
  · rw [dispatch, sysRead]
    split
    · exact ⟨_, rfl⟩
    split
    · exact ⟨_, rfl⟩
    rw [run_gets_bind, hshut]
    exact ⟨_, rfl⟩
  · rw [dispatch, sysOpen, run_requiring, hright]
    exact ⟨_, rfl⟩
  · have hclose : (closeFile arg1).run k = some (.ok false, k) := by
      rw [closeFile, run_gets_bind, hshut]
      rfl
    rw [dispatch, sysClose, run_bind_of_ok hclose]
    exact ⟨_, rfl⟩
  · rw [dispatch, sysSeek, run_gets_bind, hshut]
    exact ⟨_, rfl⟩

theorem sealed_of_eq (hk : Sealed k) (h : u.processes = k.processes) : Sealed u :=
  fun pid p hp => hk pid p (h ▸ hp)

theorem sealed_call {arg1 arg2 arg3 : ℕ} {r : Except ProgramExit ℕ} (hk : Sealed k)
    (h : (dispatch number arg1 arg2 arg3).run k = some (r, u)) : Sealed u := by
  by_cases hnumber : number ∈ [17, 18, 19, 20]
  swap
  · exact sealed_of_eq hk (call_others hnumber h).1
  cases hright : k.holds .fileRead with
  | false =>
    obtain ⟨raw, hrun⟩ := call_shut hright (getFile_of_sealed hk hright) hnumber arg1 arg2 arg3
    obtain ⟨-, rfl⟩ := Prod.mk.inj (Option.some.inj (hrun.symm.trans h))
    exact hk
  | true =>
    intro pid q hq hprofile
    obtain ⟨-, hsame⟩ := leads_dispatch (admits_sameProfiles number) arg1 arg2 arg3 r u h
    obtain ⟨p, hp, hpq, hother⟩ := hsame pid q hq
    by_cases hpid : pid = k.currentPid
    · obtain ⟨o, ho⟩ := process_of_holds hright
      have hcurrent := processes_of_current ho
      rw [← hpid, hp] at hcurrent
      rw [Kernel.holds, Kernel.currentProfile, ho, ← Option.some.inj hcurrent] at hright
      have hallowed : p.profile.allows .fileRead = true := hright
      rw [hpq, hallowed] at hprofile
      cases hprofile
    · rw [hother hpid]
      rw [hpq] at hprofile
      exact hk pid p hp hprofile

theorem sealed_setState (hk : Sealed k) (state : ProcessState) :
    Sealed (k.setProcess fun p => { p with state := state }) := by
  intro pid q hq hprofile
  rw [Kernel.setProcess] at hq
  by_cases hpid : pid = k.currentPid
  · subst hpid
    simp only [Function.update_self, Option.map_eq_some_iff] at hq
    obtain ⟨p, hp, rfl⟩ := hq
    exact hk _ p (processes_of_current hp) hprofile
  · simp only [Function.update_of_ne hpid] at hq
    exact hk pid q hq hprofile

theorem sealed_next {e : Event} (hk : Sealed k) (h : next k e = some u) : Sealed u := by
  cases e with
  | spawn profile space =>
    obtain rfl := Option.some.inj h
    intro pid q hq hprofile d
    by_cases hpid : pid = k.nextPid
    · subst hpid
      simp only [Function.update_self, Option.some.injEq] at hq
      rw [← hq]
      rfl
    · simp only [Function.update_of_ne hpid] at hq
      exact hk pid q hq hprofile d
  | switch pid =>
    obtain ⟨-, hu⟩ := Option.ite_none_right_eq_some.mp h
    obtain rfl := Option.some.inj hu
    exact sealed_of_eq hk rfl
  | enter =>
    obtain ⟨-, hu⟩ := Option.ite_none_left_eq_some.mp h
    obtain rfl := Option.some.inj hu
    exact sealed_of_eq (sealed_setState hk .running) rfl
  | compute bytes =>
    obtain ⟨-, hu⟩ := Option.ite_none_right_eq_some.mp h
    obtain rfl := Option.some.inj hu
    exact sealed_of_eq hk rfl
  | syscall number arg1 arg2 arg3 =>
    obtain ⟨-, hcall⟩ := Option.ite_none_right_eq_some.mp h
    obtain ⟨⟨r, v⟩, hrun, rfl⟩ := Option.map_eq_some_iff.mp hcall
    have hv : Sealed v := sealed_call hk hrun
    cases r with
    | ok n => exact hv
    | error exit => exact sealed_of_eq (sealed_setState hv (.exited exit)) rfl
  | fault exit =>
    obtain ⟨-, hu⟩ := Option.ite_none_right_eq_some.mp h
    obtain rfl := Option.some.inj hu
    exact sealed_of_eq (sealed_setState hk (.exited exit)) rfl
  | removeSurfaces =>
    obtain ⟨-, hgraphics⟩ := Option.ite_none_right_eq_some.mp h
    obtain ⟨⟨r, v⟩, hrun, rfl⟩ := Option.map_eq_some_iff.mp hgraphics
    obtain ⟨⟨r', c⟩, -, heq⟩ := Option.map_eq_some_iff.mp hrun
    obtain ⟨-, rfl⟩ := Prod.mk.inj heq
    exact sealed_of_eq hk rfl
  | closePorts =>
    obtain ⟨-, hu⟩ := Option.ite_none_right_eq_some.mp h
    obtain rfl := Option.some.inj hu
    exact sealed_of_eq hk rfl
  | tick =>
    obtain rfl := Option.some.inj h
    exact sealed_of_eq hk rfl
  | input e =>
    obtain rfl := Option.some.inj h
    exact sealed_of_eq hk rfl
  | toggleLayout =>
    obtain rfl := Option.some.inj h
    exact sealed_of_eq hk rfl
  | mount fs =>
    obtain rfl := Option.some.inj h
    exact sealed_of_eq hk rfl

theorem run_sealed {k₀ : Kernel} {es : List Event} (h : Booted k₀)
    (hrun : exec next k₀ es = some k) : Sealed k :=
  exec_invariant (fun _ _ _ hs _ hu => sealed_next hs hu)
    (fun pid p hp => absurd hp (by rw [h]; nofun)) (meets_any next k₀ es) hrun

end Files

section Console

variable {k u : Kernel} {number ptr len : ℕ} {r : Except ProgramExit ℕ}

theorem copyFromUser_isSome : (copyFromUser k.space ptr len).isSome = true ↔
    len ≤ maxUserTransfer ∧ rangeIsUser k.space ptr len false = true := by
  rw [copyFromUser]
  by_cases hsize : len > maxUserTransfer
  · rw [if_pos hsize]
    simp only [Option.isSome_none, Bool.false_eq_true, false_iff]
    omega
  · rw [if_neg hsize]
    by_cases hrange : rangeIsUser k.space ptr len false = true
    · simp [hrange, Nat.le_of_not_lt hsize]
    · simp [hrange]

theorem copyFromUser_some {s : UserSpace} {bytes : List UInt8}
    (h : copyFromUser s ptr len = some bytes) : bytes = s.read ptr len := by
  rw [copyFromUser] at h
  obtain ⟨-, h⟩ := Option.ite_none_left_eq_some.mp h
  exact (Option.some.inj (Option.ite_none_right_eq_some.mp h).2).symm

theorem printed_ne_nil (byte : UInt8) : printed byte ≠ [] := by
  unfold printed
  split <;> simp

/-- The bytes that are read are printed, each as something. -/
theorem console_sysWrite {descriptor : ℕ} (h : (sysWrite descriptor ptr len).run k = some (r, u)) :
    u.console = k.console ↔ ¬ ((descriptor = stdout ∨ descriptor = stderr) ∧ len ≠ 0 ∧
      (copyFromUser k.space ptr len).isSome = true) := by
  rw [sysWrite] at h
  by_cases hdescriptor : descriptor ≠ stdout ∧ descriptor ≠ stderr
  · rw [if_pos hdescriptor] at h
    obtain ⟨-, rfl⟩ := Prod.mk.inj (Option.some.inj h)
    simp [hdescriptor]
  rw [if_neg hdescriptor, run_gets_bind] at h
  have hconsole : descriptor = stdout ∨ descriptor = stderr := by omega
  cases hcopy : copyFromUser k.space ptr len with
  | none =>
    rw [hcopy] at h
    obtain ⟨-, rfl⟩ := Prod.mk.inj (Option.some.inj h)
    simp
  | some bytes =>
    rw [hcopy] at h
    obtain ⟨-, rfl⟩ := Prod.mk.inj (Option.some.inj h)
    have hlength : bytes.length = len := by
      rw [copyFromUser_some hcopy, UserSpace.read, List.length_map, List.length_range]
    have hnil : bytes.flatMap printed = [] ↔ len = 0 := by
      rw [← hlength, List.length_eq_zero_iff, List.flatMap_eq_nil_iff]
      constructor
      · intro hall
        exact List.eq_nil_iff_forall_not_mem.mpr fun b hb => printed_ne_nil b (hall b hb)
      · rintro rfl b hb
        cases hb
    simp only [List.append_right_eq_self, hnil, hconsole, Option.isSome_some, and_true, true_and,
      not_not]

/-- What the scan for the terminator has found: a string that can be read. -/
structure Scanned (k : Kernel) (ptr : ℕ) (c : CstrCursor) : Prop where
  length_le : c.length ≤ maxCstr
  readable : rangeIsUser k.space ptr c.length false = true

theorem scanned_add {c : CstrCursor} {n more : ℕ} (h : Scanned k ptr c) (hn : n ≤ more)
    (hsize : c.length + more ≤ maxCstr)
    (hmore : rangeIsUser k.space (ptr + c.length) more false = true) (address : ℕ) :
    Scanned k ptr ⟨c.length + n, address⟩ := by
  refine ⟨by dsimp only; omega, rangeIsUser_iff.mpr fun a hptr ha => ?_⟩
  by_cases hold : a < ptr + c.length
  · exact rangeIsUser_iff.mp h.readable a hptr hold
  · exact rangeIsUser_iff.mp hmore a (by omega) (by dsimp only at ha; omega)

/-- A turn of the scan: the state stays, and the string grows by what can be read. -/
theorem cstrTurn_run {c : CstrCursor} {step : Except ProgramExit (ForInStep CstrCursor)}
    (hc : Scanned k ptr c) (haddress : c.address = ptr + c.length)
    (h : (cstrTurn c).run k = some (step, u)) : u = k ∧
      ((∃ d, step = .ok (.done d) ∧ Scanned k ptr d ∧ c.length ≤ d.length) ∨
        ∃ d, step = .ok (.yield d) ∧ Scanned k ptr d ∧ c.length ≤ d.length ∧
          d.address = ptr + d.length) := by
  rw [cstrTurn] at h
  by_cases hfull : maxCstr ≤ c.length
  · rw [if_pos hfull] at h
    obtain ⟨rfl, rfl⟩ := Prod.mk.inj (Option.some.inj h)
    exact ⟨rfl, Or.inl ⟨c, rfl, hc, le_rfl⟩⟩
  rw [if_neg hfull] at h
  dsimp only at h
  rw [run_gets_bind] at h
  cases hcopy : copyFromUser k.space c.address
      (min (4096 - c.address % 4096) (maxCstr - c.length)) with
  | none =>
    rw [hcopy] at h
    obtain ⟨rfl, rfl⟩ := Prod.mk.inj (Option.some.inj h)
    exact ⟨rfl, Or.inl ⟨c, rfl, hc, le_rfl⟩⟩
  | some chunk =>
    rw [hcopy] at h
    dsimp only at h
    have hrange := (copyFromUser_isSome.mp (by rw [hcopy]; rfl)).2
    rw [haddress] at hrange
    have hlength : chunk.length = min (4096 - c.address % 4096) (maxCstr - c.length) := by
      rw [copyFromUser_some hcopy, UserSpace.read, List.length_map, List.length_range]
    rw [haddress] at hlength
    rw [← hlength] at hrange
    have hsize : c.length + chunk.length ≤ maxCstr := by omega
    cases hfind : chunk.findIdx? (· == 0) with
    | some terminator =>
      rw [hfind] at h
      obtain ⟨rfl, rfl⟩ := Prod.mk.inj (Option.some.inj h)
      obtain ⟨hlt, -⟩ := List.findIdx?_eq_some_iff_getElem.mp hfind
      exact ⟨rfl, Or.inl ⟨_, rfl, scanned_add hc (Nat.le_of_lt hlt) hsize hrange _,
        Nat.le_add_right _ _⟩⟩
    | none =>
      rw [hfind] at h
      by_cases hfits : c.address + chunk.length < 2 ^ 64
      · rw [run_sum_bind hfits] at h
        obtain ⟨rfl, rfl⟩ := Prod.mk.inj (Option.some.inj h)
        refine ⟨rfl, Or.inr ⟨_, rfl, scanned_add hc le_rfl hsize hrange _, Nat.le_add_right _ _, ?_⟩⟩
        dsimp only
        omega
      · rw [run_sum_bind_none hfits] at h
        cases h

theorem cstrTurns_run {n : ℕ} {c : CstrCursor} {found : Except ProgramExit CstrCursor}
    (hc : Scanned k ptr c) (haddress : c.address = ptr + c.length)
    (h : (turns cstrTurn n c).run k = some (found, u)) :
    u = k ∧ ∃ d, found = .ok d ∧ Scanned k ptr d ∧ c.length ≤ d.length := by
  induction n generalizing c with
  | zero =>
    obtain ⟨rfl, rfl⟩ := Prod.mk.inj (Option.some.inj h)
    exact ⟨rfl, c, rfl, hc, le_rfl⟩
  | succ n ih =>
    rw [turns, run_bind] at h
    rcases hturn : (cstrTurn c).run k with _ | ⟨step, v⟩
    · rw [hturn] at h
      nomatch h
    · rw [hturn] at h
      obtain ⟨rfl, ⟨d, rfl, hd, hgrows⟩ | ⟨d, rfl, hd, hgrows, hnext⟩⟩ := cstrTurn_run hc haddress hturn
      · obtain ⟨rfl, rfl⟩ := Prod.mk.inj (Option.some.inj h)
        exact ⟨rfl, d, rfl, hd, hgrows⟩
      · obtain ⟨rfl, e, rfl, he, hgrows'⟩ := ih hd hnext h
        exact ⟨rfl, e, rfl, he, hgrows.trans hgrows'⟩

/-- A first byte that can be read comes with the rest of its page. -/
theorem copyFromUser_page : (copyFromUser k.space ptr 1).isSome = true ↔
    (copyFromUser k.space ptr (min (4096 - ptr % 4096) maxCstr)).isSome = true := by
  rw [copyFromUser_isSome, copyFromUser_isSome, rangeIsUser_iff, rangeIsUser_iff]
  unfold maxUserTransfer maxCstr
  constructor
  · rintro ⟨-, hone⟩
    refine ⟨by omega, fun a ha hlt => ?_⟩
    obtain ⟨huser, hallows⟩ := hone ptr le_rfl (by omega)
    rw [AddressSpaces.isUserAddress, decide_eq_true_eq, AddressSpaces.userSpaceEnd] at huser ⊢
    have hpage : a / 4096 = ptr / 4096 := by omega
    exact ⟨by omega, hpage ▸ hallows⟩
  · rintro ⟨-, hall⟩
    exact ⟨by omega, fun a ha hlt => hall a ha (by omega)⟩

/-- The first turn decides whether there is anything to print. -/
theorem cstrTurn_first {step : Except ProgramExit (ForInStep CstrCursor)}
    (h : (cstrTurn ⟨0, ptr⟩).run k = some (step, u)) :
    (∃ d, step = .ok (.done d) ∧ (d.length ≠ 0 ↔
        (copyFromUser k.space ptr 1).isSome = true ∧ k.space.bytes ptr ≠ 0)) ∨
      ∃ d, step = .ok (.yield d) ∧ d.length ≠ 0 ∧
        (copyFromUser k.space ptr 1).isSome = true ∧ k.space.bytes ptr ≠ 0 := by
  rw [copyFromUser_page]
  rw [cstrTurn, if_neg (by simp [maxCstr])] at h
  dsimp only at h
  rw [run_gets_bind, Nat.sub_zero] at h
  cases hcopy : copyFromUser k.space ptr (min (4096 - ptr % 4096) maxCstr) with
  | none =>
    rw [hcopy] at h
    obtain ⟨rfl, -⟩ := Prod.mk.inj (Option.some.inj h)
    exact Or.inl ⟨_, rfl, by simp⟩
  | some chunk =>
    rw [hcopy] at h
    dsimp only at h
    simp only [Option.isSome_some, true_and]
    have hlength : chunk.length = min (4096 - ptr % 4096) maxCstr := by
      rw [copyFromUser_some hcopy, UserSpace.read, List.length_map, List.length_range]
    have hpos : 0 < chunk.length := by
      rw [hlength]
      unfold maxCstr
      omega
    have hhead : chunk[0] = k.space.bytes ptr := by
      simp only [copyFromUser_some hcopy, UserSpace.read, List.getElem_map, List.getElem_range,
        Nat.add_zero]
    cases hfind : chunk.findIdx? (· == 0) with
    | some terminator =>
      rw [hfind] at h
      obtain ⟨rfl, -⟩ := Prod.mk.inj (Option.some.inj h)
      obtain ⟨hlt, hzero, hbefore⟩ := List.findIdx?_eq_some_iff_getElem.mp hfind
      refine Or.inl ⟨_, rfl, ?_⟩
      rw [← hhead, Nat.zero_add]
      constructor
      · intro hne heq
        exact hbefore 0 (Nat.pos_of_ne_zero hne) (by simp [heq])
      · rintro hne rfl
        exact hne (by simpa using hzero)
    | none =>
      rw [hfind] at h
      have hne : k.space.bytes ptr ≠ 0 := by
        have := List.findIdx?_eq_none_iff.mp hfind chunk[0] (List.getElem_mem hpos)
        rw [← hhead]
        simpa using this
      by_cases hfits : ptr + chunk.length < 2 ^ 64
      · rw [run_sum_bind hfits] at h
        obtain ⟨rfl, -⟩ := Prod.mk.inj (Option.some.inj h)
        refine Or.inr ⟨_, rfl, ?_, hne⟩
        dsimp only
        omega
      · rw [run_sum_bind_none hfits] at h
        cases h

theorem cstrTurns_first {found : Except ProgramExit CstrCursor}
    (h : (turns cstrTurn maxCstr ⟨0, ptr⟩).run k = some (found, u)) : u = k ∧
      ∃ c, found = .ok c ∧ Scanned k ptr c ∧ (c.length ≠ 0 ↔
        (copyFromUser k.space ptr 1).isSome = true ∧ k.space.bytes ptr ≠ 0) := by
  have hstart : Scanned k ptr ⟨0, ptr⟩ := by
    refine ⟨Nat.zero_le _, rangeIsUser_iff.mpr fun a ha hlt => ?_⟩
    dsimp only at hlt
    omega
  rw [show maxCstr = 4095 + 1 from rfl, turns, run_bind] at h
  rcases hturn : (cstrTurn ⟨0, ptr⟩).run k with _ | ⟨step, v⟩
  · rw [hturn] at h
    nomatch h
  rw [hturn] at h
  obtain ⟨rfl, hstep⟩ := cstrTurn_run hstart rfl hturn
  obtain ⟨c, rfl, hfirst⟩ | ⟨d, rfl, hd, hfirst⟩ := cstrTurn_first hturn
  · obtain ⟨rfl, rfl⟩ := Prod.mk.inj (Option.some.inj h)
    obtain ⟨c', hc', hscanned, -⟩ | ⟨c', hc', -⟩ := hstep
    · obtain rfl := ForInStep.done.inj (Except.ok.inj hc')
      exact ⟨rfl, c, rfl, hscanned, hfirst⟩
    · nomatch hc'
  · obtain ⟨d', hd', -⟩ | ⟨d', hd', hscanned, -, haddress⟩ := hstep
    · nomatch hd'
    · obtain rfl := ForInStep.yield.inj (Except.ok.inj hd')
      obtain ⟨rfl, c, rfl, hc, hgrows⟩ := cstrTurns_run hscanned haddress h
      exact ⟨rfl, c, rfl, hc, iff_of_true (by omega) hfirst⟩

theorem console_sysWriteCstr (h : (sysWriteCstr ptr).run k = some (r, u)) :
    u.console = k.console ↔ ¬ ((copyFromUser k.space ptr 1).isSome = true ∧
      k.space.bytes ptr ≠ 0) := by
  rw [sysWriteCstr, run_bind] at h
  rcases hscan : (turns cstrTurn maxCstr ⟨0, ptr⟩).run k with _ | ⟨found, v⟩
  · rw [hscan] at h
    nomatch h
  obtain ⟨rfl, c, rfl, hc, hlength⟩ := cstrTurns_first hscan
  rw [hscan] at h
  dsimp only at h
  rw [← hlength]
  by_cases hz : c.length = 0
  · rw [if_pos hz, run_gets_bind] at h
    have hu : u = v := by
      split at h
      · exact (Prod.mk.inj (Option.some.inj h)).2.symm
      · exact (Prod.mk.inj (Option.some.inj h)).2.symm
    simp [hu, hz]
  · rw [if_neg hz] at h
    rw [console_sysWrite h, not_iff_not]
    have hsize : c.length ≤ maxUserTransfer := hc.length_le.trans (by decide)
    simp only [true_or, true_and, copyFromUser_isSome, hc.readable, hsize, and_true]

def SameConsole (k u : Kernel) : Prop := u.console = k.console

instance : IsPreorder Kernel SameConsole where
  refl _ := rfl
  trans _ _ _ h h' := h'.trans h

/-- Only the two calls that print change the console. -/
theorem admits_sameConsole (hnumber : number ≠ 16 ∧ number ≠ 23) : Admits SameConsole number where
  space _ _ _ := rfl
  files _ _ _ := rfl
  console h := by omega
  create _ _ _ _ _ _ _ := rfl
  send _ _ _ _ _ _ _ _ := rfl
  recv _ _ _ _ _ _ := rfl
  close _ _ _ _ _ _ := rfl
  surface _ _ _ _ _ _ _ _ _ _ := rfl
  commit _ _ _ _ _ _ _ _ := rfl
  throttle _ _ := rfl
  present _ _ _ _ _ _ := rfl
  input _ _ _ _ := rfl

theorem console_iff {arg1 arg2 arg3 : ℕ}
    (h : (dispatch number arg1 arg2 arg3).run k = some (r, u)) :
    u.console = k.console ↔ ¬ Prints k number arg1 arg2 arg3 := by
  unfold Prints
  by_cases hwrite : number = 16
  · subst hwrite
    rw [console_sysWrite h]
    simp
  by_cases hcstr : number = 23
  · subst hcstr
    rw [console_sysWriteCstr h]
    simp
  · have hsame : u.console = k.console :=
      leads_dispatch (admits_sameConsole ⟨hwrite, hcstr⟩) arg1 arg2 arg3 r u h
    simp [hsame, hwrite, hcstr]

end Console

section Runs

variable {k₀ k u : Kernel} {es : List Event} {number arg1 arg2 arg3 : UInt64}
  {r : Except ProgramExit ℕ}

/-- No right without a process. -/
theorem holds_of_none (h : k.currentProcess = none) (right : Right) : k.holds right = false := by
  rw [Kernel.holds, Kernel.currentProfile, h]
  rfl

/-- Another time of day is alike to whoever may not read the clock. -/
theorem alike_ticks (hright : k.holds .timerRead = false) (ticks : ℕ) :
    Alike k { k with ticks := ticks } where
  currentPid := rfl
  supervised := rfl
  profile := rfl
  isProcess := rfl
  space := rfl
  ports := rfl
  compositor := rfl
  ticks h := by
    rw [hright] at h
    nomatch h
  fs _ := rfl
  files _ := rfl
  slots _ := rfl
  input _ := rfl

/-- What a call that reads the clock returns tells the time. -/
theorem clock_tells {number arg1 arg2 arg3 : ℕ} (hclock : number = 65 ∨ number = 66)
    (hcall : (dispatch number arg1 arg2 arg3).run k = some (r, u)) : ∃ n m ticks w, r = .ok n ∧
      (dispatch number arg1 arg2 arg3).run { k with ticks := ticks } = some (.ok m, w) ∧
      m ≠ n := by
  obtain rfl | rfl := hclock
  · obtain ⟨rfl, -⟩ := Prod.mk.inj (Option.some.inj hcall)
    exact ⟨k.ticks, k.ticks + 1, k.ticks + 1, _, rfl, rfl, Nat.succ_ne_self _⟩
  · have hrun (v : Kernel) : (dispatch 66 arg1 arg2 arg3).run v =
        if v.ticks * 1000 < 2 ^ 64 then some (.ok (v.ticks * 1000 / timerHz), v) else none := by
      rw [dispatch, sysUptimeMs, run_gets_bind, run_demand_bind]
      rfl
    rw [hrun] at hcall
    obtain ⟨-, heq⟩ := Option.ite_none_right_eq_some.mp hcall
    obtain ⟨rfl, -⟩ := Prod.mk.inj (Option.some.inj heq)
    by_cases hz : k.ticks = 0
    · refine ⟨_, 1 * 1000 / timerHz, 1, _, rfl, by rw [hrun, if_pos (by norm_num)], ?_⟩
      rw [hz]
      decide
    · refine ⟨_, 0 * 1000 / timerHz, 0, _, rfl, by rw [hrun, if_pos (by norm_num)], ?_⟩
      unfold timerHz
      omega

/-- In every run, a call has only effects that its caller's rights cover exactly when it does not
print or read the clock without the right to. -/
theorem respects_iff_allowed (h : Booted k₀) (hrun : exec next k₀ es = some k)
    (hcall : k.call number arg1 arg2 arg3 = some (r, u)) :
    Respects k number.toNat arg1.toNat arg2.toNat arg3.toNat r u ↔
      Allowed k number.toNat arg1.toNat arg2.toNat arg3.toNat := by
  have hsealed := run_sealed h hrun
  rw [Kernel.call] at hcall
  constructor
  · intro hrespects
    constructor
    · intro hprints
      by_contra hright
      exact (console_iff hcall).mp (hrespects.console (Bool.eq_false_iff.mpr hright)) hprints
    · intro hclock
      by_contra hright
      obtain ⟨n, m, ticks, w, rfl, hw, hne⟩ := clock_tells hclock hcall
      exact hne (hrespects.secrets _ n m w
        (alike_ticks (Bool.eq_false_iff.mpr hright) ticks) rfl hw).1
  · intro hallowed
    refine ⟨holds_of_none, ?_, call_confined hcall, ?_, ?_⟩
    · intro hright
      refine (console_iff hcall).mpr fun hprints => ?_
      rw [hallowed.console hprints] at hright
      nomatch hright
    · rintro hconnect hright n rfl
      rw [hconnect] at hcall
      exact connect_error hright hcall
    · rintro v n m w halike rfl hw
      have hviews : Views k v := ⟨halike, getFile_of_sealed hsealed⟩
      by_cases hclock : number.toNat = 65 ∨ number.toNat = 66
      · obtain ⟨hsame, hspace⟩ := coupled_clock hclock _ _ _ k v n m u w
          ⟨hviews, hallowed.clock hclock⟩ hcall hw
        exact ⟨hsame.symm, hspace.1⟩
      · obtain ⟨hsame, hspace⟩ := coupled_dispatch (not_or.mp hclock) _ _ _ k v n m u w
          hviews hcall hw
        exact ⟨hsame.symm, hspace.1⟩

/-- A process of the vault, with a page of letters. -/
def vaultRun : List Event :=
  [.spawn vault ⟨fun page => page == 0x400, fun page => page == 0x400, fun _ => 0x41⟩,
    .switch 1, .enter]

theorem respects_iff_allowed_vault : ∃ k u, exec next boot vaultRun = some k ∧
    k.call 65 0 0 0 = some (.ok 0, u) ∧ Respects k 65 0 0 0 (.ok 0) u := by
  obtain ⟨k, hk, hright⟩ : ∃ k, exec next boot vaultRun = some k ∧ k.holds .timerRead = true :=
    ⟨_, rfl, by decide⟩
  obtain ⟨u, hu⟩ : ∃ u, k.call 65 0 0 0 = some (.ok 0, u) := by
    obtain rfl := Option.some.inj hk
    exact ⟨_, rfl⟩
  refine ⟨k, u, hk, hu, (respects_iff_allowed (fun _ => rfl) hk hu).mpr ⟨?_, fun _ => hright⟩⟩
  rintro (⟨h, -⟩ | ⟨h, -⟩)
  · nomatch h
  · nomatch h

/-- It writes to the console, which its realm keeps it from. -/
theorem vault_prints : ∃ k u, exec next boot vaultRun = some k ∧
    k.supervised k.currentPid = true ∧ k.call 16 1 0x400000 1 = some (.ok 1, u) ∧
    ¬ Respects k 16 1 0x400000 1 (.ok 1) u := by
  refine ⟨_, _, rfl, rfl, rfl, fun h => ?_⟩
  have hconsole := h.console (by decide)
  nomatch hconsole

end Runs

end Syscalls
