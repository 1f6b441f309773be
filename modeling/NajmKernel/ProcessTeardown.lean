import NajmKernel.ProcessLives
import NajmKernel.SurfaceOwnership
import NajmKernel.SyscallEffects
import NajmKernel.TransitionSystem

/-! A process that has ended is torn down: nothing of it is left but its record, which says how it
ended, and nothing else is touched. -/
namespace Compositor

open Attempts Attempt

section Owners

variable {σ ε : Type} {pid : ℕ} {c : State}

/-- Every surface is the process's, or has the owner of one that was there. -/
def OwnedBy (pid : ℕ) (c c' : State) : Prop :=
  ∀ s ∈ c'.surfaces, s.pid = pid ∨ ∃ t ∈ c.surfaces, t.pid = s.pid

instance (pid : ℕ) : IsPreorder State (OwnedBy pid) where
  refl _ s hs := Or.inr ⟨s, hs, rfl⟩
  trans _ _ _ h h' s hs := by
    obtain hpid | ⟨t, ht, hts⟩ := h' s hs
    · exact Or.inl hpid
    obtain hpid | ⟨t', ht', htt⟩ := h t ht
    · exact Or.inl (hts ▸ hpid)
    · exact Or.inr ⟨t', ht', htt.trans hts⟩

/-- What is put elsewhere stays whose it was. -/
theorem ownedBy_of_continues {c' : State} (h : Continues c c') : OwnedBy pid c c' :=
  fun s hs => Or.inr ((h s hs).imp fun _ ht => ⟨ht.1, ht.2.2⟩)

theorem owned_relayout : Leads (OwnedBy pid) (relayout : Attempt State ε Unit) c :=
  fun r u h => ownedBy_of_continues (leads_relayout r u h)

theorem owned_createSurface (realmKind width height : ℕ) (mode : SurfaceMode) :
    Leads (OwnedBy pid)
      (createSurface pid realmKind width height mode : Attempt State ε (Option ℕ)) c := by
  refine Leads.bind_of_ok (run_of _) ?_
  cases c.framebuffer with
  | none => exact Leads.pure _
  | some fb =>
    refine Leads.bind ?_ fun place u hplace => ?_
    · cases mode with
      | fullscreen => exact Leads.pure _
      | windowed => exact Leads.demand_bind fun _ => Leads.pure _
    refine Leads.ite (fun _ => Leads.pure _) fun _ => Leads.ite (fun _ => Leads.pure _) fun _ =>
      Leads.ite (fun _ => Leads.pure _) fun _ => Leads.sum_bind ?_
    obtain ⟨rfl, -⟩ := placement_below hplace
    refine Leads.bind (Leads.of_run (run_of _) ?_) fun _ v _ =>
      Leads.bind owned_relayout fun _ _ _ => Leads.pure _
    intro s hs
    obtain hs | hs := List.mem_append.mp hs
    · exact Or.inr ⟨s, hs, rfl⟩
    · rw [List.mem_singleton.mp hs]
      exact Or.inl rfl

end Owners

end Compositor

namespace ProcessLives

open KernelMachine (ProgramExit)
open Syscalls (Kernel ProcessState Admits)
open Attempts Attempt TransitionSystem

section Calls

variable {k u : Kernel} {number : ℕ}

def stateOf (k : Kernel) (pid : ℕ) : Option ProcessState := (k.processes pid).map (·.state)

/-- What a syscall may do to the processes: a new port or surface is the caller's, and no process
is made, ended or switched to. -/
structure Owns (k u : Kernel) : Prop where
  currentPid : u.currentPid = k.currentPid
  nextPid : u.nextPid = k.nextPid
  supervised : u.supervised = k.supervised
  states : ∀ pid, pid ≠ 0 → stateOf u pid = stateOf k pid
  ports : ∀ p ∈ u.ports.ports, k.currentPid ≠ 0 ∧ p.owner = k.currentPid ∨
    ∃ q ∈ k.ports.ports, q.owner = p.owner
  surfaces : ∀ s ∈ u.compositor.surfaces, k.currentPid ≠ 0 ∧ s.pid = k.currentPid ∨
    ∃ t ∈ k.compositor.surfaces, t.pid = s.pid

theorem Owns.refl (k : Kernel) : Owns k k :=
  ⟨rfl, rfl, rfl, fun _ _ => rfl, fun p hp => Or.inr ⟨p, hp, rfl⟩, fun s hs => Or.inr ⟨s, hs, rfl⟩⟩

theorem Owns.trans {k u v : Kernel} (h : Owns k u) (h' : Owns u v) : Owns k v where
  currentPid := h'.currentPid.trans h.currentPid
  nextPid := h'.nextPid.trans h.nextPid
  supervised := h'.supervised.trans h.supervised
  states pid hpid := (h'.states pid hpid).trans (h.states pid hpid)
  ports p hp := by
    obtain hown | ⟨q, hq, hqp⟩ := h'.ports p hp
    · exact Or.inl (h.currentPid ▸ hown)
    · exact hqp ▸ h.ports q hq
  surfaces s hs := by
    obtain hown | ⟨t, ht, hts⟩ := h'.surfaces s hs
    · exact Or.inl (h.currentPid ▸ hown)
    · exact hts ▸ h.surfaces t ht

instance : IsPreorder Kernel Owns where
  refl := Owns.refl
  trans _ _ _ := Owns.trans

theorem owns_ports {t : Ports.Table} (h : ∀ p ∈ t.ports, k.currentPid ≠ 0 ∧ p.owner = k.currentPid ∨
    ∃ q ∈ k.ports.ports, q.owner = p.owner) : Owns k { k with ports := t } :=
  { Owns.refl k with ports := h }

theorem owns_surfaces {c : Compositor.State} (hcaller : k.currentPid ≠ 0)
    (h : Compositor.OwnedBy k.currentPid k.compositor c) : Owns k { k with compositor := c } :=
  { Owns.refl k with surfaces := fun s hs => (h s hs).imp_left fun hpid => ⟨hcaller, hpid⟩ }

theorem owns_moved {c : Compositor.State} {toggle : Bool}
    (h : Compositor.Continues k.compositor c) :
    Owns k { k with layoutToggle := toggle, compositor := c } :=
  { Owns.refl k with surfaces := fun s hs => Or.inr ((h s hs).imp fun _ ht => ⟨ht.1, ht.2.2⟩) }

theorem owns_modify {handle : ℕ} {f : Ports.Port → Ports.Port} (hf : ∀ p, (f p).owner = p.owner) :
    Owns k { k with ports := k.ports.modify handle f } := by
  refine owns_ports fun p hp => ?_
  obtain ⟨q, hq, ⟨-, rfl⟩ | ⟨-, rfl⟩⟩ := Ports.Table.mem_modify hp
  · exact Or.inr ⟨q, hq, (hf q).symm⟩
  · exact Or.inr ⟨p, hq, rfl⟩

theorem stateOf_setProcess (f : Syscalls.Process → Syscalls.Process) (hf : ∀ p, (f p).state = p.state)
    {pid : ℕ} (hpid : pid ≠ 0) : stateOf (k.setProcess f) pid = stateOf k pid := by
  simp only [stateOf, Kernel.setProcess]
  by_cases hcurrent : pid = k.currentPid
  · subst hcurrent
    rw [Function.update_self, Kernel.currentProcess, if_neg hpid, Option.map_map]
    exact congrArg (Option.map · _) (funext hf)
  · rw [Function.update_of_ne hcurrent]

theorem owns_send {sender handle : ℕ} {bytes : List UInt8} {r : Except Ports.IpcError ℕ}
    {t : Ports.Table} (h : (Ports.send sender handle bytes).run k.ports = some (r, t)) :
    Owns k { k with ports := t } := by
  obtain ⟨-, rfl | rfl⟩ | ⟨_, -, -, -, -, rfl⟩ := Ports.send_run h
  · exact Owns.refl k
  · exact owns_modify fun _ => rfl
  · exact owns_modify fun _ => rfl

theorem owns_recv {receiver handle : ℕ} {r : Except Ports.IpcError Ports.Message}
    {t : Ports.Table} (h : (Ports.recv receiver handle).run k.ports = some (r, t)) :
    Owns k { k with ports := t } := by
  obtain ⟨e, he⟩ | ⟨_, _, _, -, -, -, hok⟩ := Ports.recv_run (t := k.ports) receiver handle
  · obtain ⟨-, rfl⟩ := Prod.mk.inj (Option.some.inj (he.symm.trans h))
    exact Owns.refl k
  · obtain ⟨-, rfl⟩ := Prod.mk.inj (Option.some.inj (hok.symm.trans h))
    exact owns_modify fun _ => rfl

theorem owns_close {owner handle : ℕ} {r : Except Ports.IpcError Unit}
    {t : Ports.Table} (h : (Ports.close owner handle).run k.ports = some (r, t)) :
    Owns k { k with ports := t } := by
  obtain ⟨e, he⟩ | hok := Ports.close_run (t := k.ports) owner handle
  · obtain ⟨-, rfl⟩ := Prod.mk.inj (Option.some.inj (he.symm.trans h))
    exact Owns.refl k
  · obtain ⟨-, rfl⟩ := Prod.mk.inj (Option.some.inj (hok.symm.trans h))
    exact owns_ports fun p hp => Or.inr ⟨p, List.mem_of_mem_filter hp, rfl⟩

theorem owns_create {name : List UInt8} {r : Except Ports.IpcError ℕ} {t : Ports.Table}
    (hcaller : k.currentPid ≠ 0)
    (h : (Ports.create k.currentPid name).run k.ports = some (r, t)) :
    Owns k { k with ports := t } := by
  obtain ⟨⟨e, he⟩, -⟩ | ⟨hok, -⟩ := Ports.create_run (t := k.ports) k.currentPid name
  · obtain ⟨-, rfl⟩ := Prod.mk.inj (Option.some.inj (he.symm.trans h))
    exact Owns.refl k
  · obtain ⟨-, rfl⟩ := Prod.mk.inj (Option.some.inj (hok.symm.trans h))
    refine owns_ports fun p hp => ?_
    obtain hbefore | hp := List.mem_append.mp hp
    · exact Or.inr ⟨p, List.mem_of_mem_filter hbefore, rfl⟩
    obtain rfl | hafter := List.mem_cons.mp hp
    · exact Or.inl ⟨hcaller, rfl⟩
    · exact Or.inr ⟨p, List.mem_of_mem_filter hafter, rfl⟩

theorem caller_of_holds {right : Realms.Right} (h : k.holds right = true) : k.currentPid ≠ 0 := by
  obtain ⟨p, hp⟩ := Syscalls.process_of_holds h
  exact Syscalls.currentPid_ne_zero hp

theorem admits_owns (number : ℕ) : Admits Owns number where
  space _ k _ := { Owns.refl k with }
  files _ _ g :=
    have hstates : ∀ pid, pid ≠ 0 →
        stateOf (Kernel.setProcess _ fun p => { p with files := g p.files }) pid = stateOf _ pid :=
      fun _ => stateOf_setProcess (fun p => { p with files := g p.files }) fun _ => rfl
    { Owns.refl _ with states := hstates }
  console _ k _ := { Owns.refl k with }
  create _ _ _ _ _ hright h := owns_create (caller_of_holds hright) h
  send _ _ _ _ _ _ _ h := owns_send h
  recv _ _ _ _ _ h := owns_recv h
  close _ _ _ _ _ h := owns_close h
  surface _ _ _ _ _ _ _ _ hright h :=
    owns_surfaces (caller_of_holds hright) (Compositor.owned_createSurface _ _ _ _ _ _ h)
  commit _ _ _ _ _ _ _ h := owns_moved (Compositor.leads_commitSurfaceFromUser _ _ _ _ _ _ h)
  throttle _ _ := owns_moved (Compositor.continues_of_eq rfl)
  present _ _ _ _ _ h := owns_moved (Compositor.leads_present _ _ _ h)
  input _ k _ _ := { Owns.refl k with }

theorem call_owns {n arg1 arg2 arg3 : UInt64} {r : Except ProgramExit ℕ}
    (h : k.call n arg1 arg2 arg3 = some (r, u)) : Owns k u :=
  Syscalls.leads_dispatch (admits_owns n.toNat) _ _ _ r u h

end Calls

section Invariant

variable {s u v w : System} {pid : ℕ} {stage : Stage} {exit : ProgramExit}

/-- A process at this stage may have surfaces. -/
def Stage.ownsSurfaces : Stage → Bool
  | .inProgram | .ended _ | .recorded _ => true
  | _ => false

/-- A process at this stage may have ports. -/
def Stage.ownsPorts : Stage → Bool
  | .surfacesRemoved _ => true
  | stage => stage.ownsSurfaces

/-- The end that the process's record says. -/
def Stage.recordedExit : Stage → Option ProgramExit
  | .ended _ => none
  | stage => stage.exit

/-- A process's stage tells what there can be of it. -/
structure Tidy (s : System) : Prop where
  counter : s.kernel.nextPid = s.records + 1
  fits : s.records ≤ kernelHeapSize
  issued : ∀ pid stage, s.stage pid = some stage → 0 < pid ∧ pid < s.kernel.nextPid
  known : ∀ pid stage, s.stage pid = some stage → ∃ p, s.kernel.processes pid = some p
  running : ∀ pid, s.kernel.supervised pid = true → pid = 0 ∨ s.stage pid = some .inProgram
  ports : ∀ p ∈ s.kernel.ports.ports, ∃ stage, s.stage p.owner = some stage ∧ stage.ownsPorts = true
  surfaces : ∀ f ∈ s.kernel.compositor.surfaces,
    ∃ stage, s.stage f.pid = some stage ∧ stage.ownsSurfaces = true
  status : ∀ pid stage exit, s.stage pid = some stage → stage.recordedExit = some exit →
    stateOf s.kernel pid = some (.exited exit)

theorem begin_tidy {k : Kernel} (hk : Fresh k) : Tidy (begin k) where
  counter := hk.counter
  fits := Nat.zero_le _
  issued _ _ h := nomatch h
  known _ _ h := nomatch h
  running pid h := absurd ((hk.idle pid).symm.trans h) Bool.false_ne_true
  ports p hp := by
    rw [begin, hk.ports] at hp
    nomatch hp
  surfaces f hf := by
    rw [begin, hk.surfaces] at hf
    nomatch hf
  status _ _ _ h := nomatch h

/-- The current process goes on to another stage, and the kernel to another state. -/
structure Advances (s : System) (k : Kernel) (stage : Stage) : Prop where
  issued : ∃ before, s.current = some before
  nextPid : k.nextPid = s.kernel.nextPid
  known : ∀ pid p, s.kernel.processes pid = some p → ∃ q, k.processes pid = some q
  supervised : ∀ pid, pid ≠ s.kernel.currentPid → k.supervised pid = s.kernel.supervised pid
  running : k.supervised s.kernel.currentPid = true → stage = .inProgram
  ports : ∀ p ∈ k.ports.ports, p ∈ s.kernel.ports.ports ∧
    (p.owner = s.kernel.currentPid → stage.ownsPorts = true)
  surfaces : ∀ f ∈ k.compositor.surfaces,
    (∃ g ∈ s.kernel.compositor.surfaces, g.pid = f.pid) ∧
      (f.pid = s.kernel.currentPid → stage.ownsSurfaces = true)
  states : ∀ pid, pid ≠ s.kernel.currentPid → stateOf k pid = stateOf s.kernel pid
  status : ∀ exit, stage.recordedExit = some exit →
    stateOf k s.kernel.currentPid = some (.exited exit)

theorem Advances.tidy (hs : Tidy s) {k : Kernel} (h : Advances s k stage) :
    Tidy (s.advance k stage) := by
  obtain ⟨before, hbefore⟩ := h.issued
  have hstage : ∀ pid, pid ≠ s.kernel.currentPid → (s.advance k stage).stage pid = s.stage pid :=
    fun pid hpid => Function.update_of_ne hpid _ _
  have hcurrent : (s.advance k stage).stage s.kernel.currentPid = some stage :=
    Function.update_self _ _ _
  -- a stage of the new system is the old one, or the current process's new one
  have hcases : ∀ pid after, (s.advance k stage).stage pid = some after →
      (pid = s.kernel.currentPid ∧ after = stage) ∨
        (pid ≠ s.kernel.currentPid ∧ s.stage pid = some after) := by
    intro pid after hafter
    by_cases hpid : pid = s.kernel.currentPid
    · subst hpid
      exact Or.inl ⟨rfl, Option.some.inj (hafter.symm.trans hcurrent)⟩
    · exact Or.inr ⟨hpid, (hstage pid hpid).symm.trans hafter⟩
  constructor
  · exact h.nextPid.trans hs.counter
  · exact hs.fits
  · intro pid after hafter
    change 0 < pid ∧ pid < k.nextPid
    rw [h.nextPid]
    obtain ⟨rfl, -⟩ | ⟨-, hafter⟩ := hcases pid after hafter
    · exact hs.issued _ before hbefore
    · exact hs.issued pid after hafter
  · intro pid after hafter
    obtain ⟨rfl, -⟩ | ⟨-, hafter⟩ := hcases pid after hafter
    · obtain ⟨p, hp⟩ := hs.known _ before hbefore
      exact h.known _ p hp
    · obtain ⟨p, hp⟩ := hs.known pid after hafter
      exact h.known pid p hp
  · intro pid hrunning
    by_cases hpid : pid = s.kernel.currentPid
    · subst hpid
      exact Or.inr (h.running hrunning ▸ hcurrent)
    · rw [hstage pid hpid]
      exact hs.running pid ((h.supervised pid hpid).symm.trans hrunning)
  · intro p hp
    obtain ⟨hmem, hown⟩ := h.ports p hp
    by_cases hpid : p.owner = s.kernel.currentPid
    · exact ⟨stage, hpid ▸ hcurrent, hown hpid⟩
    · rw [hstage _ hpid]
      exact hs.ports p hmem
  · intro f hf
    obtain ⟨⟨g, hg, hgf⟩, hown⟩ := h.surfaces f hf
    by_cases hpid : f.pid = s.kernel.currentPid
    · exact ⟨stage, hpid ▸ hcurrent, hown hpid⟩
    · rw [hstage _ hpid, ← hgf]
      exact hs.surfaces g hg
  · intro pid after exit hafter hexit
    obtain ⟨rfl, rfl⟩ | ⟨hpid, hafter⟩ := hcases pid after hafter
    · exact h.status exit hexit
    · exact (h.states pid hpid).trans (hs.status pid after exit hafter hexit)

/-- The kernel goes on where no process does. -/
theorem Tidy.kernel (hs : Tidy s) {k : Kernel} (hnext : k.nextPid = s.kernel.nextPid)
    (hsupervised : k.supervised = s.kernel.supervised)
    (hstates : ∀ pid, pid ≠ 0 → stateOf k pid = stateOf s.kernel pid)
    (hports : ∀ p ∈ k.ports.ports, ∃ stage, s.stage p.owner = some stage ∧ stage.ownsPorts = true)
    (hsurfaces : ∀ f ∈ k.compositor.surfaces,
      ∃ stage, s.stage f.pid = some stage ∧ stage.ownsSurfaces = true) :
    Tidy { s with kernel := k } where
  counter := hnext.trans hs.counter
  fits := hs.fits
  issued pid stage h := hnext ▸ hs.issued pid stage h
  known pid stage h := by
    obtain ⟨p, hp⟩ := hs.known pid stage h
    have hstate := hstates pid (Nat.ne_of_gt (hs.issued pid stage h).1)
    rw [stateOf, stateOf, hp] at hstate
    obtain ⟨q, hq, -⟩ := Option.map_eq_some_iff.mp hstate
    exact ⟨q, hq⟩
  running pid h := hs.running pid (hsupervised ▸ h)
  ports := hports
  surfaces := hsurfaces
  status pid stage exit h hexit :=
    (hstates pid (Nat.ne_of_gt (hs.issued pid stage h).1)).trans (hs.status pid stage exit h hexit)

theorem Tidy.quiet (hs : Tidy s) {k : Kernel} (hnext : k.nextPid = s.kernel.nextPid)
    (hsupervised : k.supervised = s.kernel.supervised)
    (hprocesses : k.processes = s.kernel.processes) (hports : k.ports = s.kernel.ports)
    (hsurfaces : k.compositor.surfaces = s.kernel.compositor.surfaces) :
    Tidy { s with kernel := k } := by
  refine hs.kernel hnext hsupervised (fun pid _ => ?_) (fun p hp => ?_) fun f hf => ?_
  · rw [stateOf, stateOf, hprocesses]
  · exact hs.ports p (hports ▸ hp)
  · exact hs.surfaces f (hsurfaces ▸ hf)

/-- A program's own new ports and surfaces are those of a process in its program. -/
theorem Tidy.owns (hs : Tidy s) {k : Kernel}
    (hrunning : s.kernel.supervised s.kernel.currentPid = true) (h : Owns s.kernel k) :
    Tidy { s with kernel := k } := by
  have hprogram : s.kernel.currentPid ≠ 0 → s.stage s.kernel.currentPid = some .inProgram :=
    fun hpid => (hs.running _ hrunning).resolve_left hpid
  refine hs.kernel h.nextPid h.supervised h.states (fun p hp => ?_) fun f hf => ?_
  · obtain ⟨hpid, howner⟩ | ⟨q, hq, hqp⟩ := h.ports p hp
    · exact ⟨.inProgram, howner ▸ hprogram hpid, rfl⟩
    · exact hqp ▸ hs.ports q hq
  · obtain ⟨hpid, howner⟩ | ⟨g, hg, hgf⟩ := h.surfaces f hf
    · exact ⟨.inProgram, howner ▸ hprogram hpid, rfl⟩
    · exact hgf ▸ hs.surfaces g hg

/-- A step of the task on the processor that leaves the tables of ports and surfaces alone. -/
theorem advances_of_eq {k : Kernel} {before after : Stage} (hs : Tidy s)
    (hbefore : s.current = some before)
    (hports : k.ports = s.kernel.ports) (hcompositor : k.compositor = s.kernel.compositor)
    (hnext : k.nextPid = s.kernel.nextPid)
    (hknown : ∀ pid p, s.kernel.processes pid = some p → ∃ q, k.processes pid = some q)
    (hsupervised : ∀ pid, pid ≠ s.kernel.currentPid → k.supervised pid = s.kernel.supervised pid)
    (hrunning : k.supervised s.kernel.currentPid = true → after = .inProgram)
    (hstates : ∀ pid, pid ≠ s.kernel.currentPid → stateOf k pid = stateOf s.kernel pid)
    (hstatus : ∀ exit, after.recordedExit = some exit →
      stateOf k s.kernel.currentPid = some (.exited exit))
    (hkeepsPorts : before.ownsPorts = true → after.ownsPorts = true)
    (hkeepsSurfaces : before.ownsSurfaces = true → after.ownsSurfaces = true) :
    Advances s k after where
  issued := ⟨before, hbefore⟩
  nextPid := hnext
  known := hknown
  supervised := hsupervised
  running := hrunning
  states := hstates
  status := hstatus
  ports p hp := by
    rw [hports] at hp
    refine ⟨hp, fun hpid => ?_⟩
    obtain ⟨stage, hstage, howns⟩ := hs.ports p hp
    rw [hpid] at hstage
    obtain rfl := Option.some.inj (hbefore.symm.trans hstage)
    exact hkeepsPorts howns
  surfaces f hf := by
    rw [hcompositor] at hf
    refine ⟨⟨f, hf, rfl⟩, fun hpid => ?_⟩
    obtain ⟨stage, hstage, howns⟩ := hs.surfaces f hf
    rw [hpid] at hstage
    obtain rfl := Option.some.inj (hbefore.symm.trans hstage)
    exact hkeepsSurfaces howns

theorem Tidy.current_pos (hs : Tidy s) (h : s.current = some stage) : s.kernel.currentPid ≠ 0 :=
  Nat.ne_of_gt (hs.issued _ stage h).1

theorem setState_other (state : ProcessState) (hpid : pid ≠ s.kernel.currentPid) :
    stateOf (s.setState state) pid = stateOf s.kernel pid :=
  congrArg (Option.map _) (Function.update_of_ne hpid _ _)

theorem setState_current (hs : Tidy s) (h : s.current = some stage) (state : ProcessState) :
    stateOf (s.setState state) s.kernel.currentPid = some state := by
  obtain ⟨p, hp⟩ := hs.known _ stage h
  have hcurrent : s.kernel.currentProcess = some p := by
    rw [Kernel.currentProcess, if_neg (hs.current_pos h), hp]
  rw [stateOf, System.setState, Kernel.setProcess, hcurrent]
  simp only [Function.update_self, Option.map_some]

theorem setState_known (state : ProcessState) (hs : Tidy s) (h : s.current = some stage) (pid : ℕ)
    (p : Syscalls.Process) (hp : s.kernel.processes pid = some p) :
    ∃ q, (s.setState state).processes pid = some q := by
  by_cases hpid : pid = s.kernel.currentPid
  · subst hpid
    have hstate := setState_current hs h state
    obtain ⟨q, hq, -⟩ := Option.map_eq_some_iff.mp hstate
    exact ⟨q, hq⟩
  · exact ⟨p, (Function.update_of_ne hpid _ _).trans hp⟩

theorem Tidy.unsupervised (hs : Tidy s) (h : s.current = some stage) (hstage : stage ≠ .inProgram) :
    s.kernel.supervised s.kernel.currentPid = false := by
  refine Bool.eq_false_of_not_eq_true fun hrunning => ?_
  obtain hzero | hprogram := hs.running _ hrunning
  · exact hs.current_pos h hzero
  · exact hstage (Option.some.inj (h.symm.trans hprogram))

/-- `process_entry` writes the state of its process. -/
theorem setState_tidy {before after : Stage} {state : ProcessState} (hs : Tidy s)
    (h : s.current = some before) (hbefore : before ≠ .inProgram)
    (hstatus : ∀ exit, after.recordedExit = some exit → state = .exited exit)
    (hports : before.ownsPorts = true → after.ownsPorts = true)
    (hsurfaces : before.ownsSurfaces = true → after.ownsSurfaces = true) :
    Tidy (s.advance (s.setState state) after) := by
  refine Advances.tidy hs (advances_of_eq hs h rfl rfl rfl (setState_known state hs h)
    (fun _ _ => rfl) (fun hrunning => ?_) (fun pid hpid => setState_other state hpid) ?_ hports
    hsurfaces)
  · exact absurd ((hs.unsupervised h hbefore).symm.trans hrunning) Bool.false_ne_true
  · intro exit hexit
    rw [setState_current hs h, hstatus exit hexit]

/-- A step of the current task by which only its stage changes, or its memory. -/
theorem stage_tidy {before after : Stage} {k : Kernel} (hs : Tidy s) (h : s.current = some before)
    (hports : k.ports = s.kernel.ports) (hcompositor : k.compositor = s.kernel.compositor)
    (hnext : k.nextPid = s.kernel.nextPid) (hprocesses : k.processes = s.kernel.processes)
    (hsupervised : ∀ pid, pid ≠ s.kernel.currentPid → k.supervised pid = s.kernel.supervised pid)
    (hrunning : k.supervised s.kernel.currentPid = true → after = .inProgram)
    (hexit : ∀ exit, after.recordedExit = some exit → before.recordedExit = some exit)
    (hkeepsPorts : before.ownsPorts = true → after.ownsPorts = true)
    (hkeepsSurfaces : before.ownsSurfaces = true → after.ownsSurfaces = true) :
    Tidy (s.advance k after) := by
  have hstates : ∀ pid, stateOf k pid = stateOf s.kernel pid := by
    intro pid
    rw [stateOf, stateOf, hprocesses]
  refine Advances.tidy hs (advances_of_eq hs h hports hcompositor hnext (fun pid p hp => ?_)
    hsupervised hrunning (fun pid _ => hstates pid) (fun exit hafter => ?_) hkeepsPorts
    hkeepsSurfaces)
  · exact ⟨p, hprocesses ▸ hp⟩
  · exact (hstates _).trans (hs.status _ before exit h (hexit exit hafter))

theorem endProgram_tidy (hs : Tidy s) (hrunning : s.kernel.supervised s.kernel.currentPid = true)
    (exit : ProgramExit) : Tidy (s.endProgram exit) := by
  rw [System.endProgram]
  split
  next hzero =>
    refine ⟨hs.counter, hs.fits, hs.issued, hs.known, fun pid h => ?_, hs.ports, hs.surfaces,
      hs.status⟩
    by_cases hpid : pid = s.kernel.currentPid
    · exact Or.inl (hpid.trans hzero)
    · exact hs.running pid ((Function.update_of_ne hpid _ _).symm.trans h)
  next hpid =>
    have hprogram := (hs.running _ hrunning).resolve_left hpid
    refine stage_tidy hs hprogram rfl rfl rfl rfl (fun pid hne => Function.update_of_ne hne _ _)
      (fun h => ?_) (fun exit h => nomatch h) (fun _ => rfl) fun _ => rfl
    exact absurd ((Function.update_self _ _ _).symm.trans h) Bool.false_ne_true

theorem spawn_tidy (hs : Tidy s) {profile : Realms.RealmProfile} {space : UserMemory.UserSpace}
    (h : next s (.spawn profile space) = some u) : Tidy u := by
  obtain ⟨hroom, hu⟩ := Option.ite_none_right_eq_some.mp h
  obtain ⟨k, hk, rfl⟩ := Option.map_eq_some_iff.mp hu
  obtain rfl := Option.some.inj hk
  have hcounter := hs.counter
  have hnext : (s.kernel.nextPid + 1) % 2 ^ 64 = s.kernel.nextPid + 1 := by
    refine Nat.mod_eq_of_lt ?_
    have hheap : kernelHeapSize = 16777216 := rfl
    omega
  have hnew : s.stage s.kernel.nextPid = none := by
    cases hstage : s.stage s.kernel.nextPid with
    | none => rfl
    | some stage => exact absurd (hs.issued _ stage hstage).2 (Nat.lt_irrefl _)
  have hold : ∀ pid stage, s.stage pid = some stage →
      Function.update s.stage s.kernel.nextPid (some .created) pid = some stage := by
    intro pid stage hstage
    rw [Function.update_of_ne (fun heq => by rw [heq, hnew] at hstage; nomatch hstage), hstage]
  have hcases : ∀ pid stage,
      Function.update s.stage s.kernel.nextPid (some .created) pid = some stage →
        (pid = s.kernel.nextPid ∧ stage = .created) ∨
          (pid ≠ s.kernel.nextPid ∧ s.stage pid = some stage) := by
    intro pid stage hstage
    by_cases hpid : pid = s.kernel.nextPid
    · rw [hpid, Function.update_self] at hstage
      exact Or.inl ⟨hpid, (Option.some.inj hstage).symm⟩
    · rw [Function.update_of_ne hpid] at hstage
      exact Or.inr ⟨hpid, hstage⟩
  constructor
  · change (s.kernel.nextPid + 1) % 2 ^ 64 = s.records + 1 + 1
    rw [hnext, hcounter]
  · exact hroom
  · intro pid stage hstage
    change 0 < pid ∧ pid < (s.kernel.nextPid + 1) % 2 ^ 64
    rw [hnext]
    obtain ⟨rfl, -⟩ | ⟨-, hstage⟩ := hcases pid stage hstage
    · omega
    · obtain ⟨hpos, hlt⟩ := hs.issued pid stage hstage
      omega
  · intro pid stage hstage
    obtain ⟨rfl, -⟩ | ⟨hpid, hstage⟩ := hcases pid stage hstage
    · exact ⟨_, Function.update_self _ _ _⟩
    · obtain ⟨p, hp⟩ := hs.known pid stage hstage
      exact ⟨p, (Function.update_of_ne hpid _ _).trans hp⟩
  · intro pid hrunning
    change Function.update s.kernel.supervised s.kernel.nextPid false pid = true at hrunning
    by_cases hpid : pid = s.kernel.nextPid
    · rw [hpid, Function.update_self] at hrunning
      nomatch hrunning
    · rw [Function.update_of_ne hpid] at hrunning
      exact (hs.running pid hrunning).imp_right (hold pid _)
  · intro p hp
    obtain ⟨stage, hstage, howns⟩ := hs.ports p hp
    exact ⟨stage, hold _ _ hstage, howns⟩
  · intro f hf
    obtain ⟨stage, hstage, howns⟩ := hs.surfaces f hf
    exact ⟨stage, hold _ _ hstage, howns⟩
  · intro pid stage exit hstage hexit
    obtain ⟨-, rfl⟩ | ⟨hpid, hstage⟩ := hcases pid stage hstage
    · nomatch hexit
    · exact (congrArg (Option.map _) (Function.update_of_ne hpid _ _)).trans
        (hs.status pid stage exit hstage hexit)

/-- What is left of the surfaces is others'. -/
theorem removeSurfaces_left {c c' : Compositor.State} {pid : ℕ} {r : Except Empty Unit}
    (h : (Compositor.removeSurfacesFor pid : Attempt Compositor.State Empty Unit).run c =
      some (r, c')) :
    List.Forall₂ Compositor.Surface.Moved (c.surfaces.filter fun f => f.pid != pid) c'.surfaces := by
  cases r with
  | error e => exact e.elim
  | ok _ =>
    obtain ⟨l, hl, rfl⟩ := Compositor.removeSurfacesFor_ok h
    exact hl

theorem removeSurfaces_tidy (hs : Tidy s) (h : s.current = some (.recorded exit))
    {c : Compositor.State} {r : Except Empty Unit}
    (hrun : (Compositor.removeSurfacesFor s.kernel.currentPid :
      Attempt Compositor.State Empty Unit).run s.kernel.compositor = some (r, c)) :
    Tidy (s.advance { s.kernel with compositor := c } (.surfacesRemoved exit)) := by
  have hleft := removeSurfaces_left hrun
  refine Advances.tidy hs ⟨⟨_, h⟩, rfl, fun _ p hp => ⟨p, hp⟩, fun _ _ => rfl, fun hrunning => ?_,
    fun p hp => ⟨hp, fun _ => rfl⟩, fun f hf => ?_, fun _ _ => rfl, fun exit' hexit => ?_⟩
  · exact absurd ((hs.unsupervised h (by simp)).symm.trans hrunning) Bool.false_ne_true
  · obtain ⟨g, hg, hmoved⟩ := Compositor.moved_mem hleft hf
    obtain ⟨hmem, hother⟩ := List.mem_filter.mp hg
    refine ⟨⟨g, hmem, hmoved.pid.symm⟩, fun hpid => ?_⟩
    rw [← hmoved.pid, hpid, bne_self_eq_false] at hother
    nomatch hother
  · exact hs.status _ _ exit' h hexit

theorem closePorts_tidy (hs : Tidy s) (h : s.current = some (.surfacesRemoved exit)) :
    Tidy (s.advance
      { s.kernel with ports := Ports.closeAllFor s.kernel.currentPid s.kernel.ports }
      (.portsClosed exit)) := by
  refine Advances.tidy hs ⟨⟨_, h⟩, rfl, fun _ p hp => ⟨p, hp⟩, fun _ _ => rfl, fun hrunning => ?_,
    fun p hp => ?_, fun f hf => ⟨⟨f, hf, rfl⟩, fun hpid => ?_⟩, fun _ _ => rfl,
    fun exit' hexit => ?_⟩
  · exact absurd ((hs.unsupervised h (by simp)).symm.trans hrunning) Bool.false_ne_true
  · obtain ⟨hmem, hother⟩ := List.mem_filter.mp hp
    refine ⟨hmem, fun hpid => ?_⟩
    rw [hpid, bne_self_eq_false] at hother
    nomatch hother
  · obtain ⟨stage, hstage, howns⟩ := hs.surfaces f hf
    rw [hpid] at hstage
    obtain rfl := Option.some.inj (h.symm.trans hstage)
    nomatch howns
  · exact hs.status _ _ exit' h hexit

/-- The steps of `process_entry` after the program has ended. -/
def Event.teardown : Event → Bool
  | .setExited | .removeSurfaces | .closePorts | .dropContext | .exitTask => true
  | _ => false

/-- A step of the teardown, by the stage that it starts from. -/
inductive TearsDown (s : System) : Event → System → Prop
  | setExited {exit : ProgramExit} (h : s.current = some (.ended exit)) :
      TearsDown s .setExited (s.advance (s.setState (.exited exit)) (.recorded exit))
  | removeSurfaces {exit : ProgramExit} {c : Compositor.State} {r : Except Empty Unit}
      (h : s.current = some (.recorded exit))
      (hrun : (Compositor.removeSurfacesFor s.kernel.currentPid :
        Attempt Compositor.State Empty Unit).run s.kernel.compositor = some (r, c)) :
      TearsDown s .removeSurfaces
        (s.advance { s.kernel with compositor := c } (.surfacesRemoved exit))
  | closePorts {exit : ProgramExit} (h : s.current = some (.surfacesRemoved exit)) :
      TearsDown s .closePorts (s.advance
        { s.kernel with ports := Ports.closeAllFor s.kernel.currentPid s.kernel.ports }
        (.portsClosed exit))
  | dropContext {exit : ProgramExit} {spaces : ℕ → UserMemory.UserSpace}
      (h : s.current = some (.portsClosed exit)) :
      TearsDown s .dropContext (s.advance { s.kernel with spaces := spaces } (.dropped exit))
  | exitTask {exit : ProgramExit} (h : s.current = some (.dropped exit)) :
      TearsDown s .exitTask (s.advance s.kernel (.gone exit))

theorem tearsDown_of_next {e : Event} (he : e.teardown = true) (h : next s e = some u) :
    TearsDown s e u := by
  cases e with
  | setExited =>
    simp only [next] at h
    split at h
    next exit hstage =>
      obtain rfl := Option.some.inj h
      exact .setExited hstage
    · nomatch h
  | removeSurfaces =>
    simp only [next] at h
    split at h
    next exit hstage =>
      obtain ⟨⟨r, c⟩, hrun, rfl⟩ := Option.map_eq_some_iff.mp h
      exact .removeSurfaces hstage hrun
    · nomatch h
  | closePorts =>
    simp only [next] at h
    split at h
    next exit hstage =>
      obtain rfl := Option.some.inj h
      exact .closePorts hstage
    · nomatch h
  | dropContext =>
    simp only [next] at h
    split at h
    next exit hstage =>
      obtain rfl := Option.some.inj h
      exact .dropContext hstage
    · nomatch h
  | exitTask =>
    simp only [next] at h
    split at h
    next exit hstage =>
      obtain rfl := Option.some.inj h
      exact .exitTask hstage
    · nomatch h
  | _ => nomatch he

theorem TearsDown.tidy {e : Event} (hs : Tidy s) (h : TearsDown s e u) : Tidy u := by
  cases h with
  | @setExited exit h =>
    refine setState_tidy hs h (by simp) (fun exit' hexit => ?_) (fun _ => rfl) fun _ => rfl
    exact congrArg _ (Option.some.inj hexit)
  | removeSurfaces h hrun => exact removeSurfaces_tidy hs h hrun
  | closePorts h => exact closePorts_tidy hs h
  | dropContext h =>
    refine stage_tidy hs h rfl rfl rfl rfl (fun _ _ => rfl) (fun hrunning => ?_) (fun _ h => h)
      (fun h => nomatch h) fun h => nomatch h
    exact absurd ((hs.unsupervised h (by simp)).symm.trans hrunning) Bool.false_ne_true
  | exitTask h =>
    refine stage_tidy hs h rfl rfl rfl rfl (fun _ _ => rfl) (fun hrunning => ?_) (fun _ h => h)
      (fun h => nomatch h) fun h => nomatch h
    exact absurd ((hs.unsupervised h (by simp)).symm.trans hrunning) Bool.false_ne_true

theorem kernelStep_tidy {e : Syscalls.Event} (hs : Tidy s)
    (hquiet : ∀ k, Syscalls.next s.kernel e = some k → k.nextPid = s.kernel.nextPid ∧
      k.supervised = s.kernel.supervised ∧ k.processes = s.kernel.processes ∧
      k.ports = s.kernel.ports ∧ k.compositor = s.kernel.compositor)
    (h : kernelStep s e = some u) : Tidy u := by
  obtain ⟨k, hk, rfl⟩ := Option.map_eq_some_iff.mp h
  obtain ⟨hnext, hsupervised, hprocesses, hports, hcompositor⟩ := hquiet k hk
  exact hs.quiet hnext hsupervised hprocesses hports (congrArg _ hcompositor)

/-- Every step keeps what the stages tell. -/
theorem next_tidy {e : Event} (hs : Tidy s) (h : next s e = some u) : Tidy u := by
  cases e with
  | spawn profile space => exact spawn_tidy hs h
  | switch pid =>
    obtain ⟨-, hu⟩ := Option.ite_none_right_eq_some.mp h
    obtain rfl := Option.some.inj hu
    exact hs.quiet rfl rfl rfl rfl rfl
  | setRunning =>
    obtain ⟨hstage, hu⟩ := Option.ite_none_right_eq_some.mp h
    obtain rfl := Option.some.inj hu
    exact setState_tidy hs hstage (by simp) (fun _ h => nomatch h) (fun h => nomatch h)
      fun h => nomatch h
  | runProgram =>
    obtain ⟨hrunning, hu⟩ := Option.ite_none_left_eq_some.mp h
    split at hu
    next hzero =>
      obtain rfl := Option.some.inj hu
      refine ⟨hs.counter, hs.fits, hs.issued, hs.known, fun pid h => ?_, hs.ports, hs.surfaces,
        hs.status⟩
      by_cases hpid : pid = s.kernel.currentPid
      · exact Or.inl (hpid.trans hzero)
      · exact hs.running pid ((Function.update_of_ne hpid _ _).symm.trans h)
    · obtain ⟨hstage, hu⟩ := Option.ite_none_right_eq_some.mp hu
      obtain rfl := Option.some.inj hu
      exact stage_tidy hs hstage rfl rfl rfl rfl (fun pid hne => Function.update_of_ne hne _ _)
        (fun _ => rfl) (fun _ h => nomatch h) (fun h => nomatch h) fun h => nomatch h
  | compute bytes =>
    refine kernelStep_tidy hs (fun k hk => ?_) h
    obtain ⟨-, hk⟩ := Option.ite_none_right_eq_some.mp hk
    obtain rfl := Option.some.inj hk
    exact ⟨rfl, rfl, rfl, rfl, rfl⟩
  | syscall n a1 a2 a3 =>
    obtain ⟨hrunning, hu⟩ := Option.ite_none_right_eq_some.mp h
    obtain ⟨⟨r, k⟩, hcall, hu⟩ := Option.map_eq_some_iff.mp hu
    have howns := call_owns hcall
    have hk := hs.owns hrunning howns
    cases r with
    | ok raw => exact hu ▸ hk
    | error exit =>
      refine hu ▸ endProgram_tidy hk ?_ exit
      rw [howns.supervised, howns.currentPid]
      exact hrunning
  | fault exit =>
    obtain ⟨hrunning, hu⟩ := Option.ite_none_right_eq_some.mp h
    exact Option.some.inj hu ▸ endProgram_tidy hs hrunning exit
  | tick =>
    refine kernelStep_tidy hs (fun k hk => ?_) h
    obtain rfl := Option.some.inj hk
    exact ⟨rfl, rfl, rfl, rfl, rfl⟩
  | input event =>
    refine kernelStep_tidy hs (fun k hk => ?_) h
    obtain rfl := Option.some.inj hk
    exact ⟨rfl, rfl, rfl, rfl, rfl⟩
  | toggleLayout =>
    refine kernelStep_tidy hs (fun k hk => ?_) h
    obtain rfl := Option.some.inj hk
    exact ⟨rfl, rfl, rfl, rfl, rfl⟩
  | mount fs =>
    refine kernelStep_tidy hs (fun k hk => ?_) h
    obtain rfl := Option.some.inj hk
    exact ⟨rfl, rfl, rfl, rfl, rfl⟩
  | setExited => exact (tearsDown_of_next rfl h).tidy hs
  | removeSurfaces => exact (tearsDown_of_next rfl h).tidy hs
  | closePorts => exact (tearsDown_of_next rfl h).tidy hs
  | dropContext => exact (tearsDown_of_next rfl h).tidy hs
  | exitTask => exact (tearsDown_of_next rfl h).tidy hs

/-- The process has ended so, and is not brought back from where it is gone. -/
def EndedWith (s : System) (pid : ℕ) (exit : ProgramExit) : Prop :=
  ∃ stage, s.stage pid = some stage ∧ stage.exit = some exit

theorem advance_ended {k : Kernel} {before after : Stage} (h : s.current = some before)
    (hkeeps : ∀ exit, before.exit = some exit → after.exit = some exit)
    (hpid : EndedWith s pid exit) : EndedWith (s.advance k after) pid exit := by
  obtain ⟨stage, hstage, hexit⟩ := hpid
  by_cases hcurrent : pid = s.kernel.currentPid
  · subst hcurrent
    obtain rfl := Option.some.inj (h.symm.trans hstage)
    exact ⟨after, Function.update_self _ _ _, hkeeps exit hexit⟩
  · exact ⟨stage, (Function.update_of_ne hcurrent _ _).trans hstage, hexit⟩

theorem advance_gone {k : Kernel} {before after : Stage} (h : s.current = some before)
    (hbefore : before.alive = true) (hpid : s.stage pid = some (.gone exit)) :
    (s.advance k after).stage pid = some (.gone exit) := by
  refine (Function.update_of_ne (fun hcurrent => ?_) _ _).trans hpid
  rw [hcurrent] at hpid
  obtain rfl := Option.some.inj (h.symm.trans hpid)
  nomatch hbefore

/-- The current process goes on, and keeps its end where it has one. -/
def GoesOn (s u : System) : Prop :=
  ∃ before after, s.current = some before ∧ before.alive = true ∧
    (∀ exit, before.exit = some exit → after.exit = some exit) ∧
      u.stage = (s.advance s.kernel after).stage

theorem endProgram_stage (hs : Tidy s) {k : Kernel} (hpid : k.currentPid = s.kernel.currentPid)
    (hrunning : s.kernel.supervised s.kernel.currentPid = true) (exit : ProgramExit) :
    (System.endProgram { s with kernel := k } exit).stage = s.stage ∨
      GoesOn s (System.endProgram { s with kernel := k } exit) := by
  rw [System.endProgram]
  split
  · exact Or.inl rfl
  next hzero =>
    have hprogram := (hs.running _ hrunning).resolve_left (hpid ▸ hzero)
    refine Or.inr ⟨.inProgram, .ended exit, hprogram, rfl, (fun _ h => nomatch h), ?_⟩
    exact congrArg (fun pid => Function.update s.stage pid (some (.ended exit))) hpid

theorem TearsDown.goesOn {e : Event} (h : TearsDown s e u) : GoesOn s u := by
  cases h with
  | setExited h => exact ⟨_, .recorded _, h, rfl, fun _ h => h, rfl⟩
  | removeSurfaces h => exact ⟨_, .surfacesRemoved _, h, rfl, fun _ h => h, rfl⟩
  | closePorts h => exact ⟨_, .portsClosed _, h, rfl, fun _ h => h, rfl⟩
  | dropContext h => exact ⟨_, .dropped _, h, rfl, fun _ h => h, rfl⟩
  | exitTask h => exact ⟨_, .gone _, h, rfl, fun _ h => h, rfl⟩

theorem kernelStep_stage {e : Syscalls.Event} (h : kernelStep s e = some u) : u.stage = s.stage := by
  obtain ⟨k, -, rfl⟩ := Option.map_eq_some_iff.mp h
  rfl

/-- A step changes the stage of the process that it creates, of the current one, or of none. -/
theorem stage_step {e : Event} (hs : Tidy s) (h : next s e = some u) :
    u.stage = s.stage ∨ u.stage = Function.update s.stage s.kernel.nextPid (some .created) ∨
      GoesOn s u := by
  cases e with
  | spawn profile space =>
    obtain ⟨-, hu⟩ := Option.ite_none_right_eq_some.mp h
    obtain ⟨k, -, rfl⟩ := Option.map_eq_some_iff.mp hu
    exact Or.inr (Or.inl rfl)
  | switch pid =>
    obtain ⟨-, hu⟩ := Option.ite_none_right_eq_some.mp h
    exact Or.inl (Option.some.inj hu ▸ rfl)
  | setRunning =>
    obtain ⟨hstage, hu⟩ := Option.ite_none_right_eq_some.mp h
    obtain rfl := Option.some.inj hu
    exact Or.inr (Or.inr ⟨_, .entered, hstage, rfl, (fun _ h => nomatch h), rfl⟩)
  | runProgram =>
    obtain ⟨-, hu⟩ := Option.ite_none_left_eq_some.mp h
    split at hu
    · exact Or.inl (Option.some.inj hu ▸ rfl)
    · obtain ⟨hstage, hu⟩ := Option.ite_none_right_eq_some.mp hu
      obtain rfl := Option.some.inj hu
      exact Or.inr (Or.inr ⟨_, .inProgram, hstage, rfl, (fun _ h => nomatch h), rfl⟩)
  | syscall n a1 a2 a3 =>
    obtain ⟨hrunning, hu⟩ := Option.ite_none_right_eq_some.mp h
    obtain ⟨⟨r, k⟩, hcall, hu⟩ := Option.map_eq_some_iff.mp hu
    cases r with
    | ok raw => exact Or.inl (hu ▸ rfl)
    | error exit =>
      have hstage := endProgram_stage hs (call_owns hcall).currentPid hrunning exit
      exact hu ▸ hstage.imp_right Or.inr
  | fault exit =>
    obtain ⟨hrunning, hu⟩ := Option.ite_none_right_eq_some.mp h
    exact Option.some.inj hu ▸ (endProgram_stage hs rfl hrunning exit).imp_right Or.inr
  | compute bytes => exact Or.inl (kernelStep_stage h)
  | tick => exact Or.inl (kernelStep_stage h)
  | input event => exact Or.inl (kernelStep_stage h)
  | toggleLayout => exact Or.inl (kernelStep_stage h)
  | mount fs => exact Or.inl (kernelStep_stage h)
  | setExited => exact Or.inr (Or.inr (tearsDown_of_next rfl h).goesOn)
  | removeSurfaces => exact Or.inr (Or.inr (tearsDown_of_next rfl h).goesOn)
  | closePorts => exact Or.inr (Or.inr (tearsDown_of_next rfl h).goesOn)
  | dropContext => exact Or.inr (Or.inr (tearsDown_of_next rfl h).goesOn)
  | exitTask => exact Or.inr (Or.inr (tearsDown_of_next rfl h).goesOn)

/-- How a process ended does not change, and one that is gone stays gone. -/
theorem next_ended {e : Event} (hs : Tidy s) (h : next s e = some u) :
    (EndedWith s pid exit → EndedWith u pid exit) ∧
      (s.stage pid = some (.gone exit) → u.stage pid = some (.gone exit)) := by
  have hold : ∀ stage, s.stage pid = some stage → pid ≠ s.kernel.nextPid :=
    fun stage hstage => Nat.ne_of_lt (hs.issued pid stage hstage).2
  obtain hstage | hstage | ⟨before, after, hbefore, halive, hkeeps, hstage⟩ := stage_step hs h
  · rw [EndedWith, EndedWith, hstage]
    exact ⟨id, id⟩
  · rw [EndedWith, EndedWith, hstage]
    constructor
    · rintro ⟨stage, hpid, hexit⟩
      exact ⟨stage, (Function.update_of_ne (hold _ hpid) _ _).trans hpid, hexit⟩
    · exact fun hpid => (Function.update_of_ne (hold _ hpid) _ _).trans hpid
  · rw [EndedWith, EndedWith, hstage]
    exact ⟨advance_ended hbefore hkeeps, advance_gone hbefore halive⟩

theorem run_tidy {es : List Event} (hs : Tidy s) (h : exec next s es = some v) : Tidy v :=
  exec_invariant (fun _ _ _ hs _ hu => next_tidy hs hu) hs (meets_any next s es) h

theorem run_ended {es : List Event} (hs : Tidy s) (h : exec next s es = some v) :
    (EndedWith s pid exit → EndedWith v pid exit) ∧
      (s.stage pid = some (.gone exit) → v.stage pid = some (.gone exit)) := by
  induction es generalizing s with
  | nil =>
    obtain rfl := Option.some.inj h
    exact ⟨id, id⟩
  | cons e es ih =>
    obtain ⟨u, hu, hv⟩ := exec_cons.mp h
    have hnext : (EndedWith s pid exit → EndedWith u pid exit) ∧
        (s.stage pid = some (.gone exit) → u.stage pid = some (.gone exit)) := next_ended hs hu
    obtain ⟨hended', hgone'⟩ := ih (next_tidy hs hu) hv
    exact ⟨hended' ∘ hnext.1, hgone' ∘ hnext.2⟩

/-- Nothing of the process is left but the record of its end, and its pid is not the next one. -/
structure Reclaimed (s : System) (pid : ℕ) (exit : ProgramExit) : Prop where
  ports : ∀ p ∈ s.kernel.ports.ports, p.owner ≠ pid
  surfaces : ∀ f ∈ s.kernel.compositor.surfaces, f.pid ≠ pid
  status : exitStatus s.kernel pid = some exit
  fresh : s.kernel.nextPid ≠ pid

/-- The ports of the other processes are as before, and their surfaces but for the layout. -/
structure OthersKept (s u : System) : Prop where
  ports : u.kernel.ports.ports.filter (fun p => p.owner != s.kernel.currentPid) =
    s.kernel.ports.ports.filter fun p => p.owner != s.kernel.currentPid
  surfaces : List.Forall₂ Compositor.Surface.Moved
    (s.kernel.compositor.surfaces.filter fun f => f.pid != s.kernel.currentPid)
    (u.kernel.compositor.surfaces.filter fun f => f.pid != s.kernel.currentPid)

theorem Tidy.reclaimed (hs : Tidy s) (h : s.stage pid = some (.gone exit)) :
    Reclaimed s pid exit where
  ports p hp := by
    rintro rfl
    obtain ⟨stage, hstage, howns⟩ := hs.ports p hp
    obtain rfl := Option.some.inj (h.symm.trans hstage)
    nomatch howns
  surfaces f hf := by
    rintro rfl
    obtain ⟨stage, hstage, howns⟩ := hs.surfaces f hf
    obtain rfl := Option.some.inj (h.symm.trans hstage)
    nomatch howns
  status := by
    have hstate := hs.status pid _ exit h rfl
    obtain ⟨⟨profile, state, files⟩, hp, rfl⟩ := Option.map_eq_some_iff.mp hstate
    rw [exitStatus, hp]
  fresh := (Nat.ne_of_lt (hs.issued pid _ h).2).symm

theorem TearsDown.others {e : Event} (h : TearsDown s e u) : OthersKept s u := by
  have hsame := Compositor.forall₂_moved
    (s.kernel.compositor.surfaces.filter fun f => f.pid != s.kernel.currentPid)
  cases h with
  | setExited h => exact ⟨rfl, hsame⟩
  | removeSurfaces h hrun =>
    refine ⟨rfl, ?_⟩
    have hleft := removeSurfaces_left hrun
    refine (congrArg (List.Forall₂ _ _) (List.filter_eq_self.mpr fun f hf => ?_)).mpr hleft
    obtain ⟨g, hg, hmoved⟩ := Compositor.moved_mem hleft hf
    rw [hmoved.pid]
    exact (List.mem_filter.mp hg).2
  | closePorts h =>
    refine ⟨?_, hsame⟩
    exact List.filter_eq_self.mpr fun p hp => (List.mem_filter.mp hp).2
  | dropContext h => exact ⟨rfl, hsame⟩
  | exitTask h => exact ⟨rfl, hsame⟩

/-- Once the task of a process has called `exit_task`, no port and no surface of it is ever there
again, its pid is not issued again, and its status is what its program ended with. No step of a
teardown touches the ports of other processes, nor their surfaces but for the layout. -/
theorem exit_reclaims {k : Kernel} {es es' : List Event} {v w : System} (hk : Fresh k)
    (hv : exec next (begin k) es = some v) (hw : exec next v es' = some w) :
    (∀ pid exit, EndedWith v pid exit → EndedWith w pid exit) ∧
    (∀ pid exit, v.stage pid = some (.gone exit) →
      w.stage pid = some (.gone exit) ∧ Reclaimed w pid exit) ∧
    ∀ e u, e.teardown = true → next w e = some u → OthersKept w u := by
  have htidy := run_tidy (begin_tidy hk) hv
  have htidy' := run_tidy htidy hw
  refine ⟨fun pid exit => (run_ended htidy hw).1, fun pid exit hgone => ?_, fun e u he hu => ?_⟩
  · have hgone' := (run_ended htidy hw).2 hgone
    exact ⟨hgone', htidy'.reclaimed hgone'⟩
  · exact (tearsDown_of_next he hu).others

/-- A process makes the port `a` and exits with 7, and its task tears it down. -/
def shortLife : List Event :=
  [.spawn Realms.home ⟨fun _ => true, fun _ => true, fun _ => 0x61⟩, .switch 1, .setRunning,
    .runProgram, .syscall 48 0x400000 1 0, .syscall 0 7 0 0, .setExited, .removeSurfaces,
    .closePorts, .dropContext, .exitTask]

theorem exit_reclaims_shortLife : ∃ v, exec next (begin Syscalls.boot) shortLife = some v ∧
    v.stage 1 = some (.gone (.exited 7)) ∧ Reclaimed v 1 (.exited 7) := by
  have hfresh : Fresh Syscalls.boot := ⟨fun _ => rfl, rfl, fun _ => rfl, rfl, rfl⟩
  have hrun : (exec next (begin Syscalls.boot) shortLife).map (fun v => v.stage 1) =
      some (some (.gone (.exited 7))) := by decide +kernel
  obtain ⟨v, hv, hstage⟩ := Option.map_eq_some_iff.mp hrun
  have hlater : exec next v [] = some v := rfl
  exact ⟨v, hv, hstage, ((exit_reclaims hfresh hv hlater).2.1 1 _ hstage).2⟩

end Invariant

end ProcessLives
