import NajmKernel.CStrings
import NajmKernel.DescriptorRuns
import NajmKernel.SurfaceCounters

/-! No syscall brings the kernel down: in any run over a mounted archive, each comes to an answer,
but for one that has more windows tiled than the screen can be split for. -/
namespace Ports

open Attempts Attempt

/-- No port has counted more than `n` messages that found its queue full. -/
def Counted (n : ℕ) (t : Table) : Prop := ∀ p ∈ t.ports, p.dropped ≤ n

variable {n : ℕ} {t t' : Table} {handle : ℕ} {f : Port → Port}

theorem Counted.mono {m : ℕ} (hmn : m ≤ n) (ht : Counted m t) : Counted n t :=
  fun p hp => (ht p hp).trans hmn

theorem Counted.modify {m : ℕ} (ht : Counted n t) (hf : ∀ p, p.dropped ≤ n → (f p).dropped ≤ m)
    (hnm : n ≤ m) : Counted m (t.modify handle f) := by
  intro p hp
  obtain ⟨q, hq, rfl⟩ := List.mem_map.mp hp
  split
  · exact hf q (ht q hq)
  · exact (ht q hq).trans hnm

theorem Counted.filter {keep : Port → Bool} (ht : Counted n t) :
    Counted n { t with ports := t.ports.filter keep } :=
  fun p hp => ht p (List.mem_of_mem_filter hp)

theorem create_counted {owner : ℕ} {name : List UInt8} {r : Except IpcError ℕ} (ht : Counted n t)
    (h : (create owner name).run t = some (r, t')) : Counted n t' := by
  obtain ⟨⟨e, he⟩, -⟩ | ⟨hok, -⟩ := create_run (t := t) owner name
  · obtain ⟨-, rfl⟩ := Prod.mk.inj (Option.some.inj (he.symm.trans h))
    exact ht
  · obtain ⟨-, rfl⟩ := Prod.mk.inj (Option.some.inj (hok.symm.trans h))
    intro p hp
    rcases List.mem_append.mp hp with hp | hp
    · exact ht p (List.mem_of_mem_filter hp)
    · rcases List.mem_cons.mp hp with rfl | hp
      · exact Nat.zero_le n
      · exact ht p (List.mem_of_mem_filter hp)

theorem send_counted {sender : ℕ} {bytes : List UInt8} {r : Except IpcError ℕ} (ht : Counted n t)
    (h : (send sender handle bytes).run t = some (r, t')) : Counted (n + 1) t' := by
  obtain ⟨-, rfl | rfl⟩ | ⟨p, -, -, -, -, rfl⟩ := send_run h
  · exact ht.mono (Nat.le_succ n)
  · exact ht.modify (fun p hp => Nat.succ_le_succ hp) (Nat.le_succ n)
  · exact ht.modify (fun p hp => hp.trans (Nat.le_succ n)) (Nat.le_succ n)

theorem recv_counted {receiver : ℕ} {r : Except IpcError Message} (ht : Counted n t)
    (h : (recv receiver handle).run t = some (r, t')) : Counted n t' := by
  obtain ⟨e, he⟩ | ⟨p, m, queue, -, -, -, hok⟩ := recv_run (t := t) receiver handle
  · obtain ⟨-, rfl⟩ := Prod.mk.inj (Option.some.inj (he.symm.trans h))
    exact ht
  · obtain ⟨-, rfl⟩ := Prod.mk.inj (Option.some.inj (hok.symm.trans h))
    exact ht.modify (fun p hp => hp) le_rfl

theorem close_counted {owner : ℕ} {r : Except IpcError Unit} (ht : Counted n t)
    (h : (close owner handle).run t = some (r, t')) : Counted n t' := by
  obtain ⟨e, he⟩ | hok := close_run (t := t) owner handle
  · obtain ⟨-, rfl⟩ := Prod.mk.inj (Option.some.inj (he.symm.trans h))
    exact ht
  · obtain ⟨-, rfl⟩ := Prod.mk.inj (Option.some.inj (hok.symm.trans h))
    exact ht.filter

/-- A message is sent, or refused, where the port can still count it. -/
theorem send_returns {sender : ℕ} {bytes : List UInt8} (ht : Counted n t) (hn : n + 1 < 2 ^ 64) :
    ∃ r t', (send sender handle bytes).run t = some (r, t') := by
  rw [send, run_of]
  split
  · exact ⟨_, _, rfl⟩
  · cases hf : t.find handle with
    | none => exact ⟨_, _, rfl⟩
    | some p =>
      have hdropped := ht p (List.mem_of_find?_eq_some hf)
      simp only [if_pos (show p.dropped + 1 < 2 ^ 64 by omega)]
      split
      · exact ⟨_, _, rfl⟩
      · exact ⟨_, _, rfl⟩

end Ports

namespace Syscalls

open Compositor (Bounded tiles windows)
open Framebuffers
open KernelMachine (ProgramExit)
open Realms
open Attempts Attempt UserMemory TransitionSystem

section Counters

variable {fb : Framebuffer} {n number : ℕ} {k u v : Kernel}

/-- What has been counted in `n` steps. -/
structure Counted (fb : Framebuffer) (n : ℕ) (k : Kernel) : Prop where
  ticks : k.ticks ≤ n
  ports : Ports.Counted n k.ports
  compositor : Compositor.Counted fb n k.compositor

theorem Counted.mono {m : ℕ} (hmn : m ≤ n) (hk : Counted fb m k) : Counted fb n k :=
  ⟨hk.ticks.trans hmn, hk.ports.mono hmn, hk.compositor.mono hmn⟩

/-- A call that counts nothing. -/
def KeepsCounts (fb : Framebuffer) (k u : Kernel) : Prop := ∀ n, Counted fb n k → Counted fb n u

instance (fb : Framebuffer) : IsPreorder Kernel (KeepsCounts fb) where
  refl _ _ h := h
  trans _ _ _ h h' n hk := h' n (h n hk)

theorem admits_keepsCounts (hnumber : number ∉ [50, 80, 81]) :
    Admits (KeepsCounts fb) number where
  space _ _ _ _ hk := ⟨hk.ticks, hk.ports, hk.compositor⟩
  files _ _ _ _ hk := ⟨hk.ticks, hk.ports, hk.compositor⟩
  console _ _ _ _ hk := ⟨hk.ticks, hk.ports, hk.compositor⟩
  create _ _ _ _ _ _ hr _ hk := ⟨hk.ticks, Ports.create_counted hk.ports hr, hk.compositor⟩
  send h := absurd (by simp [h]) hnumber
  recv _ _ _ _ _ hr _ hk := ⟨hk.ticks, Ports.recv_counted hk.ports hr, hk.compositor⟩
  close _ _ _ _ _ hr _ hk := ⟨hk.ticks, Ports.close_counted hk.ports hr, hk.compositor⟩
  surface h := absurd (by simp [h]) hnumber
  commit h := absurd (by simp [h]) hnumber
  throttle h := absurd (by simp [h]) hnumber
  present h := absurd (by simp [h]) hnumber
  input _ _ _ _ _ hk := ⟨hk.ticks, hk.ports, hk.compositor⟩

variable {α : Type}

/-- A call that counts at most once. -/
abbrev CountsOnce (fb : Framebuffer) (n : ℕ) (x : Call α) (k : Kernel) : Prop :=
  Leads (fun _ u => Counted fb (n + 1) u) x k

theorem countsOnce_of_keeps {x : Call α} (hk : Counted fb (n + 1) k)
    (hx : Leads (KeepsCounts fb) x k) : CountsOnce fb n x k :=
  fun r u hu => hx r u hu (n + 1) hk

theorem countsOnce_pure (hk : Counted fb n k) (a : α) : CountsOnce fb n (pure a : Call α) k :=
  countsOnce_of_keeps (hk.mono (Nat.le_succ n)) (Leads.pure a)

theorem countsOnce_requiring {right : Right} {body : Call ℕ} (hk : Counted fb n k)
    (h : CountsOnce fb n body k) : CountsOnce fb n (requiring right body) k :=
  leads_gets (Leads.ite (fun _ => h) fun _ => countsOnce_pure hk _)

theorem countsOnce_forProcess {body : ℕ → Call ℕ} (hk : Counted fb n k)
    (h : CountsOnce fb n (body k.currentPid) k) : CountsOnce fb n (forProcess body) k :=
  leads_gets (Leads.ite (fun _ => countsOnce_pure hk _) fun _ => h)

theorem countsOnce_ipc {x : Attempt Ports.Table Ports.IpcError α} (hk : Counted fb n k)
    (hx : ∀ r t, x.run k.ports = some (r, t) → Ports.Counted (n + 1) t) :
    CountsOnce fb n (ipc x) k :=
  leads_ipc fun r t hrun => ⟨hk.ticks.trans (Nat.le_succ n), hx r t hrun,
    hk.compositor.mono (Nat.le_succ n)⟩

theorem graphics_ok {x : Attempt Compositor.State ProgramExit α} {a : α}
    (h : (graphics x).run k = some (.ok a, u)) :
    ∃ c, x.run k.compositor = some (.ok a, c) ∧ u = { k with compositor := c } := by
  rw [graphics, run_of] at h
  obtain ⟨⟨r, c⟩, hx, heq⟩ := Option.map_eq_some_iff.mp h
  obtain ⟨rfl, rfl⟩ := Prod.mk.inj heq
  exact ⟨c, hx, rfl⟩

theorem graphics_unfailing {x : Attempt Compositor.State ProgramExit α} (hx : Unfailing x) :
    Unfailing (graphics x) := by
  intro k e u h
  rw [graphics, run_of] at h
  obtain ⟨⟨r, c⟩, hrun, heq⟩ := Option.map_eq_some_iff.mp h
  obtain ⟨rfl, rfl⟩ := Prod.mk.inj heq
  exact hx _ _ _ hrun

/-- A call of the compositor, by what it does and what is done with its value. -/
theorem countsOnce_graphics {β : Type} {x : Attempt Compositor.State ProgramExit α}
    {f : α → Call β} (hx : Unfailing x)
    (hf : ∀ a c, x.run k.compositor = some (.ok a, c) →
      CountsOnce fb n (f a) { k with compositor := c }) :
    CountsOnce fb n (graphics x >>= f) k := by
  refine Leads.bind_cases (fun e u hu => absurd hu (graphics_unfailing hx k e u)) ?_
  intro a u hu
  obtain ⟨c, hrun, rfl⟩ := graphics_ok hu
  exact hf a c hrun

theorem sysPortSend_counts (hk : Counted fb n k) (handle ptr len : ℕ) :
    CountsOnce fb n (sysPortSend handle ptr len) k := by
  refine countsOnce_requiring hk (countsOnce_forProcess hk (Leads.ite
    (fun _ => countsOnce_pure hk _) fun _ => leads_gets ?_))
  cases copyFromUser k.space ptr len with
  | none => exact countsOnce_pure hk _
  | some bytes =>
    have hsend := countsOnce_ipc (x := Ports.send k.currentPid handle bytes) hk
      fun r t ht => Ports.send_counted hk.ports ht
    exact Leads.bind_cases (fun e u hu => hsend _ u hu) fun r u hu =>
      countsOnce_of_keeps (hsend _ u hu) (leads_ipcAnswer r)

theorem sysSurfaceCreate_counts (hk : Counted fb n k) (width height : ℕ) :
    CountsOnce fb n (sysSurfaceCreate width height) k := by
  refine countsOnce_requiring hk (leads_gets ?_)
  cases k.currentProfile with
  | none => exact countsOnce_pure hk _
  | some profile =>
    refine leads_gets (countsOnce_graphics Compositor.createSurface_unfailing fun r c hc => ?_)
    have hcreated : Counted fb (n + 1) { k with compositor := c } :=
      ⟨hk.ticks.trans (Nat.le_succ n), hk.ports.mono (Nat.le_succ n),
        Compositor.createSurface_counted hk.compositor hc⟩
    cases r with
    | none => exact countsOnce_of_keeps hcreated (Leads.pure _)
    | some id => exact countsOnce_of_keeps hcreated (Leads.pure _)

theorem presentThrottled_counts (hk : Counted fb n k) : CountsOnce fb n presentThrottled k := by
  refine leads_gets (Leads.ite (fun _ => ?_) fun _ => countsOnce_pure hk _)
  intro r u hu
  rw [run_modifies_bind] at hu
  cases r with
  | error e => exact absurd hu (graphics_unfailing Compositor.present_unfailing _ e u)
  | ok a =>
    obtain ⟨c, hc, rfl⟩ := graphics_ok hu
    exact ⟨hk.ticks.trans (Nat.le_succ n), hk.ports.mono (Nat.le_succ n),
      Compositor.present_counted hk.compositor.presenting hc⟩

/-- A commit counts where it is rejected, or a frame where it is shown. -/
theorem sysSurfaceCommit_counts (hk : Counted fb n k) (id ptr len : ℕ) :
    CountsOnce fb n (sysSurfaceCommit id ptr len) k := by
  refine countsOnce_forProcess hk (leads_gets ?_)
  cases Compositor.surfaceGeometry k.compositor id k.currentPid with
  | none => exact countsOnce_pure hk _
  | some size =>
    refine Leads.demand_bind fun _ => Leads.ite (fun _ => countsOnce_pure hk _) fun _ =>
      leads_gets ?_
    refine countsOnce_graphics Compositor.commitSurfaceFromUser_unfailing fun accepted c hc => ?_
    have hdata : ∀ bytes, copyFromUserInto k.space ptr len = some bytes → bytes.length = len := by
      intro bytes hbytes
      rw [Compositor.copyFromUserInto_some hbytes]
      simp [UserSpace.read]
    have hcommitted := Compositor.commitSurfaceFromUser_counted hk.compositor hdata hc
    cases accepted with
    | false =>
      exact countsOnce_of_keeps (k := { k with compositor := c })
        ⟨hk.ticks.trans (Nat.le_succ n), hk.ports.mono (Nat.le_succ n), hcommitted⟩ (Leads.pure _)
    | true =>
      have hpresent := presentThrottled_counts (k := { k with compositor := c })
        ⟨hk.ticks, hk.ports, hcommitted⟩
      exact Leads.bind_cases (fun e u hu => hpresent _ u hu) fun _ u hu =>
        countsOnce_of_keeps (hpresent _ u hu) (Leads.pure _)

/-- Whichever the call, it counts at most once. -/
theorem dispatch_counts (hk : Counted fb n k) (arg1 arg2 arg3 : ℕ) :
    CountsOnce fb n (dispatch number arg1 arg2 arg3) k := by
  by_cases hnumber : number ∈ [50, 80, 81]
  · simp only [List.mem_cons, List.not_mem_nil, or_false] at hnumber
    obtain rfl | rfl | rfl := hnumber
    · exact sysPortSend_counts hk _ _ _
    · exact sysSurfaceCreate_counts hk _ _
    · exact sysSurfaceCommit_counts hk _ _ _
  · exact countsOnce_of_keeps (hk.mono (Nat.le_succ n))
      (leads_dispatch (admits_keepsCounts hnumber) _ _ _)

theorem next_counted {e : Event} (hk : Counted fb n k) (h : next k e = some u) :
    Counted fb (n + 1) u := by
  have hmono := hk.mono (Nat.le_succ n)
  cases e with
  | spawn profile space =>
    obtain rfl := Option.some.inj h
    exact ⟨hmono.ticks, hmono.ports, hmono.compositor⟩
  | switch pid =>
    obtain ⟨-, h⟩ := Option.ite_none_right_eq_some.mp h
    obtain rfl := Option.some.inj h
    exact ⟨hmono.ticks, hmono.ports, hmono.compositor⟩
  | enter =>
    obtain ⟨-, h⟩ := Option.ite_none_left_eq_some.mp h
    obtain rfl := Option.some.inj h
    exact ⟨hmono.ticks, hmono.ports, hmono.compositor⟩
  | compute bytes =>
    obtain ⟨-, h⟩ := Option.ite_none_right_eq_some.mp h
    obtain rfl := Option.some.inj h
    exact ⟨hmono.ticks, hmono.ports, hmono.compositor⟩
  | syscall number arg1 arg2 arg3 =>
    obtain ⟨-, h⟩ := Option.ite_none_right_eq_some.mp h
    obtain ⟨⟨r, w⟩, hcall, hsettled⟩ := Option.map_eq_some_iff.mp h
    have hw := dispatch_counts hk _ _ _ r w hcall
    cases r with
    | ok raw => exact hsettled ▸ hw
    | error exit => exact hsettled ▸ ⟨hw.ticks, hw.ports, hw.compositor⟩
  | fault exit =>
    obtain ⟨-, h⟩ := Option.ite_none_right_eq_some.mp h
    obtain rfl := Option.some.inj h
    exact ⟨hmono.ticks, hmono.ports, hmono.compositor⟩
  | removeSurfaces =>
    obtain ⟨-, h⟩ := Option.ite_none_right_eq_some.mp h
    obtain ⟨⟨r, w⟩, hrun, rfl⟩ := Option.map_eq_some_iff.mp h
    cases r with
    | error e =>
      exact absurd hrun (graphics_unfailing Compositor.removeSurfacesFor_unfailing k e w)
    | ok a =>
      obtain ⟨c, hc, rfl⟩ := graphics_ok hrun
      exact ⟨hmono.ticks, hmono.ports, Compositor.removeSurfacesFor_counted hmono.compositor hc⟩
  | closePorts =>
    obtain ⟨-, h⟩ := Option.ite_none_right_eq_some.mp h
    obtain rfl := Option.some.inj h
    exact ⟨hmono.ticks, hmono.ports.filter, hmono.compositor⟩
  | tick =>
    obtain rfl := Option.some.inj h
    exact ⟨(Nat.mod_le _ _).trans (Nat.succ_le_succ hk.ticks), hmono.ports, hmono.compositor⟩
  | input e =>
    obtain rfl := Option.some.inj h
    exact ⟨hmono.ticks, hmono.ports, hmono.compositor⟩
  | toggleLayout =>
    obtain rfl := Option.some.inj h
    exact ⟨hmono.ticks, hmono.ports, hmono.compositor⟩
  | mount fs =>
    obtain rfl := Option.some.inj h
    exact ⟨hmono.ticks, hmono.ports, hmono.compositor⟩

theorem run_counted {es : List Event} (hk : Counted fb n k) (h : exec next k es = some v) :
    Counted fb (n + es.length) v :=
  exec_counted (fun _ _ _ _ hw hu => next_counted hw hu) hk h

end Counters

section Answers

variable {α β : Type} {fb : Framebuffer} {n number : ℕ} {k u v : Kernel}

theorem returns_gets {f : Kernel → α} {g : α → Call β} (h : Returns (g (f k)) k) :
    Returns (gets f >>= g) k := h

theorem returns_modifies {f : Kernel → Kernel} {g : Unit → Call β} (h : Returns (g ()) (f k)) :
    Returns (modifies f >>= g) k := h

theorem returns_requiring {right : Right} {body : Call ℕ} (h : Returns body k) :
    Returns (requiring right body) k :=
  returns_gets (Returns.ite (fun _ => h) fun _ => Returns.pure _)

theorem returns_forProcess {body : ℕ → Call ℕ} (h : Returns (body k.currentPid) k) :
    Returns (forProcess body) k :=
  returns_gets (Returns.ite (fun _ => Returns.pure _) fun _ => h)

theorem returns_answerWith (ptr : ℕ) (data : List UInt8) (answer : ℕ) :
    Returns (answerWith ptr data answer) k := by
  refine returns_gets ?_
  cases copyToUser k.space ptr data with
  | none => exact Returns.pure _
  | some space => exact returns_modifies (Returns.pure _)

theorem returns_ipcAnswer (r : Except Ports.IpcError ℕ) : Returns (ipcAnswer r) k := by
  cases r with
  | ok n => exact Returns.pure _
  | error e => exact Returns.pure _

/-- An error of the ports is an answer too. -/
theorem returns_ipc {x : Attempt Ports.Table Ports.IpcError α}
    {f : Except Ports.IpcError α → Call β} (hx : ∃ r t, x.run k.ports = some (r, t))
    (hf : ∀ r t, x.run k.ports = some (r, t) → Returns (f r) { k with ports := t }) :
    Returns (ipc x >>= f) k := by
  obtain ⟨r, t, hrun⟩ := hx
  refine Returns.bind_of_ok (a := r) (u := { k with ports := t }) ?_ (hf r t hrun)
  rw [ipc, run_of, hrun]
  rfl

theorem returns_graphics {x : Attempt Compositor.State ProgramExit α} {f : α → Call β}
    (hx : Returns x k.compositor)
    (hf : ∀ a c, x.run k.compositor = some (.ok a, c) → Returns (f a) { k with compositor := c }) :
    Returns (graphics x >>= f) k := by
  obtain ⟨a, c, hrun⟩ := hx
  refine Returns.bind_of_ok (a := a) (u := { k with compositor := c }) ?_ (hf a c hrun)
  rw [graphics, run_of, hrun]
  rfl

theorem sysWrite_returns (descriptor ptr len : ℕ) : Returns (sysWrite descriptor ptr len) k := by
  refine Returns.ite (fun _ => Returns.pure _) fun _ => returns_gets ?_
  cases copyFromUser k.space ptr len with
  | none => exact Returns.pure _
  | some bytes => exact returns_modifies (Returns.pure _)

theorem sysRealmInfo_returns (out : ℕ) : Returns (sysRealmInfo out) k := by
  refine returns_gets (returns_gets ?_)
  cases k.currentProfile with
  | none => exact Returns.pure _
  | some profile => exact returns_answerWith _ _ _

theorem sysStat_returns (ptr len out : ℕ) : Returns (sysStat ptr len out) k := by
  refine returns_requiring (returns_gets ?_)
  cases readUserPath k.space ptr len with
  | error e => exact Returns.pure _
  | ok path =>
    refine returns_gets ?_
    cases FileSystem.lookup k.fs path with
    | none => exact Returns.pure _
    | some node => exact returns_answerWith _ _ _

theorem sysReaddir_returns (descriptor ptr len : ℕ) :
    Returns (sysReaddir descriptor ptr len) k := by
  refine returns_gets ?_
  cases getFile k descriptor with
  | none => exact Returns.pure _
  | some file =>
    refine Returns.ite (fun _ => Returns.pure _) fun _ => returns_gets ?_
    cases FileSystem.readDir k.fs file.path with
    | none => exact Returns.pure _
    | some children => exact returns_answerWith _ _ _

theorem sysPortCreate_returns (ptr len : ℕ) : Returns (sysPortCreate ptr len) k := by
  refine returns_requiring (returns_forProcess (returns_gets ?_))
  cases readIpcName k.space ptr len with
  | none => exact Returns.pure _
  | some name => exact returns_ipc ⟨_, _, rfl⟩ fun r _ _ => returns_ipcAnswer r

theorem sysPortConnect_returns (ptr len : ℕ) : Returns (sysPortConnect ptr len) k := by
  refine returns_requiring (returns_gets ?_)
  cases readIpcName k.space ptr len with
  | none => exact Returns.pure _
  | some name => exact returns_ipc ⟨_, _, rfl⟩ fun r _ _ => returns_ipcAnswer r

theorem sysPortSend_returns (hk : Counted fb n k) (hn : n * 1000 < 2 ^ 64) (handle ptr len : ℕ) :
    Returns (sysPortSend handle ptr len) k := by
  refine returns_requiring (returns_forProcess (Returns.ite (fun _ => Returns.pure _) fun _ =>
    returns_gets ?_))
  cases copyFromUser k.space ptr len with
  | none => exact Returns.pure _
  | some bytes =>
    exact returns_ipc (Ports.send_returns hk.ports (by omega)) fun r _ _ => returns_ipcAnswer r

theorem sysPortRecv_returns (handle ptr len : ℕ) : Returns (sysPortRecv handle ptr len) k := by
  refine returns_forProcess (returns_ipc ⟨_, _, rfl⟩ fun r _ _ => ?_)
  cases r with
  | error e => exact Returns.pure _
  | ok message => exact returns_answerWith _ _ _

theorem sysPortClose_returns (handle : ℕ) : Returns (sysPortClose handle) k := by
  refine returns_forProcess (returns_ipc ⟨_, _, rfl⟩ fun r _ _ => ?_)
  cases r with
  | error e => exact Returns.pure _
  | ok a => exact Returns.pure _

theorem sysInputPoll_returns (out count : ℕ) : Returns (sysInputPoll out count) k := by
  refine returns_requiring (Returns.ite (fun _ => Returns.pure _) fun _ => returns_gets ?_)
  exact returns_modifies (Returns.ite (fun _ => Returns.pure _) fun _ => returns_answerWith _ _ _)

theorem sysUptimeMs_returns (hk : Counted fb n k) (hn : n * 1000 < 2 ^ 64) :
    Returns sysUptimeMs k :=
  returns_gets (Returns.demand_bind ((Nat.mul_le_mul_right 1000 hk.ticks).trans_lt hn)
    (Returns.pure _))

/-- The tiling that a call leads to has a tile for every window. -/
structure HasTiles (fb : Framebuffer) (number : ℕ) (k : Kernel) : Prop where
  created : number = 80 → k.compositor.layout = .tiling →
    (windows k.compositor.surfaces).length + 1 ≤ tiles fb
  toggled : number = 81 → k.layoutToggle = true → k.compositor.layout = .floating →
    (windows k.compositor.surfaces).length ≤ tiles fb

theorem sysSurfaceCreate_returns (hk : Counted fb n k) (hn : n * 1000 < 2 ^ 64)
    (hwidth : fb.width < 2 ^ 30) (hheight : fb.height < 2 ^ 30) (hroom : HasTiles fb 80 k)
    (width height : ℕ) : Returns (sysSurfaceCreate width height) k := by
  refine returns_requiring (returns_gets ?_)
  cases k.currentProfile with
  | none => exact Returns.pure _
  | some profile =>
    refine returns_gets (returns_graphics (Compositor.createSurface_returns hk.compositor hn hwidth
      hheight (hroom.created rfl)) fun r _ _ => ?_)
    cases r with
    | none => exact Returns.pure _
    | some id => exact Returns.pure _

/-- A surface is little larger than the screen. -/
theorem surfaceGeometry_le {id pid width height : ℕ} (hk : Counted fb n k)
    (h : Compositor.surfaceGeometry k.compositor id pid = some (width, height)) :
    width ≤ fb.width + 7 ∧ height ≤ fb.height + 7 := by
  obtain ⟨s, hs, hsize⟩ := Option.map_eq_some_iff.mp h
  obtain ⟨rfl, rfl⟩ := Prod.mk.inj hsize
  obtain ⟨htop, hright, hbottom, -⟩ := hk.compositor.bounded.surfaces s (List.mem_of_find?_eq_some hs)
  unfold Compositor.trustBarHeight at htop
  omega

theorem presentThrottled_returns (hk : Counted fb n k) (hn : n * 1000 < 2 ^ 64)
    (hwidth : fb.width < 2 ^ 30) (hheight : fb.height < 2 ^ 30)
    (hroom : k.layoutToggle = true → k.compositor.layout = .floating →
      (windows k.compositor.surfaces).length ≤ tiles fb) : Returns presentThrottled k := by
  have hframes := hk.compositor.frames
  refine returns_gets (Returns.ite (fun _ => returns_modifies ?_) fun _ => Returns.pure _)
  obtain ⟨a, c, hrun⟩ : Returns (Compositor.present k.layoutToggle : Attempt _ ProgramExit Unit)
      { k.compositor with lastPresentTick := k.ticks } :=
    Compositor.present_returns hk.compositor.bounded.framebuffer
      (show k.compositor.frames + 1 < 2 ^ 64 by omega) hwidth hheight hroom
  refine Returns.of_run (a := a) (u := { k with layoutToggle := false, compositor := c }) ?_
  rw [graphics, run_of]
  exact congrArg _ hrun

theorem sysSurfaceCommit_returns (hk : Counted fb n k) (hn : n * 1000 < 2 ^ 64)
    (hwidth : fb.width < 2 ^ 30) (hheight : fb.height < 2 ^ 30) (hroom : HasTiles fb 81 k)
    (id ptr len : ℕ) : Returns (sysSurfaceCommit id ptr len) k := by
  have hrejected := hk.compositor.rejectedCommits
  refine returns_forProcess (returns_gets ?_)
  cases hsize : Compositor.surfaceGeometry k.compositor id k.currentPid with
  | none => exact Returns.pure _
  | some size =>
    obtain ⟨width, height⟩ := size
    obtain ⟨hw, hh⟩ := surfaceGeometry_le hk hsize
    have harea : width * height ≤ (2 ^ 30 + 6) * (2 ^ 30 + 6) := Nat.mul_le_mul (by omega) (by omega)
    refine Returns.demand_bind (by omega) (Returns.ite (fun _ => Returns.pure _) fun _ =>
      returns_gets ?_)
    refine returns_graphics (Compositor.commitSurfaceFromUser_returns (by omega))
      fun accepted c hc => Returns.ite (fun haccepted => ?_) fun _ => Returns.pure _
    have hdata : ∀ bytes, copyFromUserInto k.space ptr len = some bytes → bytes.length = len := by
      intro bytes hbytes
      rw [Compositor.copyFromUserInto_some hbytes]
      simp [UserSpace.read]
    have hcommitted := Compositor.commitSurfaceFromUser_counted hk.compositor hdata hc
    rw [if_pos haccepted] at hcommitted
    have hsame := Compositor.commitSurfaceFromUser_windows hc
    refine Returns.bind (presentThrottled_returns (k := { k with compositor := c })
      ⟨hk.ticks, hk.ports, hcommitted⟩ hn hwidth hheight ?_) fun _ _ _ => Returns.pure _
    intro htoggle hlayout
    rw [hsame.2]
    exact hroom.toggled rfl htoggle (hsame.1 ▸ hlayout)

theorem sysSurfaceInfo_returns (hk : Counted fb n k) (hwidth : fb.width < 2 ^ 30) (id out : ℕ) :
    Returns (sysSurfaceInfo id out) k := by
  refine returns_gets (returns_gets ?_)
  cases hsize : Compositor.surfaceGeometry k.compositor id k.currentPid with
  | none => exact Returns.pure _
  | some size =>
    obtain ⟨hw, -⟩ := surfaceGeometry_le hk hsize
    exact Returns.demand_bind (by omega) (returns_answerWith _ _ _)

/-- Each call but the exit returns, where a tiling that it leads to has the room. -/
theorem dispatch_returns {archive : List UInt8} (htidy : Tidy archive k) (hk : Counted fb n k)
    (hn : n * 1000 < 2 ^ 64) (hwidth : fb.width < 2 ^ 30) (hheight : fb.height < 2 ^ 30)
    (hnumber : number ≠ 0) (hroom : HasTiles fb number k) (arg1 arg2 arg3 : ℕ) :
    Returns (dispatch number arg1 arg2 arg3) k := by
  by_cases hfiles : number ∈ [17, 18, 19, 20]
  · obtain ⟨-, raw, u, -, hrun, -⟩ := call_answers htidy hfiles arg1 arg2 arg3
    exact Returns.of_run hrun
  unfold dispatch
  split
  · exact absurd rfl hnumber
  · exact Returns.pure _
  · exact returns_gets (Returns.pure _)
  · exact sysWrite_returns _ _ _
  · exact absurd (by decide) hfiles
  · exact absurd (by decide) hfiles
  · exact absurd (by decide) hfiles
  · exact absurd (by decide) hfiles
  · exact sysReaddir_returns _ _ _
  · exact sysStat_returns _ _ _
  · obtain ⟨m, -, hrun⟩ := run_sysWriteCstr k arg1
    exact Returns.of_run hrun
  · exact sysPortCreate_returns _ _
  · exact sysPortConnect_returns _ _
  · exact sysPortSend_returns hk hn _ _ _
  · exact sysPortRecv_returns _ _ _
  · exact sysPortClose_returns _
  · exact sysRealmInfo_returns _
  · exact returns_gets (Returns.pure _)
  · exact sysUptimeMs_returns hk hn
  · exact sysSurfaceCreate_returns hk hn hwidth hheight hroom _ _
  · exact sysSurfaceCommit_returns hk hn hwidth hheight hroom _ _ _
  · exact sysSurfaceInfo_returns hk hwidth _ _
  · exact sysInputPoll_returns _ _
  · exact Returns.pure _

/-- The small archive, and a screen of eight pixels by thirty. -/
def screenBoot : Kernel := { smallBoot with compositor := Compositor.blankScreen }

/-- A window is created, and the layout's key is pressed before the commit to it. -/
def screenRun : List Event :=
  [.spawn Realms.home smallSpace, .switch 1, .enter, .syscall 80 2 1 0, .toggleLayout]

theorem screenBoot_mounts :
    (FileSystem.mount smallArchive).run none = some (.ok 2, screenBoot.fs) := by decide +kernel

theorem screenBoot_counted : Counted Compositor.smallScreen 0 screenBoot :=
  ⟨le_rfl, fun p hp => absurd hp List.not_mem_nil,
    Compositor.counted_blank rfl (by decide) rfl rfl rfl rfl⟩

theorem screenRun_fixed (fs : FileSystem.Mounted) : Event.mount fs ∉ screenRun := by
  simp [screenRun]

end Answers

end Syscalls
