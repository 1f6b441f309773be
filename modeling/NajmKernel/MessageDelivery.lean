import NajmKernel.SyscallEffects

/-! Messages between processes, from the call that queued them to the call that delivers them. -/
namespace Syscalls

open KernelMachine (ProgramExit)
open Realms
open Attempts Attempt UserMemory TransitionSystem

section Queues

variable {k k' u : Kernel} {number : ℕ} {e : Event}

/-- Every queued message was in a queue of that handle before. -/
def NoneQueued (k k' : Kernel) : Prop :=
  ∀ p ∈ k'.ports.ports, ∀ m ∈ p.queue, ∃ q ∈ k.ports.ports, q.handle = p.handle ∧ m ∈ q.queue

instance : IsPreorder Kernel NoneQueued where
  refl _ p hp m hm := ⟨p, hp, rfl, hm⟩
  trans _ _ _ h h' p hp m hm := by
    obtain ⟨q, hq, hqp, hm⟩ := h' p hp m hm
    obtain ⟨r, hr, hrq, hm⟩ := h q hq m hm
    exact ⟨r, hr, hrq.trans hqp, hm⟩

theorem noneQueued_of_eq (h : k'.ports = k.ports) : NoneQueued k k' := by
  intro p hp m hm
  rw [h] at hp
  exact ⟨p, hp, rfl, hm⟩

theorem noneQueued_of_sub {t : Ports.Table} (h : ∀ p ∈ t.ports, p ∈ k.ports.ports) :
    NoneQueued k { k with ports := t } :=
  fun p hp _ hm => ⟨p, h p hp, rfl, hm⟩

theorem noneQueued_modify {handle : ℕ} {f : Ports.Port → Ports.Port}
    (hhandle : ∀ p, (f p).handle = p.handle)
    (hqueue : ∀ p ∈ k.ports.ports, p.handle = handle → ∀ m ∈ (f p).queue,
      ∃ q ∈ k.ports.ports, q.handle = p.handle ∧ m ∈ q.queue) :
    NoneQueued k { k with ports := k.ports.modify handle f } := by
  intro p hp m hm
  obtain ⟨q, hq, ⟨hqh, rfl⟩ | ⟨-, rfl⟩⟩ := Ports.Table.mem_modify hp
  · obtain ⟨r, hr, hrq, hm⟩ := hqueue q hq hqh m hm
    exact ⟨r, hr, hrq.trans (hhandle q).symm, hm⟩
  · exact ⟨p, hq, rfl, hm⟩

theorem noneQueued_recv {receiver handle : ℕ} {r : Except Ports.IpcError Ports.Message}
    {t : Ports.Table} (h : (Ports.recv receiver handle).run k.ports = some (r, t)) :
    NoneQueued k { k with ports := t } := by
  rcases Ports.recv_run (t := k.ports) receiver handle with
    ⟨e, he⟩ | ⟨p, m, queue, hp, -, hq, hok⟩
  · obtain ⟨-, rfl⟩ := Prod.mk.inj (Option.some.inj (he.symm.trans h))
    exact noneQueued_of_eq rfl
  · obtain ⟨-, rfl⟩ := Prod.mk.inj (Option.some.inj (hok.symm.trans h))
    obtain ⟨hmem, hhandle⟩ := Ports.Table.find_some hp
    refine noneQueued_modify (fun _ => rfl) fun q _ hqp m' hm' => ?_
    exact ⟨p, hmem, hhandle.trans hqp.symm, hq ▸ List.mem_cons_of_mem m hm'⟩

theorem noneQueued_create {owner : ℕ} {name : List UInt8} {r : Except Ports.IpcError ℕ}
    {t : Ports.Table} (h : (Ports.create owner name).run k.ports = some (r, t)) :
    NoneQueued k { k with ports := t } := by
  rcases Ports.create_run (t := k.ports) owner name with ⟨⟨e, he⟩, -⟩ | ⟨hok, -⟩
  · obtain ⟨-, rfl⟩ := Prod.mk.inj (Option.some.inj (he.symm.trans h))
    exact noneQueued_of_eq rfl
  · obtain ⟨-, rfl⟩ := Prod.mk.inj (Option.some.inj (hok.symm.trans h))
    intro p hp m hm
    rcases List.mem_append.mp hp with hp | hp
    · exact ⟨p, List.mem_of_mem_filter hp, rfl, hm⟩
    · rcases List.mem_cons.mp hp with rfl | hp
      · exact absurd hm nofun
      · exact ⟨p, List.mem_of_mem_filter hp, rfl, hm⟩

theorem noneQueued_close {owner handle : ℕ} {r : Except Ports.IpcError Unit} {t : Ports.Table}
    (h : (Ports.close owner handle).run k.ports = some (r, t)) :
    NoneQueued k { k with ports := t } := by
  rcases Ports.close_run (t := k.ports) owner handle with ⟨e, he⟩ | hok
  · obtain ⟨-, rfl⟩ := Prod.mk.inj (Option.some.inj (he.symm.trans h))
    exact noneQueued_of_eq rfl
  · obtain ⟨-, rfl⟩ := Prod.mk.inj (Option.some.inj (hok.symm.trans h))
    exact noneQueued_of_sub fun p hp => List.mem_of_mem_filter hp

theorem admits_noneQueued (h : number ≠ 50) : Admits NoneQueued number where
  space _ _ _ := noneQueued_of_eq rfl
  files _ _ _ := noneQueued_of_eq rfl
  console _ _ _ := noneQueued_of_eq rfl
  create _ _ _ _ _ _ hrun := noneQueued_create hrun
  send hsend := absurd hsend h
  recv _ _ _ _ _ hrun := noneQueued_recv hrun
  close _ _ _ _ _ hrun := noneQueued_close hrun
  surface _ _ _ _ _ _ _ _ _ _ := noneQueued_of_eq rfl
  commit _ _ _ _ _ _ _ _ := noneQueued_of_eq rfl
  throttle _ _ := noneQueued_of_eq rfl
  present _ _ _ _ _ _ := noneQueued_of_eq rfl
  input _ _ _ _ := noneQueued_of_eq rfl

theorem call_noneQueued {n arg1 arg2 arg3 : UInt64} (hn : n ≠ 50)
    {r : Except ProgramExit ℕ} (h : k.call n arg1 arg2 arg3 = some (r, k')) : NoneQueued k k' :=
  leads_dispatch (admits_noneQueued fun heq => hn (UInt64.toNat_inj.mp heq)) _ _ _ r k' h

theorem settled_ports (r : Except ProgramExit ℕ × Kernel) : (settled r).ports = r.2.ports := by
  obtain ⟨exit | n, k⟩ := r <;> rfl

/-- An event that may be disabled, and changes no port where it is not. -/
theorem ite_ports {c : Prop} [Decidable c] (h : (if c then some k' else none) = some u)
    (hports : k'.ports = k.ports) : u.ports = k.ports := by
  split at h
  · obtain rfl := Option.some.inj h
    exact hports
  · exact absurd h nofun

theorem next_ports (hsyscall : ∀ n arg1 arg2 arg3, e ≠ .syscall n arg1 arg2 arg3)
    (hclose : e ≠ .closePorts) (hu : next k e = some u) : u.ports = k.ports := by
  cases e with
  | syscall n arg1 arg2 arg3 => exact absurd rfl (hsyscall n arg1 arg2 arg3)
  | closePorts => exact absurd rfl hclose
  | switch pid => exact ite_ports hu rfl
  | enter =>
    simp only [next] at hu
    split at hu
    · exact absurd hu nofun
    · obtain rfl := Option.some.inj hu
      rfl
  | compute bytes => exact ite_ports hu rfl
  | fault exit => exact ite_ports hu rfl
  | removeSurfaces =>
    simp only [next] at hu
    split at hu
    · obtain ⟨⟨r, k'⟩, hk', rfl⟩ := Option.map_eq_some_iff.mp hu
      exact leads_graphics (R := fun k k' => k'.ports = k.ports) (fun _ _ _ => rfl) r k' hk'
    · exact absurd hu nofun
  | _ =>
    obtain rfl := Option.some.inj hu
    rfl

theorem next_noneQueued (he : ∀ handle ptr len, e ≠ .syscall 50 handle ptr len)
    (hu : next k e = some u) : NoneQueued k u := by
  by_cases hclose : e = .closePorts
  · subst hclose
    simp only [next] at hu
    split at hu
    · obtain rfl := Option.some.inj hu
      exact noneQueued_of_sub fun p hp => List.mem_of_mem_filter hp
    · exact absurd hu nofun
  by_cases hsyscall : ∀ n arg1 arg2 arg3, e ≠ .syscall n arg1 arg2 arg3
  · exact noneQueued_of_eq (next_ports hsyscall hclose hu)
  · simp only [ne_eq, not_forall, not_not] at hsyscall
    obtain ⟨n, arg1, arg2, arg3, rfl⟩ := hsyscall
    simp only [next] at hu
    split at hu
    · obtain ⟨⟨r, k'⟩, hk', rfl⟩ := Option.map_eq_some_iff.mp hu
      have hn : n ≠ 50 := by
        rintro rfl
        exact he arg1 arg2 arg3 rfl
      intro p hp
      rw [settled_ports] at hp
      exact call_noneQueued hn hk' p hp
    · exact absurd hu nofun

end Queues

section Calls

variable {k k' : Kernel} {handle ptr len : ℕ} {r : Except ProgramExit ℕ}

theorem isError_ipcError (e : Ports.IpcError) : isError (ipcError e) = true := by
  cases e <;> decide

theorem not_isError {n : ℕ} (h : n ≤ Ports.maxMessage) : isError n = false := by
  have hlarge : ¬ encodeError 4095 ≤ n := by
    unfold encodeError
    unfold Ports.maxMessage at h
    omega
  rw [isError, decide_eq_false hlarge]

theorem run_ipc_bind {α β : Type} {x : Attempt Ports.Table Ports.IpcError α}
    {f : Except Ports.IpcError α → Call β} :
    (ipc x >>= f).run k = match x.run k.ports with
      | none => none
      | some (a, t) => (f a).run { k with ports := t } := by
  rw [run_bind, ipc, run_of]
  cases x.run k.ports <;> rfl

/-- What `port_send` comes to: an error, or the message at the end of its port's queue. -/
theorem sysPortSend_run (h : (sysPortSend handle ptr len).run k = some (r, k')) :
    (∃ n, r = .ok n ∧ isError n = true ∧ NoneQueued k k') ∨
    ∃ bytes p, copyFromUser k.space ptr len = some bytes ∧ k.ports.find handle = some p ∧
      bytes.length ≤ Ports.maxMessage ∧ r = .ok bytes.length ∧
      k' = { k with ports := k.ports.modify handle fun q =>
        { q with queue := q.queue ++ [⟨k.currentPid, bytes⟩] } } := by
  have hrefused : ∀ {n}, isError n = true →
      some (Except.ok (ε := ProgramExit) n, k) = some (r, k') →
      ∃ n, r = .ok n ∧ isError n = true ∧ NoneQueued k k' := by
    intro n hn heq
    obtain ⟨rfl, rfl⟩ := Prod.mk.inj (Option.some.inj heq)
    exact ⟨n, rfl, hn, noneQueued_of_eq rfl⟩
  rw [sysPortSend, requiring, run_gets_bind] at h
  split at h
  · rw [forProcess, run_gets_bind] at h
    split at h
    · exact Or.inl (hrefused (by decide) h)
    · split at h
      · exact Or.inl (hrefused (by decide) h)
      · rw [run_gets_bind] at h
        cases hcopy : copyFromUser k.space ptr len with
        | none =>
          rw [hcopy] at h
          exact Or.inl (hrefused (by decide) h)
        | some bytes =>
          simp only [hcopy, run_ipc_bind] at h
          cases hsend : (Ports.send k.currentPid handle bytes).run k.ports with
          | none => simp [hsend] at h
          | some s =>
            obtain ⟨s, t⟩ := s
            simp only [hsend] at h
            obtain ⟨⟨e, rfl⟩, ht⟩ | ⟨p, hp, hshort, -, rfl, rfl⟩ := Ports.send_run hsend
            · obtain ⟨rfl, rfl⟩ := Prod.mk.inj (Option.some.inj h)
              refine Or.inl ⟨_, rfl, isError_ipcError e, ?_⟩
              rcases ht with rfl | rfl
              · exact noneQueued_of_eq rfl
              · exact noneQueued_modify (fun _ => rfl) fun q hq _ m hm => ⟨q, hq, rfl, hm⟩
            · obtain ⟨rfl, rfl⟩ := Prod.mk.inj (Option.some.inj h)
              exact Or.inr ⟨bytes, p, rfl, hp, hshort, rfl, rfl⟩
  · exact Or.inl (hrefused (by decide) h)

/-- The kernel with a message taken from the front of its port's queue. -/
def Kernel.taken (k : Kernel) (handle : ℕ) (queue : List Ports.Message) : Kernel :=
  { k with ports := k.ports.modify handle fun q => { q with queue := queue } }

/-- What `port_recv` comes to where there is a message for the caller. -/
theorem sysPortRecv_front {p : Ports.Port} {m : Ports.Message} {queue : List Ports.Message}
    (ptr len : ℕ) (hpid : k.currentPid ≠ 0) (hp : k.ports.find handle = some p) (howner : p.owner = k.currentPid)
    (hqueue : p.queue = m :: queue) :
    (sysPortRecv handle ptr len).run k =
      match copyToUser k.space ptr (m.bytes.take (min m.bytes.length len)) with
      | none => some (.ok (encodeError EFAULT), k.taken handle queue)
      | some space => some (.ok (min m.bytes.length len), { k.taken handle queue with
          spaces := Function.update k.spaces k.currentPid space }) := by
  have hrun : (Ports.recv k.currentPid handle).run k.ports = some (.ok m,
      k.ports.modify handle fun q => { q with queue := queue }) := by
    rw [Ports.recv, run_of, hp]
    simp [howner, hqueue]
  rw [sysPortRecv, forProcess, run_gets_bind, if_neg hpid, run_ipc_bind, hrun]
  dsimp only
  rw [answerWith, run_gets_bind]
  change Attempt.run (match copyToUser k.space _ _ with | none => _ | some space => _) _ = _
  cases copyToUser k.space ptr (m.bytes.take (min m.bytes.length len)) with
  | none => rfl
  | some space =>
    rw [run_modifies_bind, run_pure, List.length_take, min_eq_left (min_le_left _ _)]
    rfl

/-- Without one, the answer is an error. -/
theorem sysPortRecv_none (ptr len : ℕ) (h : ∀ p m queue, k.ports.find handle = some p →
      p.owner = k.currentPid → p.queue = m :: queue → k.currentPid = 0) :
    ∃ n, (sysPortRecv handle ptr len).run k = some (.ok n, k) ∧ isError n = true := by
  rw [sysPortRecv, forProcess, run_gets_bind]
  by_cases hpid : k.currentPid = 0
  · exact ⟨_, by rw [if_pos hpid, run_pure], by decide⟩
  · rw [if_neg hpid, run_ipc_bind]
    rcases Ports.recv_run (t := k.ports) k.currentPid handle with
      ⟨e, he⟩ | ⟨p, m, queue, hp, howner, hqueue, -⟩
    · rw [he]
      exact ⟨_, run_pure, isError_ipcError e⟩
    · exact absurd (h p m queue hp howner hqueue) hpid

end Calls

section Delivery

variable {k₀ k u : Kernel} {es : List Event} {handle ptr len : UInt64}

/-- A `port_send` of the run has queued the message under this handle, and answered `n`. -/
def Sent (k₀ : Kernel) (es : List Event) (handle : ℕ) (m : Ports.Message) (n : ℕ) : Prop :=
  ∃ es₁ h ptr len es₂ u u', es = es₁ ++ .syscall 50 h ptr len :: es₂ ∧
    exec next k₀ es₁ = some u ∧ u.call 50 h ptr len = some (.ok n, u') ∧ isError n = false ∧
    h.toNat = handle ∧ u.currentPid = m.sender ∧
    copyFromUser u.space ptr.toNat len.toNat = some m.bytes ∧
    ∃ p ∈ u'.ports.ports, p.handle = handle ∧ p.queue.getLast? = some m

/-- A `port_recv` that does not fail delivers a whole message: the bytes at `ptr` are those of the
front of the queue, and the answer is the one that the call which queued it got. -/
def Whole (k₀ : Kernel) (es : List Event) (u : Kernel) (handle ptr len : UInt64) : Prop :=
  ∀ n u', u.call 51 handle ptr len = some (.ok n, u') → isError n = false →
    ∃ p m queue, u.ports.find handle.toNat = some p ∧ p.owner = u.currentPid ∧
      p.queue = m :: queue ∧ u'.ports = (u.taken handle.toNat queue).ports ∧
      Sent k₀ es handle.toNat m n ∧ u'.space.read ptr.toNat n = m.bytes

/-- Every `port_recv` of the run's programs delivers whole messages. -/
def MessagesWhole (k₀ : Kernel) (es : List Event) : Prop :=
  ∀ es₁ handle ptr len es₂ u, es = es₁ ++ .syscall 51 handle ptr len :: es₂ →
    exec next k₀ es₁ = some u → u.supervised u.currentPid = true → Whole k₀ es₁ u handle ptr len

/-- The message that waits for the call is no longer than the buffer, or the buffer cannot be
written, which the call finds out after it has taken the message. -/
def Roomy (k : Kernel) : Event → Prop
  | .syscall number handle ptr len => number = 51 → k.supervised k.currentPid = true →
      k.currentPid ≠ 0 → ∀ p m queue, k.ports.find handle.toNat = some p →
      p.owner = k.currentPid → p.queue = m :: queue →
      m.bytes.length ≤ len.toNat ∨
        rangeIsUser k.space ptr.toNat (m.bytes.take len.toNat).length true = false
  | _ => True

/-- Every queued message was sent. -/
def Traced (k₀ : Kernel) (es : List Event) (u : Kernel) : Prop :=
  ∀ p ∈ u.ports.ports, ∀ m ∈ p.queue,
    m.bytes.length ≤ Ports.maxMessage ∧ Sent k₀ es p.handle m m.bytes.length

theorem Sent.snoc {n h : ℕ} {m : Ports.Message} {e : Event} (hs : Sent k₀ es h m n) :
    Sent k₀ (es ++ [e]) h m n := by
  obtain ⟨es₁, g, ptr, len, es₂, u, u', rfl, hrest⟩ := hs
  exact ⟨es₁, g, ptr, len, es₂ ++ [e], u, u', by simp, hrest⟩

theorem Traced.noneQueued {e : Event} (h : Traced k₀ es k) (hu : NoneQueued k u) :
    Traced k₀ (es ++ [e]) u := by
  intro p hp m hm
  obtain ⟨q, hq, hqp, hm⟩ := hu p hp m hm
  obtain ⟨hshort, hsent⟩ := h q hq m hm
  exact ⟨hshort, (hqp ▸ hsent).snoc⟩

theorem call_send (h : k.call 50 handle ptr len = some (r, u)) :
    (∃ n, r = .ok n ∧ isError n = true ∧ NoneQueued k u) ∨
    ∃ bytes p, copyFromUser k.space ptr.toNat len.toNat = some bytes ∧
      k.ports.find handle.toNat = some p ∧ bytes.length ≤ Ports.maxMessage ∧
      r = .ok bytes.length ∧
      u = { k with ports := k.ports.modify handle.toNat fun q =>
        { q with queue := q.queue ++ [⟨k.currentPid, bytes⟩] } } :=
  sysPortSend_run h

theorem Traced.send (h : Traced k₀ es k) (hk : exec next k₀ es = some k)
    (hu : next k (.syscall 50 handle ptr len) = some u) :
    Traced k₀ (es ++ [Event.syscall 50 handle ptr len]) u := by
  simp only [next] at hu
  split at hu
  · obtain ⟨⟨r, k'⟩, hcall, rfl⟩ := Option.map_eq_some_iff.mp hu
    obtain ⟨n, rfl, -, hnone⟩ | ⟨bytes, p, hcopy, hp, hshort, rfl, hk'⟩ := call_send hcall
    · exact h.noneQueued hnone
    · intro q hq m hm
      have hports : k'.ports = k.ports.modify handle.toNat fun q =>
          { q with queue := q.queue ++ [⟨k.currentPid, bytes⟩] } := by rw [hk']
      change q ∈ k'.ports.ports at hq
      have hq' := hq
      rw [hports] at hq'
      obtain ⟨q, hqmem, ⟨hqh, rfl⟩ | ⟨-, rfl⟩⟩ := Ports.Table.mem_modify hq'
      · rcases List.mem_append.mp hm with hm | hm
        · obtain ⟨hm, hsent⟩ := h q hqmem m hm
          exact ⟨hm, hsent.snoc⟩
        · obtain rfl := List.mem_singleton.mp hm
          refine ⟨hshort, es, handle, ptr, len, [], k, k', rfl, hk, hcall, not_isError hshort,
            hqh.symm, rfl, hcopy, _, hq, rfl, ?_⟩
          rw [List.getLast?_append, List.getLast?_singleton, Option.some_or]
      · obtain ⟨hm, hsent⟩ := h _ hqmem m hm
        exact ⟨hm, hsent.snoc⟩
  · exact absurd hu nofun

theorem run_traced (hempty : k₀.ports.ports = []) (hu : exec next k₀ es = some u) :
    Traced k₀ es u := by
  induction es using List.reverseRecOn generalizing u with
  | nil =>
    obtain rfl : k₀ = u := by simpa using hu
    intro p hp
    rw [hempty] at hp
    exact absurd hp nofun
  | append_singleton es e ih =>
    obtain ⟨k, hk, hu⟩ := exec_snoc.mp hu
    by_cases he : ∀ handle ptr len, e ≠ .syscall 50 handle ptr len
    · exact (ih hk).noneQueued (next_noneQueued he hu)
    · simp only [ne_eq, not_forall, not_not] at he
      obtain ⟨handle, ptr, len, rfl⟩ := he
      exact (ih hk).send hk hu

theorem taken_space (k : Kernel) (h : ℕ) (queue : List Ports.Message) (s : UserSpace) :
    ({ k.taken h queue with spaces := Function.update k.spaces k.currentPid s } : Kernel).space =
      s :=
  Function.update_self ..

theorem take_min (data : List UInt8) (n : ℕ) : data.take (min data.length n) = data.take n := by
  rw [min_comm, ← List.take_take, List.take_length]

theorem whole_of_roomy (ht : Traced k₀ es u) (hrun : u.supervised u.currentPid = true)
    (h : Roomy u (.syscall 51 handle ptr len)) : Whole k₀ es u handle ptr len := by
  intro n u' hcall hn
  change (sysPortRecv handle.toNat ptr.toNat len.toNat).run u = some (.ok n, u') at hcall
  by_cases hfront : ∀ p m queue, u.ports.find handle.toNat = some p → p.owner = u.currentPid →
      p.queue = m :: queue → u.currentPid = 0
  · obtain ⟨n', hnone, herror⟩ := sysPortRecv_none ptr.toNat len.toNat hfront
    obtain ⟨h', -⟩ := Prod.mk.inj (Option.some.inj (hcall.symm.trans hnone))
    rw [Except.ok.inj h', herror] at hn
    exact absurd hn nofun
  simp only [not_forall] at hfront
  obtain ⟨p, m, queue, hp, howner, hqueue, hpid⟩ := hfront
  rw [sysPortRecv_front ptr.toNat len.toNat hpid hp howner hqueue] at hcall
  cases hcopy : copyToUser u.space ptr.toNat (m.bytes.take (min m.bytes.length len.toNat)) with
  | none =>
    simp only [hcopy, Option.some.injEq, Prod.mk.injEq, Except.ok.injEq] at hcall
    rw [← hcall.1] at hn
    exact absurd hn (by decide)
  | some space =>
    simp only [hcopy, Option.some.injEq, Prod.mk.injEq, Except.ok.injEq] at hcall
    obtain ⟨rfl, rfl⟩ := hcall
    obtain ⟨-, hrange, rfl⟩ := copyToUser_some hcopy
    obtain ⟨hmem, hhandle⟩ := Ports.Table.find_some hp
    obtain ⟨-, hsent⟩ := ht p hmem m (by rw [hqueue]; exact List.mem_cons_self)
    have hlen : m.bytes.length ≤ len.toNat := by
      rcases h rfl hrun hpid p m queue hp howner hqueue with hlen | hrefused
      · exact hlen
      · rw [take_min, hrefused] at hrange
        exact absurd hrange nofun
    refine ⟨p, m, queue, hp, howner, hqueue, rfl, ?_, ?_⟩
    · rw [min_eq_left hlen, ← hhandle]
      exact hsent
    · rw [taken_space, min_eq_left hlen, List.take_length]
      exact read_write _ _ _

theorem roomy_of_whole (ht : Traced k₀ es u) {number : UInt64}
    (h : number = 51 → u.supervised u.currentPid = true → Whole k₀ es u handle ptr len) :
    Roomy u (.syscall number handle ptr len) := by
  rintro rfl hrun hpid p m queue hp howner hqueue
  rw [or_iff_not_imp_left, Nat.not_le]
  intro hlong
  apply Bool.eq_false_of_not_eq_true
  intro hrange
  obtain ⟨hmem, -⟩ := Ports.Table.find_some hp
  obtain ⟨hshort, -⟩ := ht p hmem m (by rw [hqueue]; exact List.mem_cons_self)
  have hcopy : copyToUser u.space ptr.toNat (m.bytes.take (min m.bytes.length len.toNat)) =
      some (u.space.write ptr.toNat (m.bytes.take len.toNat)) := by
    have htransfer : ¬ (m.bytes.take len.toNat).length > maxUserTransfer := by
      rw [List.length_take, maxUserTransfer]
      unfold Ports.maxMessage at hshort
      omega
    rw [copyToUser, take_min, if_neg htransfer, if_pos hrange]
  have hcall := sysPortRecv_front ptr.toNat len.toNat hpid hp howner hqueue
  rw [hcopy, min_eq_right hlong.le] at hcall
  obtain ⟨p', m', queue', hp', -, hqueue', -, -, hread⟩ :=
    h rfl hrun _ _ hcall (not_isError (hlong.le.trans hshort))
  obtain rfl := Option.some.inj (hp.symm.trans hp')
  obtain ⟨rfl, -⟩ := List.cons.inj (hqueue.symm.trans hqueue')
  have hlen := congrArg List.length hread
  rw [UserSpace.read, List.length_map, List.length_range] at hlen
  exact absurd hlen hlong.ne

/-- No message is lost in part exactly where no buffer is too small for what waits for it. -/
theorem messages_whole_iff (hempty : k₀.ports.ports = []) :
    MessagesWhole k₀ es ↔ Meets next Roomy k₀ es := by
  rw [meets_iff]
  constructor
  · intro h es₁ e es₂ u hes hu
    cases e with
    | syscall number handle ptr len =>
      refine roomy_of_whole (run_traced hempty hu) fun hnumber hrun => ?_
      subst hnumber
      exact h es₁ handle ptr len es₂ u hes hu hrun
    | _ => trivial
  · intro h es₁ handle ptr len es₂ u hes hu hrun
    exact whole_of_roomy (run_traced hempty hu) hrun (h es₁ _ es₂ u hes hu)

/-- A process of its own pages makes a port and sends itself two bytes. -/
def sendTwo : List Event :=
  [.spawn home ⟨fun _ => true, fun _ => true, fun _ => 0x61⟩, .switch 1, .enter,
    .syscall 48 0x400000 1 0, .syscall 50 1 0x400000 2]

theorem sendTwo_run : ∃ u, exec next boot sendTwo = some u ∧ u.supervised u.currentPid = true ∧
    u.currentPid = 1 ∧ u.ports.find 1 =
      some ⟨1, PeParser.fromUtf8Lossy [0x61], 1, [⟨1, [0x61, 0x61]⟩], 0⟩ ∧
    rangeIsUser u.space 0x400000 1 true = true :=
  ⟨_, rfl, rfl, rfl, rfl, rfl⟩

theorem messages_whole_iff_twoBytes :
    MessagesWhole boot (sendTwo ++ [Event.syscall 51 1 0x400000 2]) := by
  refine (messages_whole_iff rfl).mpr ?_
  obtain ⟨u, hu, -, -, hp, -⟩ := sendTwo_run
  refine (meets_append hu).mpr ⟨?_, ?_, fun _ _ => trivial⟩
  · exact ⟨trivial, fun _ _ => ⟨trivial, fun _ _ => ⟨trivial, fun _ _ =>
      ⟨fun h => absurd h (by decide), fun _ _ => ⟨fun h => absurd h (by decide), fun _ _ =>
        trivial⟩⟩⟩⟩⟩
  · intro _ _ _ p m queue hfind _ hqueue
    obtain rfl := Option.some.inj (hp.symm.trans hfind)
    obtain ⟨rfl, -⟩ := List.cons.inj hqueue
    exact Or.inl (by decide)

/-- A buffer of one byte gets the first of two, and the other is gone. -/
theorem message_cut_short : ¬ MessagesWhole boot (sendTwo ++ [Event.syscall 51 1 0x400000 1]) := by
  intro h
  obtain ⟨u, hu, hrun, hpid, hp, hrange⟩ := sendTwo_run
  have hroomy : Roomy u (.syscall 51 1 0x400000 1) :=
    roomy_of_whole (run_traced rfl hu) fun _ _ => h sendTwo 1 0x400000 1 [] u rfl hu hrun
  rcases hroomy rfl hrun (by rw [hpid]; decide) _ _ _ hp hpid.symm rfl with hlen | hrefused
  · exact absurd hlen (by decide)
  · exact absurd (hrange.symm.trans hrefused) nofun

end Delivery

end Syscalls
