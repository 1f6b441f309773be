import NajmKernel.KernelMachine

/-! Where every task is. A task that was spawned is runnable, or the zombie, or dropped; the
stack slots of all tasks that are not dropped are distinct and not free. -/
namespace KernelMachine

open SchedulingClasses KernelStacks TaskScheduler

/-- What identifies a task and the stack slot it owns, for as long as it exists. -/
def place (t : Task) : ℕ × ℕ := (t.handle, t.stack.slot)

def Machine.runnable (m : Machine) : List Task := m.scheduler.current.toList ++ m.scheduler.ready

def Machine.undropped (m : Machine) : List Task :=
  m.runnable ++ (m.scheduler.zombie.toList ++ m.pending)

structure Placed (m : Machine) : Prop where
  queue_class : ∀ c, ∀ t ∈ m.scheduler.readyQueues c, t.schedClass = c
  slots : m.kernelStacks.Tracks (m.undropped.map fun t => t.stack.slot)
  spawned : m.spawned.Perm (m.runnable.map Task.handle ++ m.exited)
  exited : m.exited.Perm (m.scheduler.zombie.toList.map Task.handle ++ m.dropped)
  nodup : (m.spawned ++ m.pending.map Task.handle).Nodup
  fresh : ∀ h ∈ m.spawned ++ m.pending.map Task.handle, h < m.nextHandle

variable {P : Platform} {m m' : Machine} {t u : Task}

section Lists

variable {l l' : List Task}

theorem handles_of_places (h : (l.map place).Perm (l'.map place)) :
    (l.map Task.handle).Perm (l'.map Task.handle) := by
  simpa [place, Function.comp_def] using h.map Prod.fst

theorem slots_of_places (h : (l.map place).Perm (l'.map place)) :
    (l.map fun t => t.stack.slot).Perm (l'.map fun t => t.stack.slot) := by
  simpa [place, Function.comp_def] using h.map Prod.snd

end Lists

section Consequences

/-- Every task that exists has a handle of its own. -/
theorem Placed.handles_nodup (h : Placed m) : (m.undropped.map Task.handle).Nodup := by
  have hs : (m.spawned ++ m.pending.map Task.handle).Perm
      (m.undropped.map Task.handle ++ m.dropped) := by
    refine (h.spawned.append_right _).trans ?_
    refine ((h.exited.append_left _).append_right _).trans ?_
    simp only [Machine.undropped, List.map_append, List.append_assoc]
    exact (List.perm_append_comm.append_left _).append_left _
  exact (List.nodup_append.mp (hs.nodup_iff.mp h.nodup)).1

theorem Placed.eq_of_handle (h : Placed m) (ht : t ∈ m.undropped) (hu : u ∈ m.undropped)
    (he : t.handle = u.handle) : t = u :=
  List.inj_on_of_nodup_map h.handles_nodup ht hu he

theorem Placed.eq_of_slot (h : Placed m) (ht : t ∈ m.undropped) (hu : u ∈ m.undropped)
    (he : t.stack.slot = u.stack.slot) : t = u :=
  List.inj_on_of_nodup_map h.slots.used_nodup ht hu he

/-- Two tasks that exist never share a stack address. -/
theorem Placed.stacks_apart (h : Placed m) (ht : t ∈ m.undropped) (hu : u ∈ m.undropped)
    (hne : t.handle ≠ u.handle) {a : ℕ} (ha : t.stack.Holds a) : ¬ u.stack.Holds a := by
  intro hb
  have hk := KernelStack.holds_unique ha hb
  exact hne (congrArg Task.handle (h.eq_of_slot ht hu (congrArg KernelStack.slot hk)))

theorem Placed.slot_not_free (h : Placed m) (ht : t ∈ m.undropped) :
    t.stack.slot ∉ m.kernelStacks.freeSlots :=
  h.slots.disjoint _ (List.mem_map_of_mem ht)

theorem mem_runnable : t ∈ m.runnable ↔ m.scheduler.current = some t ∨ t ∈ m.scheduler.ready := by
  simp [Machine.runnable, Option.mem_toList]

theorem mem_undropped :
    t ∈ m.undropped ↔ t ∈ m.runnable ∨ m.scheduler.zombie = some t ∨ t ∈ m.pending := by
  simp [Machine.undropped, Option.mem_toList]

theorem current_mem (h : m.scheduler.current = some t) : t ∈ m.undropped :=
  mem_undropped.mpr (Or.inl (mem_runnable.mpr (Or.inl h)))

theorem ready_mem (h : t ∈ m.scheduler.ready) : t ∈ m.undropped :=
  mem_undropped.mpr (Or.inl (mem_runnable.mpr (Or.inr h)))

theorem zombie_mem (h : m.scheduler.zombie = some t) : t ∈ m.undropped :=
  mem_undropped.mpr (Or.inr (Or.inl h))

theorem pending_mem (h : t ∈ m.pending) : t ∈ m.undropped :=
  mem_undropped.mpr (Or.inr (Or.inr h))

/-- The current task is in no queue. -/
theorem Placed.current_not_ready (h : Placed m) (hc : m.scheduler.current = some t)
    (hu : u ∈ m.scheduler.ready) : u.handle ≠ t.handle := by
  have hn := h.handles_nodup
  simp only [Machine.undropped, Machine.runnable, hc, Option.toList_some, List.cons_append,
    List.nil_append, List.map_cons, List.nodup_cons] at hn
  intro he
  exact hn.1 (he ▸ List.mem_map_of_mem (List.mem_append_left _ hu))

theorem Placed.pending_not_runnable (h : Placed m) (ht : t ∈ m.pending) (hu : u ∈ m.runnable) :
    t.handle ≠ u.handle := by
  have hn := h.handles_nodup
  simp only [Machine.undropped, List.map_append] at hn
  intro he
  refine (List.nodup_append.mp hn).2.2 _ (List.mem_map_of_mem hu) _ ?_ he.symm
  exact List.mem_append_right _ (List.mem_map_of_mem ht)

theorem Placed.zombie_not_runnable (h : Placed m) (ht : m.scheduler.zombie = some t)
    (hu : u ∈ m.runnable) : u.handle ≠ t.handle := by
  have hn := h.handles_nodup
  simp only [Machine.undropped, ht, List.map_append] at hn
  exact (List.nodup_append.mp hn).2.2 _ (List.mem_map_of_mem hu) _ (by simp)

theorem Placed.zombie_not_pending (h : Placed m) (ht : m.scheduler.zombie = some t)
    (hu : u ∈ m.pending) : u.handle ≠ t.handle := by
  have hn := h.handles_nodup
  simp only [Machine.undropped, ht, List.map_append] at hn
  have hz := (List.nodup_append.mp hn).2.1
  intro he
  exact (List.nodup_append.mp hz).2.2 _ (by simp) _ (List.mem_map_of_mem hu) he.symm

end Consequences

section Steps

/-- Tasks may move between the processor and the queues, and change everything but their
places. -/
theorem Placed.keep (h : Placed m)
    (queue_class : ∀ c, ∀ t ∈ m'.scheduler.readyQueues c, t.schedClass = c)
    (runnable : (m'.runnable.map place).Perm (m.runnable.map place))
    (zombie : (m'.scheduler.zombie.toList.map place).Perm (m.scheduler.zombie.toList.map place))
    (pending : m'.pending = m.pending)
    (kernelStacks : m'.kernelStacks = m.kernelStacks)
    (history : m'.spawned = m.spawned ∧ m'.exited = m.exited ∧ m'.dropped = m.dropped ∧
      m'.nextHandle = m.nextHandle) : Placed m' := by
  obtain ⟨hs, he, hd, hn⟩ := history
  have hall : (m'.undropped.map place).Perm (m.undropped.map place) := by
    simp only [Machine.undropped, List.map_append, pending]
    exact runnable.append (zombie.append_right _)
  refine ⟨queue_class, ?_, ?_, ?_, ?_, ?_⟩
  · rw [kernelStacks]
    exact h.slots.perm (slots_of_places hall).symm
  · rw [hs, he]
    exact h.spawned.trans ((handles_of_places runnable).symm.append_right _)
  · rw [he, hd]
    exact h.exited.trans ((handles_of_places zombie).symm.append_right _)
  · rw [hs, pending]
    exact h.nodup
  · rw [hs, pending, hn]
    exact h.fresh

theorem Placed.same (h : Placed m) (scheduler : m'.scheduler = m.scheduler)
    (pending : m'.pending = m.pending)
    (kernelStacks : m'.kernelStacks = m.kernelStacks)
    (history : m'.spawned = m.spawned ∧ m'.exited = m.exited ∧ m'.dropped = m.dropped ∧
      m'.nextHandle = m.nextHandle) : Placed m' := by
  refine h.keep ?_ ?_ ?_ pending kernelStacks history
  · rw [scheduler]
    exact h.queue_class
  · simp only [Machine.runnable, scheduler]
    exact List.Perm.refl _
  · rw [scheduler]

@[simp] theorem place_dispatched {p : Bool} : place (t.dispatched p) = place t := rfl

@[simp] theorem place_charged : place t.charged = place t := rfl

theorem modifyTask_places {s : Scheduler} {h : ℕ} {f : Task → Task}
    (hf : ∀ t, place (f t) = place t) :
    ((s.modifyTask h f).current.toList ++ (s.modifyTask h f).ready).map place =
      (s.current.toList ++ s.ready).map place := by
  have hw (t : Task) : place (if t.handle = h then f t else t) = place t := by
    split
    · exact hf t
    · rfl
  have hr : (s.modifyTask h f).ready.map place = s.ready.map place := by
    simp only [Scheduler.ready, Scheduler.modifyTask, List.map_flatMap, List.map_map,
      Function.comp_def, hw]
  rw [List.map_append, List.map_append, hr]
  cases hc : s.current <;> simp [Scheduler.modifyTask, hc, hw]

/-- Writes into boxed tasks leave every task in its place. -/
theorem Placed.modifyTask (h : Placed m) {handle : ℕ} {f : Task → Task}
    (hf : ∀ t, place (f t) = place t) (hc : ∀ t, (f t).schedClass = t.schedClass) :
    Placed { m with scheduler := m.scheduler.modifyTask handle f } := by
  have hw (t : Task) : place (if t.handle = handle then f t else t) = place t := by
    split
    · exact hf t
    · rfl
  refine h.keep ?_ ?_ ?_ rfl rfl ⟨rfl, rfl, rfl, rfl⟩
  · intro c t ht
    simp only [Scheduler.modifyTask, List.mem_map] at ht
    obtain ⟨x, hx, rfl⟩ := ht
    have := h.queue_class c x hx
    split
    · rw [hc, this]
    · exact this
  · exact List.Perm.of_eq (modifyTask_places hf)
  · cases hz : m.scheduler.zombie <;> simp [Scheduler.modifyTask, hz, hw]

theorem enqueue_class {s : Scheduler} {now : ℕ}
    (h : ∀ c, ∀ t ∈ s.readyQueues c, t.schedClass = c) (u : Task) :
    ∀ c, ∀ t ∈ (s.enqueue u now).readyQueues c, t.schedClass = c := by
  intro c t ht
  rcases mem_enqueue.mp ht with ht | ⟨rfl, rfl⟩
  · exact h c t ht
  · rfl

theorem pick_class {s s₁ : Scheduler} {now : ℕ} {p : Bool}
    (h : ∀ c, ∀ t ∈ s.readyQueues c, t.schedClass = c) (pick : Pick s now u p s₁) :
    ∀ c, ∀ t ∈ s₁.readyQueues c, t.schedClass = c :=
  fun c t ht => h c t (pick.mem ht)

/-- A hand-over moves one task in and one task out. -/
theorem handOver_places {s s₁ : Scheduler} {now : ℕ} {p : Bool} {current next : Task}
    (pick : Pick s now next p s₁) :
    (((s₁.handOver current next p now).current.toList ++
      (s₁.handOver current next p now).ready).map place).Perm
      ((current :: s.ready).map place) := by
  have hr : (s₁.handOver current next p now).ready = (s₁.enqueue current.outgoing now).ready :=
    ready_congr rfl
  have he := (enqueue_ready s₁ current.outgoing now).map place
  have hp := pick.ready.map place
  rw [hr, handOver_current]
  simp only [Option.toList_some, List.cons_append, List.nil_append, List.map_cons,
    place_dispatched] at he hp ⊢
  exact ((he.cons _).trans (List.Perm.swap _ _ _)).trans (hp.symm.cons _)

theorem putBack_places {s s₁ : Scheduler} {now : ℕ} {p : Bool}
    (hq : ∀ c, ∀ t ∈ s.readyQueues c, t.schedClass = c) (pick : Pick s now t p s₁) :
    (s₁.putBack t).ready = s.ready :=
  ready_congr (pick.putBack_readyQueues hq)

theorem dispatch_places {s s₁ : Scheduler} {now : ℕ} {p : Bool} (pick : Pick s now t p s₁) :
    (((s₁.dispatch t p now).current.toList ++ (s₁.dispatch t p now).ready).map place).Perm
      (s.ready.map place) := by
  have hr : (s₁.dispatch t p now).ready = s₁.ready := ready_congr rfl
  have hp := pick.ready.map place
  rw [hr, dispatch_current]
  simpa using hp.symm

theorem chargeTick_places {s : Scheduler} :
    (s.chargeTick.current.toList ++ s.chargeTick.ready).map place =
      (s.current.toList ++ s.ready).map place := by
  have hr : s.chargeTick.ready = s.ready := ready_congr rfl
  rw [hr]
  cases hc : s.current <;> simp [Scheduler.chargeTick, hc]

theorem Placed.charge (h : Placed m) :
    Placed { m with scheduler := m.scheduler.chargeTick } :=
  h.keep h.queue_class (List.Perm.of_eq chargeTick_places) (List.Perm.refl _) rfl rfl ⟨rfl, rfl, rfl, rfl⟩

theorem Placed.setInterrupts (h : Placed m) (b : Bool) : Placed (m.setInterrupts b) := h.same rfl rfl rfl ⟨rfl, rfl, rfl, rfl⟩

theorem Placed.goto (h : Placed m) (code : Code) : Placed (m.goto code) := h.same rfl rfl rfl ⟨rfl, rfl, rfl, rfl⟩

theorem Placed.beginSwitch (h : Placed m) (sw : Switch) : Placed (m.beginSwitch sw) := h.same rfl rfl rfl ⟨rfl, rfl, rfl, rfl⟩

theorem Placed.freeze (h : Placed m) (site : PanicSite) : Placed (m.freeze site) := h.same rfl rfl rfl ⟨rfl, rfl, rfl, rfl⟩

theorem Placed.planSwitch (h : Placed m) (kind : SwitchKind) (now : ℕ) :
    Placed (m.follow (m.scheduler.planSwitch kind now)) := by
  cases hp : m.scheduler.planSwitch kind now with
  | panic => exact h.freeze .yieldWithoutTask
  | stay s =>
    rcases planSwitch_stay hp with ⟨rfl, _⟩ | ⟨hc, _, next, p, s₁, pick, rfl⟩
    · exact h
    · have hz : (s₁.putBack next).zombie = m.scheduler.zombie := pick.zombie_eq
      have hcur : (s₁.putBack next).current = m.scheduler.current := pick.current_eq
      have hq := pick.putBack_readyQueues h.queue_class
      refine h.keep ?_ ?_ ?_ rfl rfl ⟨rfl, rfl, rfl, rfl⟩
      · simp only [Machine.follow, hq]
        exact h.queue_class
      · simp only [Machine.follow, Machine.runnable, hcur, putBack_places h.queue_class pick]
        exact List.Perm.refl _
      · simp only [Machine.follow, hz]
        exact List.Perm.refl _
  | switch s sw =>
    obtain ⟨current, next, p, s₁, pick, hc, rfl, rfl⟩ := planSwitch_switch hp
    have hplaces : Placed { m with scheduler := s₁.handOver current next p now } := by
      refine h.keep ?_ ?_ ?_ rfl rfl ⟨rfl, rfl, rfl, rfl⟩
      · exact enqueue_class (pick_class h.queue_class pick) _
      · simp only [Machine.runnable, hc]
        exact handOver_places pick
      · simp [pick.zombie_eq]
    exact hplaces.beginSwitch _

theorem Placed.yieldInner (h : Placed m) (kind : SwitchKind) : Placed (m.yieldInner kind) :=
  h.planSwitch kind m.ticks

theorem Placed.interruptFrame (h : Placed m) : Placed m.interruptFrame := by
  unfold Machine.interruptFrame
  split
  · exact h.same rfl rfl rfl ⟨rfl, rfl, rfl, rfl⟩
  · exact h

theorem Placed.preempt (h : Placed m) (now : ℕ) :
    Placed (m.follow (m.scheduler.preempt now)) := by
  have hch : Placed { m with scheduler := m.scheduler.chargeTick } := h.charge
  unfold Scheduler.preempt
  by_cases hs : m.scheduler.chargeTick.shouldSwitch now = true
  · simp only [hs, if_true]
    have := hch.planSwitch .preemptive now
    cases hp : m.scheduler.chargeTick.planSwitch .preemptive now <;>
      simp only [hp, Machine.follow] at this ⊢
    · exact this
    · exact this
    · exact h.freeze .yieldWithoutTask
  · simp only [hs]
    exact hch

theorem Placed.tick (h : Placed m) : Placed m.tick := by
  have hf : Placed ({ m with ticks := m.ticks + 1 }.interruptFrame) :=
    Placed.interruptFrame (Placed.same h rfl rfl rfl ⟨rfl, rfl, rfl, rfl⟩)
  unfold Machine.tick
  dsimp only
  split
  · exact hf
  · exact hf.preempt _

theorem Placed.storeStackPointer (h : Placed m) (out : StackOut) (sp : ℕ) :
    Placed (m.storeStackPointer out sp) := by
  cases out with
  | task handle => exact h.modifyTask (fun _ => rfl) (fun _ => rfl)
  | boot => exact h.keep h.queue_class (List.Perm.refl _) (List.Perm.refl _) rfl rfl ⟨rfl, rfl, rfl, rfl⟩
  | discarded => exact h

theorem Placed.resume (h : Placed m) (nextStack : ℕ) : Placed (m.resume nextStack) := by
  unfold Machine.resume
  split
  · exact h.same rfl rfl rfl ⟨rfl, rfl, rfl, rfl⟩
  · exact h.goto .wild

theorem Placed.park (h : Placed m) (hd : Handoff) (sp : ℕ) : Placed (m.park P hd sp) := by
  refine Placed.storeStackPointer ?_ _ _
  exact h.same rfl rfl rfl ⟨rfl, rfl, rfl, rfl⟩

theorem Placed.performSwitch (h : Placed m) (hd : Handoff) (sp : ℕ) :
    Placed (m.performSwitch P hd sp) :=
  (h.park hd sp).resume _

theorem Placed.writeSlot (h : Placed m) (slot : Option ℕ) (v : ℕ) : Placed (m.writeSlot slot v) := by
  cases slot with
  | none => exact h.same rfl rfl rfl ⟨rfl, rfl, rfl, rfl⟩
  | some handle => exact h.modifyTask (fun _ => rfl) (fun _ => rfl)

@[simp] theorem drop_scheduler (m : Machine) (z : Option Task) :
    (m.drop z).scheduler = m.scheduler := by
  cases z <;> rfl

@[simp] theorem drop_cpu (m : Machine) (z : Option Task) : (m.drop z).cpu = m.cpu := by
  cases z <;> rfl

/-- A reaped zombie is the one task whose slot goes back to the allocator. -/
theorem Placed.reapZombie (h : Placed m) : Placed m.reapZombie := by
  cases hz : m.scheduler.zombie with
  | none =>
    simp only [Machine.reapZombie, hz, Machine.drop]
    exact h.keep h.queue_class (List.Perm.refl _) (by simp [hz]) rfl rfl ⟨rfl, rfl, rfl, rfl⟩
  | some z =>
    have hs : (m.undropped.map fun t => t.stack.slot).Perm (z.stack.slot ::
        (m.runnable ++ m.pending).map fun t => t.stack.slot) := by
      simp only [Machine.undropped, hz, Option.toList_some, List.cons_append, List.nil_append,
        List.map_append, List.map_cons]
      exact List.perm_middle
    have hr := (h.slots.perm hs).release
    have he := h.exited
    simp only [hz, Option.toList_some, List.map_cons, List.map_nil, List.cons_append,
      List.nil_append] at he
    have hm : m.reapZombie = { m with
        scheduler := { m.scheduler with zombie := none }
        kernelStacks := m.kernelStacks.release z.stack
        dropped := z.handle :: m.dropped } := by
      simp [Machine.reapZombie, hz, Machine.drop]
    rw [hm]
    exact ⟨h.queue_class, hr, h.spawned, he, h.nodup, h.fresh⟩

/-- With no zombie in the way, the running task becomes the zombie. -/
private theorem Placed.die {dying : Task} {s : Scheduler} (h : Placed m)
    (hz : m.scheduler.zombie = none) (hc : m.scheduler.current = some dying)
    (queue_class : ∀ c, ∀ t ∈ s.readyQueues c, t.schedClass = c)
    (runnable : ((s.current.toList ++ s.ready).map place).Perm (m.scheduler.ready.map place))
    (zombie : s.zombie = some dying) :
    Placed { m with scheduler := s, exited := dying.handle :: m.exited } := by
  have hs := h.slots
  have hsp := h.spawned
  have he := h.exited
  simp only [Machine.undropped, Machine.runnable, hc, hz, Option.toList_some, Option.toList_none,
    List.cons_append, List.nil_append, List.map_cons, List.map_append, List.map_nil] at hs hsp he
  refine ⟨queue_class, hs.perm ?_, hsp.trans ?_, ?_, h.nodup, h.fresh⟩
  · simp only [Machine.undropped, Machine.runnable, zombie, Option.toList_some, List.map_append,
      List.map_cons, List.cons_append, List.nil_append]
    have hr := slots_of_places runnable
    rw [List.map_append] at hr
    exact List.perm_middle.symm.trans ((hr.symm.append_right _))
  · have hr := handles_of_places runnable
    exact List.perm_middle.symm.trans (hr.symm.append_right _)
  · simpa [zombie] using he

/-- The dying task takes the place of the previous zombie. -/
theorem Placed.exitTask (h : Placed m) : Placed (m.exitTask P) := by
  unfold Machine.exitTask
  cases hx : m.scheduler.exitTask m.ticks P.bootPrivilegeStack with
  | none => exact h.freeze .exitWithoutTask
  | some out =>
    obtain ⟨s, reaped, sw⟩ := out
    obtain ⟨dying, hc, rfl, hcases⟩ := exitTask_cases hx
    have hq : ∀ c, ∀ t ∈ s.readyQueues c, t.schedClass = c := by
      rcases hcases with ⟨next, p, s₁, pick, rfl, _⟩ | ⟨_, rfl, _⟩
      · exact fun c t ht => h.queue_class c t (pick.mem ht)
      · exact h.queue_class
    have hruns : ((s.current.toList ++ s.ready).map place).Perm (m.scheduler.ready.map place) := by
      rcases hcases with ⟨next, p, s₁, pick, rfl, _⟩ | ⟨_, rfl, _⟩
      · have hd := dispatch_places pick
        exact hd
      · exact List.Perm.refl _
    have hzombie : s.zombie = some dying := by
      rcases hcases with ⟨next, p, s₁, pick, rfl, _⟩ | ⟨_, rfl, _⟩
      · rw [dispatch_zombie, pick.zombie_eq]
      · rfl
    have hown : m.supervisorSlot = some dying.handle := by simp [Machine.supervisorSlot, hc]
    have hswap : ({ m with scheduler := s, exited := m.supervisorSlot.toList ++ m.exited } :
        Machine).drop m.scheduler.zombie =
          { m.reapZombie with scheduler := s, exited := dying.handle :: m.reapZombie.exited } := by
      rw [hown]
      unfold Machine.reapZombie
      cases m.scheduler.zombie <;> rfl
    have hdead : Placed (({ m with scheduler := s, exited := m.supervisorSlot.toList ++ m.exited } :
        Machine).drop m.scheduler.zombie) := by
      rw [hswap]
      have hr : m.reapZombie.scheduler = { m.scheduler with zombie := none } := by
        simp [Machine.reapZombie]
      refine h.reapZombie.die (by rw [hr]) (by rw [hr]; exact hc) hq ?_ hzombie
      rw [hr]
      exact hruns
    dsimp only
    split
    · exact (hdead.setInterrupts false).goto .halted
    · exact (hdead.goto (.panic .resumedAfterExit)).beginSwitch sw

theorem Placed.runUntilIdle (h : Placed m) (hc : m.scheduler.current = none) :
    Placed m.runUntilIdle := by
  unfold Machine.runUntilIdle
  cases hs : m.scheduler.startFirst m.ticks with
  | none => exact h
  | some out =>
    obtain ⟨s, nextStack⟩ := out
    obtain ⟨next, p, s₁, pick, rfl, _⟩ := startFirst_cases hs
    have hd : Placed { m with scheduler := s₁.dispatch next p m.ticks } := by
      refine h.keep ?_ ?_ ?_ rfl rfl ⟨rfl, rfl, rfl, rfl⟩
      · exact fun c t ht => h.queue_class c t (pick.mem ht)
      · simp only [Machine.runnable, hc, Option.toList_none, List.nil_append]
        exact dispatch_places pick
      · simp [pick.zombie_eq]
    exact hd.goto (.window nextStack)

theorem Placed.leaveWindow (h : Placed m) (nextStack : ℕ) : Placed (m.leaveWindow nextStack) := by
  unfold Machine.leaveWindow
  split
  · exact h.freeze .windowWithoutTask
  · exact (h.goto .reaping).beginSwitch _

theorem Placed.buildTask (h : Placed m) (root : Option ℕ) (pid : ℕ) (c : SchedClass)
    (mapped : Bool) : Placed (m.buildTask root pid c mapped) := by
  unfold Machine.buildTask
  split
  · rename_i ks hk
    have hks : m.kernelStacks.allocate mapped = (ks, none) := hk
    have hal := h.slots.allocate_none (by rw [hks])
    rw [hks] at hal
    exact ⟨h.queue_class, hal, h.spawned, h.exited, h.nodup, h.fresh⟩
  · rename_i ks stack hk
    have hks : m.kernelStacks.allocate mapped = (ks, some stack) := hk
    have hal := h.slots.allocate (congrArg Prod.snd hks)
    rw [hks] at hal
    have hnew : m.nextHandle ∉ m.spawned ++ m.pending.map Task.handle :=
      fun hm => absurd (h.fresh _ hm) (Nat.lt_irrefl _)
    refine ⟨h.queue_class, ?_, h.spawned, h.exited, ?_, ?_⟩
    · refine hal.perm ?_
      have hmiddle : ((m.runnable ++ m.scheduler.zombie.toList) ++
          Task.new m.nextHandle stack root pid c :: m.pending).Perm
          (Task.new m.nextHandle stack root pid c ::
            ((m.runnable ++ m.scheduler.zombie.toList) ++ m.pending)) := List.perm_middle
      have hz := hmiddle.map fun u => u.stack.slot
      rw [List.append_assoc, List.append_assoc] at hz
      exact hz.symm
    · exact List.perm_middle.nodup_iff.mpr (List.nodup_cons.mpr ⟨hnew, h.nodup⟩)
    · intro x hx
      have hmiddle := @List.perm_middle _ m.nextHandle m.spawned (m.pending.map Task.handle)
      have hx' := hmiddle.mem_iff.mp hx
      rcases List.mem_cons.mp hx' with rfl | hx'
      · exact Nat.lt_succ_self _
      · exact Nat.lt_succ_of_lt (h.fresh x hx')

theorem Placed.queueTask (h : Placed m) {stamp : ℕ} (ht : t ∈ m.pending) :
    Placed (m.queueTask t stamp) := by
  have hp := List.perm_cons_erase ht
  have he := (enqueue_ready m.scheduler t stamp).map place
  have hr : ((m.queueTask t stamp).runnable.map place).Perm (place t :: m.runnable.map place) := by
    simp only [Machine.runnable, Machine.queueTask, List.map_append, List.map_cons] at he ⊢
    exact (he.append_left _).trans List.perm_middle
  have hpend : (m.spawned ++ m.pending.map Task.handle).Perm
      (t.handle :: m.spawned ++ (m.pending.erase t).map Task.handle) :=
    ((hp.map Task.handle).append_left _).trans List.perm_middle
  refine ⟨enqueue_class h.queue_class t, h.slots.perm ?_, ?_, h.exited, ?_, ?_⟩
  · have hs : ((m.queueTask t stamp).runnable.map fun u => u.stack.slot).Perm
        ((t :: m.runnable).map fun u => u.stack.slot) := slots_of_places hr
    have hq := (hp.map fun u => u.stack.slot).append_left (m.scheduler.zombie.toList.map fun u => u.stack.slot)
    simp only [Machine.undropped, List.map_append, List.map_cons] at hs hq ⊢
    refine (hq.append_left _).trans ?_
    refine (List.perm_middle.append_left _).trans ?_
    exact List.perm_middle.trans (hs.symm.append_right _)
  · have hh : ((m.queueTask t stamp).runnable.map Task.handle).Perm
        ((t :: m.runnable).map Task.handle) := handles_of_places hr
    exact (h.spawned.cons t.handle).trans (hh.symm.append_right m.exited)
  · exact hpend.nodup_iff.mp h.nodup
  · exact fun x hx => h.fresh x (hpend.mem_iff.mpr hx)

theorem Placed.enterRing0 (h : Placed m) (p : ProgramCall) : Placed (m.enterRing0 p) :=
  (h.interruptFrame.setInterrupts false).goto (.syscall p)

theorem Placed.endProgram (h : Placed m) (p : ProgramCall) (exit : ProgramExit) :
    Placed (m.endProgram p exit) := by
  unfold Machine.endProgram
  split
  · exact h.goto (.panic .noProgram)
  · split
    · exact h.same rfl rfl rfl ⟨rfl, rfl, rfl, rfl⟩
    · exact h.goto .wild

theorem Placed.leaveProgram (h : Placed m) (p : ProgramCall) (raw : ℕ) :
    Placed (m.leaveProgram p raw) := by
  unfold Machine.leaveProgram
  dsimp only
  split
  · exact (h.setInterrupts _).goto _
  · exact h.same rfl rfl rfl ⟨rfl, rfl, rfl, rfl⟩

theorem Placed.runProgram (h : Placed m) (depth : ℕ) (ofProcess : Bool) :
    Placed (m.runProgram P depth ofProcess) := by
  unfold Machine.runProgram
  split
  · exact h.goto _
  · exact h.same rfl rfl rfl ⟨rfl, rfl, rfl, rfl⟩

theorem Placed.fault (h : Placed m) (p : ProgramCall) (exit : ProgramExit) :
    Placed (m.fault p exit) := by
  unfold Machine.fault
  dsimp only
  split
  · exact (h.enterRing0 p).endProgram p exit
  · exact (h.enterRing0 p).goto .halted

theorem Placed.sysExit (h : Placed m) (p : ProgramCall) (status : ℕ) :
    Placed (m.sysExit p status) := by
  unfold Machine.sysExit
  split
  · exact h.endProgram p _
  · exact h

theorem Placed.setCurrentClass (h : Placed m) (c : SchedClass) :
    Placed { m with scheduler := m.scheduler.setCurrentClass c } := by
  refine h.keep h.queue_class ?_ (List.Perm.refl _) rfl rfl ⟨rfl, rfl, rfl, rfl⟩
  have hr : (m.scheduler.setCurrentClass c).ready = m.scheduler.ready := ready_congr rfl
  simp only [Machine.runnable, hr]
  cases hc : m.scheduler.current <;> simp [Scheduler.setCurrentClass, hc, place]

theorem pending_of_found {handle : ℕ} (h : m.findPending handle = some t) :
    t ∈ m.pending ∧ t.handle = handle := by
  have hp := List.find?_some h
  exact ⟨List.mem_of_find?_eq_some h, of_decide_eq_true hp⟩

theorem Placed.act {e : Event} (h : Placed m)
    (idle : m.cpu.code = .kernel → m.cpu.rsp ≤ P.bootTop → m.scheduler.current = none)
    (ha : Act P m e m') : Placed m' := by
  cases ha with
  | clobber => exact h.same rfl rfl rfl ⟨rfl, rfl, rfl, rfl⟩
  | setInterrupts => exact h.setInterrupts _
  | newSpace => exact h.same rfl rfl rfl ⟨rfl, rfl, rfl, rfl⟩
  | kernelFrame => exact h.same rfl rfl rfl ⟨rfl, rfl, rfl, rfl⟩
  | mapFrame => exact h.same rfl rfl rfl ⟨rfl, rfl, rfl, rfl⟩
  | discardSpace => exact h.same rfl rfl rfl ⟨rfl, rfl, rfl, rfl⟩
  | buildTask => exact h.buildTask _ _ _ _
  | buildProcess =>
    refine Placed.buildTask ?_ _ _ _ _
    exact h.same rfl rfl rfl ⟨rfl, rfl, rfl, rfl⟩
  | queueTask _ found => exact h.queueTask (pending_of_found found).1
  | yieldNow => exact h.yieldInner _
  | setCurrentClass => exact h.setCurrentClass _
  | exitTask => exact h.exitTask
  | runUntilIdle code boot => exact h.runUntilIdle (idle code boot)
  | leaveWindow => exact h.leaveWindow _
  | reapZombie => exact h.reapZombie.goto _
  | runProgram => exact h.runProgram _ _
  | storeSlot =>
    refine (Placed.writeSlot ?_ _ _).goto _
    exact h.same rfl rfl rfl ⟨rfl, rfl, rfl, rfl⟩
  | storeRsp0 => exact h.same rfl rfl rfl ⟨rfl, rfl, rfl, rfl⟩
  | enterRing3 => exact (h.setInterrupts _).goto _
  | syscall => exact h.enterRing0 _
  | fault => exact h.fault _ _
  | sysReturn => exact (h.setInterrupts _).goto _
  | sysYield => exact h.yieldInner _
  | sysExit => exact h.sysExit _ _
  | clearSlot => exact (h.writeSlot _ _).goto _
  | leaveProgram => exact h.leaveProgram _ _
  | restoreRoot => exact h.same rfl rfl rfl ⟨rfl, rfl, rfl, rfl⟩
  | beginDrop =>
    refine Placed.goto ?_ _
    exact h.same rfl rfl rfl ⟨rfl, rfl, rfl, rfl⟩
  | releaseFrame =>
    refine Placed.goto ?_ _
    exact h.same rfl rfl rfl ⟨rfl, rfl, rfl, rfl⟩

theorem Placed.step {e : Event} (h : Placed m)
    (idle : m.cpu.handoff = none → m.cpu.code = .kernel → m.cpu.rsp ≤ P.bootTop →
      m.scheduler.current = none)
    (hs : Step P m e m') : Placed m' := by
  cases hs with
  | tick => exact h.tick
  | performSwitch => exact h.performSwitch _ _
  | act handoff ha => exact h.act (idle handoff) ha

theorem Boots.placed (h : Boots P m) : Placed m := by
  obtain ⟨h1, h2, h3⟩ := h.history
  have hu : m.undropped = [] := by
    simp [Machine.undropped, Machine.runnable, h.scheduler, h.pending, Scheduler.new,
      Scheduler.ready]
  refine ⟨?_, ?_, ?_, ?_, ?_, ?_⟩
  · simp [h.scheduler, Scheduler.new]
  · rw [hu, h.kernelStacks]
    exact .initial
  · simp [h1, h2, Machine.runnable, h.scheduler, Scheduler.new, Scheduler.ready]
  · simp [h2, h3, h.scheduler, Scheduler.new]
  · simp [h1, h.pending]
  · simp [h1, h.pending]

end Steps

end KernelMachine
