import NajmKernel.Footprints

/-! Address spaces while processes come and go. The end of `process_entry` leaves the address
space of its task and takes it apart with interrupts enabled; the task is safe as long as no tick
switches away from it there, since the scheduler would load the dead root to come back. -/
namespace KernelMachine

open SchedulingClasses KernelStacks FramePool TaskScheduler TransitionSystem

variable {P : Platform} {m m' : Machine} {e : Event} {t u : Task} {root : ℕ}

/-- The end of `process_entry`, from `restore` to `exit_task`. -/
def Code.tearing : Code → Bool
  | .unmapped => true
  | .releasing _ => true
  | _ => false

/-- The frames that a dropped address space has not given back yet. -/
def Code.frames : Code → List ℕ
  | .releasing frames => frames
  | _ => []

/-- The kernel's root, or that of an address space that exists. -/
def Machine.IsRoot (P : Platform) (m : Machine) (frame : ℕ) : Prop :=
  frame = P.kernelRoot ∨ ∃ s ∈ m.spaces, s.root = frame

/-- Queued, or to be queued, or running and not at the end of `process_entry`. -/
def Machine.Dispatchable (m : Machine) (t : Task) : Prop :=
  t ∈ m.scheduler.ready ∨ t ∈ m.pending ∨
    (m.scheduler.current = some t ∧ m.cpu.code.tearing = false)

/-- CR3 and the roots of all tasks that can be dispatched are roots, and not in the pool. -/
structure RootsLive (P : Platform) (m : Machine) : Prop where
  cr3 : m.IsRoot P m.cpu.cr3 ∧ m.cpu.cr3 ∉ m.memory.free
  tasks : ∀ t, m.Dispatchable t → ∀ root, t.addressSpaceRoot = some root →
    m.IsRoot P root ∧ root ∉ m.memory.free

/-- No tick switches away from the end of `process_entry`. -/
def TeardownKept (m : Machine) (e : Event) : Prop :=
  e = .tick → m.cpu.interrupts = true → m.cpu.code.tearing = true →
    m.scheduler.chargeTick.shouldSwitch (m.ticks + 1) = false ∨ m.scheduler.ready = []

instance (m : Machine) (e : Event) : Decidable (TeardownKept m e) :=
  inferInstanceAs (Decidable (_ → _ → _ → _))

/-- The task's address space exists and is its own. -/
def Owned (m : Machine) (t : Task) : Prop :=
  ∀ root, t.addressSpaceRoot = some root → ∃ s ∈ m.spaces, s.root = root ∧ s.boundTo = some t.handle

/-- Every task owns its address space until it has begun to leave it. -/
structure Mapped (P : Platform) (m : Machine) : Prop where
  parked : NoneParked Code.tearing m
  leaving : m.cpu.handoff ≠ none → m.cpu.code.tearing = false
  unloaded : m.cpu.code.tearing = true → m.cpu.cr3 = P.kernelRoot
  frames : m.memory.Tracks P.kernelRoot
    (m.spaces.flatMap AddressSpace.frames ++ m.cpu.code.frames)
  tasks : ∀ t ∈ m.alive,
    (m.supervisorSlot = some t.handle ∧ m.cpu.code.tearing = true) ∨ Owned m t
  cr3 : m.cpu.cr3 = P.kernelRoot ∨ ∃ s ∈ m.spaces, s.root = m.cpu.cr3 ∧ s.boundTo ≠ none

section Ticks

theorem tearing_inner {code : Code} (h : code.tearing = true) : code.inner = true := by
  cases code <;> simp [Code.tearing, Code.inner] at h ⊢

theorem frames_of_not_tearing {code : Code} (h : code.tearing = false) : code.frames = [] := by
  cases code <;> simp [Code.tearing, Code.frames] at h ⊢

theorem switches_not_tearing {code : Code} (h : code.switches = true) : code.tearing = false := by
  cases code <;> simp [Code.switches, Code.tearing] at h ⊢

theorem planSwitch_empty {s : Scheduler} {now : ℕ} {kind : SwitchKind} (h : s.ready = []) :
    s.planSwitch kind now = .stay s := by
  have hp : s.pickNext now = none := by
    cases hp : s.pickNext now with
    | none => rfl
    | some out =>
      obtain ⟨t, p, s'⟩ := out
      have hm := (pickNext_cases hp).ready.mem_iff.mpr List.mem_cons_self
      simp [h] at hm
  simp [Scheduler.planSwitch, hp]

/-- With nothing to switch to, or no reason to, a tick only charges the running task. -/
theorem tick_stays (tearing : m.cpu.code.tearing = true)
    (ok : m.scheduler.chargeTick.shouldSwitch (m.ticks + 1) = false ∨ m.scheduler.ready = []) :
    m.tick = { m with ticks := m.ticks + 1, scheduler := m.scheduler.chargeTick } := by
  have hframe : ({ m with ticks := m.ticks + 1 } : Machine).interruptFrame =
      { m with ticks := m.ticks + 1 } := by
    unfold Machine.interruptFrame
    split
    · rename_i p hp
      rw [show m.cpu.code = .ring3 p from hp] at tearing
      cases tearing
    · rfl
  have hplan : m.scheduler.preempt (m.ticks + 1) = .stay m.scheduler.chargeTick := by
    unfold Scheduler.preempt
    rcases ok with hno | hempty
    · simp [hno]
    · have hnone : m.scheduler.chargeTick.ready = [] := hempty
      simp [planSwitch_empty hnone]
  unfold Machine.tick
  rw [hframe]
  dsimp only
  split
  · rename_i p _ hp _
    rw [hp] at tearing
    cases tearing
  · rw [hplan]
    rfl

end Ticks

section Unmoved

/-- CR3, the pool and the address spaces stay as they are. -/
structure Unmoved (m m' : Machine) : Prop where
  cr3 : m'.cpu.cr3 = m.cpu.cr3
  memory : m'.memory = m.memory
  spaces : m'.spaces = m.spaces

theorem Unmoved.trans {m'' : Machine} (h : Unmoved m m') (h' : Unmoved m' m'') : Unmoved m m'' :=
  ⟨h'.cr3.trans h.cr3, h'.memory.trans h.memory, h'.spaces.trans h.spaces⟩

theorem unmoved_follow {plan : Plan} : Unmoved m (m.follow plan) := by
  cases plan <;> exact ⟨rfl, rfl, rfl⟩

theorem unmoved_interruptFrame : Unmoved m m.interruptFrame := by
  unfold Machine.interruptFrame
  split <;> exact ⟨rfl, rfl, rfl⟩

theorem unmoved_tick : Unmoved m m.tick := by
  have hticks : Unmoved m { m with ticks := m.ticks + 1 } := ⟨rfl, rfl, rfl⟩
  have hf := hticks.trans unmoved_interruptFrame
  unfold Machine.tick
  dsimp only
  split
  · exact hf
  · exact hf.trans unmoved_follow

theorem unmoved_writeSlot {slot : Option ℕ} {v : ℕ} : Unmoved m (m.writeSlot slot v) := by
  cases slot <;> exact ⟨rfl, rfl, rfl⟩

theorem unmoved_enterRing0 {p : ProgramCall} : Unmoved m (m.enterRing0 p) := by
  have hf : Unmoved m m.interruptFrame := unmoved_interruptFrame
  exact ⟨hf.cr3, hf.memory, hf.spaces⟩

theorem unmoved_endProgram {p : ProgramCall} {exit : ProgramExit} :
    Unmoved m (m.endProgram p exit) := by
  unfold Machine.endProgram
  split
  · exact ⟨rfl, rfl, rfl⟩
  · split <;> exact ⟨rfl, rfl, rfl⟩

theorem unmoved_buildTask {pid : ℕ} {root : Option ℕ} {c : SchedClass} {mapped : Bool} :
    Unmoved m (m.buildTask root pid c mapped) := by
  unfold Machine.buildTask
  split <;> exact ⟨rfl, rfl, rfl⟩

theorem unmoved_exitTask : Unmoved m (m.exitTask P) := by
  unfold Machine.exitTask
  split
  · exact ⟨rfl, rfl, rfl⟩
  · rename_i s reaped sw _
    dsimp only
    cases reaped <;> split <;> exact ⟨rfl, rfl, rfl⟩

/-- The steps of kernel code that create, bind, leave or drop an address space, or take frames. -/
def Event.maps : Event → Bool
  | .newSpace => true
  | .kernelFrame => true
  | .mapFrame _ => true
  | .discardSpace _ => true
  | .buildTask (some _) _ _ _ => true
  | .restoreRoot => true
  | .beginDrop => true
  | .releaseFrame => true
  | _ => false

theorem Act.unmoved (ha : Act P m e m') (he : e.maps = false) : Unmoved m m' := by
  cases ha with
  | newSpace => cases he
  | kernelFrame => cases he
  | mapFrame => cases he
  | discardSpace => cases he
  | buildProcess => cases he
  | restoreRoot => cases he
  | beginDrop => cases he
  | releaseFrame => cases he
  | buildTask => exact unmoved_buildTask
  | yieldNow => exact unmoved_follow
  | sysYield => exact unmoved_follow
  | exitTask => exact unmoved_exitTask
  | runUntilIdle =>
    unfold Machine.runUntilIdle
    split <;> exact ⟨rfl, rfl, rfl⟩
  | leaveWindow =>
    unfold Machine.leaveWindow
    split <;> exact ⟨rfl, rfl, rfl⟩
  | reapZombie =>
    unfold Machine.reapZombie
    cases m.scheduler.zombie <;> exact ⟨rfl, rfl, rfl⟩
  | runProgram =>
    unfold Machine.runProgram
    split <;> exact ⟨rfl, rfl, rfl⟩
  | @storeSlot p =>
    have hset : Unmoved m (m.setFrame p.savedRsp (some (.supervisor
        { p with registers := m.cpu.registers }))) := ⟨rfl, rfl, rfl⟩
    have hw : Unmoved m ((m.setFrame p.savedRsp (some (.supervisor
        { p with registers := m.cpu.registers }))).writeSlot p.slot p.savedRsp) :=
      hset.trans unmoved_writeSlot
    exact ⟨hw.cr3, hw.memory, hw.spaces⟩
  | clearSlot => exact unmoved_writeSlot.trans ⟨rfl, rfl, rfl⟩
  | syscall => exact unmoved_enterRing0
  | @fault p =>
    have hr : Unmoved m (m.enterRing0 p) := unmoved_enterRing0
    unfold Machine.fault
    dsimp only
    split
    · exact hr.trans unmoved_endProgram
    · exact ⟨hr.cr3, hr.memory, hr.spaces⟩
  | sysExit =>
    unfold Machine.sysExit
    split
    · exact unmoved_endProgram
    · exact ⟨rfl, rfl, rfl⟩
  | leaveProgram =>
    unfold Machine.leaveProgram
    dsimp only
    split <;> exact ⟨rfl, rfl, rfl⟩
  | _ => exact ⟨rfl, rfl, rfl⟩

theorem Act.cr3_eq (ha : Act P m e m') (hr : e ≠ .restoreRoot) : m'.cpu.cr3 = m.cpu.cr3 := by
  by_cases he : e.maps = false
  · exact (ha.unmoved he).cr3
  · cases ha with
    | restoreRoot => exact absurd rfl hr
    | buildProcess => exact unmoved_buildTask.cr3
    | newSpace => rfl
    | kernelFrame => rfl
    | mapFrame => rfl
    | discardSpace => rfl
    | beginDrop => rfl
    | releaseFrame => rfl
    | _ => exact absurd rfl he

theorem performSwitch_moved {hd : Handoff} {sp : ℕ} :
    (m.performSwitch P hd sp).cpu.cr3 = hd.switch.nextAddressSpace.getD P.kernelRoot ∧
      (m.performSwitch P hd sp).memory = m.memory ∧ (m.performSwitch P hd sp).spaces = m.spaces := by
  unfold Machine.performSwitch Machine.resume Machine.park
  cases hd.switch.currentStackOut <;> dsimp only <;> split <;> exact ⟨rfl, rfl, rfl⟩

end Unmoved

section Memory

variable {used : List ℕ}

/-- The spaces that have this root, and the others. -/
theorem spaces_split (m : Machine) (root : ℕ) :
    (m.spaces.flatMap AddressSpace.frames).Perm
      (((m.spaces.partition fun s => decide (s.root = root)).1.flatMap AddressSpace.frames) ++
        ((m.spaces.partition fun s => decide (s.root = root)).2.flatMap AddressSpace.frames)) := by
  rw [List.partition_eq_filter_filter, ← List.flatMap_append]
  exact (List.filter_append_perm _ _).symm.flatMap_right _

theorem mem_unbound (h : m.unbound root = true) :
    ∃ s ∈ m.spaces, s.root = root ∧ s.boundTo = none := by
  obtain ⟨s, hs, hr⟩ := List.any_eq_true.mp h
  exact ⟨s, hs, of_decide_eq_true hr⟩

/-- A bound space has another root than an unbound one. -/
theorem Mapped.bound_ne (mp : Mapped P m) (h : m.unbound root = true) {s : AddressSpace}
    (hs : s ∈ m.spaces) (bound : s.boundTo ≠ none) : s.root ≠ root := by
  intro he
  obtain ⟨u, hu, hur, hub⟩ := mem_unbound h
  have hsame := mp.frames.root_injective hs hu (he.trans hur.symm)
  exact bound (hsame ▸ hub)

theorem frames_newSpace (h : m.memory.Tracks P.kernelRoot (m.spaces.flatMap AddressSpace.frames)) :
    m.newSpace.memory.Tracks P.kernelRoot (m.newSpace.spaces.flatMap AddressSpace.frames) := by
  have ha := h.allocateFrame
  simpa [Machine.newSpace, AddressSpace.frames] using ha

theorem frames_kernelFrame (h : m.memory.Tracks P.kernelRoot used) :
    m.kernelFrame.memory.Tracks P.kernelRoot used := by
  have ha := h.allocateFrame.perm (List.perm_append_singleton _ _).symm
  exact ha.forget

theorem frames_mapFrame (h : m.memory.Tracks P.kernelRoot (m.spaces.flatMap AddressSpace.frames))
    (unbound : m.unbound root = true) : (m.mapFrame root).memory.Tracks P.kernelRoot
      ((m.mapFrame root).spaces.flatMap AddressSpace.frames) := by
  obtain ⟨s, hs, rfl, _⟩ := mem_unbound unbound
  have hn : (m.spaces.map AddressSpace.root).Nodup := by
    rw [← List.append_nil (m.spaces.flatMap _)] at h
    exact h.roots_nodup
  exact h.allocateFrame.perm (grow_frames hn hs).symm

theorem frames_discardSpace
    (h : m.memory.Tracks P.kernelRoot (m.spaces.flatMap AddressSpace.frames)) :
    (m.discardSpace root).memory.Tracks P.kernelRoot
      ((m.discardSpace root).spaces.flatMap AddressSpace.frames) :=
  (h.perm (spaces_split m root)).releaseAll

theorem frames_bindSpace (h : m.memory.Tracks P.kernelRoot (m.spaces.flatMap AddressSpace.frames)) :
    (m.bindSpace root).memory.Tracks P.kernelRoot
      ((m.bindSpace root).spaces.flatMap AddressSpace.frames) := by
  simpa [Machine.bindSpace, List.flatMap_map] using h

theorem frames_beginDrop {space : AddressSpace}
    (h : m.memory.Tracks P.kernelRoot (m.spaces.flatMap AddressSpace.frames))
    (own : space ∈ m.spaces) : (m.beginDrop space).memory.Tracks P.kernelRoot
      ((m.beginDrop space).spaces.flatMap AddressSpace.frames ++ space.frames) := by
  have hp := (List.perm_cons_erase own).flatMap_right AddressSpace.frames
  rw [List.flatMap_cons] at hp
  exact h.perm (hp.trans List.perm_append_comm)

theorem frames_releaseFrame {frame : ℕ} {rest : List ℕ}
    (h : m.memory.Tracks P.kernelRoot (used ++ frame :: rest)) :
    (m.releaseFrame frame rest).memory.Tracks P.kernelRoot (used ++ rest) :=
  (h.perm List.perm_middle).release

end Memory

section Steps

theorem Mapped.plain (mp : Mapped P m) :
    m.memory.Tracks P.kernelRoot (m.spaces.flatMap AddressSpace.frames) := mp.frames.forget

theorem tracks_plain {used : List ℕ} (h : m.memory.Tracks P.kernelRoot used)
    (code : m.cpu.code.frames = []) :
    m.memory.Tracks P.kernelRoot (used ++ m.cpu.code.frames) := by
  rw [code, List.append_nil]
  exact h

theorem buildTask_code {new : Option ℕ} {pid : ℕ} {c : SchedClass} {mapped : Bool}
    (code : m.cpu.code = .kernel) : (m.buildTask new pid c mapped).cpu.code.tearing = false := by
  unfold Machine.buildTask
  split
  · rfl
  · simp [Machine.addTask, Machine.setFrame, code, Code.tearing]

theorem Mapped.leaving_step (mp : Mapped P m) (hg : Good P m) (ok : TeardownKept m e)
    (hn : next P m e = some m') : m'.cpu.handoff ≠ none → m'.cpu.code.tearing = false := by
  intro hne
  rcases hg.switch_begins hn hne with ⟨rfl, enabled, hcode⟩ | hsw
  · rw [hcode]
    by_contra ht
    rw [Bool.not_eq_false] at ht
    cases next_cases hn with
    | tick =>
      rw [tick_stays ht (ok rfl enabled ht)] at hne
      simp [mp.leaving hne] at ht
    | act _ ha => cases ha
  · exact switches_not_tearing hsw

theorem runUntilIdle_not_tearing (code : m.cpu.code = .kernel) :
    m.runUntilIdle.cpu.code.tearing = false := by
  unfold Machine.runUntilIdle
  split
  · rw [code]
    rfl
  · rfl

theorem Mapped.unloaded_step (mp : Mapped P m) (hn : next P m e = some m')
    (ht : m'.cpu.code.tearing = true) : m'.cpu.cr3 = P.kernelRoot := by
  cases next_cases hn with
  | tick =>
    rw [tick_inner (tearing_inner ht)] at ht
    rw [unmoved_tick.cr3]
    exact mp.unloaded ht
  | performSwitch handoff =>
    rw [mp.parked.resumed (mp.leaving (by simp [handoff])) rfl] at ht
    cases ht
  | act handoff ha =>
    have hi := ha.inner (tearing_inner ht)
    cases ha with
    | clobber => exact mp.unloaded ht
    | runUntilIdle code => simp [runUntilIdle_not_tearing code] at ht
    | restoreRoot => rfl
    | beginDrop code => exact mp.unloaded (by rw [code]; rfl)
    | releaseFrame code => exact mp.unloaded (by rw [code]; rfl)
    | _ => cases hi

theorem Mapped.frames_act (mp : Mapped P m) (ha : Act P m e m') :
    m'.memory.Tracks P.kernelRoot
      (m'.spaces.flatMap AddressSpace.frames ++ m'.cpu.code.frames) := by
  by_cases he : e.maps = false
  · obtain ⟨_, hmem, hspaces⟩ := ha.unmoved he
    by_cases ht : m'.cpu.code.tearing = true
    · have hi := ha.inner (tearing_inner ht)
      cases ha with
      | clobber => exact mp.frames
      | runUntilIdle code => simp [runUntilIdle_not_tearing code] at ht
      | restoreRoot => cases he
      | beginDrop => cases he
      | releaseFrame => cases he
      | _ => cases hi
    · refine tracks_plain ?_ (frames_of_not_tearing (by simpa using ht))
      rw [hmem, hspaces]
      exact mp.plain
  · cases ha with
    | newSpace code =>
      exact tracks_plain (frames_newSpace mp.plain) (by simp [Machine.newSpace, code, Code.frames])
    | kernelFrame code =>
      exact tracks_plain (frames_kernelFrame mp.plain)
        (by simp [Machine.kernelFrame, code, Code.frames])
    | mapFrame code unbound =>
      exact tracks_plain (frames_mapFrame mp.plain unbound)
        (by simp [Machine.mapFrame, code, Code.frames])
    | discardSpace code =>
      exact tracks_plain (frames_discardSpace mp.plain)
        (by simp [Machine.discardSpace, code, Code.frames])
    | @buildProcess root _ _ _ code =>
      have hb : (m.bindSpace root).memory.Tracks P.kernelRoot
          ((m.bindSpace root).spaces.flatMap AddressSpace.frames) := frames_bindSpace mp.plain
      refine tracks_plain ?_ (frames_of_not_tearing (buildTask_code code))
      rw [unmoved_buildTask.memory, unmoved_buildTask.spaces]
      exact hb
    | restoreRoot => exact tracks_plain mp.plain rfl
    | @beginDrop space code own =>
      exact frames_beginDrop mp.plain (List.mem_of_find?_eq_some own)
    | @releaseFrame frame rest code =>
      have hf := mp.frames
      rw [code] at hf
      exact frames_releaseFrame hf
    | _ => exact absurd rfl he

theorem Mapped.frames_step (mp : Mapped P m) (hs : Step P m e m') :
    m'.memory.Tracks P.kernelRoot
      (m'.spaces.flatMap AddressSpace.frames ++ m'.cpu.code.frames) := by
  cases hs with
  | tick =>
    rw [unmoved_tick.memory, unmoved_tick.spaces]
    by_cases ht : m.tick.cpu.code.tearing = true
    · rw [tick_inner (tearing_inner ht)]
      exact mp.frames
    · rw [frames_of_not_tearing (by simpa using ht), List.append_nil]
      exact mp.plain
  | performSwitch handoff =>
    rw [performSwitch_moved.2.1, performSwitch_moved.2.2, frames_of_not_tearing
      (mp.parked.resumed (mp.leaving (by simp [handoff])) rfl), List.append_nil]
    exact mp.plain
  | act _ ha => exact mp.frames_act ha

end Steps

section Owners

theorem Owned.congr (h : Owned m t) (he : taskHome u = taskHome t) (spaces : m'.spaces = m.spaces) :
    Owned m' u := by
  have hr : u.addressSpaceRoot = t.addressSpaceRoot := congrArg Home.root he
  have hh : u.handle = t.handle := Option.some.inj (congrArg Home.owner he)
  intro root hroot
  rw [spaces, hh]
  exact h root (hr ▸ hroot)

/-- More spaces, or larger ones, do not take a task's own away. -/
theorem Owned.mono (h : Owned m t)
    (spaces : ∀ s ∈ m.spaces, s.boundTo = some t.handle →
      ∃ u ∈ m'.spaces, u.root = s.root ∧ u.boundTo = s.boundTo) : Owned m' t := by
  intro root hroot
  obtain ⟨s, hs, hr, hb⟩ := h root hroot
  obtain ⟨u, hu, hur, hub⟩ := spaces s hs hb
  exact ⟨u, hu, hur.trans hr, hub.trans hb⟩

theorem Mapped.owned (mp : Mapped P m) (code : m.cpu.code.tearing = false) (ht : t ∈ m.alive) :
    Owned m t := by
  rcases mp.tasks t ht with ⟨_, h⟩ | h
  · simp [code] at h
  · exact h

/-- The spaces that tasks own survive whatever kernel code does to spaces without an owner. -/
theorem Mapped.spaces_kept (mp : Mapped P m) {s : AddressSpace} (hs : s ∈ m.spaces)
    (bound : s.boundTo ≠ none) (ha : Act P m e m') (drop : e ≠ .beginDrop) :
    ∃ u ∈ m'.spaces, u.root = s.root ∧ u.boundTo = s.boundTo := by
  by_cases he : e.maps = false
  · exact ⟨s, by rw [(ha.unmoved he).spaces]; exact hs, rfl, rfl⟩
  cases ha with
  | newSpace => exact ⟨s, List.mem_cons_of_mem _ hs, rfl, rfl⟩
  | kernelFrame => exact ⟨s, hs, rfl, rfl⟩
  | mapFrame => exact ⟨_, List.mem_map_of_mem hs, grow_root, grow_boundTo⟩
  | discardSpace _ unbound =>
    have hne := mp.bound_ne unbound hs bound
    refine ⟨s, ?_, rfl, rfl⟩
    simpa [Machine.discardSpace] using ⟨hs, hne⟩
  | buildProcess _ unbound =>
    have hne := mp.bound_ne unbound hs bound
    rw [unmoved_buildTask.spaces]
    exact ⟨_, List.mem_map_of_mem hs, bind_root, by simp [AddressSpace.bind, hne]⟩
  | restoreRoot => exact ⟨s, hs, rfl, rfl⟩
  | beginDrop => exact absurd rfl drop
  | releaseFrame => exact ⟨s, hs, rfl, rfl⟩
  | _ => exact absurd rfl he

/-- While no task is on its way out of its address space, every task owns one. -/
theorem Mapped.owned_act (mp : Mapped P m) (hg : Good P m) (code : m.cpu.code.tearing = false)
    (ha : Act P m e m') (hu : u ∈ m'.alive) : Owned m' u := by
  have hdrop : e ≠ .beginDrop := by
    rintro rfl
    cases ha with
    | beginDrop hc => simp [hc, Code.tearing] at code
  have hstay (t : Task) (ht : t ∈ m.alive) : Owned m' t :=
    (mp.owned code ht).mono fun s hs hb => mp.spaces_kept hs (by simp [hb]) ha hdrop
  by_cases he : e.rehomes = false
  · obtain ⟨t, ht, hh⟩ := hg.placed.kept_act ha he u hu
    exact (hstay t ht).congr hh rfl
  · cases ha with
    | buildTask =>
      rcases alive_buildTask hu with hold | ⟨stack, rfl⟩
      · exact hstay u hold
      · intro root hroot
        cases hroot
    | @buildProcess root _ _ _ _ unbound =>
      rcases alive_buildTask hu with hold | ⟨stack, rfl⟩
      · exact hstay u hold
      · intro r hroot
        obtain rfl : root = r := Option.some.inj hroot
        obtain ⟨s, hs, hr, _⟩ := mem_unbound unbound
        rw [unmoved_buildTask.spaces]
        refine ⟨_, List.mem_map_of_mem hs, bind_root.trans hr, ?_⟩
        simp [AddressSpace.bind, hr, Task.new, Machine.bindSpace]
    | storeSlot =>
      rcases alive_writeSlot hu with hp | ⟨t, ht, rfl⟩
      · exact hstay u (mem_alive.mpr (Or.inr hp))
      · have ho := hstay t (mem_alive.mpr (Or.inl ht))
        split <;> exact ho
    | clearSlot =>
      rcases alive_writeSlot hu with hp | ⟨t, ht, rfl⟩
      · exact hstay u (mem_alive.mpr (Or.inr hp))
      · have ho := hstay t (mem_alive.mpr (Or.inl ht))
        split <;> exact ho
    | _ => exact absurd rfl he

/-- Dropping the running task's own space leaves those of the others. -/
theorem Mapped.tasks_beginDrop (mp : Mapped P m) {space : AddressSpace}
    (own : m.ownSpace = some space) (hu : u ∈ m.alive) :
    m.supervisorSlot = some u.handle ∨ Owned (m.beginDrop space) u := by
  have hp := List.find?_some own
  obtain ⟨_, hbound⟩ : m.supervisorSlot ≠ none ∧ space.boundTo = m.supervisorSlot := by
    simpa using hp
  by_cases hs : m.supervisorSlot = some u.handle
  · exact Or.inl hs
  · right
    rcases mp.tasks u hu with ⟨h, _⟩ | h
    · exact absurd h hs
    · refine h.mono fun s hm hb => ⟨s, ?_, rfl, rfl⟩
      refine (List.mem_erase_of_ne ?_).mpr hm
      rintro rfl
      exact hs (hbound.symm.trans hb)

theorem exitTask_zombie (h : m.scheduler.current = some t) :
    (m.exitTask P).scheduler.zombie = some t := by
  unfold Machine.exitTask
  cases hx : m.scheduler.exitTask m.ticks P.bootPrivilegeStack with
  | none => simp [Scheduler.exitTask, h] at hx; split at hx <;> simp at hx
  | some out =>
    obtain ⟨s, reaped, sw⟩ := out
    obtain ⟨dying, hc, rfl, hcases⟩ := exitTask_cases hx
    obtain rfl := Option.some.inj (h.symm.trans hc)
    have hz : s.zombie = some t := by
      rcases hcases with ⟨next, p, s₁, pick, rfl, _⟩ | ⟨_, rfl, _⟩
      · rw [dispatch_zombie, pick.zombie_eq]
      · rfl
    dsimp only
    split <;> simp [Machine.goto, Machine.beginSwitch, Machine.setInterrupts, hz]

/-- The task that exits is the one that was on its way out. -/
theorem Mapped.tasks_exitTask (mp : Mapped P m) (hg : Good P m) (hu : u ∈ (m.exitTask P).alive) :
    Owned (m.exitTask P) u := by
  have hpl : Placed (m.exitTask P) := hg.placed.exitTask
  have hspaces : (m.exitTask P).spaces = m.spaces := unmoved_exitTask.spaces
  obtain ⟨t, ht, hh⟩ := kept_exitTask u hu
  have hhandle : u.handle = t.handle := Option.some.inj (congrArg Home.owner hh)
  rcases mp.tasks t ht with ⟨hslot, _⟩ | ho
  · obtain ⟨dying, hc, hd⟩ := Option.map_eq_some_iff.mp hslot
    have hz := exitTask_zombie (P := P) hc
    have hne : u.handle ≠ dying.handle := by
      rcases mem_alive.mp hu with hu | hu
      · exact hpl.zombie_not_runnable hz hu
      · exact hpl.zombie_not_pending hz hu
    exact absurd (hhandle.trans hd.symm) hne
  · exact ho.congr hh hspaces

theorem Mapped.tasks_step (mp : Mapped P m) (hg : Good P m) (ok : TeardownKept m e)
    (hn : next P m e = some m') (hu : u ∈ m'.alive) :
    (m'.supervisorSlot = some u.handle ∧ m'.cpu.code.tearing = true) ∨ Owned m' u := by
  have hs := next_cases hn
  by_cases ht : m.cpu.code.tearing = true
  · cases hs with
    | tick enabled =>
      have hstay := tick_stays ht (ok rfl enabled ht)
      have hslot : m.tick.supervisorSlot = m.supervisorSlot := by
        rw [hstay]
        cases hc : m.scheduler.current <;> simp [Machine.supervisorSlot, Scheduler.chargeTick, hc]
      have hcode : m.tick.cpu.code = m.cpu.code := by rw [hstay]
      obtain ⟨t, htm, hh⟩ := hg.placed.kept_tick u hu
      have hhandle : u.handle = t.handle := Option.some.inj (congrArg Home.owner hh)
      rw [hslot, hcode, hhandle]
      exact (mp.tasks t htm).imp_right fun ho => ho.congr hh unmoved_tick.spaces
    | performSwitch handoff => simp [mp.leaving (by simp [handoff])] at ht
    | act _ ha =>
      cases ha with
      | clobber => exact mp.tasks u hu
      | beginDrop code own => exact (mp.tasks_beginDrop own hu).imp_left fun h => ⟨h, rfl⟩
      | releaseFrame code => exact (mp.tasks u hu).imp_left fun h => ⟨h.1, rfl⟩
      | exitTask => exact Or.inr (mp.tasks_exitTask hg hu)
      | @runProgram _ ofProcess code => cases ofProcess <;> simp [code, Code.tearing] at ht
      | _ code => simp [code, Code.tearing] at ht
  · right
    rw [Bool.not_eq_true] at ht
    cases hs with
    | tick =>
      obtain ⟨t, htm, hh⟩ := hg.placed.kept_tick u hu
      exact (mp.owned ht htm).congr hh unmoved_tick.spaces
    | performSwitch =>
      obtain ⟨t, htm, hh⟩ := kept_performSwitch u hu
      exact (mp.owned ht htm).congr hh performSwitch_moved.2.2
    | act _ ha => exact mp.owned_act hg ht ha hu

/-- A switch loads the kernel's root or that of a task that owns its space. -/
theorem Mapped.cr3_step (mp : Mapped P m) (hg : Good P m) (hs : Step P m e m') :
    m'.cpu.cr3 = P.kernelRoot ∨ ∃ s ∈ m'.spaces, s.root = m'.cpu.cr3 ∧ s.boundTo ≠ none := by
  cases hs with
  | tick =>
    rw [unmoved_tick.cr3, unmoved_tick.spaces]
    exact mp.cr3
  | @performSwitch hd sp handoff =>
    rw [performSwitch_moved.1, performSwitch_moved.2.2]
    have hcode := mp.leaving (by simp [handoff])
    cases hg.stage with
    | solo s => simp [s.handoff] at handoff
    | window w => simp [w.handoff] at handoff
    | leaving l =>
      obtain rfl := Option.some.inj (handoff.symm.trans l.handoff)
      cases l.target with
      | @task t current _ space _ =>
        rw [space]
        cases hroot : t.addressSpaceRoot with
        | none => exact Or.inl rfl
        | some root =>
          obtain ⟨s, hm, hr, hb⟩ := mp.owned hcode (current_alive current) root hroot
          exact Or.inr ⟨s, hm, hr, by simp [hb]⟩
      | boot _ _ _ space =>
        rw [space]
        exact Or.inl rfl
  | act _ ha =>
    by_cases hr : e = .restoreRoot
    · subst hr
      cases ha with
      | restoreRoot => exact Or.inl rfl
    · have hcr3 := ha.cr3_eq hr
      by_cases hd : e = .beginDrop
      · subst hd
        cases ha with
        | beginDrop code => exact Or.inl (mp.unloaded (by rw [code]; rfl))
      · rcases mp.cr3 with h | ⟨s, hm, hroot, hb⟩
        · exact Or.inl (hcr3.trans h)
        · obtain ⟨u, hu, hur, hub⟩ := mp.spaces_kept hm hb ha hd
          exact Or.inr ⟨u, hu, (hur.trans hroot).trans hcr3.symm, by rw [hub]; exact hb⟩

end Owners

section Runs

theorem Mapped.step (mp : Mapped P m) (hg : Good P m) (ok : TeardownKept m e)
    (hn : next P m e = some m') : Mapped P m' where
  parked := mp.parked.step mp.leaving rfl rfl (next_cases hn)
  leaving := mp.leaving_step hg ok hn
  unloaded := mp.unloaded_step hn
  frames := mp.frames_step (next_cases hn)
  tasks _ hu := mp.tasks_step hg ok hn hu
  cr3 := mp.cr3_step hg (next_cases hn)

theorem Boots.mapped (hb : Boots P m) : Mapped P m where
  parked sp k h := by simp [hb.frames] at h
  leaving hne := absurd hb.handoff hne
  unloaded ht := by simp [hb.code, Code.tearing] at ht
  frames := by
    obtain ⟨hfree, hmark⟩ := hb.memory
    constructor <;> simp [hfree, hb.spaces, hb.code, Code.frames, hmark]
  tasks t ht := by
    simp [Machine.alive, Machine.runnable, hb.scheduler, hb.pending, Scheduler.new,
      Scheduler.ready] at ht
  cr3 := Or.inl hb.cr3

theorem Mapped.not_free (mp : Mapped P m) {frame : ℕ} (h : m.IsRoot P frame) :
    frame ∉ m.memory.free := by
  rcases h with rfl | ⟨s, hs, rfl⟩
  · exact mp.frames.kernelRoot_not_free
  · exact mp.frames.root_not_free hs

theorem Mapped.rootsLive (mp : Mapped P m) (hg : Good P m) : RootsLive P m := by
  have hcr3 : m.IsRoot P m.cpu.cr3 := mp.cr3.imp_right fun ⟨s, hs, hr, _⟩ => ⟨s, hs, hr⟩
  refine ⟨⟨hcr3, mp.not_free hcr3⟩, ?_⟩
  intro t ht root hroot
  have howned : Owned m t := by
    rcases ht with hr | hp | ⟨hc, hcode⟩
    · have hm : t ∈ m.runnable := mem_runnable.mpr (Or.inr hr)
      refine (mp.tasks t (mem_alive.mpr (Or.inl hm))).resolve_left ?_
      rintro ⟨hslot, _⟩
      obtain ⟨u, hu, he⟩ := Option.map_eq_some_iff.mp hslot
      exact hg.placed.current_not_ready hu hr he.symm
    · refine (mp.tasks t (mem_alive.mpr (Or.inr hp))).resolve_left ?_
      rintro ⟨hslot, _⟩
      obtain ⟨u, hu, he⟩ := Option.map_eq_some_iff.mp hslot
      exact hg.placed.pending_not_runnable hp (mem_runnable.mpr (Or.inl hu)) he.symm
    · exact mp.owned hcode (current_alive hc)
  obtain ⟨s, hs, hr, _⟩ := howned root hroot
  have hroot' : m.IsRoot P root := Or.inr ⟨s, hs, hr⟩
  exact ⟨hroot', mp.not_free hroot'⟩

/-- All along a run in which no tick switches away from the end of `process_entry`, CR3 and the
roots of the tasks to be dispatched are live. -/
theorem roots_live {m₀ : Machine} {es : List Event} (boot : Boots P m₀)
    (kept : Meets (next P) TeardownKept m₀ es) : Always (next P) (RootsLive P) m₀ es := by
  have hstep : Preserves (next P) TeardownKept (fun m => Good P m ∧ Mapped P m) := by
    intro m e m' hg ok hn
    exact ⟨step_preserves_good m e m' hg.1 trivial hn, hg.2.step hg.1 ok hn⟩
  exact kept.always hstep (fun m hg => hg.2.rootsLive hg.1) ⟨boot.good, boot.mapped⟩

/-- A process and a kernel task; the program of the process exits, and its address space of two
frames is dropped. -/
def processEnds : List Event :=
  [.setInterrupts false, .newSpace, .mapFrame 8, .buildTask (some 8) 1 .normal true, .queueTask 0 0,
    .buildTask none 0 .normal true, .queueTask 1 0, .runUntilIdle, .leaveWindow,
    .performSwitch 16384, .runProgram 104, .storeSlot, .storeRsp0, .enterRing3, .syscall,
    .sysExit 3, .clearSlot, .leaveProgram, .restoreRoot, .beginDrop, .releaseFrame, .releaseFrame]

/-- A tick falls into the teardown, but the turn of the process is not over. -/
theorem roots_live_processEnds :
    Always (next smallPlatform) (RootsLive smallPlatform) smallPlatform.start
      (processEnds ++ [Event.tick, .exitTask, .performSwitch ((KernelStack.ofSlot 0).top - 256)]) := by
  have hm : Meets (next smallPlatform) TeardownKept smallPlatform.start
      (processEnds ++ [Event.tick, .exitTask, .performSwitch ((KernelStack.ofSlot 0).top - 256)]) := by
    decide +kernel
  exact roots_live (boots_start smallPlatform (by decide)) hm

/-- The turn is over before the process gets to `exit_task`: the kernel task runs, exits, and the
process is dispatched to finish. -/
def preemptedTeardown : List Event :=
  processEnds ++ [Event.tick, .tick, .tick, .performSwitch ((KernelStack.ofSlot 0).top - 256),
    .exitTask, .performSwitch ((KernelStack.ofSlot 1).top - 256)]

/-- CR3 holds the root of the dropped address space, a frame of the pool. -/
theorem dead_root_loaded :
    ∃ m, exec (next smallPlatform) smallPlatform.start preemptedTeardown = some m ∧
      m.cpu.cr3 ∈ m.memory.free ∧ ¬ RootsLive smallPlatform m := by
  have hrun : (exec (next smallPlatform) smallPlatform.start preemptedTeardown).any
      (fun m => decide (m.cpu.cr3 ∈ m.memory.free)) = true := by
    decide +kernel
  obtain ⟨m, hm, hv⟩ := (Option.any_eq_true _ _).mp hrun
  have hfree := of_decide_eq_true hv
  exact ⟨m, hm, hfree, fun h => h.cr3.2 hfree⟩

end Runs

end KernelMachine
