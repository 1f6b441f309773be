import NajmKernel.Footprints

/-! Where an interrupt from Ring 3 puts its frame. RSP0 and CR3 are those of the task whose
program runs, at every point of every run; RSP0 is aligned as long as `enter_usermode_and_wait`
is called with the stack alignment of the calling convention. -/
namespace KernelMachine

open SchedulingClasses KernelStacks TaskScheduler TransitionSystem

variable {P : Platform} {m m' : Machine} {e : Event} {t u : Task}

/-- A task calls `enter_usermode_and_wait` with its return address below an aligned stack. Tops
of kernel stacks are multiples of 16. -/
def CallsAligned (P : Platform) (m : Machine) (e : Event) : Prop :=
  match e with
  | .runProgram depth =>
    (next P m e).isSome = true → m.supervisorSlot ≠ none → depth % 16 = 8
  | _ => True

instance (m : Machine) (e : Event) : Decidable (CallsAligned P m e) := by
  cases e <;> unfold CallsAligned <;> infer_instance

/-- The task's Ring 3 program is executing. -/
def InRing3 (m : Machine) (t : Task) (p : ProgramCall) : Prop :=
  m.cpu.code = .ring3 p ∧ m.cpu.handoff = none ∧ m.scheduler.current = some t

/-- The bytes that an interrupt from Ring 3 overwrites. -/
def InterruptFrameAt (m : Machine) (a : ℕ) : Prop :=
  interruptStack m.cpu.rsp0 ≤ a ∧ a < interruptStack m.cpu.rsp0 + 40

/-- RSP0 and CR3 are the task's own, and an interrupt spares every live frame. -/
structure OwnEntry (P : Platform) (m : Machine) (t : Task) (p : ProgramCall) : Prop where
  cr3 : m.cpu.cr3 = t.addressSpaceRoot.getD P.kernelRoot
  rsp0 : m.cpu.rsp0 = t.supervisorRsp - 8
  within : t.stack.Holds m.cpu.rsp0
  below : t.supervisorRsp = p.savedRsp ∧ m.cpu.rsp0 < p.savedRsp
  spared : ∀ a, InterruptFrameAt m a → t.stack.bottom ≤ a ∧ a < m.cpu.rsp0
  apart : ∀ u ∈ m.undropped, u.handle ≠ t.handle → ∀ a, InterruptFrameAt m a →
    ¬ (u.stack.bottom ≤ a ∧ a < u.stack.top)

theorem Good.ring3 {p : ProgramCall} (hg : Good P m) (r : InRing3 m t p) :
    ∃ behind, Solo P m (taskHome t) behind := by
  obtain ⟨code, handoff, current⟩ := r
  cases hg.stage with
  | @solo h behind s =>
    refine ⟨behind, ?_⟩
    cases hc : s.current with
    | boot hn => simp [current] at hn
    | task ht =>
      obtain rfl := Option.some.inj (ht.symm.trans current)
      exact s
  | window w => simp [w.code] at code
  | leaving l => simp [l.handoff] at handoff

/-- A running program has its task's address space, and interrupts to a free part of the stack. -/
theorem Good.ownEntry {p : ProgramCall} (hg : Good P m) (r : InRing3 m t p) : OwnEntry P m t p := by
  obtain ⟨behind, s⟩ := hg.ring3 r
  obtain ⟨code, _, current⟩ := r
  have hk := s.running.ok
  simp only [ContextOk, Cpu.saved, code] at hk
  have hslot : t.supervisorRsp = p.savedRsp := hk.slot_set
  have habove : t.stack.bottom + 64 < p.savedRsp := hk.above
  have hbelow : p.savedRsp + 56 ≤ t.stack.top := hk.below
  have hrsp0 : m.cpu.rsp0 = p.savedRsp - 8 := s.running.rsp0 p (Or.inr (Or.inl code))
  have hcr3 := s.running.cr3 (by simp [Cpu.saved, code, Code.mapped])
  have hframe : ∀ a, InterruptFrameAt m a → t.stack.bottom ≤ a ∧ a < m.cpu.rsp0 := by
    rintro a ⟨hlo, hhi⟩
    rw [hrsp0] at hlo hhi ⊢
    unfold interruptStack at hlo hhi
    omega
  refine ⟨hcr3, by rw [hrsp0, hslot], ⟨by omega, by omega⟩, ⟨hslot, by omega⟩, hframe, ?_⟩
  intro u hu hne a ha hin
  obtain ⟨hlo, hhi⟩ := hframe a ha
  have hmine : t.stack.Holds (a + 1) := ⟨by omega, by omega⟩
  have htheirs : u.stack.Holds (a + 1) := ⟨by omega, by omega⟩
  exact hg.placed.stacks_apart hu (current_mem current) hne htheirs hmine

/-- Every call was made with the alignment that the frame layout relies on. -/
def CallsMadeAligned (m : Machine) : Prop :=
  ∀ p ∈ m.calls, ∀ handle, p.slot = some handle → p.savedRsp % 16 = 8

theorem savedRspAt_aligned {depth : ℕ} (h : t.stack.Holds m.cpu.rsp) (room : m.HasRoom P depth)
    (aligned : depth % 16 = 8) : m.savedRspAt P depth % 16 = 8 := by
  have htop := t.stack.top_aligned
  unfold Machine.HasRoom at room
  unfold Machine.savedRspAt at room ⊢
  rw [topAt_task h] at room ⊢
  omega

theorem Solo.aligned_runProgram {h : Home} {behind : Option ℕ} {depth : ℕ} {ofProcess : Bool}
    (s : Solo P m h behind) (al : CallsMadeAligned m) (room : m.HasRoom P depth)
    (aligned : m.supervisorSlot ≠ none → depth % 16 = 8) : CallsMadeAligned (m.runProgram P depth ofProcess) := by
  unfold Machine.runProgram
  split
  · exact al
  · intro p hp handle hh
    rcases List.mem_cons.mp hp with rfl | hp
    · have hholds := s.running.holds
      cases hc : s.current with
      | boot hn => simp [Machine.supervisorSlot, hn] at hh
      | task ht => exact savedRspAt_aligned hholds room (aligned (by simp [Machine.supervisorSlot, ht]))
    · exact al p hp handle hh

theorem CallsMadeAligned.step (al : CallsMadeAligned m) (hg : Good P m) (ok : CallsAligned P m e)
    (hn : next P m e = some m') : CallsMadeAligned m' := by
  have hs := next_cases hn
  by_cases he : ∀ depth, e ≠ .runProgram depth
  · have hcalls := hs.calls_eq he
    exact fun p hp => al p (hcalls ▸ hp)
  · cases hs with
    | tick => exact absurd (by simp) he
    | performSwitch => exact absurd (by simp) he
    | act handoff ha =>
      cases ha with
      | @runProgram depth ofProcess code room =>
        obtain ⟨h, behind, s⟩ := hg.solo handoff (by rw [code]; cases ofProcess <;> rfl)
        exact s.aligned_runProgram al room (ok (by simp [hn]))
      | _ => exact absurd (by simp) he

theorem Boots.callsMadeAligned (hb : Boots P m) : CallsMadeAligned m := by
  intro p hp
  simp [hb.programs.1] at hp

theorem Good.rsp0_aligned {p : ProgramCall} (hg : Good P m) (al : CallsMadeAligned m)
    (r : InRing3 m t p) : m.cpu.rsp0 % 16 = 0 := by
  obtain ⟨behind, s⟩ := hg.ring3 r
  have hk := s.running.ok
  simp only [ContextOk, Cpu.saved, r.1] at hk
  have ha := al p hk.called t.handle hk.slot
  have habove := hk.above
  rw [s.running.rsp0 p (Or.inr (Or.inl r.1))]
  omega

/-- In every run a program runs with its own task's CR3 and RSP0, and no interrupt from it
touches a live frame or another stack. Where the calls are all aligned, so is RSP0. -/
theorem ring3_entry_safe {m₀ : Machine} {es : List Event} (boot : Boots P m₀) :
    Always (next P) (fun m => ∀ t p, InRing3 m t p → OwnEntry P m t p) m₀ es ∧
      (Meets (next P) (CallsAligned P) m₀ es →
        Always (next P) (fun m => ∀ t p, InRing3 m t p → m.cpu.rsp0 % 16 = 0) m₀ es) := by
  refine ⟨?_, fun aligned => ?_⟩
  · exact (meets_any (next P) m₀ es).always step_preserves_good (fun m hg t p r => hg.ownEntry r)
      boot.good
  · have hstep : Preserves (next P) (CallsAligned P) (fun m => Good P m ∧ CallsMadeAligned m) := by
      intro m e m' hg ok hn
      exact ⟨step_preserves_good m e m' hg.1 trivial hn, hg.2.step hg.1 ok hn⟩
    exact aligned.always hstep (fun m hg t p r => hg.1.rsp0_aligned hg.2 r)
      ⟨boot.good, boot.callsMadeAligned⟩

/-- A task runs a program and is preempted in it; the call finds RSP eight below a multiple of
sixteen. -/
def alignedCall : List Event :=
  [.setInterrupts false, .buildTask none 0 .realtime true, .queueTask 0 0,
    .buildTask none 0 .realtime true, .queueTask 1 0, .runUntilIdle, .leaveWindow,
    .performSwitch 16384, .runProgram 104, .storeSlot, .storeRsp0, .enterRing3, .tick,
    .performSwitch ((KernelStack.ofSlot 0).top - 512), .tick,
    .performSwitch ((KernelStack.ofSlot 1).top - 512)]

theorem ring3_entry_safe_alignedCall :
    Always (next smallPlatform) (fun m => ∀ t p, InRing3 m t p → OwnEntry smallPlatform m t p)
        smallPlatform.start alignedCall ∧
      Always (next smallPlatform) (fun m => ∀ t p, InRing3 m t p → m.cpu.rsp0 % 16 = 0)
        smallPlatform.start alignedCall := by
  have hm : Meets (next smallPlatform) (CallsAligned smallPlatform) smallPlatform.start
      alignedCall := by
    decide +kernel
  obtain ⟨hown, haligned⟩ :=
    ring3_entry_safe (boots_start smallPlatform (by decide))
  exact ⟨hown, haligned hm⟩

/-- A new task starts with RSP at the top of its stack, where the calling convention would have
a return address, so that compiled code makes its calls eight bytes off. -/
def misalignedCall : List Event :=
  [.setInterrupts false, .buildTask none 0 .realtime true, .queueTask 0 0, .runUntilIdle,
    .leaveWindow, .performSwitch 16384, .runProgram 96, .storeSlot, .storeRsp0, .enterRing3]

theorem rsp0_misaligned :
    ∃ m t p, exec (next smallPlatform) smallPlatform.start misalignedCall = some m ∧
      InRing3 m t p ∧ m.cpu.rsp0 = t.supervisorRsp - 8 ∧ m.cpu.rsp0 % 16 = 8 := by
  have hrun : (exec (next smallPlatform) smallPlatform.start misalignedCall).any (fun m =>
      m.cpu.code.program.any fun p => m.scheduler.current.any fun t =>
        decide ((m.cpu.code = .ring3 p ∧ m.cpu.handoff = none) ∧
          m.cpu.rsp0 = t.supervisorRsp - 8 ∧ m.cpu.rsp0 % 16 = 8)) = true := by
    decide +kernel
  obtain ⟨m, hm, hv⟩ := (Option.any_eq_true _ _).mp hrun
  obtain ⟨p, -, hp⟩ := (Option.any_eq_true _ _).mp hv
  obtain ⟨t, current, ht⟩ := (Option.any_eq_true _ _).mp hp
  obtain ⟨⟨code, handoff⟩, hrsp0⟩ := of_decide_eq_true ht
  exact ⟨m, t, p, hm, ⟨code, handoff, current⟩, hrsp0⟩

end KernelMachine
