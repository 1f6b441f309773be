import NajmKernel.SyscallEffects

/-! Where a syscall writes: into the buffer that it names, as far as the program itself could, and
nothing where it fails. -/
namespace Syscalls

open KernelMachine (ProgramExit)
open Attempts Attempt UserMemory

section Buffers

/-- The address of the buffer that a syscall fills. -/
def outputBuffer (number arg1 arg2 arg3 : ℕ) : Option ℕ :=
  match number with
  | 17 | 21 | 51 | 82 => some arg2
  | 22 => some arg3
  | 64 | 83 => some arg1
  | _ => none

/-- How many bytes of it a syscall that returns `raw` may have filled: as many as the program says
there are, those of a record, or those of the events that it returns. -/
def outputLimit (number arg2 arg3 raw : ℕ) : ℕ :=
  match number with
  | 17 | 21 | 51 => arg3
  | 22 => 16
  | 64 => 24
  | 82 => 32
  | 83 => 32 * min raw arg2
  | _ => 0

/-- After a copy of some bytes to the program, or none. -/
structure Copied (k u : Kernel) (ptr : ℕ) (data : List UInt8) : Prop where
  size : data.length ≤ maxUserTransfer
  writable : rangeIsUser k.space ptr data.length true = true
  spaces : u.spaces = Function.update k.spaces k.currentPid (k.space.write ptr data)

/-- A call of which the answer `raw` says what it has copied, if anything. -/
def Fills (k : Kernel) (ptr : ℕ) (limit : ℕ → ℕ) (r : Except ProgramExit ℕ) (u : Kernel) : Prop :=
  u.spaces = k.spaces ∨
    ∃ raw data, r = .ok raw ∧ isError raw = false ∧ data.length ≤ limit raw ∧ Copied k u ptr data

/-- The memory of the programs and the current process are as before. -/
def Quiet (k u : Kernel) : Prop := u.spaces = k.spaces ∧ u.currentPid = k.currentPid

instance : IsPreorder Kernel Quiet where
  refl _ := ⟨rfl, rfl⟩
  trans _ _ _ h h' := ⟨h'.1.trans h.1, h'.2.trans h.2⟩

end Buffers

section Rules

variable {k k' u : Kernel} {ptr : ℕ} {limit : ℕ → ℕ} {α : Type}

/-- From a state that is quiet since `k`, whatever the call returns fills the buffer. -/
def Filling (k : Kernel) (ptr : ℕ) (limit : ℕ → ℕ) (x : Call ℕ) (k' : Kernel) : Prop :=
  ∀ r u, x.run k' = some (r, u) → Fills k ptr limit r u

theorem Quiet.space (h : Quiet k u) : u.space = k.space := by
  rw [Kernel.space, Kernel.space, h.1, h.2]

theorem filling_of_leads {x : Call ℕ} (h : Quiet k k') (hx : Leads Quiet x k') :
    Filling k ptr limit x k' :=
  fun r u hu => Or.inl ((hx r u hu).1.trans h.1)

theorem filling_pure (h : Quiet k k') (n : ℕ) : Filling k ptr limit (pure n) k' :=
  filling_of_leads h (Leads.pure n)

theorem filling_gets {f : Kernel → α} {g : α → Call ℕ} (h : Filling k ptr limit (g (f k')) k') :
    Filling k ptr limit (gets f >>= g) k' := h

theorem filling_modifies {f : Kernel → Kernel} {g : Unit → Call ℕ}
    (h : Filling k ptr limit (g ()) (f k')) : Filling k ptr limit (modifies f >>= g) k' := h

theorem filling_ite {c : Prop} [Decidable c] {x y : Call ℕ} (hx : c → Filling k ptr limit x k')
    (hy : ¬ c → Filling k ptr limit y k') : Filling k ptr limit (if c then x else y) k' := by
  split
  next h => exact hx h
  next h => exact hy h

theorem filling_demand {c : Prop} [Decidable c] {x : Call ℕ} (hx : c → Filling k ptr limit x k') :
    Filling k ptr limit (do demand c; x) k' := by
  intro r u hu
  rw [run_demand_bind] at hu
  split at hu
  next h => exact hx h r u hu
  · nomatch hu

theorem filling_bind {x : Call α} {f : α → Call ℕ} (h : Quiet k k') (hx : Leads Quiet x k')
    (hf : ∀ a u, x.run k' = some (.ok a, u) → Quiet k u → Filling k ptr limit (f a) u) :
    Filling k ptr limit (x >>= f) k' := by
  intro r u hu
  rw [run_bind] at hu
  rcases hrun : x.run k' with _ | ⟨e | a, w⟩
  · rw [hrun] at hu
    nomatch hu
  · rw [hrun] at hu
    obtain ⟨-, rfl⟩ := Prod.mk.inj (Option.some.inj hu)
    exact Or.inl ((hx _ _ hrun).1.trans h.1)
  · rw [hrun] at hu
    exact hf a w hrun (trans_of Quiet h (hx _ _ hrun)) r u hu

theorem copied_of_copy {s' : UserSpace} {data : List UInt8} (h : Quiet k k')
    (hcopy : copyToUser k'.space ptr data = some s')
    (hu : u.spaces = Function.update k'.spaces k'.currentPid s') : Copied k u ptr data := by
  rw [h.space] at hcopy
  obtain ⟨hsize, hrange, rfl⟩ := copyToUser_some hcopy
  exact ⟨hsize, hrange, by rw [hu, h.1, h.2]⟩

theorem small_ok {n : ℕ} (h : n ≤ maxUserTransfer) : isError n = false := by
  rw [isError, decide_eq_false_iff_not, encodeError]
  have hmax : maxUserTransfer = 1048576 := rfl
  omega

theorem filling_answerWith (h : Quiet k k') {data : List UInt8} {answer : ℕ}
    (hlimit : data.length ≤ limit answer) (hanswer : answer ≤ maxUserTransfer) :
    Filling k ptr limit (answerWith ptr data answer) k' := by
  refine filling_gets ?_
  cases hcopy : copyToUser k'.space ptr data with
  | none => exact filling_pure h _
  | some s =>
    intro r u hu
    rw [run_modifies_bind, run_pure] at hu
    obtain ⟨rfl, rfl⟩ := Prod.mk.inj (Option.some.inj hu)
    exact Or.inr ⟨answer, data, rfl, small_ok hanswer, hlimit, copied_of_copy h hcopy rfl⟩

/-- An answer that is the number of the bytes. -/
theorem filling_answerWith_length (h : Quiet k k') {data : List UInt8}
    (hlimit : data.length ≤ limit data.length) :
    Filling k ptr limit (answerWith ptr data data.length) k' := by
  by_cases hsize : data.length ≤ maxUserTransfer
  · exact filling_answerWith h hlimit hsize
  · refine filling_gets ?_
    rw [copyToUser, if_pos (Nat.lt_of_not_le hsize)]
    exact filling_pure h _

end Rules

section Handlers

variable {k u : Kernel} {number : ℕ}

theorem filling_requiring {ptr : ℕ} {limit : ℕ → ℕ} {right : Realms.Right} {body : Call ℕ}
    (h : Filling k ptr limit body k) : Filling k ptr limit (requiring right body) k :=
  filling_gets (filling_ite (fun _ => h) fun _ => filling_pure (refl_of Quiet k) _)

theorem fileRead_length {fs : Option FileSystem.Mounted} {node : FileSystem.Node}
    {offset count : ℕ} {data : List UInt8}
    (h : (FileSystem.read fs node offset count : Call (List UInt8)).run k = some (.ok data, u)) :
    data.length ≤ count := by
  unfold FileSystem.read at h
  split at h
  · obtain ⟨hdata, -⟩ := Prod.mk.inj (Option.some.inj h)
    obtain rfl := Except.ok.inj hdata
    exact Nat.zero_le _
  cases fs with
  | none =>
    obtain ⟨hdata, -⟩ := Prod.mk.inj (Option.some.inj h)
    obtain rfl := Except.ok.inj hdata
    exact Nat.zero_le _
  | some fs =>
    obtain ⟨-, h⟩ := run_sum_bind_ok.mp h
    obtain ⟨-, h⟩ := run_sum_bind_ok.mp h
    obtain ⟨hdata, -⟩ := Prod.mk.inj (Option.some.inj h)
    obtain rfl := Except.ok.inj hdata
    split
    · exact Nat.zero_le _
    · rw [List.length_take]
      omega

theorem run_setFilePosition_quiet (k : Kernel) (descriptor position : ℕ) : ∃ moved u,
    (setFilePosition descriptor position).run k = some (.ok moved, u) ∧ Quiet k u := by
  rw [setFilePosition, run_gets_bind]
  cases getFile k descriptor with
  | none => exact ⟨_, _, rfl, rfl, rfl⟩
  | some file => exact ⟨_, _, rfl, rfl, rfl⟩

theorem filling_sysRead (descriptor ptr len : ℕ) :
    Filling k ptr (fun _ => len) (sysRead descriptor ptr len) k := by
  have hk := refl_of Quiet k
  refine filling_ite (fun _ => filling_pure hk _) fun _ => filling_ite (fun _ => filling_pure hk _)
    fun _ => filling_gets ?_
  cases getFile k descriptor with
  | none => exact filling_pure hk _
  | some file =>
    refine filling_ite (fun _ => filling_pure hk _) fun _ => filling_gets ?_
    refine filling_bind hk (leads_fileRead _ _ _ _) fun data u hdata hu => filling_gets ?_
    have hlength := fileRead_length hdata
    cases hcopy : copyToUser u.space ptr data with
    | none => exact filling_pure hu _
    | some space =>
      intro r w hw
      obtain ⟨hsize, -, -⟩ := copyToUser_some hcopy
      rw [run_modifies_bind] at hw
      by_cases hsum : file.position + data.length < 2 ^ 64
      · rw [run_sum_bind hsum] at hw
        obtain ⟨moved, w', hmove, hquiet⟩ := run_setFilePosition_quiet
          { u with spaces := Function.update u.spaces u.currentPid space } descriptor
          (file.position + data.length)
        have hdiscard := run_discard (x := setFilePosition descriptor (file.position + data.length))
          (s := { u with spaces := Function.update u.spaces u.currentPid space })
        rw [hmove] at hdiscard
        rw [run_bind_of_ok hdiscard, run_pure] at hw
        obtain ⟨rfl, rfl⟩ := Prod.mk.inj (Option.some.inj hw)
        have hlen : data.length ≤ len := Nat.le_trans hlength (Nat.min_le_left _ _)
        exact Or.inr ⟨data.length, data, rfl, small_ok hsize, hlen, copied_of_copy hu hcopy hquiet.1⟩
      · rw [run_sum_bind_none hsum] at hw
        nomatch hw

theorem nameBlock_length {room : ℕ} {children : List String} {out : List UInt8}
    (h : out.length ≤ room) : (nameBlock room children out).length ≤ room := by
  induction children generalizing out with
  | nil => exact h
  | cons child rest ih =>
    rw [nameBlock]
    split
    · exact h
    next hroom =>
      refine ih ?_
      rw [List.length_append, List.length_append, List.length_singleton]
      exact Nat.not_lt.mp hroom

theorem filling_sysReaddir (descriptor ptr len : ℕ) :
    Filling k ptr (fun _ => len) (sysReaddir descriptor ptr len) k := by
  have hk := refl_of Quiet k
  refine filling_gets ?_
  cases getFile k descriptor with
  | none => exact filling_pure hk _
  | some file =>
    refine filling_ite (fun _ => filling_pure hk _) fun _ => filling_gets ?_
    cases FileSystem.readDir k.fs file.path with
    | none => exact filling_pure hk _
    | some children =>
      exact filling_answerWith_length hk (nameBlock_length (Nat.zero_le _))

theorem filling_sysStat (ptr len out : ℕ) :
    Filling k out (fun _ => 16) (sysStat ptr len out) k := by
  have hk := refl_of Quiet k
  refine filling_requiring (filling_gets ?_)
  cases readUserPath k.space ptr len with
  | error e => exact filling_pure hk _
  | ok path =>
    refine filling_gets ?_
    cases FileSystem.lookup k.fs path with
    | none => exact filling_pure hk _
    | some node =>
      refine filling_answerWith hk ?_ (Nat.zero_le _)
      rw [List.length_append, LittleEndian.length_toBytes, LittleEndian.length_toBytes]

theorem filling_sysPortRecv (handle ptr len : ℕ) :
    Filling k ptr (fun _ => len) (sysPortRecv handle ptr len) k := by
  have hk := refl_of Quiet k
  refine filling_gets (filling_ite (fun _ => filling_pure hk _) fun _ => ?_)
  refine filling_bind hk (leads_ipc fun r t _ => ⟨rfl, rfl⟩) fun r u _ hu => ?_
  cases r with
  | error e => exact filling_pure hu _
  | ok message =>
    refine filling_answerWith_length hu ?_
    rw [List.length_take]
    omega

theorem filling_sysRealmInfo (out : ℕ) : Filling k out (fun _ => 24) (sysRealmInfo out) k := by
  have hk := refl_of Quiet k
  refine filling_gets (filling_gets ?_)
  cases k.currentProfile with
  | none => exact filling_pure hk _
  | some profile =>
    refine filling_answerWith hk ?_ (Nat.zero_le _)
    simp only [List.length_append, LittleEndian.length_toBytes, Nat.le_refl]

theorem filling_sysSurfaceInfo (id out : ℕ) :
    Filling k out (fun _ => 32) (sysSurfaceInfo id out) k := by
  have hk := refl_of Quiet k
  refine filling_gets (filling_gets ?_)
  cases Compositor.surfaceGeometry k.compositor id k.currentPid with
  | none => exact filling_pure hk _
  | some size =>
    refine filling_demand fun _ => filling_answerWith hk ?_ (Nat.zero_le _)
    simp only [List.length_append, LittleEndian.length_toBytes, Nat.le_refl]

theorem poll_length (count : ℕ) (q : InputQueue.EventQueue) :
    (InputQueue.poll count q).1.length ≤ count := by
  induction count generalizing q with
  | zero => exact Nat.le_refl _
  | succ count ih =>
    rw [InputQueue.poll]
    split
    · exact Nat.zero_le _
    · exact Nat.succ_le_succ (ih _)

theorem eventBytes_length (events : List InputQueue.InputEvent) :
    (events.flatMap eventBytes).length = 32 * events.length := by
  induction events with
  | nil => rfl
  | cons event events ih =>
    rw [List.flatMap_cons, List.length_append, ih, List.length_cons, eventBytes]
    simp only [List.length_append, LittleEndian.length_toBytes]
    omega

theorem filling_sysInputPoll (out count : ℕ) :
    Filling k out (fun raw => 32 * min raw count) (sysInputPoll out count) k := by
  have hk := refl_of Quiet k
  refine filling_requiring (filling_ite (fun _ => filling_pure hk _) fun _ => filling_gets ?_)
  have hlength := poll_length (min count 64) k.input
  generalize InputQueue.poll (min count 64) k.input = polled at hlength
  obtain ⟨events, input⟩ := polled
  have hu : Quiet k { k with input := input } := ⟨rfl, rfl⟩
  refine filling_modifies (filling_ite (fun _ => filling_pure hu _) fun _ => ?_)
  have hcount : events.length ≤ min count 64 := hlength
  refine filling_answerWith hu ?_ ?_
  · rw [eventBytes_length, Nat.min_eq_left (by omega)]
  · exact Nat.le_trans (Nat.le_trans hcount (Nat.min_le_right _ _)) (by decide)

/-- No other syscall writes to a program. -/
theorem admits_quiet (hnumber : number ∉ [17, 21, 22, 51, 64, 82, 83]) : Admits Quiet number where
  space h := absurd h hnumber
  files _ _ _ := ⟨rfl, rfl⟩
  console _ _ _ := ⟨rfl, rfl⟩
  create _ _ _ _ _ _ _ := ⟨rfl, rfl⟩
  send _ _ _ _ _ _ _ _ := ⟨rfl, rfl⟩
  recv _ _ _ _ _ _ := ⟨rfl, rfl⟩
  close _ _ _ _ _ _ := ⟨rfl, rfl⟩
  surface _ _ _ _ _ _ _ _ _ _ := ⟨rfl, rfl⟩
  commit _ _ _ _ _ _ _ _ := ⟨rfl, rfl⟩
  throttle _ _ := ⟨rfl, rfl⟩
  present _ _ _ _ _ _ := ⟨rfl, rfl⟩
  input _ _ _ _ := ⟨rfl, rfl⟩

/-- A syscall leaves the memory of the programs alone, or fills its buffer. -/
theorem dispatch_fills (k : Kernel) (number arg1 arg2 arg3 : ℕ) :
    Leads Quiet (dispatch number arg1 arg2 arg3) k ∨
      ∃ ptr, outputBuffer number arg1 arg2 arg3 = some ptr ∧
        Filling k ptr (outputLimit number arg2 arg3) (dispatch number arg1 arg2 arg3) k := by
  by_cases hnumber : number ∈ [17, 21, 22, 51, 64, 82, 83]
  swap
  · exact Or.inl (leads_dispatch (admits_quiet hnumber) _ _ _)
  simp only [List.mem_cons, List.not_mem_nil, or_false] at hnumber
  obtain rfl | rfl | rfl | rfl | rfl | rfl | rfl := hnumber
  · exact Or.inr ⟨_, rfl, filling_sysRead _ _ _⟩
  · exact Or.inr ⟨_, rfl, filling_sysReaddir _ _ _⟩
  · exact Or.inr ⟨_, rfl, filling_sysStat _ _ _⟩
  · exact Or.inr ⟨_, rfl, filling_sysPortRecv _ _ _⟩
  · exact Or.inr ⟨_, rfl, filling_sysRealmInfo _⟩
  · exact Or.inr ⟨_, rfl, filling_sysSurfaceInfo _ _⟩
  · exact Or.inr ⟨_, rfl, filling_sysInputPoll _ _⟩

/-- The byte is one of the buffer that the syscall names, of as many bytes as it may fill for what
it returns, and the program could have written it. -/
structure MayWrite (k : Kernel) (number arg1 arg2 arg3 : ℕ) (r : Except ProgramExit ℕ)
    (a : ℕ) : Prop where
  inside : ∃ ptr raw, outputBuffer number arg1 arg2 arg3 = some ptr ∧ r = .ok raw ∧
    isError raw = false ∧ ptr ≤ a ∧ a < ptr + outputLimit number arg2 arg3 raw
  user : AddressSpaces.isUserAddress a = true
  writable : k.space.allows true (a / 4096) = true

theorem fills_may {ptr arg1 arg2 arg3 pid a : ℕ} {r : Except ProgramExit ℕ}
    (hbuffer : outputBuffer number arg1 arg2 arg3 = some ptr)
    (h : Fills k ptr (outputLimit number arg2 arg3) r u)
    (hchanged : (u.spaces pid).bytes a ≠ (k.spaces pid).bytes a) :
    pid = k.currentPid ∧ MayWrite k number arg1 arg2 arg3 r a := by
  obtain hsame | ⟨raw, data, rfl, hraw, hlimit, hcopied⟩ := h
  · exact absurd (congrArg (fun s => (s pid).bytes a) hsame) hchanged
  rw [hcopied.spaces] at hchanged
  have hpid : pid = k.currentPid := by
    by_contra hpid
    rw [Function.update_of_ne hpid] at hchanged
    exact hchanged rfl
  subst hpid
  rw [Function.update_self] at hchanged
  have hin : ptr ≤ a ∧ a < ptr + data.length := by
    by_contra hout
    exact hchanged (if_neg hout)
  obtain ⟨huser, hwritable⟩ := rangeIsUser_iff.mp hcopied.writable a hin.1 hin.2
  exact ⟨rfl, ⟨ptr, raw, hbuffer, rfl, hraw, hin.1, by omega⟩, huser, hwritable⟩

/-- Every byte of a program that a syscall changes is the caller's own, in the buffer that the
syscall names and writable by the program; and a syscall that fails changes none. -/
theorem syscall_writes {k u : Kernel} {number arg1 arg2 arg3 : UInt64} {r : Except ProgramExit ℕ}
    (h : k.call number arg1 arg2 arg3 = some (r, u)) :
    (∀ pid a, (u.spaces pid).bytes a ≠ (k.spaces pid).bytes a → pid = k.currentPid ∧
      MayWrite k number.toNat arg1.toNat arg2.toNat arg3.toNat r a) ∧
    (∀ raw, r = .ok raw → isError raw = true → u.spaces = k.spaces) := by
  obtain hquiet | ⟨ptr, hbuffer, hfills⟩ :=
    dispatch_fills k number.toNat arg1.toNat arg2.toNat arg3.toNat
  · have hspaces : u.spaces = k.spaces := (hquiet r u h).1
    refine ⟨fun pid a hchanged => ?_, fun _ _ _ => hspaces⟩
    exact absurd (congrArg (fun s => (s pid).bytes a) hspaces) hchanged
  · refine ⟨fun pid a hchanged => fills_may hbuffer (hfills r u h) hchanged, ?_⟩
    rintro raw rfl hraw
    obtain hsame | ⟨raw', data, hraw', hok, -⟩ := hfills _ u h
    · exact hsame
    · rw [← Except.ok.inj hraw', hraw] at hok
      nomatch hok

/-- A process with one page of memory is on the processor. -/
def onePage : Kernel :=
  { boot with
    currentPid := 1
    processes := fun pid => if pid = 1 then some ⟨Realms.home, .running, []⟩ else none
    spaces := fun _ => ⟨fun page => page == 0x400, fun page => page == 0x400, fun _ => 0⟩ }

/-- What it asks of its realm is written to its page. -/
theorem syscall_writes_realm : ∃ u, onePage.call 64 0x400FE8 0 0 = some (.ok 0, u) ∧
    (u.spaces 1).bytes 0x400FF0 = 1 ∧
    ∀ pid a, (u.spaces pid).bytes a ≠ (onePage.spaces pid).bytes a →
      pid = 1 ∧ MayWrite onePage 64 0x400FE8 0 0 (.ok 0) a := by
  have hcall : onePage.call 64 0x400FE8 0 0 = some (.ok 0, { onePage with
      spaces := Function.update onePage.spaces 1 (onePage.space.write 0x400FE8
        (LittleEndian.toBytes 8 Realms.home.kind ++ LittleEndian.toBytes 8 1 ++
          LittleEndian.toBytes 8 Realms.home.capabilities)) }) := rfl
  exact ⟨_, hcall, by decide, (syscall_writes hcall).1⟩

end Handlers

end Syscalls
