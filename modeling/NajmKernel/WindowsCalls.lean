import NajmKernel.MirageImports
import NajmKernel.Syscalls
import NajmKernel.ThunkCalls

/-! A Windows program's calls, from its import table to the kernel's answer: what is called through a
slot of a loaded image is the function of the import's name. -/
namespace Mirage

open LittleEndian PhysicalMemory PageTables PhysicalFrames AddressSpaces Attempts
  SpaceBuilding PeParser SpaceRuns InstructionSet MachineCode
open TransitionSystem (exec exec_nil)
open ElfLoader (LoadedImage)
open KernelMachine (ProgramExit)
open Syscalls (Kernel)

/-- What the functions that an image may import are for, by the argument in RCX. -/
def purpose (name : String) : Option (ℕ → Syscalls.Call ℕ) :=
  if name = "ExitProcess" then some Syscalls.sysExit
  else if name = "GetTickCount" then some fun _ => Syscalls.sysUptimeMs
  else if name = "Sleep" then some fun _ => Syscalls.sysYield
  else if name = "OutputDebugStringA" then some Syscalls.sysWriteCstr
  else none

/-- The call that the registers ask for. -/
def called (k : Kernel) (c : InstructionSet.State) : Option (Except ProgramExit ℕ × Kernel) :=
  k.call (UInt64.ofNat (c.regs .rax)) (UInt64.ofNat (c.regs .rdi)) (UInt64.ofNat (c.regs .rsi))
    (UInt64.ofNat (c.regs .rdx))

/-- The kernel behind `int 0x80`: its answer in RAX, and every other register as it was. -/
def kernelGate (k : Kernel) : Gate := fun _ c =>
  match called k c with
  | some (.ok raw, _) => c.setReg .rax raw
  | _ => c

variable {X : Mapper} {nx : Bool} {bytes : List UInt8} {image : Image} {b : Building}
  {kernelRoot cr3 : Frame} {level : Frame → Option ℕ} {data : Frame → Prop}
  {s₀ u : SpaceRuns.State} {es : List SpaceRuns.Event} {name : String} {loaded : LoadedImage}
  {sys' : System} {k : Kernel} {s c : InstructionSet.State} {t : Thunk}

theorem kernelGate_regs {r : Reg} (hr : r ≠ .rax) :
    (kernelGate k 0x80 c).regs r = c.regs r := by
  unfold kernelGate
  cases called k c with
  | none => rfl
  | some r =>
    obtain ⟨exit | raw, k'⟩ := r
    · rfl
    · exact Function.update_of_ne hr raw c.regs

theorem kernelGate_mem (vector : UInt8) : (kernelGate k vector c).mem = c.mem := by
  unfold kernelGate
  split <;> rfl

theorem kernelGate_rax {raw : ℕ} {k' : Kernel} (h : called k c = some (.ok raw, k')) :
    (kernelGate k 0x80 c).regs .rax = raw := by
  simp only [kernelGate, h]
  exact Function.update_self Reg.rax raw c.regs

/-- A thunk asks the kernel for what its function is for. -/
theorem lookup_purpose (ht : lookup name = some t) :
    t.syscall < 2 ^ 31 ∧ t.args ≤ 1 ∧ ∃ f, purpose name = some f ∧
      ∀ (k : Kernel) (s : InstructionSet.State), s.regs .rcx < 2 ^ 64 →
        called k (requested t s) = (f (s.regs .rcx)).run k := by
  have hmem := List.mem_of_find?_eq_some ht
  have hname : t.name = name := by simpa using List.find?_some ht
  have harg : ∀ {n}, n < 2 ^ 64 → (UInt64.ofNat n).toNat = n := UInt64.toNat_ofNat_of_lt'
  subst hname
  simp only [thunks, List.mem_cons, List.not_mem_nil, or_false] at hmem
  rcases hmem with rfl | rfl | rfl | rfl
  · refine ⟨by decide, le_rfl, _, rfl, fun k s hcx => ?_⟩
    rw [← harg hcx]
    rfl
  · exact ⟨by decide, by decide, _, rfl, fun k s _ => rfl⟩
  · exact ⟨by decide, by decide, _, rfl, fun k s _ => rfl⟩
  · refine ⟨by decide, le_rfl, _, rfl, fun k s hcx => ?_⟩
    rw [← harg hcx]
    rfl

/-- The register that the thunks move the argument to is the one that they do not hand back. -/
def kept : List Reg := [.rbx, .rbp, .rsi, .r12, .r13, .r14, .r15]

/-- The slot of an import leads to code that makes the one call that the function is for, and goes
back to the program with its answer. -/
structure Performs (space : AddressSpace) (m : Memory) (slot : ℕ) (f : ℕ → Syscalls.Call ℕ)
    (target : ℕ) (code : List UInt8) : Prop where
  bound : ShowsAt space m slot (toBytes 8 target)
  shown : ShowsAt space m target code
  executable : permissions space m (target / 4096) = some ⟨false, true⟩
  runs : ∀ (k : Kernel) (s : InstructionSet.State), s.rip = target → s.regs .rcx < 2 ^ 64 →
    ∃ c u, (∀ fuel > 5, execute (kernelGate k) target code fuel s [] = some ([(0x80, c)], u)) ∧
      called k c = (f (s.regs .rcx)).run k ∧
      (∀ raw k', (f (s.regs .rcx)).run k = some (.ok raw, k') → u.regs .rax = raw) ∧
      u.rip = s.mem s.rsp ∧ u.rsp = s.rsp + 8 ∧ ∀ r ∈ kept, u.regs r = s.regs r

theorem requested_kept (hargs : t.args ≤ 1) {r : Reg} (hr : r ∈ Reg.rsp :: kept) :
    request t s r = s.regs r := by
  simp only [kept, List.mem_cons, List.not_mem_nil, or_false] at hr
  rcases hr with rfl | rfl | rfl | rfl | rfl | rfl | rfl | rfl
  · rfl
  · rfl
  · rfl
  · exact if_neg (by omega)
  · rfl
  · rfl
  · rfl
  · rfl

/-- What a thunk does, where its system call is the function's. -/
theorem thunk_runs {f : ℕ → Syscalls.Call ℕ} {target : ℕ} (hsyscall : t.syscall < 2 ^ 31)
    (hargs : t.args ≤ 1) (hcalled : called k (requested t s) = (f (s.regs .rcx)).run k)
    (hrip : s.rip = target) : ∃ c u,
      (∀ fuel > 5, execute (kernelGate k) target (generateThunk t) fuel s [] =
        some ([(0x80, c)], u)) ∧
      called k c = (f (s.regs .rcx)).run k ∧
      (∀ raw k', (f (s.regs .rcx)).run k = some (.ok raw, k') → u.regs .rax = raw) ∧
      u.rip = s.mem s.rsp ∧ u.rsp = s.rsp + 8 ∧ ∀ r ∈ kept, u.regs r = s.regs r := by
  have hrsp : (kernelGate k 0x80 (requested t s)).rsp = s.rsp :=
    (kernelGate_regs (by decide)).trans (requested_kept hargs List.mem_cons_self)
  refine ⟨requested t s, _, fun fuel hfuel => run_thunk _ hsyscall hrip hfuel, hcalled,
    fun raw k' hraw => ?_, ?_, ?_, fun r hr => ?_⟩
  · rw [ret_regs (by decide)]
    exact kernelGate_rax (hcalled.trans hraw)
  · rw [ret_rip]
    change (kernelGate k 0x80 (requested t s)).mem (kernelGate k 0x80 (requested t s)).rsp = _
    rw [hrsp, kernelGate_mem]
    rfl
  · rw [ret_rsp]
    exact congrArg (· + 8) hrsp
  · have hne : r ≠ .rsp ∧ r ≠ .rax := by
      constructor
      · rintro rfl
        revert hr
        decide
      · rintro rfl
        revert hr
        decide
    rw [ret_regs hne.1]
    exact (kernelGate_regs hne.2).trans (requested_kept hargs (List.mem_cons_of_mem _ hr))

/-- The page of a thunk is the one behind the image. -/
theorem thunkAddress_page {i : ℕ}
    (hroom : thunkAddress image i + thunkStride ≤ thunkBase image + 4096) :
    thunkAddress image i / 4096 = basePage + imagePages image := by
  unfold thunkAddress thunkBase thunkStride mirageImageBase at *
  rw [basePage]
  omega

/-- A program that imports `GetTickCount`, through a slot at 0x800. -/
def tickProgram : List UInt8 :=
  encode 0 4096 287 [(0, 0), (216, 40)] []
    (toBytes 4 256 ++ toBytes 4 0 ++ toBytes 4 0 ++ toBytes 4 272 ++ toBytes 4 0x800 ++
      List.replicate 20 0 ++ toBytes 8 272 ++ toBytes 8 0 ++
      [0, 0, 0x47, 0x65, 0x74, 0x54, 0x69, 0x63, 0x6B, 0x43, 0x6F, 0x75, 0x6E, 0x74, 0])

def tickImage : Image := ⟨0, 0, 4096, 287, [], [⟨"GetTickCount", 0x800⟩], []⟩

theorem tickProgram_read : parsed tickProgram = some tickImage ∧ Loadable tickProgram tickImage := by
  decide +kernel

theorem tickImage_undisturbed : Undisturbed tickImage := by
  have hself : ∀ p : Overwrites.Patch UInt8, p.Agrees p := fun p i _ j _ he => by
    obtain rfl := Nat.add_left_cancel he
    rfl
  have hpatches : patches tickImage = [⟨0x200000001000, thunkCode "GetTickCount"⟩,
      ⟨0x200000000800, toBytes 8 0x200000001000⟩] := rfl
  have hlength : (thunkCode "GetTickCount").length = 32 := by decide +kernel
  intro p hp q hq
  rw [hpatches] at hp hq
  simp only [List.mem_cons, List.not_mem_nil, or_false] at hp hq
  rcases hp with rfl | rfl <;> rcases hq with rfl | rfl
  · exact hself _
  · intro i hi j hj he
    simp only [hlength, length_toBytes] at hi hj he
    omega
  · intro i hi j hj he
    simp only [hlength, length_toBytes] at hi hj he
    omega
  · exact hself _

end Mirage
