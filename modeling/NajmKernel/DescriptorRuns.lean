import NajmKernel.Descriptors
import NajmKernel.MountSafety
import NajmKernel.SyscallEffects
import NajmKernel.TransitionSystem

/-! The tables of open files, as the descriptors that they are for: every request of a process is
answered as there, and nothing else touches them. -/
namespace Syscalls

open KernelMachine (ProgramExit)
open Attempts Attempt UserMemory TransitionSystem
open Descriptors (Opened Table Tables Request Answer Observation Step)

section Views

variable (archive : List UInt8)

/-- The file that a node stands for. -/
def fileOf (node : FileSystem.Node) : Descriptors.File :=
  ⟨(archive.drop node.offset).take node.len, node.isDirectory⟩

def openedOf (file : OpenFile) : Opened := ⟨fileOf archive file.node, file.position⟩

def tableOf (files : List (Option OpenFile)) : Table :=
  fun d => (files[d]?).join.map (openedOf archive)

/-- The descriptors of each process, were it the one on the processor. -/
def tables (k : Kernel) : Tables :=
  fun pid => tableOf archive ({ k with currentPid := pid } : Kernel).files

/-- The file that the path of an open names, or the error that it comes to. -/
def named (k : Kernel) (ptr len flags : ℕ) : Except ℕ Descriptors.File :=
  if k.holds .fileRead = false then .error (encodeError EPERM)
  else if flags &&& openWrite ≠ 0 then .error (encodeError ENOTSUP)
  else match readUserPath k.space ptr len with
    | .error e => .error e
    | .ok path => match FileSystem.lookup k.fs path with
      | none => .error (encodeError ENOENT)
      | some node =>
        if flags &&& openDirectory ≠ 0 ∧ node.isDirectory = false then .error (encodeError ENOTSUP)
        else if (FileSystem.utf8 path).length > FileSystem.maxPath then .error (encodeError EINVAL)
        else .ok (fileOf archive node)

/-- What a syscall asks of the descriptors. -/
def request (k : Kernel) (number arg1 arg2 arg3 : ℕ) : Option Request :=
  match number with
  | 17 => some (.read arg1 arg3 fun n => rangeIsUser k.space arg2 n true)
  | 18 => some (.openFile (named archive k arg1 arg2 arg3))
  | 19 => some (.close arg1)
  | 20 => some (.seek arg1 arg2 arg3)
  | _ => none

/-- The value that is returned, and the bytes that stand in the buffer of a read. -/
def answered (number ptr raw : ℕ) (u : Kernel) : Answer :=
  ⟨raw, if number = 17 ∧ isError raw = false then u.space.read ptr raw else []⟩

def observed (k : Kernel) : Event → List Observation
  | .spawn _ _ => [.spawned k.nextPid]
  | .syscall number arg1 arg2 arg3 =>
    match request archive k number.toNat arg1.toNat arg2.toNat arg3.toNat,
      k.call number arg1 arg2 arg3 with
    | some request, some (.ok raw, u) =>
      [.called k.currentPid request (answered number.toNat arg2.toNat raw u)]
    | _, _ => []
  | _ => []

/-- The creations of processes and the answered requests of a run. -/
def observations : Kernel → List Event → List Observation
  | _, [] => []
  | k, e :: es => observed archive k e ++
    match next k e with
    | none => []
    | some u => observations u es

end Views

section Slots

variable {archive : List UInt8} {files : List (Option OpenFile)} {file : OpenFile}
  {slot : Option OpenFile} {d : ℕ}

theorem lt_of_open (h : (files[d]?).join = some file) : d < files.length := by
  by_contra hd
  rw [List.getElem?_eq_none (Nat.le_of_not_lt hd)] at h
  nomatch h

theorem set_join (hd : d < files.length) (slot : Option OpenFile) (e : ℕ) :
    ((files.set d slot)[e]?).join = if e = d then slot else (files[e]?).join := by
  by_cases he : e = d
  · subst he
    rw [if_pos rfl, List.getElem?_set_self hd]
    rfl
  · rw [if_neg he, List.getElem?_set_ne (Ne.symm he)]

theorem tableOf_of_slots {files' : List (Option OpenFile)}
    (h : ∀ e, (files'[e]?).join = if e = d then slot else (files[e]?).join) :
    tableOf archive files' =
      Function.update (tableOf archive files) d (slot.map (openedOf archive)) := by
  funext e
  rw [tableOf, h]
  by_cases he : e = d
  · subst he
    rw [if_pos rfl, Function.update_self]
  · rw [if_neg he, Function.update_of_ne he]
    rfl

def padded (files : List (Option OpenFile)) : List (Option OpenFile) :=
  files ++ List.replicate (firstDynamic - files.length) none

theorem padded_join (e : ℕ) : ((padded files)[e]?).join = (files[e]?).join := by
  rw [padded]
  by_cases he : e < files.length
  · rw [List.getElem?_append_left he]
  · rw [List.getElem?_append_right (Nat.le_of_not_lt he), List.getElem?_replicate,
      List.getElem?_eq_none (Nat.le_of_not_lt he)]
    split <;> rfl

theorem padded_length (files : List (Option OpenFile)) : firstDynamic ≤ (padded files).length := by
  rw [padded, List.length_append, List.length_replicate]
  omega

/-- The file stands in the least free slot behind the console's, and the rest as before. -/
theorem placeFile_slots (files : List (Option OpenFile)) (file : OpenFile) :
    IsLeast {d | firstDynamic ≤ d ∧ (files[d]?).join = none} (placeFile files file).2 ∧
      ∀ e, ((placeFile files file).1[e]?).join =
        if e = (placeFile files file).2 then some file else (files[e]?).join := by
  have hlength := padded_length files
  cases hfound : ((padded files).drop firstDynamic).findIdx? (·.isNone) with
  | some offset =>
    have hplace : placeFile files file = ((padded files).set (firstDynamic + offset) (some file),
        firstDynamic + offset) := by
      rw [padded] at hfound ⊢
      simp only [placeFile, hfound]
    rw [hplace]
    obtain ⟨hoffset, hnone, hbefore⟩ := List.findIdx?_eq_some_iff_getElem.mp hfound
    rw [List.length_drop] at hoffset
    have hd : firstDynamic + offset < (padded files).length := by omega
    rw [List.getElem_drop, Option.isNone_iff_eq_none] at hnone
    refine ⟨⟨⟨Nat.le_add_right _ _, ?_⟩, ?_⟩, ?_⟩
    · rw [← padded_join, List.getElem?_eq_getElem hd, hnone]
      rfl
    · rintro e ⟨hle, hfree⟩
      by_contra hlt
      have hlt : e < firstDynamic + offset := Nat.lt_of_not_le hlt
      have hj : e - firstDynamic < offset := by omega
      have hsome := hbefore (e - firstDynamic) hj
      rw [List.getElem_drop] at hsome
      simp only [Nat.add_sub_cancel' hle] at hsome
      rw [← padded_join, List.getElem?_eq_getElem (by omega), Option.join_some] at hfree
      exact hsome (Option.isNone_iff_eq_none.mpr hfree)
    · intro e
      rw [set_join hd _, padded_join]
  | none =>
    have hplace : placeFile files file = (padded files ++ [some file], (padded files).length) := by
      rw [padded] at hfound ⊢
      simp only [placeFile, hfound]
    rw [hplace]
    have hfull := List.findIdx?_eq_none_iff.mp hfound
    refine ⟨⟨⟨hlength, ?_⟩, ?_⟩, ?_⟩
    · rw [← padded_join, List.getElem?_eq_none (Nat.le_refl _)]
      rfl
    · rintro e ⟨hle, hfree⟩
      by_contra hlt
      have he : e < (padded files).length := Nat.lt_of_not_le hlt
      rw [← padded_join, List.getElem?_eq_getElem he, Option.join_some] at hfree
      have hmem : (padded files)[e] ∈ (padded files).drop firstDynamic :=
        List.mem_drop_iff_getElem.mpr ⟨e - firstDynamic, by omega, by simp only [Nat.add_sub_cancel' hle]⟩
      have hsome := hfull _ hmem
      rw [hfree] at hsome
      cases hsome
    · intro e
      by_cases he : e < (padded files).length
      · rw [if_neg (Nat.ne_of_lt he), List.getElem?_append_left he, padded_join]
      by_cases heq : e = (padded files).length
      · subst heq
        rw [if_pos rfl, List.getElem?_append_right (Nat.le_refl _), Nat.sub_self]
        rfl
      · rw [if_neg heq, List.getElem?_eq_none, ← padded_join, List.getElem?_eq_none]
        · omega
        · rw [List.length_append, List.length_singleton]
          omega

end Slots

section Changes

variable {archive : List UInt8} {k u : Kernel} {p : Process} {files : List (Option OpenFile)}
  {file : OpenFile} {d : ℕ}

theorem tables_current (k : Kernel) :
    tables archive k k.currentPid = tableOf archive k.files := rfl

theorem tables_descriptor (k : Kernel) (d : ℕ) :
    tables archive k k.currentPid d = (getFile k d).map (openedOf archive) := rfl

theorem process_of_open (h : getFile k d = some file) : ∃ p, k.currentProcess = some p := by
  rw [getFile, Kernel.files] at h
  cases hp : k.currentProcess with
  | none =>
    rw [hp] at h
    nomatch h
  | some p => exact ⟨p, rfl⟩

theorem files_of_process (hp : k.currentProcess = some p) : k.files = p.files := by
  rw [Kernel.files, hp]
  rfl

/-- A process's files are its own. -/
theorem tables_setFiles (hp : k.currentProcess = some p) :
    tables archive (k.setProcess fun p => { p with files := files }) =
      Function.update (tables archive k) k.currentPid (tableOf archive files) := by
  have hprocesses : (k.setProcess fun p => { p with files := files }).processes =
      Function.update k.processes k.currentPid (some { p with files := files }) := by
    rw [Kernel.setProcess, hp]
    rfl
  funext pid
  rw [tables, Kernel.files, Kernel.currentProcess, hprocesses]
  by_cases hpid : pid = k.currentPid
  · subst hpid
    rw [Function.update_self, if_neg (currentPid_ne_zero hp), Function.update_self]
    rfl
  · rw [Function.update_of_ne hpid, Function.update_of_ne hpid]
    rfl

end Changes

section Requests

variable {archive : List UInt8} {k u : Kernel} {p : Process} {file : OpenFile} {d raw : ℕ}
  {slot : Option OpenFile} {files : List (Option OpenFile)}

/-- A directory is empty, and a file lies within the archive. -/
structure Placed (archive : List UInt8) (node : FileSystem.Node) : Prop where
  directory : node.isDirectory = true → node.len = 0
  inside : node.isDirectory = true ∨
    node.offset + node.len < 2 ^ 64 ∧ node.offset + node.len ≤ archive.length

structure TidyFile (archive : List UInt8) (d : ℕ) (file : OpenFile) : Prop where
  dynamic : firstDynamic ≤ d
  placed : Placed archive file.node
  cursor : file.position ≤ file.node.len

def TidyFiles (archive : List UInt8) (files : List (Option OpenFile)) : Prop :=
  ∀ d file, (files[d]?).join = some file → TidyFile archive d file

/-- The archive is mounted, and the open files are of it. -/
structure Tidy (archive : List UInt8) (k : Kernel) : Prop where
  fs : ∃ fs, k.fs = some fs ∧ fs.archive = archive ∧ ∀ node ∈ fs.nodes, Placed archive node.2
  files : ∀ pid p, k.processes pid = some p → TidyFiles archive p.files

theorem contents_length {node : FileSystem.Node} (h : Placed archive node) :
    (fileOf archive node).contents.length = node.len := by
  rw [fileOf, List.length_take, List.length_drop]
  obtain hdirectory | ⟨-, hfits⟩ := h.inside
  · rw [h.directory hdirectory, Nat.zero_min]
  · omega

theorem Tidy.opened (hk : Tidy archive k) (h : getFile k d = some file) : TidyFile archive d file := by
  obtain ⟨p, hp⟩ := process_of_open h
  rw [getFile, files_of_process hp] at h
  exact hk.files _ p (processes_of_current hp) d file h

theorem tidyFiles_of_slots {files' : List (Option OpenFile)} (hfiles : TidyFiles archive files)
    (hslot : ∀ file, slot = some file → TidyFile archive d file)
    (h : ∀ e, (files'[e]?).join = if e = d then slot else (files[e]?).join) :
    TidyFiles archive files' := by
  intro e file he
  rw [h] at he
  split at he
  next heq => exact heq ▸ hslot file he
  · exact hfiles e file he

theorem tidy_setFiles (hk : Tidy archive k) (hp : k.currentProcess = some p)
    (hfiles : TidyFiles archive files) :
    Tidy archive (k.setProcess fun p => { p with files := files }) := by
  refine ⟨hk.fs, fun pid q hq => ?_⟩
  rw [Kernel.setProcess, hp] at hq
  simp only [Option.map_some] at hq
  by_cases hpid : pid = k.currentPid
  · subst hpid
    rw [Function.update_self] at hq
    obtain rfl := Option.some.inj hq
    exact hfiles
  · rw [Function.update_of_ne hpid] at hq
    exact hk.files pid q hq

/-- The request has been answered with this value, and this is the kernel after it. -/
structure Answers (archive : List UInt8) (k : Kernel) (number ptr : ℕ) (request : Request)
    (raw : ℕ) (u : Kernel) : Prop where
  step : ∃ t, Step (tables archive k k.currentPid) request (answered number ptr raw u) t ∧
    tables archive u = Function.update (tables archive k) k.currentPid t
  tidy : Tidy archive u

theorem setProcess_files (hp : k.currentProcess = some p)
    (f : List (Option OpenFile) → List (Option OpenFile)) :
    (k.setProcess fun q => { q with files := f q.files }) =
      k.setProcess fun q => { q with files := f p.files } := by
  rw [Kernel.setProcess, Kernel.setProcess, hp]
  rfl

/-- After a change of the current process's slot for a descriptor. -/
def Kernel.withSlot (k : Kernel) (d : ℕ) (slot : Option OpenFile) : Kernel :=
  k.setProcess fun p => { p with files := p.files.set d slot }

/-- A file in the place of another, or none. -/
theorem set_slot (hk : Tidy archive k) (h : getFile k d = some file) (slot : Option OpenFile)
    (hslot : ∀ file, slot = some file → TidyFile archive d file) :
    Tidy archive (k.withSlot d slot) ∧ tables archive (k.withSlot d slot) =
      Function.update (tables archive k) k.currentPid (Function.update (tables archive k k.currentPid) d
        (slot.map (openedOf archive))) := by
  obtain ⟨p, hp⟩ := process_of_open h
  rw [getFile, files_of_process hp] at h
  have hslots := set_join (lt_of_open h) slot
  rw [Kernel.withSlot, setProcess_files hp (·.set d slot)]
  refine ⟨tidy_setFiles hk hp (tidyFiles_of_slots ?_ hslot hslots), ?_⟩
  · exact hk.files _ p (processes_of_current hp)
  · rw [tables_setFiles hp, tables_current, files_of_process hp, tableOf_of_slots hslots]

theorem run_setFilePosition (h : getFile k d = some file) (position : ℕ) :
    (setFilePosition d position).run k =
      some (.ok true, k.withSlot d (some { file with position := position })) := by
  rw [setFilePosition, run_gets_bind, h]
  rfl

theorem sysClose_answers (hk : Tidy archive k) (d ptr : ℕ) : ∃ raw u,
    (sysClose d).run k = some (.ok raw, u) ∧ Answers archive k 19 ptr (.close d) raw u := by
  have hstep := @Step.closes (tables archive k k.currentPid) d
  rw [Descriptors.close, tables_descriptor] at hstep
  cases hfile : getFile k d with
  | none =>
    rw [hfile] at hstep
    have hclose : (closeFile d).run k = some (.ok false, k) := by
      rw [closeFile, run_gets_bind, hfile]
      rfl
    refine ⟨encodeError EBADF, k, ?_, ⟨_, hstep, (Function.update_eq_self _ _).symm⟩, hk⟩
    rw [sysClose, run_bind_of_ok hclose]
    rfl
  | some file =>
    rw [hfile] at hstep
    obtain ⟨htidy, htables⟩ := set_slot hk hfile none nofun
    have hclose : (closeFile d).run k = some (.ok true, k.withSlot d none) := by
      rw [closeFile, run_gets_bind, hfile]
      rfl
    refine ⟨0, _, ?_, ⟨_, hstep, htables⟩, htidy⟩
    rw [sysClose, run_bind_of_ok hclose]
    rfl

theorem seekTarget_eq (h : TidyFile archive d file) (offset whence : ℕ) :
    seekTarget file offset whence = (openedOf archive file).target offset whence := by
  have hlength := contents_length h.placed
  have hsmall : file.node.len < 2 ^ 64 := by
    obtain hdirectory | ⟨hwide, -⟩ := h.placed.inside
    · rw [h.placed.directory hdirectory]
      decide
    · omega
  unfold seekTarget Opened.target openedOf
  simp only [hlength, FileSystem.Node.size]
  rcases whence with _ | _ | _ | whence
  · rfl
  · exact congrArg some (by omega)
  · exact congrArg some (by omega)
  · rfl

theorem sysSeek_answers (hk : Tidy archive k) (d offset whence : ℕ) : ∃ raw u,
    (sysSeek d offset whence).run k = some (.ok raw, u) ∧
      Answers archive k 20 offset (.seek d offset whence) raw u := by
  have hstep := @Step.seeks (tables archive k k.currentPid) d offset whence
  rw [Descriptors.seek, tables_descriptor] at hstep
  cases hfile : getFile k d with
  | none =>
    rw [hfile] at hstep
    refine ⟨encodeError EBADF, k, ?_, ⟨_, hstep, (Function.update_eq_self _ _).symm⟩, hk⟩
    rw [sysSeek, run_gets_bind, hfile]
    rfl
  | some file =>
    have htidy := hk.opened hfile
    have htarget := seekTarget_eq htidy offset whence
    rw [hfile, Option.map_some] at hstep
    simp only [← htarget] at hstep
    cases hposition : seekTarget file offset whence with
    | none =>
      rw [hposition] at hstep
      refine ⟨encodeError EINVAL, k, ?_, ⟨_, hstep, (Function.update_eq_self _ _).symm⟩, hk⟩
      rw [sysSeek, run_gets_bind, hfile]
      simp only [hposition]
      rfl
    | some position =>
      rw [hposition] at hstep htarget
      have hle : position ≤ file.node.len :=
        contents_length htidy.placed ▸ Descriptors.target_le htarget.symm
      obtain ⟨hafter, htables⟩ := set_slot hk hfile (some { file with position := position })
        fun file' hfile' => Option.some.inj hfile' ▸ ⟨htidy.dynamic, htidy.placed, hle⟩
      refine ⟨position, _, ?_, ⟨_, hstep, htables⟩, hafter⟩
      rw [sysSeek, run_gets_bind, hfile]
      simp only [hposition]
      rw [run_bind_of_ok (run_setFilePosition hfile position)]
      rfl

/-- After a copy to the program. -/
def Kernel.wrote (k : Kernel) (ptr : ℕ) (data : List UInt8) : Kernel :=
  { k with spaces := Function.update k.spaces k.currentPid (k.space.write ptr data) }

/-- What a read of an open file comes to is what follows its cursor. -/
theorem run_fileRead {fs : FileSystem.Mounted} (hfs : fs.archive = archive)
    (h : TidyFile archive d file) (hfile : file.node.isDirectory = false) (len : ℕ) :
    (FileSystem.read (some fs) file.node file.position (min len maxUserTransfer) :
      Call (List UInt8)).run k = some (.ok ((openedOf archive file).following len), k) := by
  subst hfs
  have hread := FileSystem.read_run (σ := Kernel) (ε := ProgramExit) (u := k) h.placed.inside
    file.position (min len maxUserTransfer)
  have hlength := contents_length h.placed
  have hcursor := h.cursor
  refine hread.trans ?_
  rw [if_neg (fun hdirectory => Bool.false_ne_true (hfile.symm.trans hdirectory)),
    Opened.following, Opened.remaining, openedOf]
  simp only [hlength]
  rw [fileOf, List.drop_take, List.take_take, List.drop_drop]
  have hmax : Descriptors.maxTransfer = maxUserTransfer := rfl
  have hcount : min (min len maxUserTransfer) (file.node.len - file.position) =
      min (min len (min Descriptors.maxTransfer (file.node.len - file.position)))
        (file.node.len - file.position) := by
    rw [hmax]
    omega
  rw [hcount]

theorem sysRead_answers (hk : Tidy archive k) (d ptr len : ℕ) : ∃ raw u,
    (sysRead d ptr len).run k = some (.ok raw, u) ∧ Answers archive k 17 ptr
      (.read d len fun n => rangeIsUser k.space ptr n true) raw u := by
  have hstep := @Step.reads (tables archive k k.currentPid) d len
    fun n => rangeIsUser k.space ptr n true
  rw [Descriptors.read, tables_descriptor] at hstep
  by_cases hstdin : d = stdin
  · rw [if_pos (show d = 0 from hstdin)] at hstep
    refine ⟨0, k, ?_, ⟨_, hstep, (Function.update_eq_self _ _).symm⟩, hk⟩
    rw [sysRead, if_pos hstdin]
    rfl
  rw [if_neg (show ¬ d = 0 from hstdin)] at hstep
  by_cases hconsole : d = stdout ∨ d = stderr
  · have hnone : getFile k d = none := by
      cases hfile : getFile k d with
      | none => rfl
      | some file =>
        have hdynamic : 3 ≤ d := (hk.opened hfile).dynamic
        obtain rfl | rfl := hconsole <;> exact absurd hdynamic (by decide)
    rw [hnone] at hstep
    refine ⟨encodeError EBADF, k, ?_, ⟨_, hstep, (Function.update_eq_self _ _).symm⟩, hk⟩
    rw [sysRead, if_neg hstdin, if_pos hconsole]
    rfl
  cases hfile : getFile k d with
  | none =>
    rw [hfile] at hstep
    refine ⟨encodeError EBADF, k, ?_, ⟨_, hstep, (Function.update_eq_self _ _).symm⟩, hk⟩
    rw [sysRead, if_neg hstdin, if_neg hconsole, run_gets_bind, hfile]
    rfl
  | some file =>
    have htidy := hk.opened hfile
    rw [hfile, Option.map_some] at hstep
    by_cases hdirectory : file.node.isDirectory = true
    · simp only [openedOf, fileOf, hdirectory, if_true] at hstep
      refine ⟨encodeError ENOTSUP, k, ?_, ⟨_, hstep, (Function.update_eq_self _ _).symm⟩, hk⟩
      rw [sysRead, if_neg hstdin, if_neg hconsole, run_gets_bind, hfile]
      simp only [if_pos hdirectory]
      rfl
    have hordinary := Bool.eq_false_of_not_eq_true hdirectory
    obtain ⟨fs, hfs, harchive, -⟩ := hk.fs
    have hread := run_fileRead (k := k) harchive htidy hordinary len
    have hlength := Descriptors.following_length (openedOf archive file) len
    generalize hdata : (openedOf archive file).following len = data at hread hlength
    have hsize : ¬ data.length > maxUserTransfer := by
      have hmax : Descriptors.maxTransfer = maxUserTransfer := rfl
      omega
    simp only [hdata] at hstep
    rw [if_neg (show ¬ (openedOf archive file).file.isDirectory = true from hdirectory)] at hstep
    by_cases hfits : rangeIsUser k.space ptr data.length true = true
    · rw [if_pos hfits] at hstep
      have hcopy : copyToUser k.space ptr data = some (k.space.write ptr data) := by
        rw [copyToUser, if_neg hsize, if_pos hfits]
      have hw : Tidy archive (k.wrote ptr data) := ⟨hk.fs, hk.files⟩
      have hopen : getFile (k.wrote ptr data) d = some file := hfile
      have hremaining : (openedOf archive file).remaining = file.node.len - file.position := by
        rw [Opened.remaining, openedOf, contents_length htidy.placed]
      have hend : file.position + data.length ≤ file.node.len := by
        have hcursor := htidy.cursor
        omega
      have hlen : file.node.len < 2 ^ 64 := by
        obtain hdirectory' | ⟨hwide, -⟩ := htidy.placed.inside
        · exact absurd hdirectory' hdirectory
        · omega
      obtain ⟨hafter, hmoved⟩ := set_slot hw hopen
        (some { file with position := file.position + data.length })
        fun file' hfile' => Option.some.inj hfile' ▸ ⟨htidy.dynamic, htidy.placed, hend⟩
      refine ⟨data.length, _, ?_, ⟨?_, hafter⟩⟩
      · rw [sysRead, if_neg hstdin, if_neg hconsole, run_gets_bind, hfile]
        simp only [if_neg hdirectory]
        rw [run_gets_bind, hfs, run_bind_of_ok hread, run_gets_bind, hcopy]
        simp only
        have hmove : (discard (setFilePosition d (file.position + data.length))).run
            (k.wrote ptr data) = some (.ok (), (k.wrote ptr data).withSlot d
              (some { file with position := file.position + data.length })) := by
          rw [run_discard, run_setFilePosition hopen]
        rw [run_modifies_bind, run_sum_bind (by omega)]
        exact (run_bind_of_ok hmove).trans rfl
      · refine ⟨_, ?_, hmoved⟩
        have hraw : isError data.length = false := by
          rw [isError, decide_eq_false_iff_not, encodeError]
          have hmax : maxUserTransfer = 1048576 := rfl
          omega
        have hdelivered : ((k.wrote ptr data).withSlot d (some { file with
            position := file.position + data.length })).space.read ptr data.length = data := by
          have hspace : (k.wrote ptr data).space = k.space.write ptr data := Function.update_self _ _ _
          exact (congrArg (·.read ptr data.length) hspace).trans (read_write _ _ _)
        rw [answered, if_pos ⟨rfl, hraw⟩, hdelivered]
        exact hstep
    · rw [if_neg hfits] at hstep
      refine ⟨encodeError EFAULT, k, ?_, ⟨_, hstep, (Function.update_eq_self _ _).symm⟩, hk⟩
      rw [sysRead, if_neg hstdin, if_neg hconsole, run_gets_bind, hfile]
      simp only [if_neg hdirectory]
      rw [run_gets_bind, hfs, run_bind_of_ok hread, run_gets_bind, copyToUser, if_neg hsize,
        if_neg hfits]
      rfl

theorem run_requiring {right : Realms.Right} {body : Call ℕ} : (requiring right body).run k =
    if k.holds right = true then body.run k else some (.ok (encodeError EPERM), k) := by
  rw [requiring, run_gets_bind]
  split <;> rfl

/-- What an open comes to, by what its path names. -/
theorem run_sysOpen (hk : Tidy archive k) (ptr len flags : ℕ) :
    (∃ raw, named archive k ptr len flags = .error raw ∧
      (sysOpen ptr len flags).run k = some (.ok raw, k)) ∨
    ∃ p file, k.currentProcess = some p ∧ Placed archive file.node ∧ file.position = 0 ∧
      named archive k ptr len flags = .ok (fileOf archive file.node) ∧
      (sysOpen ptr len flags).run k = some (.ok (placeFile p.files file).2,
        k.setProcess fun q => { q with files := (placeFile p.files file).1 }) := by
  rw [sysOpen, run_requiring, named]
  by_cases hright : k.holds .fileRead = true
  swap
  · rw [if_neg hright, if_pos (Bool.eq_false_of_not_eq_true hright)]
    exact Or.inl ⟨_, rfl, rfl⟩
  obtain ⟨p, hp⟩ := process_of_holds hright
  rw [if_pos hright, if_neg (fun hno => Bool.false_ne_true (hno.symm.trans hright))]
  by_cases hwrite : flags &&& openWrite ≠ 0
  · rw [if_pos hwrite, if_pos hwrite]
    exact Or.inl ⟨_, rfl, rfl⟩
  rw [if_neg hwrite, if_neg hwrite, run_gets_bind]
  cases hpath : readUserPath k.space ptr len with
  | error e => exact Or.inl ⟨_, rfl, rfl⟩
  | ok path =>
    simp only
    rw [run_gets_bind]
    cases hnode : FileSystem.lookup k.fs path with
    | none => exact Or.inl ⟨_, rfl, rfl⟩
    | some node =>
      simp only
      by_cases hdirectory : flags &&& openDirectory ≠ 0 ∧ node.isDirectory = false
      · rw [if_pos hdirectory, if_pos hdirectory]
        exact Or.inl ⟨_, rfl, rfl⟩
      rw [if_neg hdirectory, if_neg hdirectory, OpenFile.new]
      by_cases hlong : (FileSystem.utf8 path).length > FileSystem.maxPath
      · rw [if_pos hlong, if_pos hlong]
        exact Or.inl ⟨_, rfl, rfl⟩
      rw [if_neg hlong, if_neg hlong]
      obtain ⟨fs, hfs, -, hplaced⟩ := hk.fs
      have hmem : ∃ n ∈ fs.nodes, n.2 = node := by
        rw [hfs] at hnode
        obtain ⟨n, hfind, hsome⟩ := Option.bind_eq_some_iff.mp hnode
        exact ⟨n, List.mem_of_find?_eq_some hfind, Option.some.inj hsome⟩
      obtain ⟨n, hn, rfl⟩ := hmem
      refine Or.inr ⟨p, ⟨n.2, 0, path⟩, hp, hplaced n hn, rfl, rfl, ?_⟩
      have hopened : (openFile ⟨n.2, 0, path⟩).run k =
          some (.ok (some (placeFile p.files ⟨n.2, 0, path⟩).2),
            k.setProcess fun q => { q with files := (placeFile p.files ⟨n.2, 0, path⟩).1 }) := by
        rw [openFile, run_gets_bind, hp]
        rfl
      exact (run_bind_of_ok hopened).trans rfl

theorem sysOpen_answers (hk : Tidy archive k) (ptr len flags : ℕ) : ∃ raw u,
    (sysOpen ptr len flags).run k = some (.ok raw, u) ∧ Answers archive k 18 len
      (.openFile (named archive k ptr len flags)) raw u := by
  obtain ⟨raw, hnamed, hrun⟩ | ⟨p, file, hp, hplaced, hstart, hnamed, hrun⟩ :=
    run_sysOpen hk ptr len flags
  · refine ⟨raw, k, hrun, ⟨_, ?_, (Function.update_eq_self _ _).symm⟩, hk⟩
    rw [hnamed]
    exact Step.fails
  · obtain ⟨hleast, hslots⟩ := placeFile_slots p.files file
    have hfiles := hk.files _ p (processes_of_current hp)
    have htidy : TidyFiles archive (placeFile p.files file).1 := by
      refine tidyFiles_of_slots hfiles (fun file' hfile' => ?_) hslots
      obtain rfl := Option.some.inj hfile'
      exact ⟨hleast.1.1, hplaced, hstart ▸ Nat.zero_le _⟩
    refine ⟨_, _, hrun, ⟨_, ?_, tables_setFiles hp⟩, tidy_setFiles hk hp htidy⟩
    rw [tableOf_of_slots hslots, hnamed, tables_current, files_of_process hp]
    have hfree : IsLeast (Descriptors.free (tableOf archive p.files)) (placeFile p.files file).2 := by
      refine Eq.mp (congrArg (IsLeast · _) (Set.ext fun d => ?_)) hleast
      exact and_congr_right' Option.map_eq_none_iff.symm
    have hopened : openedOf archive file = ⟨fileOf archive file.node, 0⟩ := by
      rw [openedOf, hstart]
    rw [answered, if_neg fun h => absurd h.1 (by decide), Option.map_some, hopened]
    exact Step.opens hfree

end Requests

section Runs

variable {archive : List UInt8} {k u v : Kernel} {e : Event} {es : List Event} {number : ℕ}

theorem tables_eq (h : u.processes = k.processes) : tables archive u = tables archive k := by
  funext pid
  rw [tables, tables, Kernel.files, Kernel.files, Kernel.currentProcess, Kernel.currentProcess, h]

theorem Tidy.of_eq (hk : Tidy archive k) (hprocesses : u.processes = k.processes)
    (hfs : u.fs = k.fs) : Tidy archive u :=
  ⟨hfs ▸ hk.fs, hprocesses ▸ hk.files⟩

/-- A change of the current process that is not one of its files. -/
theorem tables_setProcess {f : Process → Process} (hf : ∀ p, (f p).files = p.files) :
    tables archive (k.setProcess f) = tables archive k := by
  funext pid
  rw [tables, tables, Kernel.files, Kernel.files, Kernel.currentProcess, Kernel.currentProcess]
  refine congrArg (tableOf archive) ?_
  by_cases hzero : pid = 0
  · rw [if_pos hzero, if_pos hzero]
  rw [if_neg hzero, if_neg hzero]
  simp only [Kernel.setProcess]
  by_cases hpid : pid = k.currentPid
  · subst hpid
    rw [Function.update_self, Kernel.currentProcess, if_neg hzero]
    cases k.processes k.currentPid with
    | none => rfl
    | some p => exact hf p
  · rw [Function.update_of_ne hpid]

theorem Tidy.setProcess {f : Process → Process} (hk : Tidy archive k)
    (hf : ∀ p, (f p).files = p.files) : Tidy archive (k.setProcess f) := by
  refine ⟨hk.fs, fun pid p hp => ?_⟩
  simp only [Kernel.setProcess] at hp
  by_cases hpid : pid = k.currentPid
  · subst hpid
    rw [Function.update_self] at hp
    obtain ⟨q, hq, rfl⟩ := Option.map_eq_some_iff.mp hp
    rw [hf]
    exact hk.files _ q (processes_of_current hq)
  · rw [Function.update_of_ne hpid] at hp
    exact hk.files pid p hp

/-- The processes and the archive are as before. -/
def SameFiles (k u : Kernel) : Prop := u.processes = k.processes ∧ u.fs = k.fs

instance : IsPreorder Kernel SameFiles where
  refl _ := ⟨rfl, rfl⟩
  trans _ _ _ h h' := ⟨h'.1.trans h.1, h'.2.trans h.2⟩

/-- Only the four requests change a table of files. -/
theorem admits_sameFiles (hnumber : number ∉ [17, 18, 19, 20]) : Admits SameFiles number where
  space _ _ _ := ⟨rfl, rfl⟩
  files h := absurd h hnumber
  console _ _ _ := ⟨rfl, rfl⟩
  create _ _ _ _ _ _ _ := ⟨rfl, rfl⟩
  send _ _ _ _ _ _ _ _ := ⟨rfl, rfl⟩
  recv _ _ _ _ _ _ := ⟨rfl, rfl⟩
  close _ _ _ _ _ _ := ⟨rfl, rfl⟩
  surface _ _ _ _ _ _ _ _ _ _ := ⟨rfl, rfl⟩
  commit _ _ _ _ _ _ _ _ := ⟨rfl, rfl⟩
  throttle _ _ := ⟨rfl, rfl⟩
  present _ _ _ _ _ _ := ⟨rfl, rfl⟩
  input _ _ _ _ := ⟨rfl, rfl⟩

theorem call_others {arg1 arg2 arg3 : ℕ} {r : Except ProgramExit ℕ}
    (hnumber : number ∉ [17, 18, 19, 20])
    (hrun : (dispatch number arg1 arg2 arg3).run k = some (r, u)) : SameFiles k u :=
  leads_dispatch (admits_sameFiles hnumber) arg1 arg2 arg3 r u hrun

theorem request_none (hnumber : number ∉ [17, 18, 19, 20]) (arg1 arg2 arg3 : ℕ) :
    request archive k number arg1 arg2 arg3 = none := by
  simp only [List.mem_cons, List.not_mem_nil, or_false, not_or] at hnumber
  obtain ⟨h17, h18, h19, h20⟩ := hnumber
  unfold request
  split
  · exact absurd rfl h17
  · exact absurd rfl h18
  · exact absurd rfl h19
  · exact absurd rfl h20
  · rfl

/-- Each of the four requests returns, and is answered as its descriptors have it. -/
theorem call_answers (hk : Tidy archive k) (hnumber : number ∈ [17, 18, 19, 20])
    (arg1 arg2 arg3 : ℕ) : ∃ r raw u, request archive k number arg1 arg2 arg3 = some r ∧
      (dispatch number arg1 arg2 arg3).run k = some (.ok raw, u) ∧
      Answers archive k number arg2 r raw u := by
  simp only [List.mem_cons, List.not_mem_nil, or_false] at hnumber
  obtain rfl | rfl | rfl | rfl := hnumber
  · obtain ⟨raw, u, h⟩ := sysRead_answers hk arg1 arg2 arg3
    exact ⟨_, raw, u, rfl, h⟩
  · obtain ⟨raw, u, h⟩ := sysOpen_answers hk arg1 arg2 arg3
    exact ⟨_, raw, u, rfl, h⟩
  · obtain ⟨raw, u, h⟩ := sysClose_answers hk arg1 arg2
    exact ⟨_, raw, u, rfl, h⟩
  · obtain ⟨raw, u, h⟩ := sysSeek_answers hk arg1 arg2 arg3
    exact ⟨_, raw, u, rfl, h⟩

/-- A step that leaves the files and the archive alone. -/
theorem quiet_simulates (hk : Tidy archive k) (hprocesses : u.processes = k.processes)
    (hfs : u.fs = k.fs) :
    Tidy archive u ∧ Descriptors.Runs (tables archive k) [] (tables archive u) :=
  ⟨hk.of_eq hprocesses hfs, (tables_eq hprocesses : tables archive u = _) ▸ .done⟩

theorem state_simulates {state : ProcessState} {w : Kernel} (hk : Tidy archive k)
    (hprocesses : w.processes = (k.setProcess fun p => { p with state := state }).processes)
    (hfs : w.fs = k.fs) :
    Tidy archive w ∧ Descriptors.Runs (tables archive k) [] (tables archive w) := by
  have htables : tables archive (k.setProcess fun p => { p with state := state }) =
      tables archive k := tables_setProcess fun _ => rfl
  have htidy : Tidy archive (k.setProcess fun p => { p with state := state }) :=
    hk.setProcess fun _ => rfl
  obtain ⟨hw, hruns⟩ := quiet_simulates htidy hprocesses hfs
  exact ⟨hw, htables ▸ hruns⟩

theorem spawn_simulates (hk : Tidy archive k) (profile : Realms.RealmProfile)
    (hprocesses : u.processes =
      Function.update k.processes k.nextPid (some ⟨profile, .ready, []⟩)) (hfs : u.fs = k.fs) :
    Tidy archive u ∧ Descriptors.Runs (tables archive k) [.spawned k.nextPid] (tables archive u) := by
  have hempty : tableOf archive [] = Descriptors.empty := rfl
  have htables : tables archive u =
      Function.update (tables archive k) k.nextPid Descriptors.empty := by
    funext pid
    rw [tables, Kernel.files, Kernel.currentProcess, hprocesses]
    by_cases hpid : pid = k.nextPid
    · subst hpid
      rw [Function.update_self, Function.update_self, ← hempty]
      split <;> rfl
    · rw [Function.update_of_ne hpid, Function.update_of_ne hpid]
      rfl
  refine ⟨⟨hfs ▸ hk.fs, fun pid p hp => ?_⟩, htables ▸ .spawned .done⟩
  rw [hprocesses] at hp
  by_cases hpid : pid = k.nextPid
  · subst hpid
    rw [Function.update_self] at hp
    obtain rfl := Option.some.inj hp
    intro d file hfile
    cases hfile
  · rw [Function.update_of_ne hpid] at hp
    exact hk.files pid p hp

theorem syscall_simulates {n a1 a2 a3 : UInt64} (hk : Tidy archive k)
    (h : (k.call n a1 a2 a3).map settled = some u) : Tidy archive u ∧
      Descriptors.Runs (tables archive k) (observed archive k (.syscall n a1 a2 a3))
        (tables archive u) := by
  obtain ⟨⟨r, w⟩, hcall, hsettled⟩ := Option.map_eq_some_iff.mp h
  by_cases hnumber : n.toNat ∈ [17, 18, 19, 20]
  · obtain ⟨request, raw, w', hrequest, hrun, hanswers⟩ := call_answers hk hnumber a1.toNat a2.toNat
      a3.toNat
    obtain ⟨rfl, rfl⟩ := Prod.mk.inj (Option.some.inj (hcall.symm.trans hrun))
    obtain rfl : w = u := hsettled
    obtain ⟨t, hstep, htables⟩ := hanswers.step
    refine ⟨hanswers.tidy, ?_⟩
    rw [observed, hrequest, hcall, htables]
    exact .called hstep .done
  · obtain ⟨hprocesses, hfs⟩ := call_others hnumber hcall
    rw [observed, request_none hnumber]
    cases r with
    | ok raw =>
      obtain rfl : w = u := hsettled
      exact quiet_simulates hk hprocesses hfs
    | error exit =>
      obtain rfl : w.ended exit = u := hsettled
      have htables : tables archive w = tables archive k := tables_eq hprocesses
      have hended : Tidy archive (w.ended exit) ∧
          Descriptors.Runs (tables archive w) [] (tables archive (w.ended exit)) :=
        state_simulates (hk.of_eq hprocesses hfs) rfl rfl
      exact ⟨hended.1, htables ▸ hended.2⟩

/-- What is observed of a step is a run of the descriptors. -/
theorem next_simulates (hk : Tidy archive k) (hfixed : ∀ fs, e ≠ .mount fs)
    (h : next k e = some u) : Tidy archive u ∧
      Descriptors.Runs (tables archive k) (observed archive k e) (tables archive u) := by
  cases e with
  | spawn profile space =>
    obtain rfl := Option.some.inj h
    exact spawn_simulates hk profile rfl rfl
  | switch pid =>
    obtain ⟨-, hu⟩ := Option.ite_none_right_eq_some.mp h
    obtain rfl := Option.some.inj hu
    exact quiet_simulates hk rfl rfl
  | enter =>
    obtain ⟨-, hu⟩ := Option.ite_none_left_eq_some.mp h
    obtain rfl := Option.some.inj hu
    exact state_simulates hk rfl rfl
  | compute bytes =>
    obtain ⟨-, hu⟩ := Option.ite_none_right_eq_some.mp h
    obtain rfl := Option.some.inj hu
    exact quiet_simulates hk rfl rfl
  | syscall n a1 a2 a3 =>
    obtain ⟨-, hcall⟩ := Option.ite_none_right_eq_some.mp h
    exact syscall_simulates hk hcall
  | fault exit =>
    obtain ⟨-, hu⟩ := Option.ite_none_right_eq_some.mp h
    obtain rfl := Option.some.inj hu
    exact state_simulates hk rfl rfl
  | removeSurfaces =>
    obtain ⟨-, hu⟩ := Option.ite_none_right_eq_some.mp h
    obtain ⟨⟨r, w⟩, hrun, rfl⟩ := Option.map_eq_some_iff.mp hu
    rw [graphics, run_of] at hrun
    obtain ⟨⟨r', c⟩, -, heq⟩ := Option.map_eq_some_iff.mp hrun
    obtain ⟨-, rfl⟩ := Prod.mk.inj heq
    exact quiet_simulates hk rfl rfl
  | closePorts =>
    obtain ⟨-, hu⟩ := Option.ite_none_right_eq_some.mp h
    obtain rfl := Option.some.inj hu
    exact quiet_simulates hk rfl rfl
  | tick =>
    obtain rfl := Option.some.inj h
    exact quiet_simulates hk rfl rfl
  | input event =>
    obtain rfl := Option.some.inj h
    exact quiet_simulates hk rfl rfl
  | toggleLayout =>
    obtain rfl := Option.some.inj h
    exact quiet_simulates hk rfl rfl
  | mount fs => exact absurd rfl (hfixed fs)

theorem runs_append {T T' T'' : Tables} {os os' : List Observation}
    (h : Descriptors.Runs T os T') (h' : Descriptors.Runs T' os' T'') :
    Descriptors.Runs T (os ++ os') T'' := by
  induction h with
  | done => exact h'
  | spawned _ ih => exact .spawned (ih h')
  | called step _ ih => exact .called step (ih h')

theorem run_simulates (hk : Tidy archive k) (hfixed : ∀ fs, Event.mount fs ∉ es)
    (h : exec next k es = some v) : Tidy archive v ∧
      Descriptors.Runs (tables archive k) (observations archive k es) (tables archive v) := by
  induction es generalizing k with
  | nil =>
    obtain rfl := Option.some.inj h
    exact ⟨hk, .done⟩
  | cons e es ih =>
    obtain ⟨u, hu, hv⟩ := exec_cons.mp h
    obtain ⟨htidy, hstep⟩ := next_simulates hk (fun fs heq => hfixed fs (heq ▸ List.mem_cons_self)) hu
    obtain ⟨hend, hrest⟩ := ih htidy (fun fs hmem => hfixed fs (List.mem_cons_of_mem _ hmem)) hv
    rw [observations, hu]
    exact ⟨hend, runs_append hstep hrest⟩

theorem boot_tidy {fs : Option FileSystem.Mounted} {n : ℕ}
    (hmount : (FileSystem.mount archive).run fs = some (.ok n, k.fs)) (hboot : Booted k) :
    Tidy archive k := by
  obtain ⟨-, hsound, -, -, hfs⟩ := FileSystem.mount_ok.mp hmount
  refine ⟨⟨_, hfs, rfl, fun node hnode => ?_⟩, fun pid p hp => nomatch (hboot pid).symm.trans hp⟩
  rcases FileSystem.mem_withRoot hnode with hentry | rfl
  · obtain ⟨e, he, rfl⟩ := FileSystem.mem_insertEntries.mp hentry
    have hinside := (hsound e he).inside
    refine ⟨fun hdirectory => ?_, FileSystem.entry_inside hinside⟩
    rw [FileSystem.Entry.Inside, if_pos (show e.isDirectory = true from hdirectory)] at hinside
    exact hinside
  · exact ⟨fun _ => rfl, Or.inl rfl⟩

/-- Over a mounted archive, whatever the processes do: the requests are answered as by descriptors
that each have a file and a cursor, no cursor is beyond its end, and a request returns. -/
theorem descriptors_refine {archive : List UInt8} {fs : Option FileSystem.Mounted} {n : ℕ}
    {k v : Kernel} {es : List Event}
    (hmount : (FileSystem.mount archive).run fs = some (.ok n, k.fs)) (hboot : Booted k)
    (hfixed : ∀ fs, Event.mount fs ∉ es) (hrun : exec next k es = some v) :
    Descriptors.Runs (fun _ => Descriptors.empty) (observations archive k es) (tables archive v) ∧
      (∀ pid, Descriptors.Sound (tables archive v pid)) ∧
      ∀ number arg1 arg2 arg3 : UInt64, number.toNat ∈ [17, 18, 19, 20] →
        ∃ raw u, v.call number arg1 arg2 arg3 = some (.ok raw, u) := by
  obtain ⟨htidy, hruns⟩ := run_simulates (boot_tidy hmount hboot) hfixed hrun
  have hempty : tables archive k = fun _ => Descriptors.empty := by
    funext pid
    rw [tables, Kernel.files, Kernel.currentProcess, hboot]
    split <;> rfl
  rw [hempty] at hruns
  refine ⟨hruns, hruns.sound fun _ => Descriptors.empty_sound, ?_⟩
  intro number arg1 arg2 arg3 hnumber
  obtain ⟨_, raw, u, -, hcall, -⟩ := call_answers htidy hnumber arg1.toNat arg2.toNat arg3.toNat
  exact ⟨raw, u, hcall⟩

/-- An archive of the file `/a`, which has the three bytes of `abc`. -/
def smallArchive : List UInt8 :=
  FileSystem.archiveMagic ++ LittleEndian.toBytes 4 1 ++ LittleEndian.toBytes 4 1 ++
    LittleEndian.toBytes 8 171 ++ (LittleEndian.toBytes 8 168 ++ LittleEndian.toBytes 8 3 ++
      LittleEndian.toBytes 4 0 ++ LittleEndian.toBytes 4 2 ++ [0x2F, 0x61] ++
      List.replicate 118 0) ++ [0x61, 0x62, 0x63]

def smallFs : FileSystem.Mounted :=
  ⟨[("/", ⟨0, 0, true⟩), ("/a", ⟨168, 3, false⟩)], smallArchive⟩

/-- A page of memory, with the path `/a` at its start. -/
def smallSpace : UserSpace :=
  ⟨fun page => page == 0x400, fun page => page == 0x400, fun a => if a = 0x400000 then 0x2F else 0x61⟩

def smallBoot : Kernel := { boot with fs := some smallFs }

/-- The file is opened, read past its end, sought in and closed. -/
def smallRun : List Event :=
  [.spawn Realms.home smallSpace, .switch 1, .enter, .syscall 18 0x400000 2 0,
    .syscall 17 3 0x400100 9, .syscall 20 3 1 2, .syscall 19 3 0 0]

theorem descriptors_refine_small : ∃ v, exec next smallBoot smallRun = some v ∧
    Descriptors.Runs (fun _ => Descriptors.empty) (observations smallArchive smallBoot smallRun)
      (tables smallArchive v) := by
  have hmount : (FileSystem.mount smallArchive).run none = some (.ok 2, smallBoot.fs) := by
    decide +kernel
  have hrun : (exec next smallBoot smallRun).isSome = true := by decide +kernel
  obtain ⟨v, hv⟩ := Option.isSome_iff_exists.mp hrun
  refine ⟨v, hv, (descriptors_refine hmount (fun _ => rfl) (fun fs hmem => ?_) hv).1⟩
  simp only [smallRun, List.mem_cons, List.not_mem_nil, reduceCtorEq, or_false] at hmem

end Runs

end Syscalls
