import NajmKernel.ArchiveRoundTrip
import NajmKernel.DescriptorRuns

/-! What a directory's descriptor lists: the names of its immediate children, as many of the first
ones as fit, each with a NUL behind it. -/
namespace FileSystem

open Utf8

section Children

variable {c c' d : String} {fs : Mounted} {bytes : List UInt8}

/-- The paths of a namespace whose parent the directory is, in their order. -/
def childrenOf (fs : Mounted) (d : String) : List String :=
  (fs.nodes.map Prod.fst).filter fun c => parentOf (utf8 c) == some (utf8 d)

theorem mem_childrenOf : c ∈ childrenOf fs d ↔ c ∈ fs.nodes.map Prod.fst ∧ IsParent d c := by
  rw [childrenOf, List.mem_filter, beq_iff_eq]
  exact Iff.rfl

def nameOf (c : String) : List UInt8 := basename (utf8 c)

/-- A valid path below a directory is the directory's, a slash and its name. -/
theorem split_of_parent (hc : TextIsValid c.toList) (h : IsParent d c) : ∃ r,
    c.toList = (if d = "/" then [] else d.toList) ++ '/' :: r ∧ '/' ∉ r ∧ r ≠ [] ∧
      nameOf c = r.flatMap String.utf8EncodeChar := by
  have hroot : c ≠ "/" := by
    rintro rfl
    exact not_isParent_root h
  obtain ⟨l, r, hsplit, hr, -, hd⟩ := isParent_iff.mp h
  obtain ⟨hne, hl⟩ := split_of_valid hc hroot hsplit hr
  have hname : nameOf c = r.flatMap String.utf8EncodeChar := by
    rw [nameOf, utf8_eq, hsplit, List.flatMap_append, List.flatMap_cons, encode_slash,
      List.singleton_append, basename_append fun hmem => hr (slash_mem_encode.mp hmem)]
  have hlead : (if d = "/" then [] else d.toList) = l := by
    by_cases hempty : l = []
    · rw [if_pos hempty] at hd
      rw [if_pos (String.toList_inj.mp hd : d = "/"), hempty]
    · rw [if_neg hempty] at hd
      have hslash : d ≠ "/" := by
        rintro rfl
        exact (hl.resolve_left hempty).2 hd.symm
      rw [if_neg hslash, hd]
  exact ⟨r, hlead.symm ▸ hsplit, hr, hne, hname⟩

/-- A name is not empty, and has neither a slash nor a NUL. -/
structure IsName (name : List UInt8) : Prop where
  nonempty : name ≠ []
  noSlash : slash ∉ name
  noNul : 0 ∉ name

theorem isName_nameOf (hc : TextIsValid c.toList) (h : IsParent d c) : IsName (nameOf c) := by
  obtain ⟨r, hsplit, hr, hne, hname⟩ := split_of_parent hc h
  rw [hname]
  refine ⟨fun hempty => hne (encode_eq_nil.mp hempty), fun hmem => hr (slash_mem_encode.mp hmem),
    fun hmem => hc.2.1 ?_⟩
  have hnul : '\x00' ∈ r := by
    rw [← lossy_flatMap r]
    exact (mem_lossy_ascii (a := 0) (by decide)).mpr hmem
  rw [hsplit]
  exact List.mem_append_right _ (List.mem_cons_of_mem _ hnul)

theorem nameOf_inj (hc : TextIsValid c.toList) (hc' : TextIsValid c'.toList) (h : IsParent d c)
    (h' : IsParent d c') (hname : nameOf c = nameOf c') : c = c' := by
  obtain ⟨r, hsplit, -, -, hr⟩ := split_of_parent hc h
  obtain ⟨r', hsplit', -, -, hr'⟩ := split_of_parent hc' h'
  have hsame : r = r' := by
    rw [← lossy_flatMap r, ← hr, hname, hr', lossy_flatMap]
  apply String.toList_inj.mp
  rw [hsplit, hsplit', hsame]

end Children

section Blocks

variable {names shown more : List (List UInt8)} {room : ℕ} {out : List UInt8}

/-- Each name with a NUL behind it. -/
def nulTerminated (names : List (List UInt8)) : List UInt8 := names.flatMap (· ++ [0])

theorem length_nulTerminated_cons (name : List UInt8) (names : List (List UInt8)) :
    (nulTerminated (name :: names)).length = name.length + 1 + (nulTerminated names).length := by
  rw [nulTerminated, List.flatMap_cons, List.length_append, List.length_append]
  rfl

/-- Splitting at the NULs gives the names back, and what is behind the last. -/
theorem splitOn_nulTerminated (h : ∀ name ∈ names, (0 : UInt8) ∉ name) :
    (nulTerminated names).splitOn 0 = names ++ [[]] := by
  induction names with
  | nil => rfl
  | cons name names ih =>
    rw [nulTerminated, List.flatMap_cons, List.append_assoc, List.singleton_append,
      List.splitOn_append_cons_self, List.splitOn_eq_singleton (h name List.mem_cons_self),
      ← nulTerminated, ih fun other hmem => h other (List.mem_cons_of_mem _ hmem)]
    rfl

/-- The longest beginning of a list of names that fits. -/
structure LongestFit (room : ℕ) (names shown : List (List UInt8)) : Prop where
  isPrefix : shown <+: names
  fits : (nulTerminated shown).length ≤ room
  longest : ∀ more, more <+: names → (nulTerminated more).length ≤ room → more <+: shown

theorem longestFit_nil (room : ℕ) : LongestFit room [] [] :=
  ⟨List.prefix_rfl, Nat.zero_le _, fun _ h _ => h⟩

theorem longestFit_full {name : List UInt8} (h : room < name.length + 1) :
    LongestFit room (name :: names) [] := by
  refine ⟨List.nil_prefix, Nat.zero_le _, fun more hmore hfits => ?_⟩
  cases more with
  | nil => exact List.prefix_rfl
  | cons other more =>
    obtain ⟨rfl, -⟩ := List.cons_prefix_cons.mp hmore
    rw [length_nulTerminated_cons] at hfits
    omega

theorem LongestFit.cons {name : List UInt8} (hroom : name.length + 1 ≤ room)
    (h : LongestFit (room - (name.length + 1)) names shown) :
    LongestFit room (name :: names) (name :: shown) := by
  refine ⟨List.cons_prefix_cons.mpr ⟨rfl, h.isPrefix⟩, ?_, fun more hmore hfits => ?_⟩
  · have hfits := h.fits
    rw [length_nulTerminated_cons]
    omega
  · cases more with
    | nil => exact List.nil_prefix
    | cons other more =>
      obtain ⟨rfl, hrest⟩ := List.cons_prefix_cons.mp hmore
      rw [length_nulTerminated_cons] at hfits
      exact List.cons_prefix_cons.mpr ⟨rfl, h.longest more hrest (by omega)⟩

/-- With room for all of them there are all. -/
theorem LongestFit.all (h : LongestFit room names shown)
    (hroom : (nulTerminated names).length ≤ room) : shown = names :=
  h.isPrefix.eq_of_length_le (h.longest names List.prefix_rfl hroom).length_le

end Blocks

section Mounted

variable {d : String} {fs : Mounted} {bytes : List UInt8} {node : Node}

theorem textIsValid_root : TextIsValid "/".toList := ⟨rfl, by decide, Or.inl rfl⟩

/-- The paths of a mounted archive are valid as they are read. -/
theorem MountedWell.texts (h : MountedWell bytes fs) {c : String}
    (hc : c ∈ fs.nodes.map Prod.fst) : TextIsValid c.toList := by
  obtain ⟨node, hnode, rfl⟩ := List.mem_map.mp hc
  rcases h.nodes node hnode with rfl | ⟨i, hi, rfl⟩
  · exact textIsValid_root
  · have hname : (entryAt bytes i).name.toList = lossy (entryAt bytes i).path :=
      String.toList_ofList
    rw [hname]
    exact (pathIsValid_iff.mp (h.valid i hi)).2

theorem lookup_mem (h : lookup (some fs) d = some node) : (d, node) ∈ fs.nodes := by
  obtain ⟨found, hfound, hnode⟩ := Option.bind_eq_some_iff.mp h
  obtain rfl := Option.some.inj hnode
  have hname : found.1 = d := by simpa using List.find?_some hfound
  rw [← hname]
  exact List.mem_of_find?_eq_some hfound

/-- A directory of a mounted archive lists its immediate children. -/
theorem MountedWell.readDir (h : MountedWell bytes fs) (hd : lookup (some fs) d = some node)
    (hdir : node.isDirectory = true) : readDir (some fs) d = some (childrenOf fs d) := by
  rw [readDir_eq ⟨node, hd, hdir⟩, childrenOf]
  have hdtext := h.texts (List.mem_map.mpr ⟨_, lookup_mem hd, rfl⟩)
  congr 1
  apply List.filter_congr
  intro c hc
  rw [Bool.eq_iff_iff, listed_iff hdtext (h.texts hc), beq_iff_eq]
  exact Iff.rfl

/-- The names of the children are names, and distinct. -/
theorem MountedWell.names (h : MountedWell bytes fs) (d : String) :
    (∀ name ∈ (childrenOf fs d).map nameOf, IsName name) ∧
      ((childrenOf fs d).map nameOf).Nodup := by
  constructor
  · intro name hname
    obtain ⟨c, hc, rfl⟩ := List.mem_map.mp hname
    obtain ⟨hmem, hparent⟩ := mem_childrenOf.mp hc
    exact isName_nameOf (h.texts hmem) hparent
  · refine List.Nodup.map_on ?_ (h.distinct.filter _)
    intro c hc c' hc' hname
    obtain ⟨hmem, hparent⟩ := mem_childrenOf.mp hc
    obtain ⟨hmem', hparent'⟩ := mem_childrenOf.mp hc'
    exact nameOf_inj (h.texts hmem) (h.texts hmem') hparent hparent' hname

section Order

/-- The order of a map's entries. -/
def KeyLe {β : Type} (a b : String × β) : Prop := a.1 ≤ b.1

instance {β : Type} : DecidableRel (KeyLe (β := β)) := fun a b => inferInstanceAs (Decidable (a.1 ≤ b.1))

instance {β : Type} : Std.Total (KeyLe (β := β)) := ⟨fun a b => le_total a.1 b.1⟩

instance {β : Type} : IsTrans (String × β) KeyLe := ⟨fun _ _ _ h h' => le_trans (α := String) h h'⟩

theorem insertNew_sorted {β : Type} (key : String) (value : β) {l : List (String × β)}
    (h : l.Pairwise KeyLe) : (insertNew key value l).Pairwise KeyLe :=
  h.orderedInsert (key, value) l

end Order

theorem insertEntries_sorted (l : List Entry) : (insertEntries l).Pairwise KeyLe := by
  induction l using List.reverseRecOn with
  | nil => exact List.Pairwise.nil
  | append_singleton l e ih =>
    rw [insertEntries_append]
    exact insertNew_sorted _ _ ih

theorem withRoot_sorted {nodes : List (String × Node)} (h : nodes.Pairwise KeyLe) :
    (withRoot nodes).Pairwise KeyLe := by
  rw [withRoot]
  split
  · exact h
  · exact insertNew_sorted _ _ h

/-- The children stand in the order of their paths. -/
theorem childrenOf_sorted {s : Option Mounted} {n : ℕ}
    (h : (mount bytes).run s = some (.ok n, some fs)) (d : String) :
    (childrenOf fs d).Pairwise (· < ·) := by
  obtain ⟨well, hwell, hmounted⟩ := mount_well h
  obtain rfl := Option.some.inj hwell
  obtain ⟨-, -, -, -, hfs⟩ := mount_ok.mp h
  have hsorted : (fs.nodes.map Prod.fst).Pairwise (· ≤ ·) := by
    rw [Option.some.inj hfs]
    exact List.pairwise_map.mpr (withRoot_sorted (insertEntries_sorted _))
  refine List.Pairwise.filter _ ?_
  exact (hsorted.and hmounted.distinct).imp fun h => lt_of_le_of_ne h.1 h.2

end Mounted

end FileSystem

namespace Syscalls

open KernelMachine (ProgramExit)
open Attempts Attempt UserMemory TransitionSystem
open FileSystem (nulTerminated LongestFit childrenOf nameOf IsName)

section Files

/-- Open files are those that their paths name. -/
def NamedFiles (fs : Option FileSystem.Mounted) (files : List (Option OpenFile)) : Prop :=
  ∀ (d : ℕ) file, (files[d]?).join = some file → FileSystem.lookup fs file.path = some file.node

def Named (k : Kernel) : Prop :=
  ∀ pid p, k.processes pid = some p → NamedFiles k.fs p.files

/-- The archive stays, and the open files stay those that their paths name. -/
def KeepsNamed (k u : Kernel) : Prop := u.fs = k.fs ∧ (Named k → Named u)

instance : IsPreorder Kernel KeepsNamed where
  refl _ := ⟨rfl, id⟩
  trans _ _ _ h h' := ⟨h'.1.trans h.1, h'.2 ∘ h.2⟩

variable {k u : Kernel} {p : Process} {file : OpenFile} {d : ℕ} {number : ℕ}
  {files files' : List (Option OpenFile)} {slot : Option OpenFile}

theorem keepsNamed_of_eq (hprocesses : u.processes = k.processes) (hfs : u.fs = k.fs) :
    KeepsNamed k u :=
  ⟨hfs, fun h pid p hp => hfs ▸ h pid p (hprocesses ▸ hp)⟩

theorem keepsNamed_setProcess {f : Process → Process}
    (hf : ∀ p, k.currentProcess = some p → NamedFiles k.fs p.files →
      NamedFiles k.fs (f p).files) : KeepsNamed k (k.setProcess f) := by
  refine ⟨rfl, fun h pid q hq => ?_⟩
  simp only [Kernel.setProcess] at hq
  by_cases hpid : pid = k.currentPid
  · subst hpid
    rw [Function.update_self] at hq
    obtain ⟨p, hp, rfl⟩ := Option.map_eq_some_iff.mp hq
    exact hf p hp (h _ p (processes_of_current hp))
  · rw [Function.update_of_ne hpid] at hq
    exact h pid q hq

theorem namedFiles_of_slots {fs : Option FileSystem.Mounted} (hfiles : NamedFiles fs files)
    (hslot : ∀ file, slot = some file → FileSystem.lookup fs file.path = some file.node)
    (h : ∀ e, (files'[e]?).join = if e = d then slot else (files[e]?).join) :
    NamedFiles fs files' := by
  intro e file he
  rw [h] at he
  split at he
  next => exact hslot file he
  · exact hfiles e file he

theorem named_open (h : Named k) (hfile : getFile k d = some file) :
    FileSystem.lookup k.fs file.path = some file.node := by
  obtain ⟨p, hp⟩ := process_of_open hfile
  rw [getFile, files_of_process hp] at hfile
  exact h _ p (processes_of_current hp) d file hfile

/-- A slot gets a file with the path and the node of the one that was there, or none. -/
theorem keepsNamed_setSlot (hfile : getFile k d = some file)
    (hslot : ∀ file', slot = some file' → file'.path = file.path ∧ file'.node = file.node) :
    KeepsNamed k (k.setProcess fun p => { p with files := p.files.set d slot }) := by
  refine keepsNamed_setProcess fun p hp hfiles => ?_
  rw [getFile, files_of_process hp] at hfile
  refine namedFiles_of_slots hfiles (fun file' hfile' => ?_) (set_join (lt_of_open hfile) slot)
  obtain ⟨hpath, hnode⟩ := hslot file' hfile'
  rw [hpath, hnode]
  exact hfiles d file hfile

theorem setFilePosition_keeps (d position : ℕ) :
    Leads KeepsNamed (setFilePosition d position) k := by
  refine leads_gets ?_
  cases hfile : getFile k d with
  | none => exact Leads.pure _
  | some file =>
    refine leads_modifies (keepsNamed_setSlot hfile fun file' hfile' => ?_) (Leads.pure _)
    rw [← Option.some.inj hfile']
    exact ⟨rfl, rfl⟩

theorem closeFile_keeps (d : ℕ) : Leads KeepsNamed (closeFile d) k := by
  refine leads_gets ?_
  cases hfile : getFile k d with
  | none => exact Leads.pure _
  | some file => exact leads_modifies (keepsNamed_setSlot hfile nofun) (Leads.pure _)

theorem openFile_keeps (hfile : FileSystem.lookup k.fs file.path = some file.node) :
    Leads KeepsNamed (openFile file) k := by
  refine leads_gets ?_
  cases hp : k.currentProcess with
  | none => exact Leads.pure _
  | some p =>
    refine leads_modifies (keepsNamed_setProcess fun q hq hfiles => ?_) (Leads.pure _)
    obtain rfl := Option.some.inj (hp.symm.trans hq)
    refine namedFiles_of_slots hfiles (fun file' hfile' => ?_) (placeFile_slots p.files file).2
    rw [← Option.some.inj hfile']
    exact hfile

theorem sysOpen_keeps (ptr len flags : ℕ) : Leads KeepsNamed (sysOpen ptr len flags) k := by
  refine leads_requiring fun _ => Leads.ite (fun _ => Leads.pure _) fun _ => leads_gets ?_
  cases readUserPath k.space ptr len with
  | error e => exact Leads.pure _
  | ok path =>
    refine leads_gets ?_
    cases hlookup : FileSystem.lookup k.fs path with
    | none => exact Leads.pure _
    | some node =>
      refine Leads.ite (fun _ => Leads.pure _) fun _ => ?_
      cases hnew : OpenFile.new node path with
      | none => exact Leads.pure _
      | some file =>
        have hfile : file = ⟨node, 0, path⟩ := by
          rw [OpenFile.new] at hnew
          exact (Option.some.inj (Option.ite_none_left_eq_some.mp hnew).2).symm
        refine Leads.bind (openFile_keeps (hfile ▸ hlookup)) fun descriptor u _ => ?_
        cases descriptor with
        | none => exact Leads.pure _
        | some descriptor => exact Leads.pure _

theorem sysRead_keeps (d ptr len : ℕ) : Leads KeepsNamed (sysRead d ptr len) k := by
  refine Leads.ite (fun _ => Leads.pure _) fun _ => Leads.ite (fun _ => Leads.pure _) fun _ =>
    leads_gets ?_
  cases getFile k d with
  | none => exact Leads.pure _
  | some file =>
    refine Leads.ite (fun _ => Leads.pure _) fun _ => leads_gets ?_
    refine Leads.bind (leads_fileRead _ _ _ _) fun data u _ => leads_gets ?_
    cases copyToUser u.space ptr data with
    | none => exact Leads.pure _
    | some space =>
      refine leads_modifies (keepsNamed_of_eq rfl rfl) (Leads.sum_bind ?_)
      exact Leads.bind (setFilePosition_keeps d _).discard fun _ _ _ => Leads.pure _

theorem sysClose_keeps (d : ℕ) : Leads KeepsNamed (sysClose d) k :=
  Leads.bind (closeFile_keeps d) fun _ _ _ =>
    Leads.ite (fun _ => Leads.pure _) fun _ => Leads.pure _

theorem sysSeek_keeps (d offset whence : ℕ) : Leads KeepsNamed (sysSeek d offset whence) k := by
  refine leads_gets ?_
  cases getFile k d with
  | none => exact Leads.pure _
  | some file =>
    dsimp only
    cases seekTarget file offset whence with
    | none => exact Leads.pure _
    | some position =>
      exact Leads.bind (setFilePosition_keeps d position) fun _ _ _ =>
        Leads.ite (fun _ => Leads.pure _) fun _ => Leads.pure _

/-- Whatever the call, an open file stays the one that its path names. -/
theorem call_keepsNamed {r : Except ProgramExit ℕ} {arg1 arg2 arg3 : ℕ}
    (h : (dispatch number arg1 arg2 arg3).run k = some (r, u)) : KeepsNamed k u := by
  by_cases hnumber : number ∈ [17, 18, 19, 20]
  · simp only [List.mem_cons, List.not_mem_nil, or_false] at hnumber
    obtain rfl | rfl | rfl | rfl := hnumber
    · exact sysRead_keeps arg1 arg2 arg3 r u h
    · exact sysOpen_keeps arg1 arg2 arg3 r u h
    · exact sysClose_keeps arg1 r u h
    · exact sysSeek_keeps arg1 arg2 arg3 r u h
  · obtain ⟨hprocesses, hfs⟩ := call_others hnumber h
    exact keepsNamed_of_eq hprocesses hfs

theorem keepsNamed_state {state : ProcessState}
    (hprocesses : u.processes = (k.setProcess fun p => { p with state := state }).processes)
    (hfs : u.fs = k.fs) : KeepsNamed k u := by
  have hstate : KeepsNamed k (k.setProcess fun p => { p with state := state }) :=
    keepsNamed_setProcess fun _ _ hfiles => hfiles
  exact trans_of KeepsNamed hstate (keepsNamed_of_eq hprocesses hfs)

theorem next_keepsNamed {e : Event} (hfixed : ∀ fs, e ≠ .mount fs) (h : next k e = some u) :
    KeepsNamed k u := by
  cases e with
  | spawn profile space =>
    obtain rfl := Option.some.inj h
    refine ⟨rfl, fun hk pid p hp => ?_⟩
    by_cases hpid : pid = k.nextPid
    · subst hpid
      dsimp only at hp
      rw [Function.update_self] at hp
      obtain rfl := Option.some.inj hp
      exact fun d file hfile => (nomatch hfile)
    · dsimp only at hp
      rw [Function.update_of_ne hpid] at hp
      exact hk pid p hp
  | switch pid =>
    obtain ⟨-, hu⟩ := Option.ite_none_right_eq_some.mp h
    obtain rfl := Option.some.inj hu
    exact keepsNamed_of_eq rfl rfl
  | enter =>
    obtain ⟨-, hu⟩ := Option.ite_none_left_eq_some.mp h
    obtain rfl := Option.some.inj hu
    exact keepsNamed_state rfl rfl
  | compute bytes =>
    obtain ⟨-, hu⟩ := Option.ite_none_right_eq_some.mp h
    obtain rfl := Option.some.inj hu
    exact keepsNamed_of_eq rfl rfl
  | syscall n a1 a2 a3 =>
    obtain ⟨-, hcall⟩ := Option.ite_none_right_eq_some.mp h
    obtain ⟨⟨r, w⟩, hrun, hsettled⟩ := Option.map_eq_some_iff.mp hcall
    have hw := call_keepsNamed hrun
    cases r with
    | ok raw =>
      obtain rfl : w = u := hsettled
      exact hw
    | error exit =>
      obtain rfl : w.ended exit = u := hsettled
      exact trans_of KeepsNamed hw (keepsNamed_state rfl rfl)
  | fault exit =>
    obtain ⟨-, hu⟩ := Option.ite_none_right_eq_some.mp h
    obtain rfl := Option.some.inj hu
    exact keepsNamed_state rfl rfl
  | removeSurfaces =>
    obtain ⟨-, hu⟩ := Option.ite_none_right_eq_some.mp h
    obtain ⟨⟨r, w⟩, hrun, rfl⟩ := Option.map_eq_some_iff.mp hu
    rw [graphics, run_of] at hrun
    obtain ⟨⟨r', c⟩, -, heq⟩ := Option.map_eq_some_iff.mp hrun
    obtain ⟨-, rfl⟩ := Prod.mk.inj heq
    exact keepsNamed_of_eq rfl rfl
  | closePorts =>
    obtain ⟨-, hu⟩ := Option.ite_none_right_eq_some.mp h
    obtain rfl := Option.some.inj hu
    exact keepsNamed_of_eq rfl rfl
  | tick =>
    obtain rfl := Option.some.inj h
    exact keepsNamed_of_eq rfl rfl
  | input event =>
    obtain rfl := Option.some.inj h
    exact keepsNamed_of_eq rfl rfl
  | toggleLayout =>
    obtain rfl := Option.some.inj h
    exact keepsNamed_of_eq rfl rfl
  | mount fs => exact absurd rfl (hfixed fs)

/-- Over a run with no other archive mounted. -/
theorem run_keepsNamed {es : List Event} (hfixed : ∀ fs, Event.mount fs ∉ es)
    (h : exec next k es = some u) : KeepsNamed k u := by
  induction es generalizing k with
  | nil =>
    obtain rfl := Option.some.inj h
    exact refl_of KeepsNamed k
  | cons e es ih =>
    obtain ⟨v, hv, hu⟩ := exec_cons.mp h
    have hstep := next_keepsNamed (fun fs heq => hfixed fs (heq ▸ List.mem_cons_self)) hv
    exact trans_of KeepsNamed hstep (ih (fun fs hmem => hfixed fs (List.mem_cons_of_mem _ hmem)) hu)

end Files

section Lists

variable {k : Kernel} {fs : FileSystem.Mounted} {bytes : List UInt8} {file : OpenFile}
  {d ptr len : ℕ}

/-- The block is that of the longest beginning of the names that fits. -/
theorem nameBlock_eq (room : ℕ) (children : List String) (out : List UInt8)
    (h : out.length ≤ room) : ∃ shown,
    LongestFit (room - out.length) (children.map nameOf) shown ∧
      nameBlock room children out = out ++ nulTerminated shown := by
  induction children generalizing out with
  | nil => exact ⟨[], FileSystem.longestFit_nil _, (List.append_nil out).symm⟩
  | cons child rest ih =>
    rw [nameBlock, List.map_cons]
    by_cases hroom : out.length + (nameOf child).length + 1 > room
    · refine ⟨[], FileSystem.longestFit_full (by omega), ?_⟩
      rw [nulTerminated, List.flatMap_nil, List.append_nil]
      exact if_pos hroom
    · have hlength : (out ++ nameOf child ++ [0]).length =
          out.length + ((nameOf child).length + 1) := by
        rw [List.append_assoc, List.length_append, List.length_append]
        rfl
      obtain ⟨shown, hshown, hblock⟩ := ih (out ++ nameOf child ++ [0]) (by omega)
      rw [hlength, ← Nat.sub_sub] at hshown
      refine ⟨nameOf child :: shown, hshown.cons (by omega), (if_neg hroom).trans ?_⟩
      rw [show FileSystem.basename (FileSystem.utf8 child) = nameOf child from rfl, hblock,
        nulTerminated, nulTerminated, List.flatMap_cons, List.append_assoc, List.append_assoc,
        List.append_assoc]

/-- The program's buffer after a copy to it. -/
theorem run_answerWith {data : List UInt8} (answer : ℕ) (hsize : data.length ≤ maxUserTransfer)
    (hrange : rangeIsUser k.space ptr data.length true = true) : ∃ u,
      (answerWith ptr data answer).run k = some (.ok answer, u) ∧
        u.space.read ptr data.length = data := by
  refine ⟨{ k with spaces := Function.update k.spaces k.currentPid (k.space.write ptr data) }, ?_, ?_⟩
  · rw [answerWith, run_gets_bind, copyToUser, if_neg (Nat.not_lt.mpr hsize), if_pos hrange]
    rfl
  · rw [Kernel.space]
    dsimp only
    rw [Function.update_self]
    exact read_write _ _ _

/-- What a program gets of a directory: the longest beginning of its children's names that fits,
each whole and once, and all of them where there is room. -/
structure Framed (fs : FileSystem.Mounted) (d : String) (len : ℕ) (block : List UInt8)
    (shown : List (List UInt8)) : Prop where
  bytes : block = nulTerminated shown
  split : block.splitOn 0 = shown ++ [[]]
  longest : LongestFit len ((childrenOf fs d).map nameOf) shown
  names : ∀ name ∈ shown, IsName name
  distinct : shown.Nodup
  all : (nulTerminated ((childrenOf fs d).map nameOf)).length ≤ len →
    shown = (childrenOf fs d).map nameOf

theorem framed (h : FileSystem.MountedWell bytes fs) {d : String} {shown : List (List UInt8)}
    (hshown : LongestFit len ((childrenOf fs d).map nameOf) shown) :
    Framed fs d len (nulTerminated shown) shown := by
  obtain ⟨hnames, hdistinct⟩ := h.names d
  have hsome (name : List UInt8) (hname : name ∈ shown) : IsName name :=
    hnames name (hshown.isPrefix.subset hname)
  exact ⟨rfl, FileSystem.splitOn_nulTerminated fun name hname => (hsome name hname).noNul, hshown,
    hsome, hdistinct.sublist hshown.isPrefix.sublist, hshown.all⟩

/-- Over a mounted archive, for any directory that a process has open and any buffer it may write:
the call writes the names of the directory's immediate children that fit, in path order. -/
theorem readdir_framed {s : Option FileSystem.Mounted} {n : ℕ} {k₀ : Kernel} {es : List Event}
    (hmount : (FileSystem.mount bytes).run s = some (.ok n, k₀.fs)) (hboot : Booted k₀)
    (hfixed : ∀ fs, Event.mount fs ∉ es) (hrun : exec next k₀ es = some k)
    (hfile : getFile k d = some file) (hdirectory : file.node.isDirectory = true)
    (hlen : len ≤ maxUserTransfer) (hrange : rangeIsUser k.space ptr len true = true) :
    ∃ fs, k.fs = some fs ∧ (childrenOf fs file.path).Pairwise (· < ·) ∧
      (∀ c, c ∈ childrenOf fs file.path ↔
        c ∈ fs.nodes.map Prod.fst ∧ FileSystem.IsParent file.path c) ∧
      ∃ shown u, (sysReaddir d ptr len).run k = some (.ok (nulTerminated shown).length, u) ∧
        Framed fs file.path len (u.space.read ptr (nulTerminated shown).length) shown := by
  obtain ⟨fs, hfs, hwell⟩ := FileSystem.mount_well hmount
  have hstart : Named k₀ := fun pid p hp => (nomatch (hboot pid).symm.trans hp)
  obtain ⟨hsame, hnamed⟩ := run_keepsNamed hfixed hrun
  have hnow : k.fs = some fs := hsame.trans hfs
  have hlookup := named_open (hnamed hstart) hfile
  rw [hnow] at hlookup
  refine ⟨fs, hnow, FileSystem.childrenOf_sorted (hfs ▸ hmount) _,
    fun c => FileSystem.mem_childrenOf, ?_⟩
  obtain ⟨shown, hshown, hblock⟩ := nameBlock_eq len (childrenOf fs file.path) []
    (Nat.zero_le _)
  rw [List.nil_append] at hblock
  have hfits : (nulTerminated shown).length ≤ len := hshown.fits
  have hwrites : rangeIsUser k.space ptr (nulTerminated shown).length true = true :=
    rangeIsUser_iff.mpr fun a ha hlt => rangeIsUser_iff.mp hrange a ha (by omega)
  obtain ⟨u, hanswer, hread⟩ := run_answerWith (nulTerminated shown).length
    (hfits.trans hlen) hwrites
  refine ⟨shown, u, ?_, hread.symm ▸ framed hwell hshown⟩
  rw [sysReaddir, run_gets_bind, hfile]
  dsimp only
  rw [if_neg (by rw [hdirectory]; decide), run_gets_bind, hnow, hwell.readDir hlookup hdirectory]
  dsimp only
  rw [hblock]
  exact hanswer

/-- The root is opened. -/
def rootRun : List Event :=
  [.spawn Realms.home smallSpace, .switch 1, .enter, .syscall 18 0x400000 1 0]

theorem readdir_framed_root : ∃ v fs shown u, exec next smallBoot rootRun = some v ∧
    (sysReaddir 3 0x400800 16).run v = some (.ok (nulTerminated shown).length, u) ∧
      Framed fs "/" 16 (u.space.read 0x400800 (nulTerminated shown).length) shown := by
  have hmount : (FileSystem.mount smallArchive).run none = some (.ok 2, smallBoot.fs) := by
    decide +kernel
  have hrun : ((exec next smallBoot rootRun).map fun v =>
      (getFile v 3, rangeIsUser v.space 0x400800 16 true)) =
        some (some ⟨⟨0, 0, true⟩, 0, "/"⟩, true) := by decide +kernel
  obtain ⟨v, hv, hopened⟩ := Option.map_eq_some_iff.mp hrun
  obtain ⟨hfile, hrange⟩ := Prod.mk.inj hopened
  have hlen : 16 ≤ maxUserTransfer := by decide
  obtain ⟨fs, -, -, -, shown, u, hread, hframed⟩ := readdir_framed hmount
    (fun _ => rfl) (fun fs hmem => by simp [rootRun] at hmem) hv hfile rfl hlen hrange
  exact ⟨v, fs, shown, u, hv, hread, hframed⟩

end Lists

end Syscalls
