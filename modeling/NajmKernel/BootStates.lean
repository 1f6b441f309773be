import NajmKernel.SpaceRuns

/-! A machine that has just booted: a kernel half with one table, and memory up to a limit. -/
namespace SpaceRuns

open PhysicalMemory PageTables PhysicalFrames AddressSpaces

/-- Frame 1 is the kernel's root, its entry 256 leads to the empty table in frame 2; the frames
the allocator has are dirty. -/
def bootBytes : Memory := fun f o =>
  if f = 1#40 then if o = 2048 then 0x03 else if o = 2049 then 0x20 else 0
  else if f = 2#40 then 0 else 0x5a

def bootWith (limit : ℕ) : State where
  system := ⟨bootBytes, ⟨[], 0, BootInfoFrameAllocator.init [⟨0x3000, limit, .usable⟩]⟩⟩
  spaces _ := none
  taken := []

def bootState : State := bootWith 0x14000

def bootLevel (f : Frame) : Option ℕ :=
  if f = 1#40 then some 4 else if f = 2#40 then some 3 else none

theorem word_bootBytes {f : Frame} {i : ℕ} (h : ∀ k < 8, bootBytes f (8 * i + k) = 0) :
    bootBytes.word f i = 0 := by
  have hr : bootBytes.read f (8 * i) 8 = List.replicate 8 0 := by
    rw [Memory.read, List.map_congr_left fun k hk => h k (List.mem_range.mp hk)]
    rfl
  rw [Memory.word, hr, LittleEndian.ofBytes_replicate_zero]

theorem not_present_of_word {f : Frame} {i : ℕ} (h : bootBytes.word f i = 0) :
    (entry bootBytes f i).flags.contains .present = false := by
  rw [entry, h]
  decide

theorem bootWith_upcoming {limit : ℕ} : (bootWith limit).system.frames.upcoming =
    (⟨0x3000, limit, .usable⟩ : MemoryRegion).frames 0x3000 := by
  have hinit : BootInfoFrameAllocator.init [⟨0x3000, limit, .usable⟩] =
      ⟨[⟨0x3000, limit, .usable⟩], 0x3000⟩ := rfl
  rw [bootWith, hinit, FrameAllocator.upcoming, List.nil_append, unvisited, if_pos rfl, unvisited,
    List.append_nil]

theorem bootWith_frames (limit : ℕ) :
    (bootWith limit).system.frames.upcoming.length = (limit - 0x3000) / 4096 := by
  rw [bootWith_upcoming, MemoryRegion.frames, List.length_map, List.length_range]

theorem bootWith_tables {limit : ℕ} (h : limit ≤ 2 ^ 52) :
    ∀ f ∈ (bootWith limit).system.frames.upcoming, bootLevel f = none := by
  intro f hf
  rw [bootWith_upcoming] at hf
  obtain ⟨addr, h1, h2, -, rfl⟩ := mem_frames (by decide) hf
  simp only at h2
  have hne : ∀ k < 3, frameOf addr ≠ BitVec.ofNat 40 k := by
    intro k hk he
    have := congrArg BitVec.toNat he
    simp only [frameOf, BitVec.toNat_ofNat] at this
    omega
  rw [bootLevel, if_neg (hne 1 (by decide)), if_neg (hne 2 (by decide))]

theorem kernelEntry_bootBytes : entry bootBytes 1#40 256 = ⟨2#40, ⟨3#12, 0#12⟩⟩ := by
  decide +kernel

theorem bootWith_boots {limit : ℕ} (h : limit ≤ 2 ^ 52) :
    Boots 1#40 bootLevel (fun _ => False) (bootWith limit) where
  spaces _ := rfl
  taken := rfl
  free := rfl
  boot := by
    refine ⟨⟨?_, ?_, ?_⟩, ?_⟩
    · rintro region hr -
      obtain rfl := List.mem_singleton.mp hr
      exact ⟨3, rfl⟩
    · rintro region hr -
      obtain rfl := List.mem_singleton.mp hr
      exact h
    · exact List.pairwise_singleton _ _
    · rintro region rest hr -
      obtain ⟨rfl, -⟩ := List.cons.inj hr
      exact ⟨le_rfl, ⟨3, rfl⟩⟩
  kernel := by
    refine ⟨rfl, ?_, fun h => h.elim⟩
    intro f l i hf hi hl hp
    change (entry bootBytes f i).flags.contains .present = true at hp
    unfold bootLevel at hf
    split at hf
    case isTrue h1 =>
      subst h1
      obtain rfl : l = 3 := by simpa using hf.symm
      refine ⟨fun _ => Or.inr ?_, by simp⟩
      by_cases h256 : i = 256
      · subst h256
        change bootLevel (entry bootBytes 1#40 256).frame = some 3
        rw [kernelEntry_bootBytes]
        rfl
      · have hz := not_present_of_word (f := 1#40) (i := i) <| word_bootBytes fun k hk => by
          have h2 : 8 * i + k ≠ 2048 := by omega
          have h3 : 8 * i + k ≠ 2049 := by omega
          simp [bootBytes, h2, h3]
        rw [hz] at hp
        cases hp
    case isFalse =>
      split at hf
      case isTrue h2 =>
        subst h2
        rw [not_present_of_word (word_bootBytes fun k _ => by simp [bootBytes])] at hp
        cases hp
      case isFalse => cases hf
  tables := bootWith_tables h
  pages _ _ := id

theorem bootState_boots : Boots 1#40 bootLevel (fun _ => False) bootState :=
  bootWith_boots (by decide)

theorem bootWith_kernelEntries (limit : ℕ) :
    0 < AddressSpace.kernelEntries (bootWith limit).system.bytes 1#40 := by
  rw [AddressSpace.kernelEntries, List.countP_pos_iff]
  refine ⟨256, by simp, ?_⟩
  change (entry bootBytes 1#40 256).flags.contains .present = true
  rw [kernelEntry_bootBytes]
  decide

end SpaceRuns
