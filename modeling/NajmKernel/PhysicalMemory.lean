import Mathlib.Tactic.Linarith
import NajmKernel.LittleEndian

/-! Physical memory in frames of 4096 bytes, and the 64-bit words in it. -/
namespace PhysicalMemory

open LittleEndian

/-- A frame by its number: the physical address without its twelve low bits. -/
abbrev Frame := BitVec 40

instance : LawfulBEq Frame := inferInstance

abbrev Memory := Frame → ℕ → UInt8

namespace Memory

variable {m : Memory} {f g : Frame} {o p i j len : ℕ} {bs cs : List UInt8}

def read (m : Memory) (f : Frame) (o len : ℕ) : List UInt8 :=
  (List.range len).map fun k => m f (o + k)

def write (m : Memory) (f : Frame) (o : ℕ) (bs : List UInt8) : Memory := fun g p =>
  if g = f ∧ o ≤ p then (bs[p - o]?).getD (m g p) else m g p

def zeroFrame (m : Memory) (f : Frame) : Memory := fun g p => if g = f then 0 else m g p

/-- The word with index `i` of a frame. -/
@[irreducible] def word (m : Memory) (f : Frame) (i : ℕ) : ℕ := ofBytes (m.read f (8 * i) 8)

def setWord (m : Memory) (f : Frame) (i value : ℕ) : Memory :=
  m.write f (8 * i) (toBytes 8 value)

@[simp] theorem length_read : (m.read f o len).length = len := by simp [read]

theorem getElem?_read (h : p < len) : (m.read f o len)[p]? = some (m f (o + p)) := by
  simp [read, h]

theorem write_frame_ne (h : g ≠ f) : m.write f o bs g = m g := by
  funext p
  simp [write, h]

theorem write_below (h : p < o) : m.write f o bs g p = m g p := by
  have : ¬ o ≤ p := by omega
  simp [write, this]

theorem write_above (h : o + bs.length ≤ p) : m.write f o bs g p = m g p := by
  unfold write
  split
  · rw [List.getElem?_eq_none (by omega), Option.getD_none]
  · rfl

theorem write_at (h : p < bs.length) : m.write f o bs f (o + p) = bs[p] := by
  simp [write, h]

theorem read_congr {n : Memory} (h : ∀ k < len, m f (o + k) = n f (o + k)) :
    m.read f o len = n.read f o len := by
  apply List.map_congr_left
  intro k hk
  exact h k (List.mem_range.mp hk)

theorem read_write_same : (m.write f o bs).read f o bs.length = bs := by
  apply List.ext_getElem (by simp)
  intro k hk _
  have hb : k < bs.length := by simpa using hk
  simp [read, write_at hb]

theorem read_write_frame_ne (h : g ≠ f) : (m.write f o bs).read g p len = m.read g p len := by
  simp [read, write_frame_ne h]

theorem read_write_disjoint (h : p + len ≤ o ∨ o + bs.length ≤ p) :
    (m.write f o bs).read g p len = m.read g p len := by
  apply read_congr
  intro k hk
  rcases h with h | h
  · exact write_below (by omega)
  · exact write_above (by omega)

theorem word_setWord_same {value : ℕ} (h : value < 2 ^ 64) :
    (m.setWord f i value).word f i = value := by
  have hr : (m.write f (8 * i) (toBytes 8 value)).read f (8 * i) (toBytes 8 value).length =
      toBytes 8 value := read_write_same
  rw [length_toBytes] at hr
  rw [word, setWord, hr]
  exact ofBytes_toBytes_of_lt (lt_of_lt_of_eq h (by norm_num))

theorem word_setWord_frame_ne {value : ℕ} (h : g ≠ f) :
    (m.setWord f i value).word g j = m.word g j := by
  rw [word, setWord, read_write_frame_ne h, word]

theorem word_setWord_index_ne {value : ℕ} (h : j ≠ i) :
    (m.setWord f i value).word g j = m.word g j := by
  have hd : 8 * j + 8 ≤ 8 * i ∨ 8 * i + (toBytes 8 value).length ≤ 8 * j := by
    rw [length_toBytes]
    omega
  rw [word, setWord, read_write_disjoint hd, word]

theorem setWord_frame_ne {value : ℕ} (h : g ≠ f) : m.setWord f i value g = m g :=
  write_frame_ne h

theorem word_of_frame_eq {n : Memory} (h : m f = n f) : m.word f i = n.word f i := by
  rw [word, word, read, read, h]

@[simp] theorem zeroFrame_same : m.zeroFrame f f p = 0 := by simp [zeroFrame]

theorem zeroFrame_frame_ne (h : g ≠ f) : m.zeroFrame f g = m g := by
  funext p
  simp [zeroFrame, h]

theorem word_zeroFrame_same : (m.zeroFrame f).word f i = 0 := by
  have h : (m.zeroFrame f).read f (8 * i) 8 = List.replicate 8 0 := by
    apply List.ext_getElem (by simp)
    intro k _ _
    simp [read]
  rw [word, h, ofBytes_replicate_zero]

theorem word_zeroFrame_ne (h : g ≠ f) : (m.zeroFrame f).word g i = m.word g i :=
  word_of_frame_eq (zeroFrame_frame_ne h)

end Memory

end PhysicalMemory
