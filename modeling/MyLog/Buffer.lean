import MyLog.Text

/-! The byte buffer of `buffer.hpp`. A buffer value carries the order of its two
indices, so the size_t subtractions of the source never wrap. -/

namespace MyLog

def defaultBufferSize : Nat := 100 * 1024 * 1024

def thresholdBufferSize : Nat := 80 * 1024 * 1024

def linearBufferSize : Nat := 10 * 1024 * 1024

/-- A `std::vector<char>`. Cells at or beyond `size` are not elements. -/
structure Storage where
  size : Nat
  cell : Nat → UInt8

namespace Storage

def resize (v : Storage) (n : Nat) : Storage :=
  ⟨n, fun i => if i < v.size then v.cell i else 0⟩

/-- `std::copy` of `data` to the element at `at` and those after it. -/
def copyTo (v : Storage) (start : Nat) (data : Bytes) : Storage :=
  ⟨v.size, fun i => if i < start then v.cell i else data.getD (i - start) (v.cell i)⟩

@[simp] theorem resize_size (v : Storage) (n : Nat) : (v.resize n).size = n := rfl

theorem resize_cell {v : Storage} {n i : Nat} (h : i < v.size) :
    (v.resize n).cell i = v.cell i := by
  simp [resize, h]

theorem copyTo_cell_before {v : Storage} {start i : Nat} {data : Bytes} (h : i < start) :
    (v.copyTo start data).cell i = v.cell i := by
  simp [copyTo, h]

theorem copyTo_cell_in {v : Storage} {start i : Nat} {data : Bytes} (h : i < data.length) :
    (v.copyTo start data).cell (start + i) = data[i] := by
  have hs : ¬ start + i < start := by omega
  simp [copyTo, h, hs]

end Storage

structure Buffer where
  storage : Storage
  readerIdx : Nat
  writerIdx : Nat
  reader_le : readerIdx ≤ writerIdx
  writer_le : writerIdx ≤ storage.size

namespace Buffer

def init : Buffer := ⟨⟨defaultBufferSize, fun _ => 0⟩, 0, 0, Nat.le_refl 0, Nat.zero_le _⟩

def readAbleSize (b : Buffer) : Nat := b.writerIdx - b.readerIdx

def writeAbleSize (b : Buffer) : Nat := b.storage.size - b.writerIdx

def empty (b : Buffer) : Bool := b.readerIdx == b.writerIdx

def reset (b : Buffer) : Buffer := ⟨b.storage, 0, 0, Nat.le_refl 0, Nat.zero_le _⟩

/-- The `readAbleSize()` bytes from `begin()`. -/
def readable (b : Buffer) : Bytes :=
  (List.range b.readAbleSize).map fun i => b.storage.cell (b.readerIdx + i)

def grownSize (size len : Nat) : Nat :=
  if size < thresholdBufferSize then size * 2 + len else size + linearBufferSize + len

theorem le_grownSize (size len : Nat) : size + len ≤ grownSize size len := by
  unfold grownSize
  split <;> omega

def sufficientSpaceSize (b : Buffer) (len : Nat) : Buffer :=
  if len ≤ b.writeAbleSize then b
  else
    { b with
      storage := b.storage.resize (grownSize b.storage.size len)
      writer_le := by
        have := le_grownSize b.storage.size len
        have := b.writer_le
        simp only [Storage.resize_size]
        omega }

/-- `moveWriter`, with `none` where its assertion fails. -/
def moveWriter (b : Buffer) (len : Nat) : Option Buffer :=
  if h : len ≤ b.writeAbleSize then
    some { b with
      writerIdx := b.writerIdx + len
      reader_le := Nat.le_add_right_of_le b.reader_le
      writer_le := by have := b.writer_le; unfold writeAbleSize at h; omega }
  else none

/-- `moveReader`, with `none` where its assertion fails. -/
def moveReader (b : Buffer) (len : Nat) : Option Buffer :=
  if h : len ≤ b.readAbleSize then
    some { b with
      readerIdx := b.readerIdx + len
      reader_le := by have := b.reader_le; unfold readAbleSize at h; omega }
  else none

def copyIn (b : Buffer) (data : Bytes) : Buffer :=
  { b with storage := b.storage.copyTo b.writerIdx data, writer_le := b.writer_le }

def push (b : Buffer) (data : Bytes) : Option Buffer :=
  ((b.sufficientSpaceSize data.length).copyIn data).moveWriter data.length

@[simp] theorem init_readable : init.readable = [] := rfl

@[simp] theorem reset_readable (b : Buffer) : b.reset.readable = [] := by
  simp [reset, readable, readAbleSize]

@[simp] theorem readable_length (b : Buffer) : b.readable.length = b.readAbleSize := by
  simp [readable]

theorem empty_iff (b : Buffer) : b.empty = true ↔ b.readable = [] := by
  have := b.reader_le
  rw [← List.length_eq_zero_iff, readable_length]
  simp only [empty, beq_iff_eq, readAbleSize]
  omega

theorem sufficientSpaceSize_room (b : Buffer) (len : Nat) :
    len ≤ (b.sufficientSpaceSize len).writeAbleSize := by
  have hg := le_grownSize b.storage.size len
  have hw := b.writer_le
  unfold sufficientSpaceSize
  split
  · assumption
  · simp only [writeAbleSize, Storage.resize_size]
    omega

@[simp] theorem sufficientSpaceSize_writerIdx (b : Buffer) (len : Nat) :
    (b.sufficientSpaceSize len).writerIdx = b.writerIdx := by
  unfold sufficientSpaceSize
  split <;> rfl

@[simp] theorem sufficientSpaceSize_readerIdx (b : Buffer) (len : Nat) :
    (b.sufficientSpaceSize len).readerIdx = b.readerIdx := by
  unfold sufficientSpaceSize
  split <;> rfl

theorem sufficientSpaceSize_cell (b : Buffer) (len : Nat) {i : Nat} (h : i < b.writerIdx) :
    (b.sufficientSpaceSize len).storage.cell i = b.storage.cell i := by
  unfold sufficientSpaceSize
  split
  · rfl
  · exact Storage.resize_cell (h.trans_le b.writer_le)

@[simp] theorem sufficientSpaceSize_readable (b : Buffer) (len : Nat) :
    (b.sufficientSpaceSize len).readable = b.readable := by
  simp only [readable, readAbleSize, sufficientSpaceSize_writerIdx, sufficientSpaceSize_readerIdx]
  refine List.map_congr_left fun i hi => sufficientSpaceSize_cell b len ?_
  have := List.mem_range.mp hi
  omega

theorem push_isSome (b : Buffer) (data : Bytes) : ∃ b', b.push data = some b' := by
  have hroom := sufficientSpaceSize_room b data.length
  have h : data.length ≤ ((b.sufficientSpaceSize data.length).copyIn data).writeAbleSize := hroom
  exact ⟨_, dif_pos h⟩

theorem push_eq {b b' : Buffer} {data : Bytes} (h : b.push data = some b') :
    b'.storage = (b.sufficientSpaceSize data.length).storage.copyTo b.writerIdx data ∧
      b'.readerIdx = b.readerIdx ∧ b'.writerIdx = b.writerIdx + data.length := by
  unfold push moveWriter at h
  split at h
  · cases h
    simp [copyIn]
  · cases h

theorem push_readable {b b' : Buffer} {data : Bytes} (h : b.push data = some b') :
    b'.readable = b.readable ++ data := by
  obtain ⟨hs, hr, hw⟩ := push_eq h
  have hle := b.reader_le
  have hlen : b'.readAbleSize = b.readAbleSize + data.length := by
    simp only [readAbleSize, hr, hw]
    omega
  apply List.ext_getElem
  · simp [hlen]
  · intro i hi _
    simp only [readable_length] at hi
    simp only [readable, List.getElem_map, List.getElem_range, hs, hr]
    by_cases hold : i < b.readAbleSize
    · have hi' : b.readerIdx + i < b.writerIdx := by unfold readAbleSize at hold; omega
      rw [Storage.copyTo_cell_before hi', sufficientSpaceSize_cell b _ hi',
        List.getElem_append_left (by simpa using hold)]
      simp
    · have hi' : b.readerIdx + i = b.writerIdx + (i - b.readAbleSize) := by
        unfold readAbleSize at hold ⊢
        omega
      rw [hi', Storage.copyTo_cell_in (by omega), List.getElem_append_right (by simpa using hold)]
      simp

end Buffer

end MyLog
