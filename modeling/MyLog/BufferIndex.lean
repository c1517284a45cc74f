import MyLog.BufferQueue
import MyLog.Looper

/-! The elements `_buffer[i]` that the calls of a `Buffer` form. An index may be the size
of its storage, and then there is no such element. -/

namespace MyLog

open Transition

inductive BufferCall (β : Type)
  | op (o : BufferOp β)
  | begin (b : β)

namespace Buffer

variable {b : Buffer} {data : Bytes} {n : Nat}

/-- The index and the size in `&_buffer[_writer_idx]` of `push`, which comes after the
growth. -/
def pushElement (b : Buffer) (data : Bytes) : Nat × Nat :=
  ((b.sufficientSpaceSize data.length).writerIdx,
    (b.sufficientSpaceSize data.length).storage.size)

/-- The index and the size in `&_buffer[_reader_idx]` of `begin`. -/
def beginElement (b : Buffer) : Nat × Nat := (b.readerIdx, b.storage.size)

def Inside (e : Nat × Nat) : Prop := e.1 < e.2

theorem le_sufficientSpaceSize (b : Buffer) (len : Nat) :
    b.storage.size ≤ (b.sufficientSpaceSize len).storage.size := by
  have hgrown := le_grownSize b.storage.size len
  unfold sufficientSpaceSize
  split
  · exact Nat.le_refl _
  · exact Nat.le_trans (Nat.le_add_right _ len) hgrown

theorem pushElement_inside_iff :
    Inside (b.pushElement data) ↔ ¬ (data = [] ∧ b.writeAbleSize = 0) := by
  have hroom := sufficientSpaceSize_room b data.length
  have hle := (b.sufficientSpaceSize data.length).writer_le
  unfold Inside pushElement
  by_cases hd : data = []
  · subst hd
    have hsame : b.sufficientSpaceSize ([] : Bytes).length = b := if_pos (Nat.zero_le _)
    have hw := b.writer_le
    rw [hsame]
    simp only [writeAbleSize, true_and]
    omega
  · have hlen := List.length_pos_iff.mpr hd
    unfold writeAbleSize at hroom
    simp only [hd, false_and, not_false_eq_true, iff_true]
    omega

theorem beginElement_inside_iff :
    Inside b.beginElement ↔ ¬ (b.empty = true ∧ b.writeAbleSize = 0) := by
  have hr := b.reader_le
  have hw := b.writer_le
  simp only [Inside, beginElement, empty, beq_iff_eq, writeAbleSize]
  omega

variable {β : Type} [DecidableEq β]

def call (w : β → Buffer) : BufferCall β → Option (β → Buffer)
  | .op (.push b data) => ((w b).push data).map (Function.update w b)
  | .op (.moveReader b n) => ((w b).moveReader n).map (Function.update w b)
  | .op (.reset b) => some (Function.update w b (w b).reset)
  | .op (.swap b b') => some (exchange w b b')
  | .begin _ => some w

/-- The calls of a sequence, each with the buffers it is made on; none comes after an
assertion that fails. -/
def calls (w : β → Buffer) : List (BufferCall β) → List ((β → Buffer) × BufferCall β)
  | [] => []
  | c :: cs => (w, c) :: ((call w c).map fun w' => calls w' cs).getD []

omit [DecidableEq β] in
def element (w : β → Buffer) : BufferCall β → Option (Nat × Nat)
  | .op (.push b data) => some ((w b).pushElement data)
  | .begin b => some (w b).beginElement
  | _ => none

/-- A buffer with no room gets no empty message, and is not read when it is read up. -/
def ShortOfEnd (w : β → Buffer) : BufferCall β → Prop
  | .op (.push b data) => ¬ (data = [] ∧ (w b).writeAbleSize = 0)
  | .begin b => ¬ ((w b).empty = true ∧ (w b).writeAbleSize = 0)
  | _ => True

variable {w : β → Buffer}

omit [DecidableEq β] in
theorem element_inside_iff (c : BufferCall β) :
    (∀ e, element w c = some e → Inside e) ↔ ShortOfEnd w c := by
  cases c with
  | begin b => simpa [element, ShortOfEnd] using beginElement_inside_iff
  | op o =>
    cases o with
    | push b data => simpa [element, ShortOfEnd] using pushElement_inside_iff
    | moveReader b n => simp [element, ShortOfEnd]
    | reset b => simp [element, ShortOfEnd]
    | swap b b' => simp [element, ShortOfEnd]

theorem calls_cons {w' : β → Buffer} {c : BufferCall β} (h : call w c = some w')
    (cs : List (BufferCall β)) : calls w (c :: cs) = (w, c) :: calls w' cs := by
  rw [calls, h]
  rfl

/-- All elements that a sequence of calls forms are there exactly if no empty message
goes to a buffer without room and `begin` of none that is read up without room is
called. -/
theorem elements_inside_iff (β : Type) [DecidableEq β] (cs : List (BufferCall β)) :
    (∀ x ∈ calls (fun _ => init) cs, ∀ e, element x.1 x.2 = some e → Inside e) ↔
      ∀ x ∈ calls (fun _ => init) cs, ShortOfEnd x.1 x.2 :=
  forall₂_congr fun _ _ => element_inside_iff _

theorem push_fills {b b' : Buffer} (h : b.push data = some b')
    (hl : data.length = b.writeAbleSize) : b'.writeAbleSize = 0 := by
  obtain ⟨hs, -, hw⟩ := push_eq h
  have hsame : b.sufficientSpaceSize data.length = b := if_pos hl.le
  rw [hsame] at hs
  rw [writeAbleSize, hs, hw, hl]
  have := b.writer_le
  simp only [Storage.copyTo, writeAbleSize]
  omega

theorem moveReader_all {r : Buffer} (h : b.moveReader n = some r) (hn : n = b.readAbleSize) :
    r.empty = true ∧ r.writeAbleSize = b.writeAbleSize := by
  unfold moveReader at h
  rw [dif_pos hn.le] at h
  obtain rfl := Option.some.inj h
  have := b.reader_le
  simp only [empty, beq_iff_eq, writeAbleSize, hn, readAbleSize, and_true]
  omega

/-- A message of just the size of the storage, and then an empty one; or the message
is read up, and `begin` is called. -/
theorem full_buffer_at_end :
    (¬ ∀ x ∈ calls (fun _ : Unit => init) [.op (.push () (List.replicate defaultBufferSize 0)),
        .op (.push () [])], ∀ e, element x.1 x.2 = some e → Inside e) ∧
    ¬ ∀ x ∈ calls (fun _ : Unit => init) [.op (.push () (List.replicate defaultBufferSize 0)),
        .op (.moveReader () defaultBufferSize), .begin ()],
      ∀ e, element x.1 x.2 = some e → Inside e := by
  obtain ⟨b, hb⟩ := init.push_isSome (List.replicate defaultBufferSize 0)
  have hlen : (List.replicate defaultBufferSize (0 : UInt8)).length = defaultBufferSize :=
    List.length_replicate
  have hfull : b.writeAbleSize = 0 := push_fills hb hlen
  have hcall : call (fun _ : Unit => init) (.op (.push () (List.replicate defaultBufferSize 0))) =
      some (Function.update (fun _ => init) () b) := by
    rw [call, hb]
    rfl
  have hcells : b.readAbleSize = defaultBufferSize := by
    rw [← readable_length, push_readable hb, List.length_append, hlen]
    exact Nat.zero_add _
  obtain ⟨r, hr⟩ : ∃ r, b.moveReader defaultBufferSize = some r := ⟨_, dif_pos hcells.ge⟩
  have hread : call (Function.update (fun _ : Unit => init) () b)
      (.op (.moveReader () defaultBufferSize)) =
      some (Function.update (Function.update (fun _ => init) () b) () r) := by
    rw [call, Function.update_self, hr]
    rfl
  rw [calls_cons hcall, calls_cons hcall, calls_cons hread]
  constructor
  · intro h
    have hx := h _ (List.mem_cons_of_mem _ List.mem_cons_self)
    apply (element_inside_iff _).mp hx
    exact ⟨rfl, by simpa using hfull⟩
  · intro h
    have hx := h _ (List.mem_cons_of_mem _ (List.mem_cons_of_mem _ List.mem_cons_self))
    apply (element_inside_iff _).mp hx
    obtain ⟨hempty, hroom⟩ := moveReader_all hr hcells.symm
    simpa [hroom] using ⟨hempty, hfull⟩

end Buffer

namespace RawBuffer

def pushElement (b : RawBuffer) (data : Bytes) : Nat × Nat :=
  ((b.sufficientSpaceSize data.length).writerIdx,
    (b.sufficientSpaceSize data.length).storage.size)

def beginElement (b : RawBuffer) : Nat × Nat := (b.readerIdx, b.storage.size)

/-- With the size_t arithmetic of the source the same elements are missing, in every run
in which the sizes stay below 2^64. -/
theorem raw_element_inside_iff {β : Type} [DecidableEq β] {w : β → RawBuffer}
    {tr : List ((β → RawBuffer) × BufferOp β)}
    (h : ((bufferSystem β).restrict Admissible).Run (fun _ => RawBuffer.init) tr w) (b : β) :
    (∀ data, (w b).Growable data.length → (Buffer.Inside ((w b).pushElement data) ↔
      ¬ (data = [] ∧ (w b).writeAbleSize = 0))) ∧
    (Buffer.Inside (w b).beginElement ↔ ¬ ((w b).empty = true ∧ (w b).writeAbleSize = 0)) := by
  obtain ⟨f, hf⟩ := represents_run h
  obtain ⟨hw, hs, -⟩ := hf b
  rw [hw, Buffer.raw_writeAbleSize hs]
  refine ⟨fun data hg => ?_, Buffer.beginElement_inside_iff⟩
  rw [pushElement, (Buffer.raw_sufficientSpaceSize hs hg).1]
  exact Buffer.pushElement_inside_iff

end RawBuffer

namespace Looper

variable {ι : Type} [DecidableEq ι] {ty : AsyncType} {s t : Looper ι} {a : Action ι}

def Unread (s : Looper ι) : Prop :=
  (s.proBuf.readerIdx = 0 ∧ 0 < s.proBuf.storage.size) ∧
    s.conBuf.readerIdx = 0 ∧ 0 < s.conBuf.storage.size

theorem Unread.step (h : s.Unread) (hs : Step ty s a t) : t.Unread := by
  obtain ⟨hp, hc⟩ := h
  cases hs with
  | append i c b hi hb =>
    obtain ⟨hsize, hr, -⟩ := Buffer.push_eq hb
    refine ⟨⟨hr.trans hp.1, ?_⟩, hc⟩
    rw [hsize]
    exact Nat.lt_of_lt_of_le hp.2 (s.proBuf.le_sufficientSpaceSize c.data.length)
  | swap => exact ⟨hc, hp⟩
  | reset => exact ⟨hp, rfl, hc.2⟩
  | _ => exact ⟨hp, hc⟩

/-- In a looper `begin` always has an element, also of the empty batch that a `stop`
can let through; so only an empty message can do without one there. -/
theorem begin_inside (h : (system ι ty).Reachable s) : Buffer.Inside s.conBuf.beginElement := by
  have hunread : s.Unread := by
    apply h.invariant
    · rintro s rfl
      have hsize : 0 < Buffer.init.storage.size := by decide
      exact ⟨⟨rfl, hsize⟩, rfl, hsize⟩
    · intro u a v _ hu hs
      exact hu.step hs
  obtain ⟨-, hr, hsize⟩ := hunread
  unfold Buffer.Inside Buffer.beginElement
  omega

end Looper

end MyLog
