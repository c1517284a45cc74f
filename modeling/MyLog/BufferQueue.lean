import MyLog.Buffer
import MyLog.Lib.System

/-! `Buffer` with the size_t arithmetic of the source, and any number of such buffers
as byte queues. -/

namespace MyLog

open Transition

theorem sizeT_sub {m n : Nat} (hn : n ≤ m) (hm : m < UInt64.size) :
    sizeT (m + UInt64.size - n) = m - n := by
  unfold sizeT UInt64.size at *
  omega

structure RawBuffer where
  storage : Storage
  readerIdx : Nat
  writerIdx : Nat

namespace RawBuffer

def init : RawBuffer := ⟨⟨defaultBufferSize, fun _ => 0⟩, 0, 0⟩

def readAbleSize (b : RawBuffer) : Nat := sizeT (b.writerIdx + UInt64.size - b.readerIdx)

def writeAbleSize (b : RawBuffer) : Nat := sizeT (b.storage.size + UInt64.size - b.writerIdx)

def empty (b : RawBuffer) : Bool := b.readerIdx == b.writerIdx

def reset (b : RawBuffer) : RawBuffer := { b with readerIdx := 0, writerIdx := 0 }

def sufficientSpaceSize (b : RawBuffer) (len : Nat) : RawBuffer :=
  if len ≤ b.writeAbleSize then b
  else
    let newSize :=
      if b.storage.size < thresholdBufferSize then sizeT (b.storage.size * 2 + len)
      else sizeT (b.storage.size + linearBufferSize + len)
    { b with storage := b.storage.resize newSize }

def moveWriter (b : RawBuffer) (len : Nat) : Option RawBuffer :=
  if len ≤ b.writeAbleSize then some { b with writerIdx := sizeT (b.writerIdx + len) } else none

def moveReader (b : RawBuffer) (len : Nat) : Option RawBuffer :=
  if len ≤ b.readAbleSize then some { b with readerIdx := sizeT (b.readerIdx + len) } else none

def push (b : RawBuffer) (data : Bytes) : Option RawBuffer :=
  let b := b.sufficientSpaceSize data.length
  { b with storage := b.storage.copyTo b.writerIdx data }.moveWriter data.length

def readable (b : RawBuffer) : Bytes :=
  (List.range b.readAbleSize).map fun i => b.storage.cell (b.readerIdx + i)

/-- The new size that a growth for `len` bytes computes is a size_t. -/
def Growable (b : RawBuffer) (len : Nat) : Prop :=
  len ≤ b.writeAbleSize ∨ Buffer.grownSize b.storage.size len < UInt64.size

end RawBuffer

namespace Buffer

def raw (b : Buffer) : RawBuffer := ⟨b.storage, b.readerIdx, b.writerIdx⟩

variable {b b' : Buffer} {len : Nat}

theorem raw_readAbleSize (h : b.storage.size < UInt64.size) : b.raw.readAbleSize = b.readAbleSize :=
  sizeT_sub b.reader_le (b.writer_le.trans_lt h)

theorem raw_writeAbleSize (h : b.storage.size < UInt64.size) :
    b.raw.writeAbleSize = b.writeAbleSize :=
  sizeT_sub b.writer_le h

theorem raw_readable (h : b.storage.size < UInt64.size) : b.raw.readable = b.readable := by
  rw [RawBuffer.readable, raw_readAbleSize h]
  rfl

theorem raw_sufficientSpaceSize (h : b.storage.size < UInt64.size) (hg : b.raw.Growable len) :
    b.raw.sufficientSpaceSize len = (b.sufficientSpaceSize len).raw ∧
      (b.sufficientSpaceSize len).storage.size < UInt64.size := by
  rw [RawBuffer.Growable, raw_writeAbleSize h] at hg
  rw [RawBuffer.sufficientSpaceSize, raw_writeAbleSize h, sufficientSpaceSize]
  by_cases hl : len ≤ b.writeAbleSize
  · rw [if_pos hl, if_pos hl]
    exact ⟨rfl, h⟩
  · have hnew : grownSize b.storage.size len < UInt64.size := hg.resolve_left hl
    rw [if_neg hl, if_neg hl]
    refine ⟨?_, hnew⟩
    have hsize : (if b.storage.size < thresholdBufferSize then sizeT (b.storage.size * 2 + len)
        else sizeT (b.storage.size + linearBufferSize + len)) = grownSize b.storage.size len := by
      rw [← sizeT_of_lt hnew, grownSize]
      exact (apply_ite sizeT _ _ _).symm
    exact congrArg (fun n => RawBuffer.mk (b.storage.resize n) b.readerIdx b.writerIdx) hsize

theorem raw_moveWriter (h : b.storage.size < UInt64.size) (hl : len ≤ b.writeAbleSize) :
    b.raw.moveWriter len = (b.moveWriter len).map raw := by
  have hw := b.writer_le
  rw [RawBuffer.moveWriter, raw_writeAbleSize h, if_pos hl, moveWriter, dif_pos hl]
  have hlt : b.writerIdx + len < UInt64.size := by
    unfold writeAbleSize at hl
    omega
  simp [raw, sizeT_of_lt hlt]

theorem raw_moveReader (h : b.storage.size < UInt64.size) :
    b.raw.moveReader len = (b.moveReader len).map raw := by
  have hr := b.reader_le
  have hw := b.writer_le
  rw [RawBuffer.moveReader, raw_readAbleSize h, moveReader]
  by_cases hl : len ≤ b.readAbleSize
  · have hlt : b.readerIdx + len < UInt64.size := by
      unfold readAbleSize at hl
      omega
    rw [if_pos hl, dif_pos hl]
    simp [raw, sizeT_of_lt hlt]
  · rw [if_neg hl, dif_neg hl]
    rfl

theorem raw_push (h : b.storage.size < UInt64.size) {data : Bytes}
    (hg : b.raw.Growable data.length) :
    ∃ b', b.push data = some b' ∧ b.raw.push data = some b'.raw ∧ b'.storage.size < UInt64.size := by
  obtain ⟨hs, hsize⟩ := raw_sufficientSpaceSize h hg
  have hroom := sufficientSpaceSize_room b data.length
  obtain ⟨b', hb⟩ := b.push_isSome data
  refine ⟨b', hb, ?_, ?_⟩
  · have hm := raw_moveWriter (b := (b.sufficientSpaceSize data.length).copyIn data) hsize hroom
    have hp : ((b.sufficientSpaceSize data.length).copyIn data).moveWriter data.length =
        some b' := hb
    rw [hp] at hm
    rw [RawBuffer.push, hs]
    exact hm
  · rw [(push_eq hb).1]
    exact hsize

theorem moveReader_readable {n : Nat} (h : b.moveReader n = some b') :
    b'.readable = b.readable.drop n ∧ b'.storage = b.storage := by
  unfold moveReader at h
  split at h
  · next hn =>
    obtain rfl := Option.some.inj h
    refine ⟨?_, rfl⟩
    have hlen : b.writerIdx - (b.readerIdx + n) = b.readAbleSize - n := by
      unfold readAbleSize
      omega
    apply List.ext_getElem
    · simp [readable, readAbleSize, hlen]
    · intro i hi _
      simp [readable, Nat.add_assoc]
  · cases h

end Buffer

inductive BufferOp (β : Type)
  | push (b : β) (data : Bytes)
  | moveReader (b : β) (n : Nat)
  | reset (b : β)
  | swap (b b' : β)

section Queues

variable {β : Type} [DecidableEq β]

def exchange {α : Type} (w : β → α) (b b' : β) : β → α :=
  Function.update (Function.update w b (w b')) b' (w b)

theorem forall_exchange {α : Type} {P : α → Prop} {w : β → α} (h : ∀ b, P (w b)) (b b' j : β) :
    P (exchange w b b' j) := by
  by_cases hb : j = b'
  · subst hb
    simpa [exchange] using h b
  · by_cases hj : j = b
    · subst hj
      simpa [exchange, hb] using h b'
    · simpa [exchange, hb, hj] using h j

/-- The buffers after an operation; `none` where an assertion fails. -/
def RawBuffer.call (w : β → RawBuffer) : BufferOp β → Option (β → RawBuffer)
  | .push b data => ((w b).push data).map (Function.update w b)
  | .moveReader b n => ((w b).moveReader n).map (Function.update w b)
  | .reset b => some (Function.update w b (w b).reset)
  | .swap b b' => some (exchange w b b')

def queueCall (q : β → Bytes) : BufferOp β → β → Bytes
  | .push b data => Function.update q b (q b ++ data)
  | .moveReader b n => Function.update q b ((q b).drop n)
  | .reset b => Function.update q b []
  | .swap b b' => exchange q b b'

def queuesAfter (ops : List (BufferOp β)) : β → Bytes :=
  ops.foldl queueCall fun _ => []

def bufferSystem (β : Type) [DecidableEq β] : System (β → RawBuffer) (BufferOp β) where
  init w := w = fun _ => RawBuffer.init
  step w op w' := RawBuffer.call w op = some w'

/-- What a caller has to see to: it drops no more than there is, and sizes are size_t. -/
def Admissible (w : β → RawBuffer) : BufferOp β → Prop
  | .push b data => (w b).Growable data.length
  | .moveReader b n => n ≤ (w b).readAbleSize
  | _ => True

/-- The raw buffers are the members of well-formed ones that hold the queues. -/
def Represents (w : β → RawBuffer) (q : β → Bytes) : Prop :=
  ∃ f : β → Buffer, ∀ b, w b = (f b).raw ∧ (f b).storage.size < UInt64.size ∧ (f b).readable = q b

variable {w : β → RawBuffer} {q : β → Bytes}

omit [DecidableEq β] in
theorem represents_init : Represents (fun _ : β => RawBuffer.init) fun _ => [] := by
  have hs : Buffer.init.storage.size < UInt64.size := by decide
  exact ⟨fun _ => Buffer.init, fun _ => ⟨rfl, hs, Buffer.init_readable⟩⟩

omit [DecidableEq β] in
theorem Represents.readable (h : Represents w q) (b : β) : (w b).readable = q b := by
  obtain ⟨f, hf⟩ := h
  rw [(hf b).1, Buffer.raw_readable (hf b).2.1]
  exact (hf b).2.2

theorem Represents.update (h : Represents w q) {b : β} {x : Buffer} {data : Bytes}
    (hx : x.storage.size < UInt64.size) (hd : x.readable = data) :
    Represents (Function.update w b x.raw) (Function.update q b data) := by
  obtain ⟨f, hf⟩ := h
  refine ⟨Function.update f b x, fun j => ?_⟩
  by_cases hj : j = b
  · subst hj
    simpa using ⟨hx, hd⟩
  · simpa [hj] using hf j

theorem Represents.exchange (h : Represents w q) (b b' : β) :
    Represents (exchange w b b') (exchange q b b') := by
  obtain ⟨f, hf⟩ := h
  obtain ⟨hw, hs, hq⟩ := hf b
  obtain ⟨hw', hs', hq'⟩ := hf b'
  have hb : Represents (Function.update w b (w b')) (Function.update q b (q b')) := by
    rw [hw']
    exact Represents.update ⟨f, hf⟩ hs' hq'
  rw [MyLog.exchange, MyLog.exchange, hw]
  exact hb.update hs hq

theorem Represents.call (h : Represents w q) (op : BufferOp β) (ha : Admissible w op) :
    ∃ w', RawBuffer.call w op = some w' ∧ Represents w' (queueCall q op) := by
  obtain ⟨f, hf⟩ := h
  cases op with
  | push b data =>
    obtain ⟨hw, hs, hq⟩ := hf b
    have hg : (f b).raw.Growable data.length := hw ▸ ha
    obtain ⟨x, hx, hraw, hxs⟩ := Buffer.raw_push hs hg
    refine ⟨Function.update w b x.raw, ?_, Represents.update ⟨f, hf⟩ hxs ?_⟩
    · rw [RawBuffer.call, hw, hraw]
      rfl
    · rw [Buffer.push_readable hx, hq]
  | moveReader b n =>
    obtain ⟨hw, hs, hq⟩ := hf b
    have hn : n ≤ (f b).readAbleSize := by
      have hn' : n ≤ (w b).readAbleSize := ha
      rwa [hw, Buffer.raw_readAbleSize hs] at hn'
    obtain ⟨x, hx⟩ : ∃ x, (f b).moveReader n = some x := ⟨_, dif_pos hn⟩
    obtain ⟨hread, hstore⟩ := Buffer.moveReader_readable hx
    refine ⟨Function.update w b x.raw, ?_, Represents.update ⟨f, hf⟩ (hstore ▸ hs) ?_⟩
    · rw [RawBuffer.call, hw, Buffer.raw_moveReader hs, hx]
      rfl
    · rw [hread, hq]
  | reset b =>
    obtain ⟨hw, hs, hq⟩ := hf b
    refine ⟨_, rfl, ?_⟩
    rw [hw]
    exact Represents.update (x := (f b).reset) ⟨f, hf⟩ hs (Buffer.reset_readable _)
  | swap b b' => exact ⟨_, rfl, Represents.exchange ⟨f, hf⟩ b b'⟩

theorem represents_run {tr : List ((β → RawBuffer) × BufferOp β)}
    (h : ((bufferSystem β).restrict Admissible).Run (fun _ => RawBuffer.init) tr w) :
    Represents w (queuesAfter (tr.map Prod.snd)) := by
  induction h with
  | nil => exact represents_init
  | @snoc w w' op tr _ hs ih =>
    obtain ⟨hcall, ha⟩ := hs
    obtain ⟨v, hv, hrep⟩ := ih.call op ha
    obtain rfl : v = w' := Option.some.inj (hv.symm.trans hcall)
    simpa [queuesAfter] using hrep

/-- After any admissible operations the indices are in order, no assertion can fail, and
each buffer holds its queue; growing a buffer does not change what it holds. -/
theorem buffers_refine_queues {tr : List ((β → RawBuffer) × BufferOp β)}
    (h : ((bufferSystem β).restrict Admissible).Run (fun _ => RawBuffer.init) tr w) :
    (∀ b, (w b).readerIdx ≤ (w b).writerIdx ∧ (w b).writerIdx ≤ (w b).storage.size) ∧
    (∀ op, Admissible w op → ∃ w', RawBuffer.call w op = some w') ∧
    (∀ b, (w b).readable = queuesAfter (tr.map Prod.snd) b) ∧
    (∀ b, (w b).empty = true ↔ queuesAfter (tr.map Prod.snd) b = []) ∧
    (∀ b len, (w b).Growable len → ((w b).sufficientSpaceSize len).readable = (w b).readable) := by
  obtain ⟨f, hf⟩ := represents_run h
  refine ⟨fun b => ?_, fun op ha => ?_, (represents_run h).readable, fun b => ?_,
    fun b len hg => ?_⟩
  · rw [(hf b).1]
    exact ⟨(f b).reader_le, (f b).writer_le⟩
  · obtain ⟨w', hw', -⟩ := (represents_run h).call op ha
    exact ⟨w', hw'⟩
  · rw [(hf b).1, ← (hf b).2.2]
    exact (f b).empty_iff
  · obtain ⟨hw, hs, -⟩ := hf b
    rw [hw] at hg ⊢
    obtain ⟨hgrown, hsize⟩ := Buffer.raw_sufficientSpaceSize hs hg
    rw [hgrown, Buffer.raw_readable hsize, Buffer.raw_readable hs]
    exact Buffer.sufficientSpaceSize_readable _ _

theorem buffers_refine_queues_run : ∃ (w : Bool → RawBuffer) (tr : _),
    ((bufferSystem Bool).restrict Admissible).Run (fun _ => RawBuffer.init) tr w ∧
      (w true).readable = [105] := by
  obtain ⟨w₁, h₁, r₁⟩ := represents_init.call (.push false [104, 105]) (.inl (by decide))
  have hone : 1 ≤ (w₁ false).readAbleSize := by
    have hread : (w₁ false).readable = [104, 105] := r₁.readable false
    have hlen := congrArg List.length hread
    simp [RawBuffer.readable] at hlen
    omega
  obtain ⟨w₂, h₂, r₂⟩ := r₁.call (.moveReader false 1) hone
  obtain ⟨w₃, h₃, -⟩ := r₂.call (.swap false true) trivial
  have h := System.Run.nil (S := (bufferSystem Bool).restrict Admissible)
    (s := fun _ => RawBuffer.init)
  have h := ((h.snoc ⟨h₁, .inl (by decide)⟩).snoc ⟨h₂, hone⟩).snoc ⟨h₃, trivial⟩
  exact ⟨w₃, _, h, (buffers_refine_queues h).2.2.1 true⟩

end Queues

end MyLog
