import MyLog.Conservation

/-! In safe mode `push` waits until its bytes fit, so no buffer ever grows. -/

namespace MyLog

open Transition

namespace Buffer

structure Unresized (b : Buffer) : Prop where
  size : b.storage.size = defaultBufferSize
  reader : b.readerIdx = 0

theorem unresized_init : Unresized init := ⟨rfl, rfl⟩

theorem Unresized.reset {b : Buffer} (h : b.Unresized) : b.reset.Unresized := ⟨h.size, rfl⟩

theorem Unresized.writer {b : Buffer} (h : b.Unresized) : b.writerIdx ≤ defaultBufferSize :=
  h.size ▸ b.writer_le

theorem Unresized.readable_length {b : Buffer} (h : b.Unresized) :
    b.readable.length ≤ defaultBufferSize := by
  have hw := h.writer
  rw [Buffer.readable_length, readAbleSize]
  omega

theorem sufficientSpaceSize_fits {b : Buffer} {len : Nat} (h : len ≤ b.writeAbleSize) :
    b.sufficientSpaceSize len = b := by
  rw [sufficientSpaceSize, if_pos h]

theorem push_fits {b b' : Buffer} {data : Bytes} (h : data.length ≤ b.writeAbleSize)
    (hb : b.push data = some b') :
    b'.storage.size = b.storage.size ∧ b'.readerIdx = b.readerIdx ∧
      b'.writerIdx = b.writerIdx + data.length := by
  obtain ⟨hs, hr, hw⟩ := push_eq hb
  rw [sufficientSpaceSize_fits h] at hs
  exact ⟨by rw [hs]; rfl, hr, hw⟩

theorem Unresized.push {b b' : Buffer} {data : Bytes} (h : b.Unresized)
    (hf : data.length ≤ b.writeAbleSize) (hb : b.push data = some b') : b'.Unresized := by
  obtain ⟨hs, hr, -⟩ := push_fits hf hb
  exact ⟨hs.trans h.size, hr.trans h.reader⟩

end Buffer

namespace Looper

variable {ι : Type}

/-- A thread past its wait for room finds the room still there. -/
def RoomAt (b : Buffer) : ProducerPc ι → Prop
  | .write c => c.data.length ≤ b.writeAbleSize
  | _ => True

theorem roomAt_of_holds {b : Buffer} {p : ProducerPc ι} (h : p.holds = false) : RoomAt b p := by
  cases p with
  | write => cases h
  | _ => trivial

theorem RoomAt.wake {b : Buffer} {p : ProducerPc ι} (h : RoomAt b p) : RoomAt b p.wake := by
  cases p <;> exact h

structure Bounded (s : Looper ι) : Prop where
  pro : s.proBuf.Unresized
  con : s.conBuf.Unresized
  room : ∀ i, RoomAt s.proBuf (s.producer i)

variable [DecidableEq ι] {s t : Looper ι} {a : Action ι}

theorem forall_producer {Q : ProducerPc ι → Prop} {f : ι → ProducerPc ι} {i : ι}
    {p : ProducerPc ι} (hp : Q p) (h : ∀ j, j ≠ i → Q (f j)) (j : ι) :
    Q (Function.update f i p j) :=
  (Function.forall_update_iff f fun _ q => Q q).mpr ⟨hp, h⟩ j

theorem others_wait {ty : AsyncType} (h : (system ι ty).Reachable s) {i j : ι}
    (hi : (s.producer i).holds = true) (hj : j ≠ i) : (s.producer j).holds = false := by
  by_contra hh
  have hj' : inside s.worker s.producer (.producer j) = true := by simpa [inside] using hh
  exact hj (Agent.producer.inj ((exclusive h).unique hj' hi))

theorem Bounded.step (h : Bounded s) (hr : (system ι .asyncSafe).Reachable s)
    (hs : Step .asyncSafe s a t) : Bounded t := by
  obtain ⟨hp, hc, hroom⟩ := h
  cases hs with
  | call | producerLock | producerSleep | producerSpurious | producerRelock | notifyOne
  | producerReturn => exact ⟨hp, hc, forall_producer trivial fun j _ => hroom j⟩
  | producerTest i c =>
    refine ⟨hp, hc, forall_producer ?_ fun j _ => hroom j⟩
    split
    · assumption
    · trivial
  | append i c b hi hb =>
    have hfits : c.data.length ≤ s.proBuf.writeAbleSize := by
      have := hroom i
      rwa [hi] at this
    -- no other thread is past its wait while this one owns the mutex
    have hj (j : ι) (hji : j ≠ i) : (s.producer j).holds = false :=
      others_wait hr (by rw [hi]; rfl) hji
    exact ⟨hp.push hfits hb, hc, forall_producer trivial fun j hji => roomAt_of_holds (hj j hji)⟩
  | swap hw =>
    exact ⟨hc, hp, fun i => roomAt_of_holds (worker_excludes hr (by rw [hw]; rfl) i)⟩
  | notifyAll => exact ⟨hp, hc, fun i => (hroom i).wake⟩
  | reset => exact ⟨hp, hc.reset, hroom⟩
  | _ => exact ⟨hp, hc, hroom⟩

theorem bounded (h : (system ι .asyncSafe).Reachable s) : Bounded s := by
  apply h.invariant
  · intro s hs
    subst hs
    exact ⟨Buffer.unresized_init, Buffer.unresized_init, fun _ => trivial⟩
  · intro s a t hr ih hs
    exact ih.step hr hs

omit [DecidableEq ι] in
theorem swappedIn_length (h : Bounded s) : s.swappedIn.length ≤ defaultBufferSize := by
  unfold swappedIn
  split
  · exact h.con.readable_length
  · exact h.con.readable_length
  · exact h.con.readable_length
  · exact Nat.zero_le _

theorem backlog_length (h : (system ι .asyncSafe).Reachable s) :
    (bytesOf s.flow.accepted).length ≤ s.handed.flatten.length + 2 * defaultBufferSize := by
  have hb := bounded h
  have hcon := swappedIn_length hb
  have hpro := hb.pro.readable_length
  rw [← stream_eq h, List.length_append, List.length_append]
  omega

/-- In safe mode the buffers keep their size, no `push` finds too little room, and what
has been accepted and not yet handed over fits into the two buffers. -/
theorem safe_mode_bounded (h : (system ι .asyncSafe).Reachable s) :
    (s.proBuf.storage.size = defaultBufferSize ∧ s.conBuf.storage.size = defaultBufferSize) ∧
    (s.proBuf.readerIdx = 0 ∧ s.conBuf.readerIdx = 0) ∧
    (s.proBuf.writerIdx ≤ defaultBufferSize ∧ s.conBuf.writerIdx ≤ defaultBufferSize) ∧
    (∀ i c, s.producer i = .write c →
      s.proBuf.sufficientSpaceSize c.data.length = s.proBuf ∧
      ∃ b, (s.proBuf.copyIn c.data).moveWriter c.data.length = some b) ∧
    (bytesOf s.flow.accepted).length ≤ s.handed.flatten.length + 2 * defaultBufferSize := by
  obtain ⟨hp, hc, hroom⟩ := bounded h
  refine ⟨⟨hp.size, hc.size⟩, ⟨hp.reader, hc.reader⟩, ⟨hp.writer, hc.writer⟩, ?_,
    backlog_length h⟩
  intro i c hi
  have hfits : c.data.length ≤ s.proBuf.writeAbleSize := by
    have := hroom i
    rwa [hi] at this
  have hroom' := Buffer.sufficientSpaceSize_fits hfits
  obtain ⟨b, hb⟩ := s.proBuf.push_isSome c.data
  rw [Buffer.push, hroom'] at hb
  exact ⟨hroom', b, hb⟩

theorem safe_mode_bounded_run : ∃ s : Looper Nat, (system Nat .asyncSafe).Reachable s ∧
    s.proBuf.writerIdx = 2 ∧ s.proBuf.storage.size = defaultBufferSize := by
  have h := System.Reachable.init (S := system Nat .asyncSafe) rfl
  have h := h.step (.call _ 0 [104, 105] rfl)
  have h := h.step (.producerLock _ 0 _ rfl rfl)
  have h := h.step (.producerTest _ 0 _ rfl)
  have h := h.step (.append _ 0 _ _ rfl rfl)
  exact ⟨_, h, rfl, (safe_mode_bounded h).1.1⟩

end Looper

end MyLog
