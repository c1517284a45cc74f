import MyLog.LooperHistory

/-! The looper neither loses nor repeats nor reorders a byte. -/

namespace MyLog

open Transition

namespace Looper

variable {ι : Type}

def swappedIn (s : Looper ι) : Bytes :=
  match s.worker with
  | .notify | .unlock | .call => s.conBuf.readable
  | _ => []

theorem Coupled.swappedIn_eq {s : Looper ι} (h : Coupled s) :
    s.swappedIn = bytesOf s.flow.staged := by
  have hc := h.con
  unfold swappedIn
  cases hw : s.worker with
  | notify | unlock | call =>
    rw [hw] at hc
    exact hc
  | callback | reset =>
    rw [hw] at hc
    rw [show s.flow.staged = [] from hc, bytesOf_nil]
  | _ =>
    rw [hw] at hc
    rw [hc.1, bytesOf_nil]

variable [DecidableEq ι] {ty : AsyncType} {s : Looper ι}

theorem stream_eq (h : (system ι ty).Reachable s) :
    s.handed.flatten ++ s.swappedIn ++ s.proBuf.readable = bytesOf s.flow.accepted := by
  have hc := coupled h
  rw [hc.handed, hc.swappedIn_eq, hc.pro, ← bytesOf_flatten, ← bytesOf_append,
    ← bytesOf_append, Pipeline.conserved (flow_reachable h)]

theorem batches_prefix_accepted (h : (system ι ty).Reachable s) :
    s.flow.batches.flatten <+: s.flow.accepted :=
  ⟨_, by rw [← List.append_assoc]; exact Pipeline.conserved (flow_reachable h)⟩

theorem empty_at_leave (h : (system ι ty).Reachable s) (hw : s.worker = .leave) :
    s.proBuf.empty = true ∧ s.conBuf.empty = true := by
  have hc := (coupled h).con
  rw [hw] at hc
  exact ⟨(Buffer.empty_iff _).mpr ((coupled h).leave hw), (Buffer.empty_iff _).mpr hc.2⟩

/-- In every reachable state the batches handed over, the swapped-in buffer and
the producers' buffer are the appended messages in their order. -/
theorem byte_stream_conserved (h : (system ι ty).Reachable s) :
    s.handed.flatten ++ s.swappedIn ++ s.proBuf.readable = bytesOf s.flow.accepted ∧
    (∃ groups : List (List (Call ι)),
      s.handed = groups.map bytesOf ∧ groups.flatten <+: s.flow.accepted) ∧
    (∀ i, byThread i s.flow.accepted <+: byThread i s.entered) ∧
    (s.worker = .swap → s.conBuf.empty = true) ∧
    (s.worker = .leave → s.proBuf.empty = true ∧ s.conBuf.empty = true) := by
  refine ⟨stream_eq h, ⟨s.flow.batches, (coupled h).handed, batches_prefix_accepted h⟩,
    accepted_order h, fun hw => ?_, empty_at_leave h⟩
  exact (Buffer.empty_iff _).mpr (staged_nil h hw).2

theorem byte_stream_conserved_run : ∃ s : Looper Nat,
    (system Nat .asyncUnsafe).Reachable s ∧ s.handed = [[104, 105]] ∧
      s.handed.flatten ++ s.swappedIn ++ s.proBuf.readable = bytesOf s.flow.accepted := by
  have h := System.Reachable.init (S := system Nat .asyncUnsafe) rfl
  have h := h.step (.call _ 0 [104, 105] rfl)
  have h := h.step (.producerLock _ 0 _ rfl rfl)
  have h := h.step (.append _ 0 _ _ rfl rfl)
  have h := h.step (.notifyOne _ 0 _ rfl)
  have h := h.step (.producerReturn _ 0 _ rfl)
  have h := h.step (.workerLock _ rfl rfl)
  have h := h.step (.workerCheck _ rfl)
  have h := h.step (.workerTest _ rfl)
  have h := h.step (.swap _ rfl)
  have h := h.step (.workerUnlock _ rfl)
  have h := h.step (.callBack _ rfl)
  exact ⟨_, h, rfl, (byte_stream_conserved h).1⟩

end Looper

end MyLog
