import MyLog.Wakeup

/-! The steps that a looper takes on its own, as whoever runs it sees them. -/

namespace MyLog

open Transition

namespace Looper

variable {ι : Type}

/-- The steps inside the looper that only it takes part in. -/
def Action.Inner : Action ι → Prop
  | .producer _ | .worker | .stopFlag | .stopNotify | .stopReturn => True
  | _ => False

structure Frame (s t : Looper ι) : Prop where
  pending : ∀ i, (t.producer i).pending = (s.producer i).pending
  idle : ∀ i, s.producer i = .idle → t.producer i = .idle
  accepted : t.flow.accepted = s.flow.accepted
  handed : t.handed = s.handed
  callback : t.worker = .callback ↔ s.worker = .callback
  conBuf : s.worker = .callback → t.conBuf = s.conBuf
  exited : t.worker = .exited → (s.worker = .leave ∨ s.worker = .exited) ∧ t.proBuf = s.proBuf
  stopper : t.stopper = .idle ↔ s.stopper = .idle

variable [DecidableEq ι] {ty : AsyncType} {s t : Looper ι} {a : Action ι}

theorem Frame.producer {i : ι} {p : ProducerPc ι} {m : Option (Agent ι)} {cs : List (Call ι)}
    (hp : p.pending = (s.producer i).pending) (hi : s.producer i ≠ .idle) :
    Frame s { s with
      mutex := m
      producer := Function.update s.producer i p
      returned := cs } := by
  refine ⟨fun j => ?_, fun j hj => ?_, rfl, rfl, Iff.rfl, fun _ => rfl, fun h => ⟨.inr h, rfl⟩,
    Iff.rfl⟩ <;> by_cases hji : j = i
  · subst hji
    simpa using hp
  · simp [hji]
  · subst hji
    exact (hi hj).elim
  · simpa [hji] using hj

omit [DecidableEq ι] in
theorem Frame.worker {w : WorkerPc} {m : Option (Agent ι)} {b : Buffer}
    (hs : s.worker ≠ .callback) (hw : w ≠ .callback) (he : w = .exited → s.worker = .leave) :
    Frame s { s with mutex := m, worker := w, conBuf := b } :=
  ⟨fun _ => rfl, fun _ hi => hi, rfl, rfl, iff_of_false hw hs, fun h => (hs h).elim,
    fun h => ⟨.inl (he h), rfl⟩, Iff.rfl⟩

theorem Step.frame (hs : Step ty s a t) (ha : a.Inner) : Frame s t := by
  cases hs with
  | call | append | callBack | callBackReturns | stopCall => exact ha.elim
  | producerLock i c hi | producerTest i c hi =>
    exact .producer (by rw [hi]; split <;> rfl) (by simp [hi])
  | producerSleep i c hi | producerSpurious i c hi | producerRelock i c hi
  | producerReturn i c hi =>
    exact .producer (by rw [hi]; rfl) (by simp [hi])
  | notifyOne i c hi =>
    have hf : Frame s { s with producer := Function.update s.producer i (.unlock c) } :=
      .producer (by rw [hi]; rfl) (by simp [hi])
    exact ⟨hf.pending, hf.idle, rfl, rfl, WorkerPc.wake_callback, fun _ => rfl,
      fun h => ⟨.inr (WorkerPc.wake_exited.mp h), rfl⟩, Iff.rfl⟩
  | workerLock hw | workerSleep hw | workerSpurious hw | workerRelock hw | workerUnlock hw
  | reset hw | leave hw =>
    exact .worker (by simp [hw]) (by simp) (by simp [hw])
  | workerCheck hw | workerTest hw =>
    exact .worker (by simp [hw]) (by split <;> simp) (by split <;> simp)
  | swap hw =>
    refine ⟨fun _ => rfl, fun _ hi => hi, rfl, rfl, iff_of_false ?_ (by simp [hw]),
      fun h => ?_, fun h => ?_, Iff.rfl⟩
    · dsimp only
      split <;> simp
    · rw [hw] at h
      cases h
    · dsimp only at h
      split at h <;> cases h
  | notifyAll hw =>
    refine ⟨fun i => ProducerPc.wake_pending _, fun i hi => ?_, rfl, rfl,
      iff_of_false (by simp) (by simp [hw]), fun _ => rfl, fun h => (by cases h), Iff.rfl⟩
    show (s.producer i).wake = .idle
    rw [hi]
    rfl
  | stopFlag hp =>
    exact ⟨fun _ => rfl, fun _ hi => hi, rfl, rfl, Iff.rfl, fun _ => rfl,
      fun h => ⟨.inr h, rfl⟩, by simp [hp]⟩
  | stopNotify hp =>
    exact ⟨fun _ => rfl, fun _ hi => hi, rfl, rfl, WorkerPc.wake_callback, fun _ => rfl,
      fun h => ⟨.inr (WorkerPc.wake_exited.mp h), rfl⟩, by simp [hp]⟩
  | stopReturn hp hw =>
    exact ⟨fun _ => rfl, fun _ hi => hi, rfl, rfl, Iff.rfl, fun _ => rfl,
      fun h => ⟨.inr h, rfl⟩, by simp [hp]⟩

theorem left_stop (h : (system ι ty).Reachable s) (hw : s.worker = .leave ∨ s.worker = .exited) :
    s.stop = true := by
  induction h with
  | init h =>
    subst h
    simp [init] at hw
  | @step s t a hr hs ih =>
    cases hs with
    | workerCheck =>
      dsimp only at hw ⊢
      split at hw
      · next he => exact (Bool.and_eq_true_iff.mp he).1
      · simp at hw
    | workerTest | swap =>
      dsimp only at hw
      split at hw <;> simp at hw
    | notifyOne | stopNotify => exact ih (by simpa using hw)
    | leave hw' => exact ih (.inl hw')
    | stopFlag => rfl
    | workerLock | workerSleep | workerSpurious | workerRelock | notifyAll | workerUnlock
    | callBack | callBackReturns | reset => simp at hw
    | _ => exact ih hw

end Looper

end MyLog
