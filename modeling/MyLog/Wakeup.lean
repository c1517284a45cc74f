import MyLog.LooperHistory

/-! The notification that `stop` sends to the worker. `stop` writes its flag and
notifies without the mutex, so both can fall between the worker's test of the
wait predicate and its sleep. -/

namespace MyLog

open Transition

def StopPc.raised : StopPc → Bool
  | .notify | .join | .returned => true
  | _ => false

namespace Looper

variable {ι : Type} [DecidableEq ι] {ty : AsyncType} {s t u : Looper ι} {a : Action ι}

structure Stopping (s : Looper ι) : Prop where
  flag : s.stop = s.stopper.raised
  exited : s.stopper = .returned → s.worker = .exited

theorem Stopping.step (h : Stopping s) (hs : Step ty s a t) : Stopping t := by
  obtain ⟨hf, he⟩ := h
  cases hs with
  | stopCall hp | stopFlag hp => exact ⟨by simp_all [StopPc.raised], by simp⟩
  | stopNotify hp => exact ⟨by simp_all [StopPc.raised], by simp⟩
  | stopReturn hp hw => exact ⟨by simp_all [StopPc.raised], fun _ => hw⟩
  | notifyOne => exact ⟨hf, fun hr => WorkerPc.wake_exited.mpr (he hr)⟩
  | call | producerLock | producerTest | producerSleep | producerSpurious | producerRelock
  | append | producerReturn => exact ⟨hf, he⟩
  | workerLock hw | workerCheck hw | workerTest hw | workerSleep hw | workerSpurious hw
  | workerRelock hw | swap hw | notifyAll hw | workerUnlock hw | callBack hw
  | callBackReturns hw | reset hw =>
    refine ⟨hf, fun hr => ?_⟩
    rw [he hr] at hw
    cases hw
  | leave => exact ⟨hf, fun _ => rfl⟩

theorem stopping (h : (system ι ty).Reachable s) : Stopping s := by
  apply h.invariant
  · intro s hs
    subst hs
    exact ⟨rfl, by simp [init]⟩
  · intro s a t hr ih hs
    exact ih.step hs

/-- `stop` waits in `join` for a worker that sleeps with no notification pending. -/
def LostWakeup (s : Looper ι) : Prop :=
  s.stopper = .join ∧ s.worker = .asleep

/-- `notify_all` of `stop` does not fall between a failed test of the worker's
wait predicate and the sleep after it. -/
def NotifiedOutsideWindow (s : Looper ι) (a : Action ι) : Prop :=
  a = .stopNotify → s.worker ≠ .sleep

/-- The flag is up and the worker neither sleeps nor is about to. -/
structure Awake (s : Looper ι) : Prop where
  stop : s.stop = true
  sleep : s.worker ≠ .sleep
  asleep : s.worker ≠ .asleep

omit [DecidableEq ι] in
theorem wake_awake {w : WorkerPc} (h : w ≠ .sleep) : w.wake ≠ .sleep ∧ w.wake ≠ .asleep := by
  cases w <;> simp_all [WorkerPc.wake]

theorem Awake.step (h : Awake s) (hs : Step ty s a t) : Awake t := by
  obtain ⟨hf, h₁, h₂⟩ := h
  cases hs with
  | notifyOne | stopNotify => exact ⟨hf, (wake_awake h₁).1, (wake_awake h₁).2⟩
  | stopFlag => exact ⟨rfl, h₁, h₂⟩
  | workerSleep hw => exact (h₁ hw).elim
  | workerTest => exact ⟨hf, by simp [hf], by simp [hf]⟩
  | workerCheck => refine ⟨hf, ?_, ?_⟩ <;> dsimp only <;> split <;> simp
  | swap => refine ⟨hf, ?_, ?_⟩ <;> dsimp only <;> split <;> simp
  | workerLock | workerSpurious | workerRelock | notifyAll | workerUnlock | callBack
  | callBackReturns | reset | leave => exact ⟨hf, by simp, by simp⟩
  | _ => exact ⟨hf, h₁, h₂⟩

theorem Awake.run (h : Awake s) {tr : List (Looper ι × Action ι)}
    (hr : (system ι ty).Run s tr t) : Awake t := by
  induction hr with
  | nil => exact h
  | snoc _ hs ih => exact ih.step hs

theorem awake_of_notify (h : (system ι ty).Reachable s) (hs : Step ty s .stopNotify t)
    (hw : s.worker ≠ .sleep) : Awake t := by
  have hf := (stopping h).flag
  cases hs with
  | stopNotify hp =>
    rw [hp] at hf
    exact ⟨hf, (wake_awake hw).1, (wake_awake hw).2⟩

theorem awake_of_joined (h : ((system ι ty).restrict NotifiedOutsideWindow).Reachable s)
    (hj : s.stopper = .join ∨ s.stopper = .returned) : Awake s := by
  induction h with
  | init h =>
    subst h
    simp [init] at hj
  | @step s t a hr hs ih =>
    obtain ⟨hs, hok⟩ := hs
    by_cases hj' : s.stopper = .join ∨ s.stopper = .returned
    · exact (ih hj').step hs
    · cases hs with
      | stopNotify hp =>
        exact awake_of_notify (System.restrict_reachable hr) (.stopNotify _ hp) (hok rfl)
      | stopCall | stopFlag => simp at hj
      | stopReturn hp => exact absurd (.inl hp) hj'
      | _ => exact absurd hj hj'

/-- The wakeup of `stop` arrives exactly if it is not sent into the window. -/
theorem stop_wakeup (ι : Type) [DecidableEq ι] (ty : AsyncType) :
    (∀ s, ((system ι ty).restrict NotifiedOutsideWindow).Reachable s → ¬ LostWakeup s) ∧
    (∀ s t, (system ι ty).Reachable s → Step ty s .stopNotify t →
      ((∀ tr u, (system ι ty).Run t tr u → ¬ LostWakeup u) ↔ s.worker ≠ .sleep)) := by
  constructor
  · intro s hr hl
    exact (awake_of_joined hr (.inl hl.1)).asleep hl.2
  · intro s t hr hs
    constructor
    · intro h hw
      cases hs with
      | stopNotify hp =>
        -- the worker goes to sleep after the notification
        have hw' : s.worker.wake = .sleep := by rw [hw]; rfl
        exact h _ _ (.single (.workerSleep _ hw')) ⟨rfl, rfl⟩
    · intro hw tr u hu hl
      exact ((awake_of_notify hr hs hw).run hu).asleep hl.2

theorem stop_loses_wakeup : ¬ ∀ (ty : AsyncType) (s : Looper Nat),
    (system Nat ty).Reachable s → ¬ LostWakeup s := by
  intro hall
  have h := System.Reachable.init (S := system Nat .asyncSafe) rfl
  have h := h.step (.workerLock _ rfl rfl)
  have h := h.step (.workerCheck _ rfl)
  have h := h.step (.workerTest _ rfl)
  have h := h.step (.stopCall _ rfl)
  have h := h.step (.stopFlag _ rfl)
  have h := h.step (.stopNotify _ rfl)
  have h := h.step (.workerSleep _ rfl)
  exact hall _ _ h ⟨rfl, rfl⟩

end Looper

end MyLog
