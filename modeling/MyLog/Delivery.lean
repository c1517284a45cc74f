import MyLog.AsyncLogger
import MyLog.SyncLogger

/-! Both kinds of logger deliver the same stream to every sink. -/

namespace MyLog

open Transition

/-- Every position of `_sinks` was handed the text of each call that the level limit
lets through, in one order that agrees with each thread's own. -/
structure Delivered {ι : Type} [DecidableEq ι] (P : Platform) (l : Logger)
    (issued : ι → List Request) (order : List (ι × Request)) (streams : Nat → Bytes) :
    Prop where
  calls : ∀ i, ofThread i order = (issued i).filter fun r => ¬ r.severity.level < l.limitLevel
  streams : ∀ k < l.sinks.length,
    streams k = order.flatMap fun c => l.formatter.format P (l.message c.2)

section Delivered

variable {ι : Type} [DecidableEq ι] {P : Platform} {l : Logger}

theorem SyncLogger.delivered {s : SyncLogger ι} (h : (SyncLogger.system P l ι).Reachable s)
    (hidle : ∀ i, s.thread i = .idle) : Delivered P l s.issued s.order s.streams := by
  refine ⟨fun i => ?_, fun k hk => ?_⟩
  · have ho := SyncLogger.inOrder h i
    simp only [hidle i, SyncPc.pending, List.append_nil] at ho
    exact ho.symm
  · rw [(SyncLogger.spread h).free (SyncLogger.mutex_free h hidle) k hk, List.flatMap_def]
    rfl

theorem AsyncLogger.delivered {ty : AsyncType} {s : AsyncLogger ι}
    (h : (AsyncLogger.system P l ty ι).Reachable s) (hd : s.looper.stopper = .returned) :
    Delivered P l s.issued s.order s.streams := by
  have hw := (Looper.stopping (AsyncLogger.looper_reachable h)).exited hd
  have hl := AsyncLogger.linked h
  refine ⟨fun i => ?_, fun k hk => ?_⟩
  · have ho := hl.inOrder i
    have hp := hl.pushing i
    rw [(AsyncLogger.quiet h).idle (by simp [hd]) i] at hp
    have hnone : (s.pushing i).toList = [] := by simpa [ProducerPc.pending] using hp
    simp only [hnone, List.append_nil] at ho
    exact ho.symm
  · rw [(AsyncLogger.spread h).free (by simp [hw]) k hk, AsyncLogger.handed_all h hd,
      List.flatMap_def]
    rfl

end Delivered

/-- A synchronous logger has delivered when no call is in progress, an asynchronous
one when its destruction has completed; with the same order of calls the streams
are the same. -/
theorem loggers_deliver (P : Platform) (l : Logger) (ι : Type) [DecidableEq ι] :
    (∀ s, (SyncLogger.system P l ι).Reachable s → (∀ i, s.thread i = .idle) →
      Delivered P l s.issued s.order s.streams) ∧
    (∀ ty t, (AsyncLogger.system P l ty ι).Reachable t → t.looper.stopper = .returned →
      Delivered P l t.issued t.order t.streams) ∧
    (∀ ty s t, (SyncLogger.system P l ι).Reachable s → (∀ i, s.thread i = .idle) →
      (AsyncLogger.system P l ty ι).Reachable t → t.looper.stopper = .returned →
      s.order = t.order → ∀ k < l.sinks.length, s.streams k = t.streams k) := by
  refine ⟨fun s hs hi => SyncLogger.delivered hs hi,
    fun ty t ht hd => AsyncLogger.delivered ht hd, fun ty s t hs hi ht hd he k hk => ?_⟩
  rw [(SyncLogger.delivered hs hi).streams k hk, (AsyncLogger.delivered ht hd).streams k hk, he]

theorem loggers_deliver_run :
    let P : Platform := ⟨fun _ => [], fun _ => ⟨0, 0, 0, 0, 0, 0, 0, 0, 0⟩, fun _ _ => [],
      fun _ _ _ => 0⟩
    let l : Logger := ⟨[], .info, ⟨[], [.msg, .newLine]⟩, [0]⟩
    let r : Request := ⟨.warn, [], 1, 0, 0, [104, 105], by decide⟩
    ∃ (s : SyncLogger Nat) (t : AsyncLogger Nat), (SyncLogger.system P l Nat).Reachable s ∧
      (AsyncLogger.system P l .asyncUnsafe Nat).Reachable t ∧ t.order = [(0, r)] ∧
      s.streams 0 = t.streams 0 := by
  intro P l r
  have h := System.Reachable.init (S := SyncLogger.system P l Nat) rfl
  have h := h.step (.call _ 0 r [104, 105, 10] rfl rfl)
  have h := h.step (.acquire _ 0 _ _ rfl rfl)
  have h := h.step (.enter _ 0 _ 0 rfl (by decide))
  have h := h.step (.exit _ 0 _ 0 rfl)
  have h := h.step (.release _ 0 _ 1 rfl (by decide))
  have g := System.Reachable.init (S := AsyncLogger.system P l .asyncUnsafe Nat) rfl
  have g := g.step (.call _ 0 r [104, 105, 10] _ rfl rfl (.call _ 0 _ rfl))
  have g := g.step (.inner _ (.producer 0) _ trivial (.producerLock _ 0 _ rfl rfl))
  have g := g.step (.append _ 0 _ (.append _ 0 _ _ rfl rfl))
  have g := g.step (.inner _ (.producer 0) _ trivial (.notifyOne _ 0 _ rfl))
  have g := g.step (.inner _ (.producer 0) _ trivial (.producerReturn _ 0 _ rfl))
  have g := g.step (.inner _ .worker _ trivial (.workerLock _ rfl rfl))
  have g := g.step (.inner _ .worker _ trivial (.workerCheck _ rfl))
  have g := g.step (.inner _ .worker _ trivial (.workerTest _ rfl))
  have g := g.step (.inner _ .worker _ trivial (.swap _ rfl))
  have g := g.step (.inner _ .worker _ trivial (.workerUnlock _ rfl))
  have g := g.step (.realLog _ _ (.callBack _ rfl))
  have g := g.step (.enter _ 0 rfl rfl (by decide))
  have g := g.step (.exit _ 0 rfl rfl)
  have g := g.step (.realLogReturns _ 1 _ rfl (by decide) (.callBackReturns _ rfl))
  have g := g.step (.inner _ .worker _ trivial (.reset _ rfl))
  have g := g.step (.destroy _ _ (fun i => by cases i <;> rfl) (.stopCall _ rfl))
  have g := g.step (.inner _ .stopFlag _ trivial (.stopFlag _ rfl))
  have g := g.step (.inner _ .stopNotify _ trivial (.stopNotify _ rfl))
  have g := g.step (.inner _ .worker _ trivial (.workerLock _ rfl rfl))
  have g := g.step (.inner _ .worker _ trivial (.workerCheck _ rfl))
  have g := g.step (.inner _ .worker _ trivial (.leave _ rfl))
  have g := g.step (.inner _ .stopReturn _ trivial (.stopReturn _ rfl rfl))
  refine ⟨_, _, h, g, rfl, ?_⟩
  exact (loggers_deliver P l Nat).2.2 _ _ _ h (fun i => by cases i <;> rfl) g rfl rfl 0 (by decide)

end MyLog
