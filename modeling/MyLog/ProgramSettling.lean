import MyLog.Settling
import MyLog.SinkSharing

/-! All loggers of a program, side by side. Once the threads make no more calls, the
program comes to rest with every call delivered to the sinks of its logger. -/

namespace MyLog

open Transition

namespace LoggerState

variable {ι : Type}

def issued : LoggerState ι → ι → List Request
  | sync s => s.issued
  | async s => s.issued

def order : LoggerState ι → List (ι × Request)
  | sync s => s.order
  | async s => s.order

def streams : LoggerState ι → Nat → Bytes
  | sync s => s.streams
  | async s => s.streams

def outside : LoggerState ι → LoggerAction ι → Bool
  | sync s => s.outside
  | async s => s.outside

/-- The destruction of the logger has not begun. -/
def Alive : LoggerState ι → Prop
  | sync _ => True
  | async s => s.looper.stopper = .idle

/-- Where threads wait for room, the texts of the calls fit into a buffer. -/
def Fits (P : Platform) (x : BuiltLogger) (s : LoggerState ι) : Prop :=
  x.type = .loggerAsync → x.looperType = .asyncSafe → ∀ i, ∀ r ∈ s.issued i,
    x.logger.enabled r = true → (x.logger.textOf P r).length ≤ defaultBufferSize

theorem initial_alive (x : BuiltLogger) : (initial x : LoggerState ι).Alive := by
  rw [initial]
  split
  · trivial
  · rfl

theorem initial_fits (P : Platform) (x : BuiltLogger) : (initial x : LoggerState ι).Fits P x := by
  intro _ _ i r hr
  rw [initial] at hr
  split at hr <;> cases hr

variable [DecidableEq ι] {P : Platform} {x : BuiltLogger} {s t : LoggerState ι}

/-- From `s` on, no call is in progress any more and all calls made are delivered. -/
def Completed (P : Platform) (x : BuiltLogger) (s t : LoggerState ι) : Prop :=
  (∀ i, t.Idle i) ∧ Delivered P x.logger s.issued t.order t.streams

theorem async_reachable (h : (system P x ι).Reachable s) {u : AsyncLogger ι} (hs : s = .async u) :
    x.type = .loggerAsync ∧ (AsyncLogger.system P x.logger x.looperType ι).Reachable u := by
  induction h generalizing u with
  | init h =>
    have h : async u = initial x := hs.symm.trans h
    rw [initial] at h
    split at h
    · cases h
    · exact ⟨by assumption, .init (LoggerState.async.inj h)⟩
  | step _ hst ih =>
    cases hst with
    | sync => cases hs
    | async h =>
      obtain rfl := LoggerState.async.inj hs
      exact ⟨(ih rfl).1, (ih rfl).2.step h⟩

theorem settles (h : (system P x ι).Reachable s) (ha : s.Alive) (hf : s.Fits P x) :
    ∃ n, ((system P x ι).alone outside).Settles n (Completed P x s) s := by
  cases s with
  | sync u =>
    obtain ⟨T, hT⟩ := SyncLogger.exists_busyIn (sync_reachable h rfl)
    refine ⟨_, System.Settles.embed (e := sync) (SyncLogger.settles hT) ?_ ?_⟩
    · rintro u a _ ⟨hs, ho⟩
      cases hs with
      | sync hs => exact ⟨_, rfl, hs, ho⟩
    · exact fun u a t hs => ⟨.sync hs.1, hs.2⟩
  | async u =>
    obtain ⟨hx, hu⟩ := async_reachable h rfl
    refine ⟨_, System.Settles.embed (e := async)
      (AsyncLogger.settles_before_destruction hu ha (hf hx)) ?_ ?_⟩
    · rintro u a _ ⟨hs, ho⟩
      cases hs with
      | async hs => exact ⟨_, rfl, hs, ho⟩
    · exact fun u a t hs => ⟨.async hs.1, hs.2⟩

end LoggerState

namespace Builders

variable {β ι : Type} [DecidableEq ι] {P : Platform} {w : Builders β}

/-- In every program of built loggers: once its threads make no more calls and destroy no
logger, all loggers together take a bounded number of steps, in any order, until every
call that a thread made has returned and is delivered to every sink of its logger. -/
theorem program_settles {s : Fin w.built.length → LoggerState ι}
    (h : (program P w ι).Reachable s) (ha : ∀ k, (s k).Alive)
    (hf : ∀ k, (s k).Fits P (w.built.get k).2) :
    ∃ n, ((program P w ι).alone (System.familyOutside fun _ => LoggerState.outside)).Settles n
      (fun t => ∀ k, LoggerState.Completed P (w.built.get k).2 (s k) (t k)) s := by
  choose n hn using fun k => LoggerState.settles (System.family_member h k) (ha k) (hf k)
  refine ⟨_, System.family_settles hn fun s k a ho i r he => ?_⟩
  -- what makes a thread wait for another logger is a call
  rw [he] at ho
  cases hs : s k <;> rw [hs] at ho <;> cases ho

theorem program_settles_two : ∃ w : Builders Nat,
    init.run [.buildLoggerName 0 [97], .buildLoggerType 0 .loggerSync, .buildLoggerName 1 [98],
      .build 0, .build 1] = some w ∧
    ∀ P : Platform, ∃ n,
      ((program P w Nat).alone (System.familyOutside fun _ => LoggerState.outside)).Settles n
        (fun t => ∀ k, LoggerState.Completed P (w.built.get k).2
          (LoggerState.initial (w.built.get k).2) (t k))
        (fun k => LoggerState.initial (w.built.get k).2) := by
  obtain ⟨f, hf⟩ := Formatter.default_accepted
  have h : (init.run [BuilderCall.buildLoggerName 0 [97], .buildLoggerType 0 .loggerSync,
      .buildLoggerName 1 [98], .build 0, .build 1]).isSome = true := by
    simp [run, call, put, init, LoggerBuilder.build, LoggerBuilder.init,
      LoggerBuilder.buildLoggerName, LoggerBuilder.buildLoggerType, hf]
  obtain ⟨w, hw⟩ := Option.isSome_iff_exists.mp h
  exact ⟨w, hw, fun P => program_settles (.init fun _ => rfl)
    (fun k => LoggerState.initial_alive _) fun k => LoggerState.initial_fits P _⟩

end Builders

end MyLog
