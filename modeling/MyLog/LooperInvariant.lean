import MyLog.Lib.Mutex
import MyLog.Looper

/-! What one step of the looper does to its mutex, to its buffers and to the
history of each thread, and the invariants that follow. -/

namespace MyLog

open Transition

def ProducerPc.holds {ι : Type} : ProducerPc ι → Bool
  | .test _ | .sleep _ | .write _ | .notify _ | .unlock _ => true
  | _ => false

def WorkerPc.holds : WorkerPc → Bool
  | .check | .test | .sleep | .swap | .notify | .unlock | .leave => true
  | _ => false

@[simp] theorem ProducerPc.wake_holds {ι : Type} (p : ProducerPc ι) :
    p.wake.holds = p.holds := by
  cases p <;> rfl

theorem WorkerPc.wake_eq_iff {w w' : WorkerPc} (ha : w' ≠ .asleep) (hr : w' ≠ .relock) :
    w.wake = w' ↔ w = w' := by
  cases w <;> simp_all [WorkerPc.wake, eq_comm]

@[simp] theorem WorkerPc.wake_callback {w : WorkerPc} : w.wake = .callback ↔ w = .callback :=
  wake_eq_iff (by simp) (by simp)

@[simp] theorem WorkerPc.wake_leave {w : WorkerPc} : w.wake = .leave ↔ w = .leave :=
  wake_eq_iff (by simp) (by simp)

@[simp] theorem WorkerPc.wake_exited {w : WorkerPc} : w.wake = .exited ↔ w = .exited :=
  wake_eq_iff (by simp) (by simp)

@[simp] theorem WorkerPc.wake_holds (p : WorkerPc) : p.wake.holds = p.holds := by
  cases p <;> rfl

namespace Looper

variable {ι : Type}

def inside (w : WorkerPc) (f : ι → ProducerPc ι) : Agent ι → Bool
  | .worker => w.holds
  | .producer i => (f i).holds

theorem inside_wake (w : WorkerPc) (f : ι → ProducerPc ι) :
    inside w (fun i => (f i).wake) = inside w f := by
  funext a
  cases a with
  | worker => rfl
  | producer i => exact ProducerPc.wake_holds (f i)

theorem inside_worker_wake (w : WorkerPc) (f : ι → ProducerPc ι) :
    inside w.wake f = inside w f := by
  funext a
  cases a with
  | worker => exact WorkerPc.wake_holds w
  | producer i => rfl

section Mutex

variable [DecidableEq ι] {ty : AsyncType} {s t : Looper ι} {a : Action ι}

theorem inside_producer (w : WorkerPc) (f : ι → ProducerPc ι) (i : ι) (p : ProducerPc ι) :
    inside w (Function.update f i p) = Function.update (inside w f) (.producer i) p.holds := by
  funext a
  cases a with
  | worker => simp [inside]
  | producer j =>
    by_cases hj : j = i
    · subst hj; simp [inside]
    · simp [inside, hj]

theorem inside_worker (w w' : WorkerPc) (f : ι → ProducerPc ι) :
    inside w' f = Function.update (inside w f) .worker w'.holds := by
  funext a
  cases a <;> simp [inside]

section Moves

variable {m : Option (Agent ι)} {w w' : WorkerPc} {f : ι → ProducerPc ι} {i : ι}
  {p : ProducerPc ι}

theorem producer_stays (h : (f i).holds = p.holds) :
    Mutex.Move m (inside w f) m (inside w (Function.update f i p)) := by
  rw [inside_producer]
  exact .stay m h

theorem producer_acquires (h : p.holds = true) :
    Mutex.Move none (inside w f) (some (.producer i)) (inside w (Function.update f i p)) := by
  rw [inside_producer, h]
  exact .acquire _ _

theorem producer_releases (h : (f i).holds = true) (hp : p.holds = false) :
    Mutex.Move m (inside w f) none (inside w (Function.update f i p)) := by
  rw [inside_producer, hp]
  exact .release m (.producer i) _ h

theorem worker_stays (h : w.holds = w'.holds) :
    Mutex.Move m (inside w f) m (inside w' f) := by
  rw [inside_worker w w']
  exact .stay m h

theorem worker_acquires (h : w'.holds = true) :
    Mutex.Move none (inside w f) (some .worker) (inside w' f) := by
  rw [inside_worker w w', h]
  exact .acquire _ _

theorem worker_releases (h : w.holds = true) (hw : w'.holds = false) :
    Mutex.Move m (inside w f) none (inside w' f) := by
  rw [inside_worker w w', hw]
  exact .release m .worker _ h

end Moves

theorem Step.mutex_move (h : Step ty s a t) :
    Mutex.Move s.mutex (inside s.worker s.producer) t.mutex (inside t.worker t.producer) := by
  cases h with
  | call i data h | producerSpurious i c h | append i c b h =>
    exact producer_stays (by rw [h]; rfl)
  | producerTest i c h => exact producer_stays (by rw [h]; split <;> rfl)
  | notifyOne i c h =>
    rw [inside_worker_wake]
    exact producer_stays (by rw [h]; rfl)
  | producerLock i c h hm =>
    rw [hm]
    exact producer_acquires (by split <;> rfl)
  | producerRelock i c h hm =>
    rw [hm]
    exact producer_acquires rfl
  | producerSleep i c h | producerReturn i c h =>
    exact producer_releases (by rw [h]; rfl) rfl
  | workerLock h hm | workerRelock h hm =>
    rw [hm]
    exact worker_acquires rfl
  | workerCheck h | workerTest h | swap h => exact worker_stays (by rw [h]; split <;> rfl)
  | notifyAll h =>
    rw [inside_wake]
    exact worker_stays (by rw [h]; rfl)
  | workerSpurious h | callBack h | callBackReturns h | reset h =>
    exact worker_stays (by rw [h]; rfl)
  | workerSleep h | workerUnlock h | leave h =>
    exact worker_releases (by rw [h]; rfl) rfl
  | stopCall | stopFlag | stopReturn => exact .keep _ _
  | stopNotify =>
    rw [inside_worker_wake]
    exact .keep _ _

theorem exclusive (h : (system ι ty).Reachable s) :
    Mutex.Exclusive s.mutex (inside s.worker s.producer) := by
  apply h.invariant
  · intro s hs
    subst hs
    intro a
    cases a <;> simp [init, inside, ProducerPc.holds, WorkerPc.holds]
  · intro s a t hr ih hs
    exact ih.move hs.mutex_move

theorem worker_excludes (h : (system ι ty).Reachable s) (hw : s.worker.holds = true) (i : ι) :
    (s.producer i).holds = false := by
  by_contra hp
  have hi : inside s.worker s.producer (.producer i) = true := by simpa [inside] using hp
  cases (exclusive h).unique (a := .worker) hw hi

end Mutex

def bytesOf (cs : List (Call ι)) : Bytes :=
  cs.flatMap Call.data

@[simp] theorem bytesOf_nil : bytesOf ([] : List (Call ι)) = [] := rfl

@[simp] theorem bytesOf_append (cs ds : List (Call ι)) :
    bytesOf (cs ++ ds) = bytesOf cs ++ bytesOf ds :=
  List.flatMap_append

@[simp] theorem bytesOf_singleton (c : Call ι) : bytesOf [c] = c.data := by
  simp [bytesOf]

theorem bytesOf_flatten (gs : List (List (Call ι))) :
    bytesOf gs.flatten = (gs.map bytesOf).flatten := by
  induction gs with
  | nil => rfl
  | cons g gs ih => simp [ih]

/-- The consumer's buffer is filled from the swap to the callback, may hold
handed-over bytes until the reset, and is empty otherwise. -/
def ConsumerSide (w : WorkerPc) (con : Bytes) (staged : List (Call ι)) : Prop :=
  match w with
  | .notify | .unlock | .call => con = bytesOf staged
  | .callback | .reset => staged = []
  | _ => staged = [] ∧ con = []

theorem ConsumerSide.wake {w : WorkerPc} {con : Bytes} {staged : List (Call ι)}
    (h : ConsumerSide w con staged) : ConsumerSide w.wake con staged := by
  cases w <;> exact h

/-- The buffers hold the bytes of the calls that the pipeline holds. -/
structure Coupled (s : Looper ι) : Prop where
  pro : s.proBuf.readable = bytesOf s.flow.queued
  con : ConsumerSide s.worker s.conBuf.readable s.flow.staged
  handed : s.handed = s.flow.batches.map bytesOf
  leave : s.worker = .leave → s.proBuf.readable = []

section Flow

variable [DecidableEq ι] {ty : AsyncType} {s t : Looper ι} {a : Action ι}

theorem Coupled.step (h : Coupled s) (hr : (system ι ty).Reachable s)
    (hs : Step ty s a t) : Coupled t := by
  have hc := h.con
  cases hs with
  | call | producerLock | producerTest | producerSleep | producerSpurious | producerRelock
  | producerReturn | stopCall | stopFlag | stopReturn =>
    exact ⟨h.pro, h.con, h.handed, h.leave⟩
  | append i c b hi hb =>
    refine ⟨?_, h.con, h.handed, fun hw => ?_⟩
    · simp [Buffer.push_readable hb, h.pro, Pipeline.accept]
    · -- the worker owns the mutex at `leave`, so no producer is writing
      have hw' : s.worker = .leave := hw
      have hp := worker_excludes hr (by rw [hw']; rfl) i
      rw [hi] at hp
      cases hp
  | notifyOne | stopNotify =>
    exact ⟨h.pro, hc.wake, h.handed,
      fun hw => h.leave (WorkerPc.wake_leave.mp hw)⟩
  | workerCheck hw =>
    rw [hw] at hc
    refine ⟨h.pro, ?_, h.handed, ?_⟩ <;> dsimp only <;> split
    · exact hc
    · exact hc
    · next he =>
      exact fun _ => (Buffer.empty_iff _).mp (Bool.and_eq_true_iff.mp he).2
    · simp
  | workerTest hw =>
    rw [hw] at hc
    refine ⟨h.pro, ?_, h.handed, ?_⟩ <;> dsimp only <;> split
    · exact hc
    · exact hc
    · simp
    · simp
  | swap hw =>
    rw [hw] at hc
    obtain ⟨hq, hb⟩ := hc
    refine ⟨by simp [Pipeline.exchange, hq, hb], ?_, h.handed, ?_⟩ <;> dsimp only <;> split
    · exact h.pro
    · exact h.pro
    · simp
    · simp
  | callBack hw =>
    rw [hw] at hc
    have hb : s.conBuf.readable = bytesOf s.flow.staged := hc
    exact ⟨h.pro, rfl, by simp [Pipeline.deliver, h.handed, hb], by simp⟩
  | reset hw =>
    rw [hw] at hc
    exact ⟨h.pro, ⟨hc, Buffer.reset_readable _⟩, h.handed, by simp⟩
  | workerLock hw | workerSleep hw | workerSpurious hw | workerRelock hw | notifyAll hw
  | workerUnlock hw | callBackReturns hw | leave hw =>
    rw [hw] at hc
    exact ⟨h.pro, hc, h.handed, by simp⟩

theorem coupled (h : (system ι ty).Reachable s) : Coupled s := by
  apply h.invariant
  · intro s hs
    subst hs
    exact ⟨rfl, ⟨rfl, rfl⟩, rfl, by simp [init]⟩
  · intro s a t hr ih hs
    exact ih.step hr hs

theorem staged_nil (h : (system ι ty).Reachable s) (hw : s.worker = .swap) :
    s.flow.staged = [] ∧ s.conBuf.readable = [] := by
  have hc := (coupled h).con
  rwa [hw] at hc

/-- The looper follows the pipeline: `push` accepts, the swap stages and the
callback delivers. -/
def pipelineSimulation (ι : Type) [DecidableEq ι] (ty : AsyncType) :
    System.Simulation (system ι ty) (Pipeline.system (α := Call ι)) where
  abs s := s.flow
  init s h := by rw [show s = init from h]; rfl
  step s a t hr hs := by
    cases hs with
    | append i c b => exact .inr ⟨_, .accept _ c⟩
    | swap hw => exact .inr ⟨_, .stage _ (staged_nil hr hw).1⟩
    | callBack => exact .inr ⟨_, .deliver _⟩
    | _ => exact .inl rfl

theorem flow_reachable (h : (system ι ty).Reachable s) :
    (Pipeline.system (α := Call ι)).Reachable s.flow :=
  (pipelineSimulation ι ty).reachable h

end Flow

end Looper

end MyLog
