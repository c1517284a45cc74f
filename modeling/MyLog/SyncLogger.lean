import MyLog.Lib.Broadcast
import MyLog.Lib.Mutex
import MyLog.Logger

/-! `SyncLogger` of `logger.hpp`: each call takes the mutex and goes through the
sinks one by one. -/

namespace MyLog

open Transition

/-- Where a thread is in a call; between `lock` and `idle` it owns the mutex. -/
inductive SyncPc
  | idle
  | lock (r : Request) (data : Bytes)
  | sinks (data : Bytes) (pc : SinkPc)

def SyncPc.holds : SyncPc → Bool
  | sinks _ _ => true
  | _ => false

def SyncPc.pending : SyncPc → List Request
  | lock r _ => [r]
  | _ => []

/-- The mutex and the threads of the logger, the bytes handed to each position of
`_sinks`, and a history: what each thread has called, and the calls in the order in
which they took the mutex. -/
structure SyncLogger (ι : Type) where
  mutex : Option ι
  thread : ι → SyncPc
  streams : Nat → Bytes
  issued : ι → List Request
  order : List (ι × Request)

namespace SyncLogger

variable {ι : Type}

def init : SyncLogger ι where
  mutex := none
  thread _ := .idle
  streams _ := []
  issued _ := []
  order := []

variable [DecidableEq ι]

inductive Step (P : Platform) (l : Logger) :
    SyncLogger ι → LoggerAction ι → SyncLogger ι → Prop
  | filtered (s : SyncLogger ι) (i : ι) (r : Request) (h : s.thread i = .idle)
      (hr : l.handed P r = .nothing) :
      Step P l s (.call i r) { s with
        issued := Function.update s.issued i (s.issued i ++ [r]) }
  | call (s : SyncLogger ι) (i : ι) (r : Request) (data : Bytes) (h : s.thread i = .idle)
      (hr : l.handed P r = .text data) :
      Step P l s (.call i r) { s with
        thread := Function.update s.thread i (.lock r data)
        issued := Function.update s.issued i (s.issued i ++ [r]) }
  | acquire (s : SyncLogger ι) (i : ι) (r : Request) (data : Bytes)
      (h : s.thread i = .lock r data) (hm : s.mutex = none) :
      Step P l s (.acquire i) { s with
        mutex := some i
        thread := Function.update s.thread i (.sinks data (.next 0))
        order := s.order ++ [(i, r)] }
  | enter (s : SyncLogger ι) (i : ι) (data : Bytes) (k : Nat)
      (h : s.thread i = .sinks data (.next k)) (hk : k < l.sinks.length) :
      Step P l s (.enter i) { s with
        thread := Function.update s.thread i (.sinks data (.within k))
        streams := Function.update s.streams k (s.streams k ++ data) }
  | exit (s : SyncLogger ι) (i : ι) (data : Bytes) (k : Nat)
      (h : s.thread i = .sinks data (.within k)) :
      Step P l s (.exit i) { s with
        thread := Function.update s.thread i (.sinks data (.next (k + 1))) }
  | release (s : SyncLogger ι) (i : ι) (data : Bytes) (k : Nat)
      (h : s.thread i = .sinks data (.next k)) (hk : l.sinks.length ≤ k) :
      Step P l s (.release i) { s with
        mutex := none
        thread := Function.update s.thread i .idle }

def system (P : Platform) (l : Logger) (ι : Type) [DecidableEq ι] :
    System (SyncLogger ι) (LoggerAction ι) where
  init s := s = init
  step := Step P l

variable {P : Platform} {l : Logger} {s t : SyncLogger ι} {a : LoggerAction ι}

theorem holds_update (f : ι → SyncPc) (i : ι) (p : SyncPc) :
    (fun j => (Function.update f i p j).holds) =
      Function.update (fun j => (f j).holds) i p.holds :=
  Function.comp_update SyncPc.holds f i p

theorem pending_update (f : ι → SyncPc) (i : ι) (p : SyncPc) :
    (fun j => (Function.update f i p j).pending) =
      Function.update (fun j => (f j).pending) i p.pending :=
  Function.comp_update SyncPc.pending f i p

theorem pending_stays {f : ι → SyncPc} {i : ι} {p : SyncPc} (h : p.pending = (f i).pending) :
    (fun j => (Function.update f i p j).pending) = fun j => (f j).pending := by
  rw [pending_update, Function.update_eq_self_iff]
  exact h

theorem Step.mutex_move (h : Step P l s a t) :
    Mutex.Move s.mutex (fun i => (s.thread i).holds) t.mutex (fun i => (t.thread i).holds) := by
  cases h with
  | filtered => exact .keep _ _
  | call i r data h =>
    rw [holds_update]
    exact .stay _ (by rw [h]; rfl)
  | acquire i r data h hm =>
    rw [holds_update, hm]
    exact .acquire _ _
  | enter i data k h | exit i data k h =>
    rw [holds_update]
    exact .stay _ (by rw [h]; rfl)
  | release i data k h =>
    rw [holds_update]
    exact .release _ i _ (by rw [h]; rfl)

theorem exclusive (h : (system P l ι).Reachable s) :
    Mutex.Exclusive s.mutex fun i => (s.thread i).holds := by
  apply h.invariant
  · intro s hs
    subst hs
    intro i
    simp [init, SyncPc.holds]
  · intro s a t hr ih hs
    exact ih.move hs.mutex_move

theorem Step.inOrder (hs : Step P l s a t)
    (h : InOrder l s.issued s.order fun i => (s.thread i).pending) :
    InOrder l t.issued t.order fun i => (t.thread i).pending := by
  cases hs with
  | filtered i r _ hr => exact h.filtered (l.handed_nothing P hr)
  | call i r data hi hr =>
    rw [pending_update]
    exact h.call (l.handed_text P hr).1 (by rw [hi]; rfl)
  | acquire i r data hi =>
    have hp := h.place i
    rw [pending_update]
    simpa only [hi, SyncPc.pending, List.map_singleton] using hp
  | enter i data k hi | exit i data k hi | release i data k hi =>
    rw [pending_stays (by rw [hi]; rfl)]
    exact h

theorem inOrder (h : (system P l ι).Reachable s) :
    InOrder l s.issued s.order fun i => (s.thread i).pending := by
  apply h.invariant
  · intro s hs
    subst hs
    exact fun _ => rfl
  · intro s a t hr ih hs
    exact hs.inOrder ih

theorem lock_text (h : (system P l ι).Reachable s) {i : ι} {r : Request} {data : Bytes}
    (hi : s.thread i = .lock r data) : data = l.textOf P r := by
  induction h with
  | init h =>
    subst h
    cases hi
  | @step s t a _ hs ih =>
    cases hs with
    | filtered => exact ih hi
    | call j r' data' _ hr =>
      by_cases hj : i = j
      · subst hj
        obtain ⟨rfl, rfl⟩ : r' = r ∧ data' = data := by simpa using hi
        exact (l.handed_text P hr).2
      · exact ih (by simpa [hj] using hi)
    | acquire j | enter j | exit j | release j =>
      by_cases hj : i = j
      · subst hj
        simp at hi
      · exact ih (by simpa [hj] using hi)

/-- The records in the order of the mutex, the last of them perhaps on its way. -/
structure Spread (P : Platform) (l : Logger) (s : SyncLogger ι) : Prop where
  free : s.mutex = none → Broadcast.Delivering l.sinks.length s.streams
    (s.order.map fun c => l.textOf P c.2) none
  busy : ∀ i data pc, s.thread i = .sinks data pc →
    Broadcast.Delivering l.sinks.length s.streams (s.order.map fun c => l.textOf P c.2)
      (some (data, pc.reached))

theorem owner (h : (system P l ι).Reachable s) {i : ι} {data : Bytes} {pc : SinkPc}
    (hi : s.thread i = .sinks data pc) : s.mutex = some i :=
  (exclusive h i).mp (by show (s.thread i).holds = true; rw [hi]; rfl)

theorem Spread.step (h : Spread P l s) (hr : (system P l ι).Reachable s)
    (hs : Step P l s a t) : Spread P l t := by
  obtain ⟨hf, hb⟩ := h
  have ht := hr.step hs
  cases hs with
  | filtered => exact ⟨hf, hb⟩
  | call i r data hi =>
    refine ⟨hf, fun j data' pc hj => hb j data' pc ?_⟩
    by_cases hji : j = i
    · subst hji
      simp at hj
    · simpa [hji] using hj
  | acquire i r data hi hm =>
    have hstart := (hf hm).start (l.textOf P r)
    refine ⟨fun hn => (by cases hn), fun j data' pc hj => ?_⟩
    obtain rfl : i = j := Option.some.inj (owner ht hj)
    obtain ⟨rfl, rfl⟩ : data = data' ∧ SinkPc.next 0 = pc := by simpa using hj
    rw [lock_text hr hi]
    simpa [SinkPc.reached] using hstart
  | enter i data k hi hk =>
    have hown := owner hr hi
    refine ⟨fun hn => ?_, fun j data' pc hj => ?_⟩
    · rw [show s.mutex = none from hn] at hown
      cases hown
    obtain rfl : i = j := Option.some.inj (hown.symm.trans (owner ht hj))
    obtain ⟨rfl, rfl⟩ : data = data' ∧ SinkPc.within k = pc := by simpa using hj
    exact (hb i data _ hi).give
  | exit i data k hi =>
    have hown := owner hr hi
    refine ⟨fun hn => ?_, fun j data' pc hj => ?_⟩
    · rw [show s.mutex = none from hn] at hown
      cases hown
    obtain rfl : i = j := Option.some.inj (hown.symm.trans (owner ht hj))
    obtain ⟨rfl, rfl⟩ : data = data' ∧ SinkPc.next (k + 1) = pc := by simpa using hj
    have hd := hb i data _ hi
    exact hd
  | release i data k hi hk =>
    refine ⟨fun _ => (hb i data _ hi).finish hk, fun j data' pc hj => ?_⟩
    cases owner ht hj

theorem spread (h : (system P l ι).Reachable s) : Spread P l s := by
  apply h.invariant
  · intro s hs
    subst hs
    exact ⟨fun _ _ _ => rfl, fun i data pc hi => by cases hi⟩
  · intro s a t hr ih hs
    exact ih.step hr hs

theorem mutex_free (h : (system P l ι).Reachable s) (hidle : ∀ i, s.thread i = .idle) :
    s.mutex = none := by
  cases hm : s.mutex with
  | none => rfl
  | some i =>
    have hi : (s.thread i).holds = true := (exclusive h i).mpr hm
    rw [hidle i] at hi
    cases hi

end SyncLogger

end MyLog
