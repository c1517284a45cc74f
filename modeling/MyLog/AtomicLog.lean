import MyLog.Delivery
import MyLog.Lib.CommitPoints

/-! Both kinds of logger as one atomic object, a log to which each call adds its text. A
synchronous call takes effect where it gets the mutex, an asynchronous one where its text
goes into the buffer. -/

namespace MyLog

open Transition Linearizability

/-- What a call would do if nothing could come between its steps. -/
def Logger.AddsTo (P : Platform) (l : Logger) (log : List Bytes) (r : Request) (_ : Unit)
    (log' : List Bytes) : Prop :=
  log' = if l.enabled r then log ++ [l.textOf P r] else log

theorem InOrder.enabled {ι : Type} [DecidableEq ι] {l : Logger} {issued : ι → List Request}
    {order : List (ι × Request)} {pending : ι → List Request}
    (h : InOrder l issued order pending) {i : ι} {r : Request} (hr : r ∈ pending i) :
    l.enabled r = true := by
  have hm : r ∈ (issued i).filter l.enabled := by
    rw [h i]
    exact List.mem_append_right _ hr
  exact (List.mem_filter.mp hm).2

theorem Logger.addsTo_enabled (P : Platform) {l : Logger} {r : Request} (h : l.enabled r = true)
    (log : List Bytes) : l.AddsTo P log r () (log ++ [l.textOf P r]) := by
  rw [AddsTo, if_pos h]

theorem Logger.addsTo_filtered (P : Platform) {l : Logger} {r : Request}
    (h : l.enabled r = false) (log : List Bytes) : l.AddsTo P log r () log := by
  simp [AddsTo, h]

namespace SyncLogger

variable {ι : Type} [DecidableEq ι] {P : Platform} {l : Logger} {s t : SyncLogger ι}
  {a : LoggerAction ι}

/-- A filtered call returns where it is made. -/
def see (l : Logger) (_ : SyncLogger ι) (a : LoggerAction ι) (g : History ι Request Unit) :
    History ι Request Unit :=
  match a with
  | .call i r => if l.enabled r then g.invoke i r else (g.invoke i r).respond i ()
  | .release i => g.respond i ()
  | _ => g

def recorded (P : Platform) (l : Logger) (ι : Type) [DecidableEq ι] :
    System (SyncLogger ι × History ι Request Unit) (LoggerAction ι) :=
  (system P l ι).observed (see l) .empty

/-- A call has taken effect once it is past the mutex. -/
def phase : SyncPc → CallState Request Unit
  | .idle => .idle
  | .lock r _ => .pending r
  | .sinks _ _ => .done ()

theorem phase_update (f : ι → SyncPc) (i : ι) (p : SyncPc) :
    (fun j => phase (Function.update f i p j)) =
      Function.update (fun j => phase (f j)) i (phase p) :=
  Function.comp_update phase f i p

theorem phase_stays {f : ι → SyncPc} {i : ι} {p : SyncPc} (h : phase p = phase (f i)) :
    (fun j => phase (Function.update f i p j)) = fun j => phase (f j) := by
  rw [phase_update, Function.update_eq_self_iff]
  exact h

def texts (P : Platform) (l : Logger) (s : SyncLogger ι) : List Bytes :=
  s.order.map fun c => l.textOf P c.2

def Atomic (P : Platform) (l : Logger) (s : SyncLogger ι) (g : History ι Request Unit) : Prop :=
  ∃ order, Committed (l.AddsTo P) [] g order (s.texts P l) fun i => phase (s.thread i)

theorem Atomic.step {g : History ι Request Unit} (h : Atomic P l s g)
    (hr : (system P l ι).Reachable s) (hs : Step P l s a t) : Atomic P l t (see l s a g) := by
  obtain ⟨order, h⟩ := h
  have hpc {i : ι} {p : SyncPc} (hi : s.thread i = p) : phase (s.thread i) = phase p := by rw [hi]
  cases hs with
  | filtered i r hi hn =>
    have hdis := l.handed_nothing P hn
    simp only [see, hdis]
    exact ⟨_, h.instant (hpc hi) (l.addsTo_filtered P hdis _)⟩
  | call i r data hi hd =>
    simp only [see, (l.handed_text P hd).1, if_true]
    refine ⟨order, ?_⟩
    rw [phase_update]
    exact h.invoke (hpc hi)
  | acquire i r data hi hm =>
    have hen := (inOrder hr).enabled (i := i) (r := r) (by simp [hi, SyncPc.pending])
    refine ⟨order ++ [⟨(i, g.finished i), r, ()⟩], ?_⟩
    rw [phase_update, texts, List.map_append]
    exact h.commit (hpc hi) (Logger.addsTo_enabled P hen _)
  | enter i data k hi hk =>
    refine ⟨order, ?_⟩
    rw [phase_stays (by rw [hi]; rfl)]
    exact h
  | exit i data k hi =>
    refine ⟨order, ?_⟩
    rw [phase_stays (by rw [hi]; rfl)]
    exact h
  | release i data k hi hk =>
    refine ⟨order, ?_⟩
    rw [phase_update]
    exact h.respond (hpc hi)

theorem atomic {g : History ι Request Unit} (h : (recorded P l ι).Reachable (s, g)) :
    Atomic P l s g := by
  apply h.invariant (P := fun x => Atomic P l x.1 x.2)
  · rintro ⟨s, g⟩ ⟨rfl, rfl⟩
    exact ⟨[], .empty _ _⟩
  · rintro ⟨s, g⟩ a ⟨t, g'⟩ hr ih ⟨hs, rfl⟩
    exact ih.step (System.observed_reachable hr) hs

theorem streams_begun (h : (system P l ι).Reachable s) {k : Nat} (hk : k < l.sinks.length) :
    s.streams k <+: (s.texts P l).flatten := by
  cases hm : s.mutex with
  | none => exact ((spread h).free hm).begun hk
  | some i =>
    have hi : (s.thread i).holds = true := (exclusive h i).mpr hm
    cases ht : s.thread i with
    | sinks data pc => exact ((spread h).busy i data pc ht).begun hk
    | _ => simp [ht, SyncPc.holds] at hi

end SyncLogger

namespace AsyncLogger

variable {ι : Type} [DecidableEq ι] {P : Platform} {l : Logger} {ty : AsyncType}
  {s t : AsyncLogger ι} {a : LoggerAction ι}

/-- A call returns where its `push` leaves the critical section. -/
def see (l : Logger) (s : AsyncLogger ι) (a : LoggerAction ι) (g : History ι Request Unit) :
    History ι Request Unit :=
  match a with
  | .call i r => if l.enabled r then g.invoke i r else (g.invoke i r).respond i ()
  | .looper (.producer i) =>
    match s.looper.producer i with
    | .unlock _ => g.respond i ()
    | _ => g
  | _ => g

def recorded (P : Platform) (l : Logger) (ty : AsyncType) (ι : Type) [DecidableEq ι] :
    System (AsyncLogger ι × History ι Request Unit) (LoggerAction ι) :=
  (system P l ty ι).observed (see l) .empty

/-- A call has taken effect once its text is in the buffer. -/
def phase (p : ProducerPc ι) (pushing : Option Request) : CallState Request Unit :=
  match p, pushing with
  | .notify _, _ | .unlock _, _ => .done ()
  | _, some r => .pending r
  | _, none => .idle

def phases (s : AsyncLogger ι) (i : ι) : CallState Request Unit :=
  phase (s.looper.producer i) (s.pushing i)

theorem phase_update (f : ι → ProducerPc ι) (g : ι → Option Request) (i : ι) (p : ProducerPc ι)
    (o : Option Request) :
    (fun j => phase (Function.update f i p j) (Function.update g i o j)) =
      Function.update (fun j => phase (f j) (g j)) i (phase p o) := by
  funext j
  by_cases hj : j = i
  · subst hj
    simp
  · simp [hj]

theorem phase_move (f : ι → ProducerPc ι) (g : ι → Option Request) (i : ι) (p : ProducerPc ι) :
    (fun j => phase (Function.update f i p j) (g j)) =
      Function.update (fun j => phase (f j) (g j)) i (phase p (g i)) := by
  have h := phase_update f g i p (g i)
  rwa [Function.update_eq_self] at h

theorem phase_stays {f : ι → ProducerPc ι} {g : ι → Option Request} {i : ι} {p : ProducerPc ι}
    (h : phase p (g i) = phase (f i) (g i)) :
    (fun j => phase (Function.update f i p j) (g j)) = fun j => phase (f j) (g j) := by
  rw [phase_move, Function.update_eq_self_iff]
  exact h

omit [DecidableEq ι] in
theorem phase_wake (p : ProducerPc ι) (o : Option Request) : phase p.wake o = phase p o := by
  cases p <;> cases o <;> rfl

theorem Linked.none_pushing (h : Linked P l s) {i : ι} (hi : (s.looper.producer i).pending = []) :
    s.pushing i = none := by
  have hp := h.pushing i
  rw [hi] at hp
  simpa using hp

def texts (P : Platform) (l : Logger) (s : AsyncLogger ι) : List Bytes :=
  s.order.map fun c => l.textOf P c.2

def Atomic (P : Platform) (l : Logger) (s : AsyncLogger ι) (g : History ι Request Unit) : Prop :=
  ∃ order, Committed (l.AddsTo P) [] g order (s.texts P l) s.phases

theorem Atomic.inner {g : History ι Request Unit} (h : Atomic P l s g) (hl : Linked P l s)
    {b : Looper.Action ι} {x : Looper ι} (hb : b.Inner) (hx : Looper.Step ty s.looper b x) :
    Atomic P l { s with looper := x } (see l s (.looper b) g) := by
  obtain ⟨order, h⟩ := h
  cases hx with
  | call | append | callBack | callBackReturns | stopCall => exact hb.elim
  | producerReturn i c hi =>
    have hnone := hl.none_pushing (i := i) (by rw [hi]; rfl)
    simp only [see, hi]
    have hr := h.respond (i := i) (r := ()) (by rw [phases, hi]; rfl)
    refine ⟨order, hr.congr fun j => ?_⟩
    have hj := congrFun (phase_move s.looper.producer s.pushing i .idle) j
    rw [hnone] at hj
    exact hj
  | notifyAll => exact ⟨order, h.congr fun i => phase_wake _ _⟩
  | producerLock i c hi | producerTest i c hi | producerSleep i c hi
  | producerSpurious i c hi | producerRelock i c hi | notifyOne i c hi =>
    simp only [see, hi]
    refine ⟨order, h.congr fun j => congrFun (phase_stays ?_) j⟩
    rw [hi]
    cases s.pushing i <;> first | rfl | (split <;> rfl)
  | _ => exact ⟨order, h⟩

theorem Atomic.step {g : History ι Request Unit} (h : Atomic P l s g) (hl : Linked P l s)
    (hs : Step P l ty s a t) : Atomic P l t (see l s a g) := by
  cases hs with
  | inner b x hb hx => exact h.inner hl hb hx
  | filtered i r hi _ hn =>
    obtain ⟨order, h⟩ := h
    have hdis := l.handed_nothing P hn
    have hidle : s.phases i = .idle := by
      rw [phases, hi, hl.none_pushing (by rw [hi]; rfl)]
      rfl
    simp only [see, hdis]
    exact ⟨_, h.instant hidle (l.addsTo_filtered P hdis _)⟩
  | call i r data x _ hd hx =>
    obtain ⟨order, h⟩ := h
    cases hx with
    | call _ _ hi =>
      have hidle : s.phases i = .idle := by
        rw [phases, hi, hl.none_pushing (by rw [hi]; rfl)]
        rfl
      simp only [see, (l.handed_text P hd).1, if_true]
      refine ⟨order, (h.invoke hidle).congr fun j => ?_⟩
      exact congrFun (phase_update ..) j
  | append i x hx =>
    obtain ⟨order, h⟩ := h
    cases hx with
    | append _ c b hi hb =>
      obtain ⟨r, hr⟩ : ∃ r, s.pushing i = some r := by
        have hp := hl.pushing i
        rw [hi] at hp
        cases ho : s.pushing i with
        | none => simp [ho, ProducerPc.pending] at hp
        | some r => exact ⟨r, rfl⟩
      have hen := hl.inOrder.enabled (i := i) (r := r) (by simp [hr])
      have hpending : s.phases i = .pending r := by
        rw [phases, hi, hr]
        rfl
      have hc := (h.commit hpending (Logger.addsTo_enabled P hen _)).congr fun j =>
        congrFun (phase_update s.looper.producer s.pushing i (.notify c) none) j
      refine ⟨order ++ [⟨(i, g.finished i), r, ()⟩], ?_⟩
      rw [texts, hr, Option.toList_some, List.map_append]
      exact hc
  | destroy x hidle hx | realLog x hx | realLogReturns k x hp hk hx =>
    cases hx
    exact h
  | enter | exit => exact h

theorem atomic {g : History ι Request Unit} (h : (recorded P l ty ι).Reachable (s, g)) :
    Atomic P l s g := by
  apply h.invariant (P := fun x => Atomic P l x.1 x.2)
  · rintro ⟨s, g⟩ ⟨rfl, rfl⟩
    exact ⟨[], .empty _ _⟩
  · rintro ⟨s, g⟩ a ⟨t, g'⟩ hr ih ⟨hs, rfl⟩
    exact ih.step (linked (System.observed_reachable hr)) hs

theorem streams_begun (h : (system P l ty ι).Reachable s) {k : Nat} (hk : k < l.sinks.length) :
    s.streams k <+: (s.texts P l).flatten := by
  have hhanded : s.looper.handed.flatten <+: (s.texts P l).flatten := by
    rw [texts, (linked h).text]
    have hstream := Looper.stream_eq (looper_reachable h)
    rw [Looper.bytesOf, List.flatMap_def] at hstream
    rw [← hstream, List.append_assoc]
    exact List.prefix_append ..
  by_cases hw : s.looper.worker = .callback
  · exact (((spread h).busy hw).begun hk).trans hhanded
  · exact (((spread h).free hw).begun hk).trans hhanded

end AsyncLogger

/-- In an order that agrees with real time the calls make a log, and every position of
`_sinks` has got a beginning of it, at rest the whole of it. -/
def Linearized {ι : Type} (P : Platform) (l : Logger) (g : History ι Request Unit)
    (streams : Nat → Bytes) (rest : Prop) : Prop :=
  ∃ order log, Linearization (l.AddsTo P) [] g.events order log ∧
    ∀ k < l.sinks.length, streams k <+: log.flatten ∧ (rest → streams k = log.flatten)

theorem loggers_linearizable (P : Platform) (l : Logger) (ι : Type) [DecidableEq ι] :
    (∀ s g, (SyncLogger.recorded P l ι).Reachable (s, g) →
      Linearized P l g s.streams (∀ i, s.thread i = .idle)) ∧
    (∀ ty s g, (AsyncLogger.recorded P l ty ι).Reachable (s, g) →
      Linearized P l g s.streams (s.looper.stopper = .returned)) := by
  constructor
  · intro s g h
    have hr : (SyncLogger.system P l ι).Reachable s := System.observed_reachable h
    obtain ⟨order, hc⟩ := SyncLogger.atomic h
    refine ⟨order, _, hc.lin, fun k hk => ⟨SyncLogger.streams_begun hr hk, fun hidle => ?_⟩⟩
    rw [(SyncLogger.delivered hr hidle).streams k hk]
    exact List.flatMap_def
  · intro ty s g h
    have hr : (AsyncLogger.system P l ty ι).Reachable s := System.observed_reachable h
    obtain ⟨order, hc⟩ := AsyncLogger.atomic h
    refine ⟨order, _, hc.lin, fun k hk => ⟨AsyncLogger.streams_begun hr hk, fun hd => ?_⟩⟩
    rw [(AsyncLogger.delivered hr hd).streams k hk]
    exact List.flatMap_def

theorem loggers_linearizable_one :
    let P : Platform := ⟨fun _ => [], fun _ => ⟨0, 0, 0, 0, 0, 0, 0, 0, 0⟩, fun _ _ => [],
      fun _ _ _ => 0⟩
    let l : Logger := ⟨[], .info, ⟨[], [.msg, .newLine]⟩, [0]⟩
    let r : Request := ⟨.warn, [], 1, 0, 0, [104, 105], by decide⟩
    ∃ s g, (SyncLogger.recorded P l Nat).Reachable (s, g) ∧
      g.events = [.invoke (0, 0) r, .respond (0, 0) ()] ∧
      Linearized P l g s.streams (∀ i, s.thread i = .idle) := by
  intro P l r
  have h := System.Reachable.init (S := SyncLogger.recorded P l Nat)
    (s := (SyncLogger.init, .empty)) ⟨rfl, rfl⟩
  have h := System.observed_step h (.call _ 0 r [104, 105, 10] rfl rfl)
  have h := System.observed_step h (.acquire _ 0 _ _ rfl rfl)
  have h := System.observed_step h (.enter _ 0 _ 0 rfl (by decide))
  have h := System.observed_step h (.exit _ 0 _ 0 rfl)
  have h := System.observed_step h (.release _ 0 _ 1 rfl (by decide))
  exact ⟨_, _, h, rfl, (loggers_linearizable P l Nat).1 _ _ h⟩

end MyLog
