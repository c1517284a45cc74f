import MyLog.Conservation
import MyLog.Lib.Broadcast
import MyLog.Logger
import MyLog.LooperFrame

/-! `AsyncLogger` of `logger.hpp`: each call pushes its text to the looper, and the
looper's callback `realLog` goes through the sinks. The logger is destroyed, which
stops the looper, only when no call is in progress. -/

namespace MyLog

open Transition

/-- The looper of the logger, where `realLog` stands while the worker is in the
callback, the bytes handed to each position of `_sinks`, and a history: what each
thread has called, which call it has still to append, and the order of the appends. -/
structure AsyncLogger (ι : Type) where
  looper : Looper ι
  realLog : SinkPc
  streams : Nat → Bytes
  issued : ι → List Request
  pushing : ι → Option Request
  order : List (ι × Request)

namespace AsyncLogger

variable {ι : Type}

def init : AsyncLogger ι where
  looper := Looper.init
  realLog := .next 0
  streams _ := []
  issued _ := []
  pushing _ := none
  order := []

variable [DecidableEq ι]

inductive Step (P : Platform) (l : Logger) (ty : AsyncType) :
    AsyncLogger ι → LoggerAction ι → AsyncLogger ι → Prop
  | filtered (s : AsyncLogger ι) (i : ι) (r : Request) (h : s.looper.producer i = .idle)
      (hd : s.looper.stopper = .idle) (hr : l.handed P r = .nothing) :
      Step P l ty s (.call i r) { s with
        issued := Function.update s.issued i (s.issued i ++ [r]) }
  | call (s : AsyncLogger ι) (i : ι) (r : Request) (data : Bytes) (x : Looper ι)
      (hd : s.looper.stopper = .idle) (hr : l.handed P r = .text data)
      (hx : Looper.Step ty s.looper (.call i data) x) :
      Step P l ty s (.call i r) { s with
        looper := x
        issued := Function.update s.issued i (s.issued i ++ [r])
        pushing := Function.update s.pushing i (some r) }
  | append (s : AsyncLogger ι) (i : ι) (x : Looper ι)
      (hx : Looper.Step ty s.looper (.append i) x) :
      Step P l ty s (.looper (.append i)) { s with
        looper := x
        pushing := Function.update s.pushing i none
        order := s.order ++ (s.pushing i).toList.map (i, ·) }
  | inner (s : AsyncLogger ι) (a : Looper.Action ι) (x : Looper ι) (ha : a.Inner)
      (hx : Looper.Step ty s.looper a x) :
      Step P l ty s (.looper a) { s with looper := x }
  | destroy (s : AsyncLogger ι) (x : Looper ι) (hidle : ∀ i, s.looper.producer i = .idle)
      (hx : Looper.Step ty s.looper .stopCall x) :
      Step P l ty s (.looper .stopCall) { s with looper := x }
  | realLog (s : AsyncLogger ι) (x : Looper ι) (hx : Looper.Step ty s.looper .callBack x) :
      Step P l ty s (.looper .callBack) { s with looper := x, realLog := .next 0 }
  | enter (s : AsyncLogger ι) (k : Nat) (hw : s.looper.worker = .callback)
      (hp : s.realLog = .next k) (hk : k < l.sinks.length) :
      Step P l ty s .workerEnter { s with
        realLog := .within k
        streams := Function.update s.streams k (s.streams k ++ s.looper.conBuf.readable) }
  | exit (s : AsyncLogger ι) (k : Nat) (hw : s.looper.worker = .callback)
      (hp : s.realLog = .within k) :
      Step P l ty s .workerExit { s with realLog := .next (k + 1) }
  | realLogReturns (s : AsyncLogger ι) (k : Nat) (x : Looper ι) (hp : s.realLog = .next k)
      (hk : l.sinks.length ≤ k) (hx : Looper.Step ty s.looper .callBackReturns x) :
      Step P l ty s (.looper .callBackReturns) { s with looper := x }

def system (P : Platform) (l : Logger) (ty : AsyncType) (ι : Type) [DecidableEq ι] :
    System (AsyncLogger ι) (LoggerAction ι) where
  init s := s = init
  step := Step P l ty

variable {P : Platform} {l : Logger} {ty : AsyncType} {s t : AsyncLogger ι} {a : LoggerAction ι}

def looperSimulation (P : Platform) (l : Logger) (ty : AsyncType) (ι : Type) [DecidableEq ι] :
    System.Simulation (system P l ty ι) (Looper.system ι ty) where
  abs s := s.looper
  init s h := by rw [show s = init from h]; rfl
  step s a t _ hs := by
    cases hs with
    | filtered | enter | exit => exact .inl rfl
    | call i r data x hd hr hx => exact .inr ⟨_, hx⟩
    | append i x hx | inner a x ha hx | destroy x hidle hx | realLog x hx
    | realLogReturns k x hp hk hx => exact .inr ⟨_, hx⟩

theorem looper_reachable (h : (system P l ty ι).Reachable s) :
    (Looper.system ι ty).Reachable s.looper :=
  (looperSimulation P l ty ι).reachable h

structure Linked (P : Platform) (l : Logger) (s : AsyncLogger ι) : Prop where
  inOrder : InOrder l s.issued s.order fun i => (s.pushing i).toList
  pushing : ∀ i, (s.pushing i).toList.map (l.textOf P) = (s.looper.producer i).pending.map Call.data
  text : s.order.map (fun c => l.textOf P c.2) = s.looper.flow.accepted.map Call.data

theorem toList_update (f : ι → Option Request) (i : ι) (o : Option Request) :
    (fun j => (Function.update f i o j).toList) =
      Function.update (fun j => (f j).toList) i o.toList :=
  Function.comp_update Option.toList f i o

theorem Linked.step (h : Linked P l s) (hs : Step P l ty s a t) : Linked P l t := by
  obtain ⟨ho, hp, ht⟩ := h
  cases hs with
  | filtered i r _ _ hr => exact ⟨ho.filtered (l.handed_nothing P hr), hp, ht⟩
  | enter | exit => exact ⟨ho, hp, ht⟩
  | call i r data x hd hr hx =>
    obtain ⟨he, rfl⟩ := l.handed_text P hr
    cases hx with
    | call _ _ hi =>
      have hnone : (s.pushing i).toList = [] := by
        have := hp i
        rw [hi] at this
        simpa [ProducerPc.pending] using this
      refine ⟨?_, fun j => ?_, ht⟩
      · rw [toList_update]
        exact ho.call he hnone
      · by_cases hj : j = i
        · subst hj
          simp [ProducerPc.pending, Looper.nextCall]
        · simpa [hj] using hp j
  | append i x hx =>
    cases hx with
    | append _ c b hi hb =>
      have hc : (s.pushing i).toList.map (l.textOf P) = [c.data] := by
        have := hp i
        rwa [hi] at this
      refine ⟨?_, fun j => ?_, ?_⟩
      · rw [toList_update]
        exact ho.place i
      · by_cases hj : j = i
        · subst hj
          simp [ProducerPc.pending]
        · simpa [hj] using hp j
      · show _ = (s.looper.flow.accepted ++ [c]).map Call.data
        rw [List.map_append, List.map_append, ht, List.map_map, List.map_singleton, ← hc]
        rfl
  | inner a x ha hx =>
    have hf := hx.frame ha
    exact ⟨ho, fun i => by rw [hf.pending]; exact hp i, by rw [hf.accepted]; exact ht⟩
  | destroy x hidle hx | realLog x hx | realLogReturns k x hk hn hx =>
    cases hx
    exact ⟨ho, hp, ht⟩

theorem linked (h : (system P l ty ι).Reachable s) : Linked P l s := by
  apply h.invariant
  · intro s hs
    subst hs
    exact ⟨fun _ => rfl, fun _ => rfl, rfl⟩
  · intro s a t hr ih hs
    exact ih.step hs

/-- The batches given to `realLog`, the last of them perhaps on its way. -/
structure Spread (l : Logger) (s : AsyncLogger ι) : Prop where
  free : s.looper.worker ≠ .callback →
    Broadcast.Delivering l.sinks.length s.streams s.looper.handed none
  busy : s.looper.worker = .callback →
    Broadcast.Delivering l.sinks.length s.streams s.looper.handed
      (some (s.looper.conBuf.readable, s.realLog.reached))

theorem Spread.step (h : Spread l s) (hs : Step P l ty s a t) : Spread l t := by
  obtain ⟨hf, hb⟩ := h
  cases hs with
  | filtered => exact ⟨hf, hb⟩
  | call i r data x hd hr hx | append i x hx | destroy x hidle hx =>
    cases hx
    exact ⟨hf, hb⟩
  | inner a x ha hx =>
    have hx := hx.frame ha
    refine ⟨fun hw => ?_, fun hw => ?_⟩
    · show Broadcast.Delivering _ _ x.handed _
      rw [hx.handed]
      exact hf (fun hc => hw (hx.callback.mpr hc))
    · have hc := hx.callback.mp hw
      show Broadcast.Delivering _ _ x.handed (some (x.conBuf.readable, _))
      rw [hx.handed, hx.conBuf hc]
      exact hb hc
  | realLog x hx =>
    cases hx with
    | callBack hw =>
      refine ⟨fun hn => (hn rfl).elim, fun _ => ?_⟩
      exact (hf (by simp [hw])).start s.looper.conBuf.readable
  | enter k hw hp hk =>
    refine ⟨fun hn => (hn hw).elim, fun _ => ?_⟩
    have hd := hb hw
    rw [hp] at hd
    exact hd.give
  | exit k hw hp =>
    refine ⟨fun hn => (hn hw).elim, fun _ => ?_⟩
    have hd := hb hw
    rw [hp] at hd
    exact hd
  | realLogReturns k x hp hk hx =>
    cases hx with
    | callBackReturns hw =>
      refine ⟨fun _ => ?_, fun hw' => (by cases hw')⟩
      have hd := hb hw
      rw [hp] at hd
      exact hd.finish hk

theorem spread (h : (system P l ty ι).Reachable s) : Spread l s := by
  apply h.invariant
  · intro s hs
    subst hs
    exact ⟨fun _ _ _ => rfl, fun hw => by cases hw⟩
  · intro s a t hr ih hs
    exact ih.step hs

/-- No thread is in a call once the destruction has begun, and the worker leaves
nothing behind. -/
structure Quiet (s : AsyncLogger ι) : Prop where
  idle : s.looper.stopper ≠ .idle → ∀ i, s.looper.producer i = .idle
  drained : s.looper.worker = .exited → s.looper.proBuf.readable = []

theorem stopper_of_exited (h : (system P l ty ι).Reachable s)
    (hw : s.looper.worker = .exited) : s.looper.stopper ≠ .idle := by
  intro hi
  have hf := (Looper.stopping (looper_reachable h)).flag
  rw [Looper.left_stop (looper_reachable h) (.inr hw), hi] at hf
  cases hf

theorem Quiet.step (h : Quiet s) (hr : (system P l ty ι).Reachable s)
    (hs : Step P l ty s a t) : Quiet t := by
  obtain ⟨hi, hd⟩ := h
  cases hs with
  | filtered | enter | exit => exact ⟨hi, hd⟩
  | call i r data x hst hr hx =>
    cases hx with
    | call => exact ⟨fun hn => (hn hst).elim, hd⟩
  | append i x hx =>
    cases hx with
    | append _ c b hw hb =>
      refine ⟨fun hn => ?_, fun he => ?_⟩
      · rw [hi hn i] at hw
        cases hw
      · rw [hi (stopper_of_exited hr he) i] at hw
        cases hw
  | inner a x ha hx =>
    have hf := hx.frame ha
    refine ⟨fun hn i => ?_, fun he => ?_⟩
    · exact hf.idle i (hi (fun hs => hn (hf.stopper.mpr hs)) i)
    · obtain ⟨hw, hb⟩ := hf.exited he
      show x.proBuf.readable = []
      rw [hb]
      rcases hw with hw | hw
      · exact (Looper.coupled (looper_reachable hr)).leave hw
      · exact hd hw
  | destroy x hidle hx =>
    cases hx
    exact ⟨fun _ => hidle, hd⟩
  | realLog x hx | realLogReturns k x hp hk hx =>
    cases hx
    exact ⟨hi, fun he => (by cases he)⟩

theorem quiet (h : (system P l ty ι).Reachable s) : Quiet s := by
  apply h.invariant
  · intro s hs
    subst hs
    exact ⟨fun hn => (hn rfl).elim, fun hw => by cases hw⟩
  · intro s a t hr ih hs
    exact ih.step hr hs

theorem handed_all (h : (system P l ty ι).Reachable s) (hd : s.looper.stopper = .returned) :
    s.looper.handed.flatten = (s.order.map fun c => l.textOf P c.2).flatten := by
  have hr := looper_reachable h
  have hw := (Looper.stopping hr).exited hd
  have hstream := Looper.stream_eq hr
  have hswapped : s.looper.swappedIn = [] := by rw [Looper.swappedIn, hw]
  rw [hswapped, (quiet h).drained hw, List.append_nil, List.append_nil] at hstream
  rw [hstream, (linked h).text]
  exact List.flatMap_def

end AsyncLogger

end MyLog
