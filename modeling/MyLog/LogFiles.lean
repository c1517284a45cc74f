import MyLog.Delivery
import MyLog.Sinks

/-! What the loggers make their sinks write. A synchronous logger calls a sink for each
record and an asynchronous one for each batch; the sinks come out the same. -/

namespace MyLog

open Transition

/-- The data of each call of `log`, for each position of `_sinks`. -/
abbrev SinkCalls := Nat → List Bytes

def SinkCalls.add (calls : SinkCalls) (k : Nat) (data : Bytes) : SinkCalls :=
  Function.update calls k (calls k ++ [data])

/-- Every sink was called with the items `sent`, the last of them perhaps on its way. -/
def Called (n : Nat) (calls : SinkCalls) (sent : List Bytes) (o : Option (Bytes × Nat)) : Prop :=
  Broadcast.Delivering n calls (sent.map fun d => [d]) (o.map fun p => ([p.1], p.2))

section Called

variable {n m : Nat} {calls : SinkCalls} {sent : List Bytes} {d : Bytes}

theorem Called.start (h : Called n calls sent none) (d : Bytes) :
    Called n calls (sent ++ [d]) (some (d, 0)) := by
  have hs := Broadcast.Delivering.start h [d]
  rwa [Called, List.map_append]

theorem Called.give (h : Called n calls sent (some (d, m))) :
    Called n (calls.add m d) sent (some (d, m + 1)) :=
  Broadcast.Delivering.give h

theorem Called.finish (h : Called n calls sent (some (d, m))) (hm : n ≤ m) :
    Called n calls sent none :=
  Broadcast.Delivering.finish h hm

theorem Called.eq_sent (h : Called n calls sent none) {k : Nat} (hk : k < n) : calls k = sent := by
  have hall := h k hk
  rwa [← List.flatMap_def, List.flatMap_singleton'] at hall

end Called

namespace SyncLogger

variable {ι : Type} [DecidableEq ι] {P : Platform} {l : Logger}

/-- `sink->log(data, len)` -/
def sinkCall (s : SyncLogger ι) (a : LoggerAction ι) (calls : SinkCalls) : SinkCalls :=
  match a with
  | .enter i =>
    match s.thread i with
    | .sinks data (.next k) => calls.add k data
    | _ => calls
  | _ => calls

def logged (P : Platform) (l : Logger) (ι : Type) [DecidableEq ι] :
    System (SyncLogger ι × SinkCalls) (LoggerAction ι) :=
  (system P l ι).observed sinkCall fun _ => []

structure Logged (P : Platform) (l : Logger) (s : SyncLogger ι) (calls : SinkCalls) : Prop where
  free : s.mutex = none → Called l.sinks.length calls (s.order.map fun c => l.textOf P c.2) none
  busy : ∀ i data pc, s.thread i = .sinks data pc →
    Called l.sinks.length calls (s.order.map fun c => l.textOf P c.2) (some (data, pc.reached))

theorem Logged.step {s t : SyncLogger ι} {a : LoggerAction ι} {calls : SinkCalls}
    (h : Logged P l s calls) (hr : (system P l ι).Reachable s) (hs : Step P l s a t) :
    Logged P l t (sinkCall s a calls) := by
  obtain ⟨hf, hb⟩ := h
  have ht := hr.step hs
  -- while a thread owns the mutex, it is the one that is in the sinks
  have hown {i : ι} (hi : t.mutex = some i) {o : Option (Bytes × Nat)} {cs : SinkCalls}
      (hc : ∀ data pc, t.thread i = .sinks data pc →
        Called l.sinks.length cs (t.order.map fun c => l.textOf P c.2) (some (data, pc.reached))) :
      Logged P l t cs := by
    refine ⟨fun hn => ?_, fun j data pc hj => ?_⟩
    · rw [hi] at hn
      cases hn
    · obtain rfl : i = j := Option.some.inj (hi.symm.trans (owner ht hj))
      exact hc data pc hj
  cases hs with
  | filtered => exact ⟨hf, hb⟩
  | call i r data hi =>
    refine ⟨hf, fun j data' pc hj => hb j data' pc ?_⟩
    by_cases hji : j = i
    · subst hji
      simp at hj
    · simpa [hji] using hj
  | acquire i r data hi hm =>
    have hstart := (hf hm).start (l.textOf P r)
    refine hown rfl (o := none) fun data' pc hj => ?_
    obtain ⟨rfl, rfl⟩ : data = data' ∧ SinkPc.next 0 = pc := by simpa using hj
    rw [lock_text hr hi]
    simpa [SinkPc.reached, sinkCall] using hstart
  | enter i data k hi hk =>
    refine hown (owner hr hi) (o := none) fun data' pc hj => ?_
    obtain ⟨rfl, rfl⟩ : data = data' ∧ SinkPc.within k = pc := by simpa using hj
    have hcall : sinkCall s (.enter i) calls = calls.add k data := by simp [sinkCall, hi]
    rw [hcall]
    exact (hb i data (.next k) hi).give
  | exit i data k hi =>
    refine hown (owner hr hi) (o := none) fun data' pc hj => ?_
    obtain ⟨rfl, rfl⟩ : data = data' ∧ SinkPc.next (k + 1) = pc := by simpa using hj
    exact hb i data (.within k) hi
  | release i data k hi hk =>
    refine ⟨fun _ => (hb i data _ hi).finish hk, fun j data' pc hj => ?_⟩
    cases owner ht hj

theorem logged_of {s : SyncLogger ι} {calls : SinkCalls}
    (h : (logged P l ι).Reachable (s, calls)) : Logged P l s calls := by
  suffices hx : ∀ x, (logged P l ι).Reachable x → Logged P l x.1 x.2 from hx _ h
  intro x hx
  apply hx.invariant
  · rintro ⟨s, calls⟩ ⟨hs, hc⟩
    obtain rfl : s = init := hs
    obtain rfl : calls = fun _ => [] := hc
    exact ⟨fun _ _ _ => rfl, fun i data pc hi => by cases hi⟩
  · rintro ⟨s, calls⟩ a ⟨t, calls'⟩ hr ih ⟨hs, hc⟩
    obtain rfl : calls' = sinkCall s a calls := hc
    exact ih.step (System.observed_reachable hr) hs

theorem sinkCalls_eq {s : SyncLogger ι} {calls : SinkCalls}
    (h : (logged P l ι).Reachable (s, calls)) (hidle : ∀ i, s.thread i = .idle) {k : Nat}
    (hk : k < l.sinks.length) : calls k = s.order.map fun c => l.textOf P c.2 :=
  ((logged_of h).free (mutex_free (System.observed_reachable h) hidle)).eq_sent hk

end SyncLogger

namespace AsyncLogger

variable {ι : Type} [DecidableEq ι] {P : Platform} {l : Logger} {ty : AsyncType}

/-- `sink->log(buf.begin(), buf.readAbleSize())` -/
def sinkCall (s : AsyncLogger ι) (a : LoggerAction ι) (calls : SinkCalls) : SinkCalls :=
  match a, s.realLog with
  | .workerEnter, .next k => calls.add k s.looper.conBuf.readable
  | _, _ => calls

def logged (P : Platform) (l : Logger) (ty : AsyncType) (ι : Type) [DecidableEq ι] :
    System (AsyncLogger ι × SinkCalls) (LoggerAction ι) :=
  (system P l ty ι).observed sinkCall fun _ => []

structure Logged (l : Logger) (s : AsyncLogger ι) (calls : SinkCalls) : Prop where
  free : s.looper.worker ≠ .callback → Called l.sinks.length calls s.looper.handed none
  busy : s.looper.worker = .callback →
    Called l.sinks.length calls s.looper.handed
      (some (s.looper.conBuf.readable, s.realLog.reached))

theorem Logged.step {s t : AsyncLogger ι} {a : LoggerAction ι} {calls : SinkCalls}
    (h : Logged l s calls) (hs : Step P l ty s a t) : Logged l t (sinkCall s a calls) := by
  obtain ⟨hf, hb⟩ := h
  cases hs with
  | filtered => exact ⟨hf, hb⟩
  | call i r data x hd hr hx | append i x hx | destroy x hidle hx =>
    cases hx
    exact ⟨hf, hb⟩
  | inner a x ha hx =>
    have hx := hx.frame ha
    refine ⟨fun hw => ?_, fun hw => ?_⟩
    · show Called _ _ x.handed _
      rw [hx.handed]
      exact hf fun hc => hw (hx.callback.mpr hc)
    · have hc := hx.callback.mp hw
      show Called _ _ x.handed (some (x.conBuf.readable, _))
      rw [hx.handed, hx.conBuf hc]
      exact hb hc
  | realLog x hx =>
    cases hx with
    | callBack hw =>
      exact ⟨fun hn => (hn rfl).elim, fun _ => (hf (by simp [hw])).start s.looper.conBuf.readable⟩
  | enter k hw hp hk =>
    refine ⟨fun hn => (hn hw).elim, fun _ => ?_⟩
    have hcall : sinkCall s .workerEnter calls = calls.add k s.looper.conBuf.readable := by
      simp [sinkCall, hp]
    have hgive := hb hw
    rw [hp] at hgive
    rw [hcall]
    exact hgive.give
  | exit k hw hp =>
    refine ⟨fun hn => (hn hw).elim, fun _ => ?_⟩
    have hsame := hb hw
    rw [hp] at hsame
    exact hsame
  | realLogReturns k x hp hk hx =>
    cases hx with
    | callBackReturns hw =>
      refine ⟨fun _ => ?_, fun hw' => by cases hw'⟩
      have hdone := hb hw
      rw [hp] at hdone
      exact hdone.finish hk

theorem logged_of {s : AsyncLogger ι} {calls : SinkCalls}
    (h : (logged P l ty ι).Reachable (s, calls)) : Logged l s calls := by
  suffices hx : ∀ x, (logged P l ty ι).Reachable x → Logged l x.1 x.2 from hx _ h
  intro x hx
  apply hx.invariant
  · rintro ⟨s, calls⟩ ⟨hs, hc⟩
    obtain rfl : s = init := hs
    obtain rfl : calls = fun _ => [] := hc
    exact ⟨fun _ _ _ => rfl, fun hw => by cases hw⟩
  · rintro ⟨s, calls⟩ a ⟨t, calls'⟩ _ ih ⟨hs, hc⟩
    obtain rfl : calls' = sinkCall s a calls := hc
    exact ih.step hs

/-- After the destruction the calls of a sink are the batches, and the batches are the
records, if no record is empty. -/
theorem sinkCalls_eq {s : AsyncLogger ι} {calls : SinkCalls}
    (h : (logged P l ty ι).Reachable (s, calls)) (hd : s.looper.stopper = .returned) {k : Nat}
    (hk : k < l.sinks.length) (hne : ∀ c ∈ s.order, l.textOf P c.2 ≠ []) :
    ∃ groups : List (List Bytes), calls k = groups.map List.flatten ∧
      groups.flatten = s.order.map fun c => l.textOf P c.2 := by
  have hr : (system P l ty ι).Reachable s := System.observed_reachable h
  have hlooper := looper_reachable hr
  have hw := (Looper.stopping hlooper).exited hd
  have hcon := (Looper.coupled hlooper).con
  have hqueued := (Looper.coupled hlooper).pro
  have hconserved := Pipeline.conserved (Looper.flow_reachable hlooper)
  have htexts := (linked hr).text
  rw [hw] at hcon
  rw [(quiet hr).drained hw] at hqueued
  -- a call that is still in the queue would have an empty text
  have hnone : s.looper.flow.queued = [] := by
    refine List.eq_nil_iff_forall_not_mem.mpr fun c hc => ?_
    have hmem : c.data ∈ s.order.map fun c => l.textOf P c.2 := by
      rw [htexts, ← hconserved]
      exact List.mem_map_of_mem (List.mem_append_right _ hc)
    obtain ⟨r, hr, he⟩ := List.mem_map.mp hmem
    exact hne r hr (he.trans (List.flatMap_eq_nil_iff.mp hqueued.symm c hc))
  refine ⟨s.looper.flow.batches.map (List.map Call.data), ?_, ?_⟩
  · rw [((logged_of h).free (by simp [hw])).eq_sent hk, (Looper.coupled hlooper).handed,
      List.map_map]
    rfl
  · rw [htexts, ← hconserved, hcon.1, hnone, List.append_nil, List.append_nil, List.map_flatten]

end AsyncLogger

/-- Whatever its sinks are, a logger makes each of them write the texts of its calls, one
after the other in one order. With the same order of calls that end in a newline, a
synchronous and an asynchronous logger leave the same output and the same files. Rolled files
are cut at the same places, if all of them are new, and differ in the times in their names. -/
theorem loggers_write (P : Platform) (clock clock' : Nat → Int) (l : Logger) (ι : Type)
    [DecidableEq ι] (σ : Nat → LogSink) :
    (∀ s calls, (SyncLogger.logged P l ι).Reachable (s, calls) → (∀ i, s.thread i = .idle) →
      ∀ k < l.sinks.length, ((σ k).logAll P clock (calls k)).written =
        (σ k).written ++ s.order.flatMap fun c => l.formatter.format P (l.message c.2)) ∧
    (∀ ty t calls, (AsyncLogger.logged P l ty ι).Reachable (t, calls) →
      t.looper.stopper = .returned → ∀ k < l.sinks.length,
        ((σ k).logAll P clock' (calls k)).written =
          (σ k).written ++ t.order.flatMap fun c => l.formatter.format P (l.message c.2)) ∧
    (∀ ty s calls t calls', (SyncLogger.logged P l ι).Reachable (s, calls) →
      (∀ i, s.thread i = .idle) → (AsyncLogger.logged P l ty ι).Reachable (t, calls') →
      t.looper.stopper = .returned → s.order = t.order →
      (∀ c ∈ t.order, (l.textOf P c.2).getLast? = some newline) →
      ∀ k < l.sinks.length, LogSink.Fresh (σ k) ((σ k).logAll P clock (calls k)) →
        LogSink.Fresh (σ k) ((σ k).logAll P clock' (calls' k)) →
        LogSink.Agree P clock clock' (σ k)
          ((σ k).logAll P clock (calls k)) ((σ k).logAll P clock' (calls' k))) := by
  refine ⟨fun s calls hs hidle k hk => ?_, fun ty t calls ht hd k hk => ?_,
    fun ty s calls t calls' hs hidle ht hd he hlines k hk hfresh hfresh' => ?_⟩
  · rw [LogSink.logAll_written, SyncLogger.sinkCalls_eq hs hidle hk, ← List.flatMap_def]
    rfl
  · have hr : (AsyncLogger.system P l ty ι).Reachable t := System.observed_reachable ht
    have hw := (Looper.stopping (AsyncLogger.looper_reachable hr)).exited hd
    rw [LogSink.logAll_written, ((AsyncLogger.logged_of ht).free (by simp [hw])).eq_sent hk,
      AsyncLogger.handed_all hr hd, ← List.flatMap_def]
    rfl
  · have hne : ∀ c ∈ t.order, l.textOf P c.2 ≠ [] := fun c hc he => by
      have hlast := hlines c hc
      rw [he] at hlast
      cases hlast
    obtain ⟨groups, hgroups, hflat⟩ := AsyncLogger.sinkCalls_eq ht hd hk hne
    have hsync := SyncLogger.sinkCalls_eq hs hidle hk
    rw [he, ← hflat] at hsync
    rw [hsync] at hfresh
    rw [hgroups] at hfresh'
    rw [hsync, hgroups]
    refine LogSink.agree_batches (fun r hr => ?_) hfresh hfresh'
    rw [hflat] at hr
    obtain ⟨c, hc, rfl⟩ := List.mem_map.mp hr
    exact hlines c hc

theorem loggers_write_run :
    let P : Platform := ⟨fun _ => [], fun _ => ⟨0, 0, 0, 0, 0, 0, 0, 0, 0⟩, fun _ _ => [],
      fun _ _ _ => 0⟩
    let l : Logger := ⟨[], .info, ⟨[], [.msg, .newLine]⟩, [0]⟩
    let r : Request := ⟨.warn, [], 1, 0, 0, [104, 105], by decide⟩
    let σ := RollBySizeSink.make P (fun _ => 0) (utf8 "roll") 1 .empty
    ∃ (s : SyncLogger Nat) (calls : SinkCalls) (t : AsyncLogger Nat) (calls' : SinkCalls),
      (SyncLogger.logged P l Nat).Reachable (s, calls) ∧
      (AsyncLogger.logged P l .asyncUnsafe Nat).Reachable (t, calls') ∧ t.order = [(0, r)] ∧
      LogSink.Agree P (fun _ => 0) (fun _ => 7) (.rollBySizeSink σ)
        ((LogSink.rollBySizeSink σ).logAll P (fun _ => 0) (calls 0))
        ((LogSink.rollBySizeSink σ).logAll P (fun _ => 7) (calls' 0)) := by
  intro P l r σ
  have h := System.Reachable.init (S := SyncLogger.system P l Nat) rfl
  have h := h.step (.call _ 0 r [104, 105, 10] rfl rfl)
  have h := h.step (.acquire _ 0 _ _ rfl rfl)
  have h := h.step (.enter _ 0 _ 0 rfl (by decide))
  have h := h.step (.exit _ 0 _ 0 rfl)
  have h := h.step (.release _ 0 _ 1 rfl (by decide))
  have g := System.Reachable.init (S := AsyncLogger.system P l .asyncUnsafe Nat) rfl
  have g := g.step (.call _ 0 r [104, 105, 10] _ rfl rfl (.call _ 0 _ rfl))
  have g := g.step (.inner _ (.producer 0) _ trivial (.producerLock _ 0 _ rfl rfl))
  have g := g.step (.append _ 0 _ (.append _ 0 _ _ rfl rfl))
  have g := g.step (.inner _ (.producer 0) _ trivial (.notifyOne _ 0 _ rfl))
  have g := g.step (.inner _ (.producer 0) _ trivial (.producerReturn _ 0 _ rfl))
  have g := g.step (.inner _ .worker _ trivial (.workerLock _ rfl rfl))
  have g := g.step (.inner _ .worker _ trivial (.workerCheck _ rfl))
  have g := g.step (.inner _ .worker _ trivial (.workerTest _ rfl))
  have g := g.step (.inner _ .worker _ trivial (.swap _ rfl))
  have g := g.step (.inner _ .worker _ trivial (.workerUnlock _ rfl))
  have g := g.step (.realLog _ _ (.callBack _ rfl))
  have g := g.step (.enter _ 0 rfl rfl (by decide))
  have g := g.step (.exit _ 0 rfl rfl)
  have g := g.step (.realLogReturns _ 1 _ rfl (by decide) (.callBackReturns _ rfl))
  have g := g.step (.inner _ .worker _ trivial (.reset _ rfl))
  have g := g.step (.destroy _ _ (fun i => by cases i <;> rfl) (.stopCall _ rfl))
  have g := g.step (.inner _ .stopFlag _ trivial (.stopFlag _ rfl))
  have g := g.step (.inner _ .stopNotify _ trivial (.stopNotify _ rfl))
  have g := g.step (.inner _ .worker _ trivial (.workerLock _ rfl rfl))
  have g := g.step (.inner _ .worker _ trivial (.workerCheck _ rfl))
  have g := g.step (.inner _ .worker _ trivial (.leave _ rfl))
  have g := g.step (.inner _ .stopReturn _ trivial (.stopReturn _ rfl rfl))
  obtain ⟨calls, hs⟩ := System.exists_observed SyncLogger.sinkCall (fun _ => []) h
  obtain ⟨calls', ht⟩ := System.exists_observed AsyncLogger.sinkCall (fun _ => []) g
  refine ⟨_, calls, _, calls', hs, ht, rfl, ?_⟩
  have hcalls : calls 0 = [[104, 105, 10]] :=
    SyncLogger.sinkCalls_eq hs (fun i => by cases i <;> rfl) (by decide)
  have hcalls' : calls' 0 = [[104, 105, 10]] :=
    ((AsyncLogger.logged_of ht).free (by simp)).eq_sent (by decide)
  have hfresh (clock : Nat → Int) : LogSink.Fresh (.rollBySizeSink σ)
      ((LogSink.rollBySizeSink σ).logAll P clock [[104, 105, 10]]) := by
    rw [LogSink.logAll_rollBySizeSink, LogSink.Fresh, RollBySizeSink.logAll_eq]
    exact RollBySizeSink.fresh_make P _ clock (by decide) 1 (by decide)
  refine (loggers_write P (fun _ => 0) (fun _ => 7) l Nat fun _ => .rollBySizeSink σ).2.2 _ _ _ _ _
    hs (fun i => by cases i <;> rfl) ht rfl rfl (fun c hc => ?_) 0 (by decide)
    (hcalls ▸ hfresh _) (hcalls' ▸ hfresh _)
  obtain rfl : c = (0, r) := List.mem_singleton.mp hc
  rfl

end MyLog
