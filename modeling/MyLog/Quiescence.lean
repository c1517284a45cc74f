import MyLog.Shutdown
import MyLog.WorkBound

/-! The looper left alone comes to rest. What is at rest is known: before `stop` every
message has been handed over, and after it `stop` has returned, unless its notification
was lost. -/

namespace MyLog

open Transition

namespace Looper

variable {ι : Type}

/-- No thread is inside `push` except to sleep, and the worker sleeps or has left. -/
structure AtRest (s : Looper ι) : Prop where
  producer : ∀ i, s.producer i = .idle ∨ ∃ c, s.producer i = .asleep c
  worker : s.worker = .asleep ∧ (s.stopper = .idle ∨ s.stopper = .join) ∨
    s.worker = .exited ∧ s.stopper = .returned

variable [DecidableEq ι] {ty : AsyncType} {s t : Looper ι} {a : Action ι} {c : Call ι}

section Resting

variable (hrest : ((system ι ty).alone outside).Resting s)
include hrest

theorem no_producer_step {i : ι} {p : ProducerPc ι} (hi : s.producer i = p)
    (hp : p.sleeps = false) (t : Looper ι) : ¬ Step ty s (.producer i) t :=
  fun h => hrest _ t ⟨h, show (s.producer i).sleeps = false by rw [hi, hp]⟩

theorem no_worker_step {w : WorkerPc} (hw : s.worker = w) (ha : w ≠ .asleep) (t : Looper ι) :
    ¬ Step ty s .worker t :=
  fun h => hrest _ t ⟨h, by simp [outside, hw, ha]⟩

theorem producer_outside (i : ι) : (s.producer i).holds = false := by
  cases hi : s.producer i with
  | test c => exact (no_producer_step hrest hi rfl _ (.producerTest _ i c hi)).elim
  | sleep c => exact (no_producer_step hrest hi rfl _ (.producerSleep _ i c hi)).elim
  | write c =>
    obtain ⟨b, hb⟩ := s.proBuf.push_isSome c.data
    exact (hrest _ _ ⟨.append _ i c b hi hb, rfl⟩).elim
  | notify c => exact (no_producer_step hrest hi rfl _ (.notifyOne _ i c hi)).elim
  | unlock c => exact (no_producer_step hrest hi rfl _ (.producerReturn _ i c hi)).elim
  | _ => rfl

theorem worker_outside : s.worker.holds = false := by
  cases hw : s.worker with
  | check => exact (no_worker_step hrest hw (by simp) _ (.workerCheck _ hw)).elim
  | test => exact (no_worker_step hrest hw (by simp) _ (.workerTest _ hw)).elim
  | sleep => exact (no_worker_step hrest hw (by simp) _ (.workerSleep _ hw)).elim
  | swap => exact (no_worker_step hrest hw (by simp) _ (.swap _ hw)).elim
  | notify => exact (no_worker_step hrest hw (by simp) _ (.notifyAll _ hw)).elim
  | unlock => exact (no_worker_step hrest hw (by simp) _ (.workerUnlock _ hw)).elim
  | leave => exact (no_worker_step hrest hw (by simp) _ (.leave _ hw)).elim
  | _ => rfl

/-- Whoever owns the mutex has a step to take. -/
theorem mutex_free (hr : (system ι ty).Reachable s) : s.mutex = none := by
  cases hm : s.mutex with
  | none => rfl
  | some a =>
    have hin : inside s.worker s.producer a = true := (exclusive hr a).mpr hm
    cases a with
    | worker => exact absurd hin (by simp [inside, worker_outside hrest])
    | producer i => exact absurd hin (by simp [inside, producer_outside hrest i])

theorem worker_rests (hm : s.mutex = none) : s.worker = .asleep ∨ s.worker = .exited := by
  have hout := worker_outside hrest
  cases hw : s.worker with
  | asleep => exact .inl rfl
  | exited => exact .inr rfl
  | lock => exact (no_worker_step hrest hw (by simp) _ (.workerLock _ hw hm)).elim
  | relock => exact (no_worker_step hrest hw (by simp) _ (.workerRelock _ hw hm)).elim
  | call => exact (hrest _ _ ⟨.callBack _ hw, rfl⟩).elim
  | callback => exact (hrest _ _ ⟨.callBackReturns _ hw, rfl⟩).elim
  | reset => exact (no_worker_step hrest hw (by simp) _ (.reset _ hw)).elim
  | _ =>
    rw [hw] at hout
    cases hout

theorem atRest_of_resting (hr : (system ι ty).Reachable s) : AtRest s := by
  have hm := mutex_free hrest hr
  refine ⟨fun i => ?_, ?_⟩
  · have hout := producer_outside hrest i
    cases hi : s.producer i with
    | idle => exact .inl rfl
    | asleep c => exact .inr ⟨c, rfl⟩
    | lock c => exact (no_producer_step hrest hi rfl _ (.producerLock _ i c hi hm)).elim
    | relock c => exact (no_producer_step hrest hi rfl _ (.producerRelock _ i c hi hm)).elim
    | _ =>
      rw [hi] at hout
      cases hout
  · have hflag := (stopping hr).flag
    rcases worker_rests hrest hm with hw | hw
    · refine .inl ⟨hw, ?_⟩
      cases hp : s.stopper with
      | idle => exact .inl rfl
      | join => exact .inr rfl
      | flag => exact (hrest _ _ ⟨.stopFlag _ hp, rfl⟩).elim
      | notify => exact (hrest _ _ ⟨.stopNotify _ hp, rfl⟩).elim
      | returned => exact absurd ((stopping hr).exited hp) (by simp [hw])
    · refine .inr ⟨hw, ?_⟩
      cases hp : s.stopper with
      | returned => rfl
      | join => exact (hrest _ _ ⟨.stopReturn _ hp hw, rfl⟩).elim
      | notify => exact (hrest _ _ ⟨.stopNotify _ hp, rfl⟩).elim
      | idle | flag =>
        -- the worker does not leave before the flag is up
        rw [left_stop hr (.inr hw), hp] at hflag
        cases hflag

end Resting

theorem AtRest.resting (h : AtRest s) : ((system ι ty).alone outside).Resting s := by
  rintro a t ⟨hs, ha⟩
  have hp {i : ι} {p : ProducerPc ι} (hi : s.producer i = p) (hidle : p ≠ .idle)
      (hsleep : p.sleeps = false) : False := by
    rcases h.producer i with he | ⟨c, he⟩ <;> rw [he] at hi <;> subst hi
    · exact hidle rfl
    · cases hsleep
  have hw {w : WorkerPc} (hi : s.worker = w) (ha : w ≠ .asleep) (he : w ≠ .exited) : False := by
    rcases h.worker with ⟨hw, -⟩ | ⟨hw, -⟩ <;> rw [hw] at hi
    · exact ha hi.symm
    · exact he hi.symm
  cases hs with
  | call | stopCall => cases ha
  | producerSpurious i c hi => simp [outside, hi, ProducerPc.sleeps] at ha
  | workerSpurious hi => simp [outside, hi] at ha
  | producerLock i c hi | producerTest i c hi | producerSleep i c hi | producerRelock i c hi
  | append i c b hi | notifyOne i c hi | producerReturn i c hi => exact hp hi (by simp) rfl
  | stopFlag hi | stopNotify hi =>
    rcases h.worker with ⟨-, hj | hj⟩ | ⟨-, hj⟩ <;> rw [hj] at hi <;> cases hi
  | stopReturn hi he =>
    rcases h.worker with ⟨hj, -⟩ | ⟨-, hj⟩
    · rw [he] at hj
      cases hj
    · rw [hi] at hj
      cases hj
  | workerLock hi | workerCheck hi | workerTest hi | workerSleep hi | workerRelock hi | swap hi
  | notifyAll hi | workerUnlock hi | callBack hi | callBackReturns hi | reset hi | leave hi =>
    exact hw hi (by simp) (by simp)

/-- An appended call has returned, or its thread is on the way out of `push`. -/
def Accounted (accepted returned : List (Call ι)) (f : ι → ProducerPc ι) : Prop :=
  ∀ c ∈ accepted, c ∈ returned ∨ ∃ i, c ∈ (f i).written

theorem Accounted.move {accepted returned : List (Call ι)} {f : ι → ProducerPc ι} {i : ι}
    {p : ProducerPc ι} (h : Accounted accepted returned f) (hp : ∀ c ∈ (f i).written, c ∈ p.written) :
    Accounted accepted returned (Function.update f i p) := by
  intro c hc
  refine (h c hc).imp_right fun ⟨j, hj⟩ => ⟨j, ?_⟩
  by_cases hji : j = i
  · subst hji
    simpa using hp c hj
  · rwa [Function.update_of_ne hji]

theorem accounted (h : (system ι ty).Reachable s) :
    Accounted s.flow.accepted s.returned s.producer := by
  apply h.invariant
  · intro s hs
    subst hs
    exact fun c hc => by cases hc
  · intro s a t _ ih hs
    cases hs with
    | call i data hi | producerLock i c hi | producerTest i c hi | producerSleep i c hi
    | producerSpurious i c hi | producerRelock i c hi =>
      exact ih.move (by simp [hi, ProducerPc.written])
    | notifyOne i c hi => exact ih.move (by simp [hi, ProducerPc.written])
    | append i d b hi =>
      have hmove : Accounted s.flow.accepted s.returned (Function.update s.producer i (.notify d)) :=
        ih.move (by simp [hi, ProducerPc.written])
      intro c hc
      rcases List.mem_append.mp hc with hc | hc
      · exact hmove c hc
      · exact .inr ⟨i, by simpa [ProducerPc.written] using hc⟩
    | producerReturn i d hi =>
      intro c hc
      rcases ih c hc with hc | ⟨j, hj⟩
      · exact .inl (List.mem_append_left _ hc)
      · by_cases hji : j = i
        · subst hji
          exact .inl (List.mem_append_right _ (by simpa [hi, ProducerPc.written] using hj))
        · exact .inr ⟨j, by simpa [hji] using hj⟩
    | notifyAll =>
      intro c hc
      refine (ih c hc).imp_right (Exists.imp fun j hj => ?_)
      simpa using hj
    | _ => exact ih

namespace AtRest

variable (h : AtRest s) (hr : (system ι ty).Reachable s)
include h hr

theorem mutex : s.mutex = none := by
  cases hm : s.mutex with
  | none => rfl
  | some a =>
    have hin : inside s.worker s.producer a = true := (exclusive hr a).mpr hm
    cases a with
    | worker => rcases h.worker with ⟨hw, -⟩ | ⟨hw, -⟩ <;> rw [inside, hw] at hin <;> cases hin
    | producer i => rcases h.producer i with hi | ⟨c, hi⟩ <;> rw [inside, hi] at hin <;> cases hin

/-- Only a message that finds too little room keeps a thread in `push`. -/
theorem asleep {i : ι} (hi : s.producer i = .asleep c) :
    ty = .asyncSafe ∧ s.proBuf.writeAbleSize < c.data.length := by
  refine ⟨?_, short_of_asleep hr (h.mutex hr) hi⟩
  cases ty with
  | asyncSafe => rfl
  | asyncUnsafe =>
    have hnot := unsafe_never_waits hr i
    rw [hi] at hnot
    cases hnot

theorem entered (hc : c ∈ s.entered) : c ∈ s.returned ∨ s.producer c.thread = .asleep c := by
  have hmem : c ∈ byThread c.thread s.entered := by simp [byThread, hc]
  rw [(threads hr).pending c.thread] at hmem
  rcases List.mem_append.mp hmem with hmem | hmem
  · rcases accounted hr c (List.mem_filter.mp hmem).1 with hret | ⟨i, hi⟩
    · exact .inl hret
    · rcases h.producer i with he | ⟨d, he⟩ <;> rw [he] at hi <;> cases hi
  · rcases h.producer c.thread with he | ⟨d, he⟩ <;> rw [he] at hmem
    · cases hmem
    · obtain rfl : c = d := List.mem_singleton.mp hmem
      exact .inr he

theorem handed (hw : s.worker = .asleep) : s.handed.flatten = bytesOf s.flow.accepted := by
  have hstream := stream_eq hr
  rw [swappedIn, hw, empty_of_asleep hr (h.mutex hr) hw] at hstream
  simpa using hstream

theorem handedOnce (hw : s.worker = .asleep) (hc : c ∈ s.flow.accepted) : HandedOnce s c := by
  intro hd
  have hcon := (coupled hr).con
  have hpro := (coupled hr).pro
  rw [empty_of_asleep hr (h.mutex hr) hw] at hpro
  rw [hw] at hcon
  rcases (Pipeline.mem_delivered (flow_reachable hr)).mp hc with hc | hc | hc
  · exact handedOnce_of_mem hr hc hd
  · rw [hcon.1] at hc
    cases hc
  · exact (hd (data_nil_of_bytesOf hpro.symm hc)).elim

end AtRest

/-- At rest nobody owns the mutex, and a thread that has not returned from `push` sleeps
in safe mode, on a message that is too long for the room left. A sleeping worker has
handed over everything that was appended. -/
theorem rest_states (hr : (system ι ty).Reachable s) :
    (((system ι ty).alone outside).Resting s ↔ AtRest s) ∧
    (AtRest s → s.mutex = none ∧
      (∀ c ∈ s.entered, c ∈ s.returned ∨ s.producer c.thread = .asleep c) ∧
      (∀ i c, s.producer i = .asleep c →
        ty = .asyncSafe ∧ s.proBuf.writeAbleSize < c.data.length) ∧
      (s.worker = .asleep → s.handed.flatten = bytesOf s.flow.accepted ∧
        ∀ c ∈ s.flow.accepted, HandedOnce s c)) := by
  refine ⟨⟨fun h => atRest_of_resting h hr, AtRest.resting⟩, fun h =>
    ⟨h.mutex hr, fun c hc => h.entered hr hc, ?_, ?_⟩⟩
  · exact fun i c hi => h.asleep hr hi
  · exact fun hw => ⟨h.handed hr hw, fun c hc => h.handedOnce hr hw hc⟩

theorem rest_states_idle : ∃ s : Looper Nat, (system Nat .asyncSafe).Reachable s ∧
    ((system Nat .asyncSafe).alone outside).Resting s ∧ s.mutex = none := by
  have h := System.Reachable.init (S := system Nat .asyncSafe) rfl
  have h := h.step (.workerLock _ rfl rfl)
  have h := h.step (.workerCheck _ rfl)
  have h := h.step (.workerTest _ rfl)
  have h := h.step (.workerSleep _ rfl)
  obtain ⟨hiff, hfacts⟩ := rest_states h
  have hrest := hiff.mpr ⟨fun _ => .inl rfl, .inl ⟨rfl, .inl rfl⟩⟩
  exact ⟨_, h, hrest, (hfacts (hiff.mp hrest)).1⟩

/-- The threads that have called `push`. -/
def callers (s : Looper ι) : Finset ι := (s.entered.map Call.thread).toFinset

theorem Step.entered_eq (hs : Step ty s a t) (ha : outside s a = false) :
    t.entered = s.entered ∧ (t.stopper = .idle ↔ s.stopper = .idle) := by
  cases hs with
  | call | stopCall => cases ha
  | stopFlag hp | stopNotify hp | stopReturn hp => exact ⟨rfl, by simp [hp]⟩
  | _ => exact ⟨rfl, Iff.rfl⟩

theorem alone_run {tr : List (Looper ι × Action ι)} (hr : (system ι ty).Reachable s)
    (h : ((system ι ty).alone outside).Run s tr t) :
    (system ι ty).Reachable t ∧ t.entered = s.entered ∧ (t.stopper = .idle ↔ s.stopper = .idle) := by
  induction h with
  | nil => exact ⟨hr, rfl, Iff.rfl⟩
  | snoc _ hs ih =>
    obtain ⟨ht, he, hst⟩ := ih
    obtain ⟨he', hst'⟩ := Step.entered_eq hs.1 hs.2
    exact ⟨ht.step hs.1, he'.trans he, hst'.trans hst⟩

theorem settles (hr : (system ι ty).Reachable s) :
    ((system ι ty).alone outside).Settles (s.budget s.callers) AtRest s :=
  (potential s.callers ty).settles
    ⟨hr, fun _ hc => List.mem_toFinset.mpr (List.mem_map_of_mem hc)⟩
    (fun _ _ _ hs hst => ⟨hs.1.step hst.1, by rw [(Step.entered_eq hst.1 hst.2).1]; exact hs.2⟩)
    fun _ ht hrest => atRest_of_resting hrest ht.1

/-- Before `stop`, and with messages that fit into a buffer where threads wait for room:
whatever the order of the steps, the looper left alone comes to rest with all calls of
`push` returned and each message handed over in one batch. -/
theorem settles_before_stop (hr : (system ι ty).Reachable s) (hstop : s.stopper = .idle)
    (hfit : ty = .asyncSafe → ∀ c ∈ s.entered, c.data.length ≤ defaultBufferSize) :
    ((system ι ty).alone outside).Settles (s.budget s.callers)
      (fun t => t.worker = .asleep ∧ (∀ i, t.producer i = .idle) ∧
        t.handed.flatten = bytesOf t.flow.accepted ∧
        ∀ c ∈ s.entered, c ∈ t.returned ∧ HandedOnce t c) s := by
  refine (settles hr).imp fun tr t hrun h => ?_
  obtain ⟨ht, he, hst⟩ := alone_run hr hrun
  have hw : t.worker = .asleep := by
    rcases h.worker with ⟨hw, -⟩ | ⟨-, hret⟩
    · exact hw
    · rw [hst.mpr hstop] at hret
      cases hret
  have hawake {i : ι} {c : Call ι} (hi : t.producer i = .asleep c) : False := by
    obtain ⟨rfl, -⟩ := h.asleep ht hi
    have hc : c ∈ byThread i t.entered := by simp [(threads ht).pending i, hi, ProducerPc.pending]
    have hlong := oversized_of_bothAsleep ht ⟨h.mutex ht, hw, hi⟩
    have hshort := hfit rfl c (he ▸ (List.mem_filter.mp hc).1)
    omega
  refine ⟨hw, fun i => (h.producer i).resolve_right (fun he => he.elim fun _ => hawake),
    h.handed ht hw, fun c hc => ?_⟩
  have hret := (h.entered ht (he ▸ hc)).resolve_right hawake
  exact ⟨hret, h.handedOnce ht hw ((threads ht).returned c hret)⟩

theorem settles_before_stop_call : ∃ (s : Looper Nat) (c : Call Nat) (tr : _) (t : Looper Nat),
    (system Nat .asyncSafe).Reachable s ∧ c ∈ s.entered ∧ c.data = [104, 105] ∧
      ((system Nat .asyncSafe).alone outside).Run s tr t ∧ c ∈ t.returned ∧ HandedOnce t c := by
  have h := System.Reachable.init (S := system Nat .asyncSafe) rfl
  have h := h.step (.call _ 0 [104, 105] rfl)
  obtain ⟨tr, t, hr, -, -, -, hall⟩ := (settles_before_stop h rfl fun _ c hc => by
    rw [List.mem_singleton.mp hc]
    decide).exists_rest
  exact ⟨_, _, tr, t, h, List.mem_singleton.mpr rfl, rfl, hr, hall _ (List.mem_singleton.mpr rfl)⟩

/-- Once `stop` has been called, the looper left alone comes to rest with `stop` returned,
or its wakeup was lost; it was not where the worker is awake. -/
theorem stop_settles (hr : (system ι ty).Reachable s) (hstop : s.stopper ≠ .idle) :
    ((system ι ty).alone outside).Settles (s.budget s.callers)
      (fun t => t.stopper = .returned ∧ t.worker = .exited ∨ LostWakeup t) s ∧
    (Awake s → ((system ι ty).alone outside).Settles (s.budget s.callers)
      (fun t => t.stopper = .returned ∧ t.worker = .exited) s) := by
  have hsettles := settles hr
  refine ⟨hsettles.imp fun tr t hrun h => ?_, fun hawake => hsettles.imp fun tr t hrun h => ?_⟩
  · obtain ⟨-, -, hst⟩ := alone_run hr hrun
    rcases h.worker with ⟨hw, hidle | hjoin⟩ | ⟨hw, hret⟩
    · exact (hstop (hst.mp hidle)).elim
    · exact .inr ⟨hjoin, hw⟩
    · exact .inl ⟨hret, hw⟩
  · have ht := hawake.run (System.restrict_run hrun)
    rcases h.worker with ⟨hw, -⟩ | ⟨hw, hret⟩
    · exact (ht.asleep hw).elim
    · exact ⟨hret, hw⟩

theorem stop_settles_awake : ∃ (s : Looper Nat) (tr : _) (t : Looper Nat),
    (system Nat .asyncSafe).Reachable s ∧ s.stopper = .join ∧
      ((system Nat .asyncSafe).alone outside).Run s tr t ∧ t.stopper = .returned := by
  have h := System.Reachable.init (S := system Nat .asyncSafe) rfl
  have h := h.step (.stopCall _ rfl)
  have h := h.step (.stopFlag _ rfl)
  have h := h.step (.stopNotify _ rfl)
  obtain ⟨tr, t, hr, ht, -⟩ :=
    ((stop_settles h (by simp)).2 ⟨rfl, by simp [init, WorkerPc.wake], by simp [init, WorkerPc.wake]⟩).exists_rest
  exact ⟨_, tr, t, h, rfl, hr, ht⟩

end Looper

end MyLog
