import MyLog.Capacity
import MyLog.LogFiles
import MyLog.Records

/-! What the sinks have been given at any moment, and what can be read from it. -/

namespace MyLog

open Transition

/-- A sink lacks at most the item that is on its way. -/
theorem Called.cases {n m k : Nat} {calls : SinkCalls} {sent : List Bytes} {d : Bytes}
    (h : Called n calls sent (some (d, m))) (hk : k < n) :
    calls k = sent ∨ sent = calls k ++ [d] := by
  obtain ⟨earlier, hs, hcalls⟩ := h
  obtain ⟨before, last, rfl, hbefore, hlast⟩ := List.map_eq_append_iff.mp hs
  obtain rfl : last = [d] := by
    obtain ⟨x, rfl, hx⟩ := List.map_eq_singleton_iff.mp hlast
    rw [List.singleton_inj.mp hx]
  have hflat : earlier.flatten = before := by
    rw [← hbefore, ← List.flatMap_def, List.flatMap_singleton']
  rw [hcalls k hk, hflat]
  by_cases hm : k < m
  · exact .inl (by rw [if_pos hm])
  · exact .inr (by rw [if_neg hm, List.append_nil])

namespace SyncLogger

variable {ι : Type} [DecidableEq ι] {P : Platform} {l : Logger} {s t : SyncLogger ι}

/-- The thread that owns the mutex made the last call of the order. -/
theorem last_call (h : (system P l ι).Reachable s) {i : ι} {data : Bytes} {pc : SinkPc}
    (hi : s.thread i = .sinks data pc) :
    ∃ earlier r, s.order = earlier ++ [(i, r)] ∧ data = l.textOf P r := by
  induction h generalizing data pc with
  | init h =>
    obtain rfl := h
    cases hi
  | @step s t a hr hs ih =>
    have hown := owner (hr.step hs) hi
    cases hs with
    | filtered => exact ih hi
    | call j r d hj =>
      by_cases hij : i = j
      · subst hij
        simp at hi
      · exact ih (by simpa [hij] using hi)
    | acquire j r d hj =>
      obtain rfl : j = i := Option.some.inj hown
      obtain ⟨rfl, -⟩ : d = data ∧ SinkPc.next 0 = pc := by simpa using hi
      exact ⟨s.order, r, rfl, lock_text hr hj⟩
    | enter j d k hj | exit j d k hj =>
      obtain rfl : j = i := Option.some.inj ((owner hr hj).symm.trans hown)
      obtain ⟨rfl, -⟩ : d = data ∧ _ = pc := by simpa using hi
      exact ih hj
    | release => cases hown

/-- A sink was given the first `m` calls, that is all but the last one at most, and all
calls of the threads that are in none. -/
structure Given (P : Platform) (l : Logger) (s : SyncLogger ι) (data : List Bytes) (m : Nat) :
    Prop where
  data : data = (s.order.take m).map fun c => l.textOf P c.2
  last : s.order.length ≤ m + 1
  returned : ∀ i, s.thread i = .idle → ofThread i (s.order.take m) = (s.issued i).filter l.enabled

theorem ofThread_idle (h : (system P l ι).Reachable s) {i : ι} (hi : s.thread i = .idle) :
    ofThread i s.order = (s.issued i).filter l.enabled := by
  have ho := inOrder h i
  simp only [hi, SyncPc.pending, List.append_nil] at ho
  exact ho.symm

theorem given_all (h : (system P l ι).Reachable s) :
    Given P l s (s.order.map fun c => l.textOf P c.2) s.order.length :=
  ⟨by rw [List.take_length], Nat.le_succ _, fun i hi => by rw [List.take_length, ofThread_idle h hi]⟩

theorem given {calls : SinkCalls} (h : (logged P l ι).Reachable (s, calls)) {k : Nat}
    (hk : k < l.sinks.length) : ∃ m, Given P l s (calls k) m := by
  have hr : (system P l ι).Reachable s := System.observed_reachable h
  have hlog := logged_of h
  cases hm : s.mutex with
  | none => exact ⟨_, ((hlog.free hm).eq_sent hk) ▸ given_all hr⟩
  | some j =>
    obtain ⟨data, pc, hj⟩ : ∃ data pc, s.thread j = .sinks data pc := by
      have hj : (s.thread j).holds = true := (exclusive hr j).mpr hm
      cases ht : s.thread j with
      | sinks data pc => exact ⟨data, pc, rfl⟩
      | _ => simp [ht, SyncPc.holds] at hj
    rcases (hlog.busy j data pc hj).cases hk with hc | hc
    · exact ⟨_, hc ▸ given_all hr⟩
    · -- the sink lacks the call of the thread that owns the mutex
      obtain ⟨earlier, r, he, rfl⟩ := last_call hr hj
      rw [he, List.map_append] at hc
      refine ⟨earlier.length, ?_, by simp [he], fun i hi => ?_⟩
      · rw [he, List.take_left]
        exact (List.append_cancel_right hc).symm
      · have hji : j ≠ i := by
          rintro rfl
          rw [hi] at hj
          cases hj
        rw [← ofThread_idle hr hi, he, List.take_left, ofThread_append]
        simp [ofThread, hji]

end SyncLogger

namespace AsyncLogger

variable {ι : Type} [DecidableEq ι] {P : Platform} {l : Logger} {ty : AsyncType}
  {s : AsyncLogger ι} {calls : SinkCalls}

/-- A sink was given whole batches, and what it lacks is in the two buffers. -/
structure Lacks (s : AsyncLogger ι) (data : List Bytes) (con : Bytes) : Prop where
  batches : ∃ groups : List (List (Call ι)), data = groups.map Looper.bytesOf ∧
    groups.flatten <+: s.looper.flow.accepted
  stream : data.flatten ++ con ++ s.looper.proBuf.readable =
    Looper.bytesOf s.looper.flow.accepted
  con : con = s.looper.swappedIn ∨ con = s.looper.conBuf.readable

theorem lacks_of_handed (h : (Looper.system ι ty).Reachable s.looper) :
    Lacks s s.looper.handed s.looper.swappedIn :=
  ⟨⟨_, (Looper.coupled h).handed, Looper.batches_prefix_accepted h⟩, Looper.stream_eq h, .inl rfl⟩

theorem lacks (h : (logged P l ty ι).Reachable (s, calls)) {k : Nat} (hk : k < l.sinks.length) :
    ∃ con, Lacks s (calls k) con := by
  have hr : (system P l ty ι).Reachable s := System.observed_reachable h
  have hlooper := looper_reachable hr
  have hlog := logged_of h
  by_cases hw : s.looper.worker = .callback
  · rcases (hlog.busy hw).cases hk with hc | hc
    · exact ⟨_, hc ▸ lacks_of_handed hlooper⟩
    · -- the sink lacks the batch that the worker is giving out
      obtain ⟨⟨groups, hgroups, hpre⟩, hstream, -⟩ := lacks_of_handed hlooper
      have hswapped : s.looper.swappedIn = [] := by rw [Looper.swappedIn, hw]
      rw [hc, List.flatten_append, hswapped, List.append_nil] at hstream
      rw [hc] at hgroups
      obtain ⟨groups, last, rfl, hcalls, -⟩ := List.map_eq_append_iff.mp hgroups.symm
      rw [List.flatten_append] at hpre
      refine ⟨s.looper.conBuf.readable, ⟨groups, hcalls.symm, ?_⟩, ?_, .inr rfl⟩
      · exact (List.prefix_append _ _).trans hpre
      · simpa using hstream
  · exact ⟨_, (hlog.free hw).eq_sent hk ▸ lacks_of_handed hlooper⟩

theorem take_texts (h : (system P l ty ι).Reachable s) (m : Nat) :
    (s.order.take m).flatMap (fun c => l.textOf P c.2) =
      Looper.bytesOf (s.looper.flow.accepted.take m) := by
  rw [List.flatMap_def, List.map_take, (linked h).text, ← List.map_take, ← List.flatMap_def]
  rfl

theorem drop_texts (h : (system P l ty ι).Reachable s) (m : Nat) :
    (s.order.drop m).flatMap (fun c => l.textOf P c.2) =
      Looper.bytesOf (s.looper.flow.accepted.drop m) := by
  rw [List.flatMap_def, List.map_drop, (linked h).text, ← List.map_drop, ← List.flatMap_def]
  rfl

/-- A sink was given the first calls of the order, all of each; in safe mode the rest of
them fits into two buffers. -/
theorem given (h : (logged P l ty ι).Reachable (s, calls)) {k : Nat} (hk : k < l.sinks.length) :
    ∃ m, (calls k).flatten = (s.order.take m).flatMap (fun c => l.textOf P c.2) ∧
      (ty = .asyncSafe →
        ((s.order.drop m).flatMap fun c => l.textOf P c.2).length ≤ 2 * defaultBufferSize) := by
  have hr : (system P l ty ι).Reachable s := System.observed_reachable h
  obtain ⟨con, ⟨groups, hcalls, rest, hrest⟩, hstream, hcon⟩ := lacks h hk
  have hflat : (calls k).flatten = Looper.bytesOf groups.flatten := by
    rw [hcalls, Looper.bytesOf_flatten]
  have hlack : Looper.bytesOf rest = con ++ s.looper.proBuf.readable := by
    rw [hflat, ← hrest, Looper.bytesOf_append, List.append_assoc] at hstream
    exact (List.append_cancel_left hstream).symm
  refine ⟨groups.flatten.length, ?_, fun hty => ?_⟩
  · rw [take_texts hr, ← hrest, List.take_left, hflat]
  subst hty
  have hb := Looper.bounded (looper_reachable hr)
  have hlen : con.length ≤ defaultBufferSize := by
    rcases hcon with rfl | rfl
    · exact Looper.swappedIn_length hb
    · exact hb.con.readable_length
  have hpro := hb.pro.readable_length
  rw [drop_texts hr, ← hrest, List.drop_left, hlack, List.length_append]
  omega

end AsyncLogger

/-- What a crash leaves in the sinks, at any moment: the texts of the first calls of the
order. A synchronous logger has at most the last call to lose, whose thread is still in it,
and an asynchronous one in safe mode at most what fits into two buffers. -/
theorem crash_loss (P : Platform) (l : Logger) (ι : Type) [DecidableEq ι] :
    (∀ s calls, (SyncLogger.logged P l ι).Reachable (s, calls) → ∀ k < l.sinks.length,
      ∃ m, SyncLogger.Given P l s (calls k) m) ∧
    ∀ ty s calls, (AsyncLogger.logged P l ty ι).Reachable (s, calls) → ∀ k < l.sinks.length,
      ∃ m, (calls k).flatten = (s.order.take m).flatMap (fun c => l.textOf P c.2) ∧
        (ty = .asyncSafe →
          ((s.order.drop m).flatMap fun c => l.textOf P c.2).length ≤ 2 * defaultBufferSize) :=
  ⟨fun _ _ h _ hk => SyncLogger.given h hk, fun _ _ _ h _ hk => AsyncLogger.given h hk⟩

theorem crash_loss_queued :
    let l : Logger := ⟨[], .info, ⟨[], [.msg, .newLine]⟩, [0]⟩
    let r : Request := ⟨.warn, [], 1, 0, 0, [104, 105], by decide⟩
    ∃ (s : AsyncLogger Nat) (calls : SinkCalls) (m : Nat),
      (AsyncLogger.logged .midnight l .asyncSafe Nat).Reachable (s, calls) ∧ s.order = [(0, r)] ∧
        (calls 0).flatten = (s.order.take m).flatMap (fun c => l.textOf .midnight c.2) ∧
        ((s.order.drop m).flatMap fun c => l.textOf .midnight c.2).length ≤
          2 * defaultBufferSize := by
  intro l r
  have h := System.Reachable.init (S := AsyncLogger.system .midnight l .asyncSafe Nat) rfl
  have h := h.step (.call _ 0 r [104, 105, 10] _ rfl rfl (.call _ 0 _ rfl))
  have h := h.step (.inner _ (.producer 0) _ trivial (.producerLock _ 0 _ rfl rfl))
  have h := h.step (.inner _ (.producer 0) _ trivial (.producerTest _ 0 _ rfl))
  have h := h.step (.append _ 0 _ (.append _ 0 _ _ rfl rfl))
  obtain ⟨calls, hs⟩ := System.exists_observed AsyncLogger.sinkCall (fun _ => []) h
  obtain ⟨m, hgiven, hm⟩ := (crash_loss .midnight l Nat).2 _ _ _ hs 0 (by decide)
  exact ⟨_, calls, m, hs, rfl, hgiven, hm rfl⟩

/-- The calls of a logger in their order and what its sinks were given, once no call is in
progress or the destruction has completed. -/
inductive Finished (P : Platform) (l : Logger) (ι : Type) [DecidableEq ι] :
    List (ι × Request) → SinkCalls → Prop
  | sync {s : SyncLogger ι} {calls : SinkCalls}
      (h : (SyncLogger.logged P l ι).Reachable (s, calls)) (hidle : ∀ i, s.thread i = .idle) :
      Finished P l ι s.order calls
  | async {ty : AsyncType} {s : AsyncLogger ι} {calls : SinkCalls}
      (h : (AsyncLogger.logged P l ty ι).Reachable (s, calls))
      (hd : s.looper.stopper = .returned) : Finished P l ι s.order calls

section Finished

variable {ι κ : Type} [DecidableEq ι] [DecidableEq κ] {P : Platform} {l l' : Logger}
  {order : List (ι × Request)} {order' : List (κ × Request)} {calls calls' : SinkCalls}

theorem Finished.flatten (h : Finished P l ι order calls) {k : Nat} (hk : k < l.sinks.length) :
    (calls k).flatten = (order.map fun c => l.message c.2).flatMap (l.formatter.format P) := by
  rw [List.flatMap_map]
  cases h with
  | sync h hidle =>
    rw [SyncLogger.sinkCalls_eq h hidle hk, ← List.flatMap_def]
    rfl
  | @async _ s _ h hd =>
    have hr : (AsyncLogger.system P l _ ι).Reachable s := System.observed_reachable h
    have hw := (Looper.stopping (AsyncLogger.looper_reachable hr)).exited hd
    rw [((AsyncLogger.logged_of h).free (by simp [hw])).eq_sent hk, AsyncLogger.handed_all hr hd,
      ← List.flatMap_def]
    rfl

/-- Where two loggers, each of either kind, write readable records in one pattern and leave
the same bytes in a sink, of whatever kind, they let the same calls through their limits, in
the same order, as far as the pattern shows. -/
theorem log_determines_calls (hf : l'.formatter = l.formatter) (h : Finished P l ι order calls)
    (h' : Finished P l' κ order' calls')
    (hread : ∀ c ∈ order, l.formatter.Readable P (l.message c.2) ∧ l.textOf P c.2 ≠ [])
    (hread' : ∀ c ∈ order', l'.formatter.Readable P (l'.message c.2) ∧ l'.textOf P c.2 ≠ [])
    {k k' : Nat} (hk : k < l.sinks.length) (hk' : k' < l'.sinks.length) (σ σ' : LogSink)
    (clock clock' : Nat → Int) (hσ : σ.written = σ'.written)
    (hw : (σ.logAll P clock (calls k)).written = (σ'.logAll P clock' (calls' k')).written) :
    List.Forall₂ (fun c c' => l.formatter.SameFields P (l.message c.2) (l'.message c'.2))
      order order' := by
  rw [LogSink.logAll_written, LogSink.logAll_written, hσ] at hw
  have he := List.append_cancel_left hw
  rw [h.flatten hk, h'.flatten hk', hf] at he
  have hfields := Formatter.sameFields_of_flatMap (fun m hm => ?_) he
  · rwa [List.forall₂_map_left_iff, List.forall₂_map_right_iff] at hfields
  rcases List.mem_append.mp hm with hm | hm
  · obtain ⟨c, hc, rfl⟩ := List.mem_map.mp hm
    exact hread c hc
  · obtain ⟨c, hc, rfl⟩ := List.mem_map.mp hm
    rw [← hf]
    exact hread' c hc

theorem log_determines_calls_default :
    let l : Logger := ⟨[109], .info, ⟨Formatter.defaultPattern, Formatter.defaultItems⟩, [0]⟩
    let r : Request := ⟨.warn, [102], 1, 0, 0, [104, 105], by decide⟩
    ∃ (s t : SyncLogger Nat) (calls calls' : SinkCalls),
      (SyncLogger.logged .midnight l Nat).Reachable (s, calls) ∧ s.order = [(0, r)] ∧
      (SyncLogger.logged .midnight l Nat).Reachable (t, calls') ∧ t.order = [(1, r)] ∧
      List.Forall₂ (fun c c' => l.formatter.SameFields .midnight (l.message c.2) (l.message c'.2))
        s.order t.order := by
  intro l r
  have hrun (i : Nat) : ∃ s : SyncLogger Nat, (SyncLogger.system .midnight l Nat).Reachable s ∧
      s.order = [(i, r)] ∧ ∀ j, s.thread j = .idle := by
    have h := System.Reachable.init (S := SyncLogger.system .midnight l Nat) rfl
    have h := h.step (.call _ i r (l.textOf .midnight r) rfl rfl)
    have h := h.step (.acquire _ i _ _ (Function.update_self ..) rfl)
    have h := h.step (.enter _ i _ 0 (Function.update_self ..) (by decide))
    have h := h.step (.exit _ i _ 0 (Function.update_self ..))
    have h := h.step (.release _ i _ 1 (Function.update_self ..) (by decide))
    refine ⟨_, h, rfl, fun j => ?_⟩
    simp [Function.update_idem, SyncLogger.init]
  have hrecord : l.formatter.Readable .midnight (l.message r) ∧ l.textOf .midnight r ≠ [] :=
    ⟨Formatter.readable_default_iff.mpr (by decide), by decide⟩
  have hread (i : Nat) : ∀ c ∈ [(i, r)], l.formatter.Readable .midnight (l.message c.2) ∧
      l.textOf .midnight c.2 ≠ [] := by
    intro c hc
    obtain rfl := List.mem_singleton.mp hc
    exact hrecord
  obtain ⟨s, h, hs, hidle⟩ := hrun 0
  obtain ⟨t, h', ht, hidle'⟩ := hrun 1
  obtain ⟨calls, h⟩ := System.exists_observed SyncLogger.sinkCall (fun _ => []) h
  obtain ⟨calls', h'⟩ := System.exists_observed SyncLogger.sinkCall (fun _ => []) h'
  have hf := Finished.sync h hidle
  have hf' := Finished.sync h' hidle'
  refine ⟨s, t, calls, calls', h, hs, h', ht, ?_⟩
  have hsink : 0 < l.sinks.length := by decide
  refine log_determines_calls rfl hf hf' (hs ▸ hread 0) (ht ▸ hread 1) hsink hsink
    (.stdoutSink []) (.stdoutSink []) (fun _ => 0) (fun _ => 0) rfl ?_
  rw [LogSink.logAll_written, LogSink.logAll_written, hf.flatten hsink, hf'.flatten hsink, hs, ht]
  rfl

end Finished

end MyLog
