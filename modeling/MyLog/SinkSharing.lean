import Mathlib.Data.List.Pairwise
import MyLog.AsyncLogger
import MyLog.Builder
import MyLog.SyncLogger

/-! Threads inside a sink. Nothing guards a sink but the mutex of a synchronous
logger and the single worker of an asynchronous one, so two loggers that share a
sink can both be inside it. -/

namespace MyLog

open Transition

inductive LoggerState (ι : Type)
  | sync (s : SyncLogger ι)
  | async (s : AsyncLogger ι)

namespace LoggerState

variable {ι : Type} [DecidableEq ι]

def initial (x : BuiltLogger) : LoggerState ι :=
  match x.type with
  | .loggerSync => sync .init
  | .loggerAsync => async .init

inductive Step (P : Platform) (x : BuiltLogger) :
    LoggerState ι → LoggerAction ι → LoggerState ι → Prop
  | sync {s t : SyncLogger ι} {a : LoggerAction ι} (h : SyncLogger.Step P x.logger s a t) :
      Step P x (.sync s) a (.sync t)
  | async {s t : AsyncLogger ι} {a : LoggerAction ι}
      (h : AsyncLogger.Step P x.logger x.looperType s a t) : Step P x (.async s) a (.async t)

def system (P : Platform) (x : BuiltLogger) (ι : Type) [DecidableEq ι] :
    System (LoggerState ι) (LoggerAction ι) where
  init s := s = initial x
  step := Step P x

def Idle (i : ι) : LoggerState ι → Prop
  | sync s => s.thread i = .idle
  | async s => s.looper.producer i = .idle

/-- A thread, or with `none` the looper's thread, is in `log` of the `p`-th sink. -/
def Within (p : Nat) : LoggerState ι → Option ι → Prop
  | sync s, some i => ∃ data, s.thread i = .sinks data (.within p)
  | async s, none => s.looper.worker = .callback ∧ s.realLog = .within p
  | _, _ => False

variable {P : Platform} {x : BuiltLogger} {s t : LoggerState ι} {a : LoggerAction ι}

theorem sync_reachable (h : (system P x ι).Reachable s) {u : SyncLogger ι} (hs : s = .sync u) :
    (SyncLogger.system P x.logger ι).Reachable u := by
  induction h generalizing u with
  | init h =>
    have h : sync u = initial x := hs.symm.trans h
    rw [initial] at h
    split at h
    · exact .init (LoggerState.sync.inj h)
    · cases h
  | step _ hst ih =>
    cases hst with
    | sync h =>
      obtain rfl := LoggerState.sync.inj hs
      exact (ih rfl).step h
    | async => cases hs

theorem within_unique (h : (system P x ι).Reachable s) {p p' : Nat} {i j : Option ι}
    (hi : s.Within p i) (hj : s.Within p' j) : i = j := by
  cases s with
  | sync u =>
    cases i with
    | none => exact hi.elim
    | some i =>
      cases j with
      | none => exact hj.elim
      | some j =>
        obtain ⟨_, hi⟩ := hi
        obtain ⟨_, hj⟩ := hj
        have hu := sync_reachable h rfl
        exact (SyncLogger.owner hu hi).symm.trans (SyncLogger.owner hu hj)
  | async u =>
    cases i with
    | some i => exact hi.elim
    | none =>
      cases j with
      | none => rfl
      | some j => exact hj.elim

def CallsBy (i : ι) (_ : LoggerState ι) (a : LoggerAction ι) : Prop :=
  ∀ j r, a = .call j r → j = i

/-- A logger can get into its first sink, with calls of one thread at most. A
synchronous one does so in a call, an asynchronous one also with an empty batch,
while it is destroyed. -/
def Enters (P : Platform) (x : BuiltLogger) (i : ι) (agent : Option ι) : Prop :=
  ∃ tr y, ((system P x ι).restrict (CallsBy i)).Run (initial x) tr y ∧ y.Within 0 agent ∧
    ∀ j, j ≠ i → y.Idle j

theorem sync_enters (hx : x.type = .loggerSync) (hl : x.logger.limitLevel = .debug)
    (hs : x.logger.sinks ≠ []) (i : ι) : Enters P x i (some i) := by
  let r : Request := ⟨.debug, [], 0, 0, 0, [], by simp⟩
  have hr : x.logger.handed P r = .text (x.logger.textOf P r) := by
    rw [Logger.handed_eq, Logger.enabled, hl]
    rfl
  have hinit : initial x = (.sync .init : LoggerState ι) := by rw [initial, hx]
  have hlen := List.length_pos_of_ne_nil hs
  have h : ((system P x ι).restrict (CallsBy i)).Run (.sync .init) [] (.sync .init) := .nil
  have h := h.snoc ⟨.sync (.call _ i r _ rfl hr), fun j _ h => by cases h; rfl⟩
  have h := h.snoc ⟨.sync (.acquire _ i r (x.logger.textOf P r) (by simp) rfl), fun _ _ h => by cases h⟩
  have h := h.snoc ⟨.sync (.enter _ i (x.logger.textOf P r) 0 (by simp) hlen), fun _ _ h => by cases h⟩
  rw [Enters, hinit]
  refine ⟨_, _, h, ⟨x.logger.textOf P r, by simp⟩, fun j hj => ?_⟩
  simp [Idle, hj, SyncLogger.init]

theorem inner_step {i : ι} {tr : List (LoggerState ι × LoggerAction ι)} {u : LoggerState ι}
    {s : AsyncLogger ι} {y : Looper ι} {b : Looper.Action ι}
    (h : ((system P x ι).restrict (CallsBy i)).Run u tr (.async s)) (hb : b.Inner)
    (hy : Looper.Step x.looperType s.looper b y) :
    ∃ tr', ((system P x ι).restrict (CallsBy i)).Run u tr' (.async { s with looper := y }) :=
  ⟨_, h.snoc ⟨.async (.inner s b y hb hy), fun _ _ h => by cases h⟩⟩

theorem async_enters (hx : x.type = .loggerAsync) (hs : x.logger.sinks ≠ []) (i : ι) :
    Enters P x i none := by
  have hinit : initial x = (.async .init : LoggerState ι) := by rw [initial, hx]
  have hlen := List.length_pos_of_ne_nil hs
  have h : ((system P x ι).restrict (CallsBy i)).Run (.async .init) [] (.async .init) := .nil
  obtain ⟨_, h⟩ := inner_step (b := .worker) h trivial (.workerLock _ rfl rfl)
  obtain ⟨_, h⟩ := inner_step (b := .worker) h trivial (.workerCheck _ rfl)
  have h := h.snoc ⟨.async (.destroy _ _ (fun _ => rfl) (.stopCall _ rfl)),
    fun _ _ h => by cases h⟩
  obtain ⟨_, h⟩ := inner_step (b := .stopFlag) h trivial (.stopFlag _ rfl)
  obtain ⟨_, h⟩ := inner_step (b := .worker) h trivial (.workerTest _ rfl)
  obtain ⟨_, h⟩ := inner_step (b := .worker) h trivial (.swap _ rfl)
  -- the safe mode has one more step before the mutex is free
  have hunlock : ∃ tr s, ((system P x ι).restrict (CallsBy i)).Run (.async .init) tr (.async s) ∧
      s.looper.worker = .unlock ∧ ∀ j, s.looper.producer j = .idle := by
    by_cases hty : x.looperType = .asyncSafe
    · obtain ⟨_, h⟩ := inner_step (b := .worker) h trivial (.notifyAll _ (by simp [hty]))
      exact ⟨_, _, h, rfl, fun _ => rfl⟩
    · exact ⟨_, _, h, by simp [hty], fun _ => rfl⟩
  obtain ⟨_, s, h, hw, hp⟩ := hunlock
  obtain ⟨_, h⟩ := inner_step (b := .worker) h trivial (.workerUnlock _ hw)
  have h := h.snoc ⟨.async (.realLog _ _ (.callBack _ rfl)), fun _ _ h => by cases h⟩
  have h := h.snoc ⟨.async (.enter _ 0 rfl rfl hlen), fun _ _ h => by cases h⟩
  rw [Enters, hinit]
  exact ⟨_, _, h, ⟨rfl, rfl⟩, fun j _ => hp j⟩

theorem enters (hl : x.logger.limitLevel = .debug) (hs : x.logger.sinks ≠ []) (i : ι) :
    ∃ agent, (agent = some i ∨ agent = none) ∧ Enters P x i agent := by
  cases hx : x.type with
  | loggerSync => exact ⟨some i, .inl rfl, sync_enters hx hl hs i⟩
  | loggerAsync => exact ⟨none, .inr rfl, async_enters hx hs i⟩

omit [DecidableEq ι] in
theorem initial_idle (x : BuiltLogger) (i : ι) : (initial x).Idle i := by
  rw [initial]
  split <;> rfl

end LoggerState

inductive SinkThread (ι κ : Type)
  | caller (i : ι)
  | looper (k : κ)

namespace Builders

variable {β : Type}

/-- The loggers that were built, side by side. A thread makes one call at a time. -/
def program (P : Platform) (w : Builders β) (ι : Type) [DecidableEq ι] :
    System (Fin w.built.length → LoggerState ι) (Fin w.built.length × LoggerAction ι) :=
  System.family (fun k => LoggerState.system P (w.built.get k).2 ι)
    fun s k a => ∀ i r, a = .call i r → ∀ j, j ≠ k → (s j).Idle i

def threadOf {ι κ : Type} (k : κ) : Option ι → SinkThread ι κ
  | some i => .caller i
  | none => .looper k

/-- The thread is between entry and exit of `log` of the sink `o`. -/
def Inside {ι : Type} (w : Builders β) (s : Fin w.built.length → LoggerState ι) (o : SinkId) :
    SinkThread ι (Fin w.built.length) → Prop
  | .caller i => ∃ k p, (s k).Within p (some i) ∧ (w.built.get k).2.logger.sinks[p]? = some o
  | .looper k => ∃ p, (s k).Within p none ∧ (w.built.get k).2.logger.sinks[p]? = some o

section Sharing

variable {w : Builders β}

theorem nodup_builders_iff : (w.built.map Prod.fst).Nodup ↔
    ∀ j k : Fin w.built.length, (w.built.get j).1 = (w.built.get k).1 → j = k := by
  rw [List.Nodup, List.pairwise_map, List.pairwise_iff_get]
  constructor
  · intro h j k he
    rcases Nat.lt_trichotomy j k with hl | hl | hl
    · exact (h j k hl he).elim
    · exact Fin.ext hl
    · exact (h k j hl he.symm).elim
  · intro h j k hl he
    exact Nat.ne_of_lt hl (congrArg Fin.val (h j k he))

theorem inside_of_within {ι : Type} {s : Fin w.built.length → LoggerState ι}
    {k : Fin w.built.length} {p : Nat} {o : SinkId} {agent : Option ι}
    (h : (s k).Within p agent) (ho : (w.built.get k).2.logger.sinks[p]? = some o) :
    Inside w s o (threadOf k agent) := by
  cases agent with
  | some i => exact ⟨k, p, h, ho⟩
  | none => exact ⟨p, h, ho⟩

theorem exists_within {ι : Type} {s : Fin w.built.length → LoggerState ι} {o : SinkId}
    {t : SinkThread ι (Fin w.built.length)} (h : Inside w s o t) :
    ∃ k p agent, (s k).Within p agent ∧ (w.built.get k).2.logger.sinks[p]? = some o ∧
      t = threadOf k agent := by
  cases t with
  | caller i =>
    obtain ⟨k, p, hp, ho⟩ := h
    exact ⟨k, p, some i, hp, ho, rfl⟩
  | looper k =>
    obtain ⟨p, hp, ho⟩ := h
    exact ⟨k, p, none, hp, ho, rfl⟩

theorem Owned.builder_eq (h : Owned w) {j k : Fin w.built.length} {p q : Nat} {o : SinkId}
    (hj : (w.built.get j).2.logger.sinks[p]? = some o)
    (hk : (w.built.get k).2.logger.sinks[q]? = some o) :
    (w.built.get j).1 = (w.built.get k).1 := by
  have hmem {i : Fin w.built.length} {r : Nat}
      (hi : (w.built.get i).2.logger.sinks[r]? = some o) :
      o ∈ (w.builder (w.built.get i).1).sinks :=
    (h.sinks _ (List.get_mem w.built i)).2.subset (List.mem_of_getElem? hi)
  exact h.owner _ _ o (hmem hj) (hmem hk)

theorem Owned.first_sink (h : Owned w) (k : Fin w.built.length) :
    ∃ o, (w.built.get k).2.logger.sinks[0]? = some o ∧
      (w.builder (w.built.get k).1).sinks[0]? = some o := by
  obtain ⟨hne, rest, hr⟩ := h.sinks _ (List.get_mem w.built k)
  obtain ⟨o, os, ho⟩ := List.exists_cons_of_ne_nil hne
  exact ⟨o, by rw [ho]; rfl, by rw [← hr, ho]; rfl⟩

theorem entered_twice (P : Platform) (h : Owned w) {j k : Fin w.built.length} (hne : j ≠ k)
    (he : (w.built.get j).1 = (w.built.get k).1) :
    ∃ s o t t', (program P w Nat).Reachable s ∧ Inside w s o t ∧ Inside w s o t' ∧ t ≠ t' := by
  -- both loggers begin with the first sink of their builder
  obtain ⟨o, hj, hoj⟩ := h.first_sink j
  obtain ⟨o', hk, hok⟩ := h.first_sink k
  obtain rfl : o = o' := by
    rw [he, hok] at hoj
    exact (Option.some.inj hoj).symm
  have hlogger (i : Fin w.built.length) (n : Nat) :=
    LoggerState.enters (P := P) (h.limit _ (List.get_mem w.built i))
      (h.sinks _ (List.get_mem w.built i)).1 n
  obtain ⟨a, ha, tr, y, hy, hin, hidle⟩ := hlogger j 0
  obtain ⟨b, hb, tr', z, hz, hin', -⟩ := hlogger k 1
  let s₀ : Fin w.built.length → LoggerState Nat := fun i => .initial (w.built.get i).2
  have h₀ : (program P w Nat).Reachable s₀ := .init fun _ => rfl
  have h₁ : (program P w Nat).Reachable (Function.update s₀ j y) := by
    refine System.family_run h₀ hy fun x a hok i r hc m hm => ?_
    rw [Function.update_of_ne hm]
    exact LoggerState.initial_idle _ i
  have h₂ : (program P w Nat).Reachable (Function.update (Function.update s₀ j y) k z) := by
    refine System.family_run h₁ (by rwa [Function.update_of_ne hne.symm]) fun x a hok i r hc m hm => ?_
    obtain rfl := hok i r hc
    rw [Function.update_of_ne hm]
    by_cases hmj : m = j
    · subst hmj
      simpa using hidle 1 (by omega)
    · rw [Function.update_of_ne hmj]
      exact LoggerState.initial_idle _ 1
  have hwj : (Function.update (Function.update s₀ j y) k z j).Within 0 a := by
    rwa [Function.update_of_ne hne, Function.update_self]
  have hwk : (Function.update (Function.update s₀ j y) k z k).Within 0 b := by
    rwa [Function.update_self]
  refine ⟨_, o, threadOf j a, threadOf k b, h₂, inside_of_within hwj hj, inside_of_within hwk hk, ?_⟩
  rcases ha with rfl | rfl <;> rcases hb with rfl | rfl <;> simp [threadOf, hne]

theorem entered_once {P : Platform} {ι : Type} [DecidableEq ι] (h : Owned w)
    (hnd : (w.built.map Prod.fst).Nodup) {s : Fin w.built.length → LoggerState ι}
    (hr : (program P w ι).Reachable s) {o : SinkId} {t t' : SinkThread ι (Fin w.built.length)}
    (ht : Inside w s o t) (ht' : Inside w s o t') : t = t' := by
  obtain ⟨j, p, a, hj, hoj, rfl⟩ := exists_within ht
  obtain ⟨k, q, b, hk, hok, rfl⟩ := exists_within ht'
  obtain rfl : j = k := nodup_builders_iff.mp hnd j k (h.builder_eq hoj hok)
  rw [LoggerState.within_unique (System.family_member hr j) hj hk]

end Sharing

/-- No two threads are ever inside one sink exactly if no builder builds two loggers. -/
theorem sink_exclusive [DecidableEq β] (P : Platform) (calls : List (BuilderCall β))
    (w : Builders β) (h : init.run calls = some w) :
    (∀ (ι : Type) [DecidableEq ι] s, (program P w ι).Reachable s →
      ∀ o t t', Inside w s o t → Inside w s o t' → t = t') ↔ (builds calls).Nodup := by
  have ho : Owned w := owned_init.run h
  have hb : w.built.map Prod.fst = builds calls := by
    rw [run_built h]
    rfl
  rw [← hb]
  constructor
  · intro hall
    refine nodup_builders_iff.mpr fun j k he => ?_
    by_contra hne
    obtain ⟨s, o, t, t', hr, ht, ht', hn⟩ := entered_twice P ho hne he
    exact hn (hall Nat s hr o t t' ht ht')
  · intro hnd ι _ s hr o t t' ht ht'
    exact entered_once ho hnd hr ht ht'

theorem sink_exclusive_two : ∃ w : Builders Nat,
    init.run [.buildLoggerName 0 [97], .buildLoggerName 1 [98], .build 0, .build 1] = some w ∧
      ∀ (P : Platform) (s : Fin w.built.length → LoggerState Nat),
        (program P w Nat).Reachable s →
          ∀ o t t', Inside w s o t → Inside w s o t' → t = t' := by
  obtain ⟨f, hf⟩ := Formatter.default_accepted
  have h : (init.run [BuilderCall.buildLoggerName 0 [97], .buildLoggerName 1 [98], .build 0,
      .build 1]).isSome = true := by
    simp [run, call, put, init, LoggerBuilder.build, LoggerBuilder.init,
      LoggerBuilder.buildLoggerName, hf]
  obtain ⟨w, hw⟩ := Option.isSome_iff_exists.mp h
  exact ⟨w, hw, fun P => (sink_exclusive P _ w hw).mpr (by decide) Nat⟩

theorem sink_entered_twice : ¬ ∀ (P : Platform) (w : Builders Nat),
    init.run [.buildLoggerName 0 [97], .buildLoggerType 0 .loggerSync, .buildSink 0, .build 0,
      .build 0] = some w →
    ∀ s, (program P w Nat).Reachable s →
      ∀ o t t', Inside w s o t → Inside w s o t' → t = t' := by
  intro hall
  obtain ⟨f, hf⟩ := Formatter.default_accepted
  have h : (init.run [BuilderCall.buildLoggerName 0 [97], .buildLoggerType 0 .loggerSync,
      .buildSink 0, .build 0, .build 0]).isSome = true := by
    simp [run, call, put, init, LoggerBuilder.build, LoggerBuilder.init,
      LoggerBuilder.buildLoggerName, LoggerBuilder.buildLoggerType, LoggerBuilder.buildSink, hf]
  obtain ⟨w, hw⟩ := Option.isSome_iff_exists.mp h
  have hb : w.built.map Prod.fst = [0, 0] := by
    rw [run_built hw]
    rfl
  have hnd : ¬ (w.built.map Prod.fst).Nodup := by
    rw [hb]
    decide
  refine hnd (nodup_builders_iff.mpr fun j k he => ?_)
  by_contra hne
  let P : Platform := ⟨fun _ => [], fun _ => ⟨0, 0, 0, 0, 0, 0, 0, 0, 0⟩, fun _ _ => [],
    fun _ _ _ => 0⟩
  obtain ⟨s, o, t, t', hr, ht, ht', hn⟩ := entered_twice P (owned_init.run hw) hne he
  exact hn (hall P w hw s hr o t t' ht ht')

end Builders

end MyLog
