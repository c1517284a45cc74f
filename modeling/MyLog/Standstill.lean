import MyLog.Capacity

/-! The two waits of the looper: for room in `push`, in safe mode, and for data in
`threadEntry`. Every change that ends a wait is followed by its notification, but a
message that is longer than an empty buffer waits for room that never comes. -/

namespace MyLog

open Transition

theorem WorkerPc.wake_waits {w : WorkerPc} (h : w.wake = .sleep ∨ w.wake = .asleep) :
    w = .sleep := by
  cases w <;> simp_all [WorkerPc.wake]

def ProducerPc.waits {ι : Type} : ProducerPc ι → Bool
  | .test _ | .sleep _ | .asleep _ | .relock _ => true
  | _ => false

theorem ProducerPc.wake_waits {ι : Type} (p : ProducerPc ι) : p.wake.waits = p.waits := by
  cases p <;> rfl

namespace Looper

variable {ι : Type}

/-- A thread that waits does not find room, or its notification is on its way. -/
def ShortOfRoom (b : Buffer) (w : WorkerPc) : ProducerPc ι → Prop
  | .sleep c | .asleep c => b.writeAbleSize < c.data.length ∨ w = .notify
  | _ => True

theorem ShortOfRoom.mono {b b' : Buffer} {w w' : WorkerPc} {p : ProducerPc ι}
    (h : ShortOfRoom b w p) (hb : b'.writeAbleSize ≤ b.writeAbleSize)
    (hw : w = .notify → w' = .notify) : ShortOfRoom b' w' p := by
  cases p with
  | sleep | asleep => exact h.imp hb.trans_lt hw
  | _ => trivial

theorem ShortOfRoom.worker {b : Buffer} {w w' : WorkerPc} {p : ProducerPc ι}
    (h : ShortOfRoom b w p) (hw : w ≠ .notify) : ShortOfRoom b w' p :=
  h.mono le_rfl fun he => (hw he).elim

theorem shortOfRoom_notify (b : Buffer) (p : ProducerPc ι) : ShortOfRoom b .notify p := by
  cases p with
  | sleep | asleep => exact .inr rfl
  | _ => trivial

theorem shortOfRoom_wake {b : Buffer} {w : WorkerPc} {p : ProducerPc ι}
    (h : p.holds = false) : ShortOfRoom b w p.wake := by
  cases p with
  | sleep => cases h
  | _ => trivial

theorem shortOfRoom_of_waits {b : Buffer} {w : WorkerPc} {p : ProducerPc ι}
    (h : p.waits = false) : ShortOfRoom b w p := by
  cases p with
  | sleep | asleep => cases h
  | _ => trivial

structure Waiting (s : Looper ι) : Prop where
  producer : ∀ i, ShortOfRoom s.proBuf s.worker (s.producer i)
  worker : s.worker = .sleep ∨ s.worker = .asleep →
    s.proBuf.readable = [] ∨ ∃ i c, s.producer i = .notify c

variable [DecidableEq ι] {s t : Looper ι} {a : Action ι}

theorem notify_elsewhere {f : ι → ProducerPc ι} {i : ι} {p : ProducerPc ι}
    (h : ∃ j c, f j = .notify c) (hi : ∀ c, f i ≠ .notify c) :
    ∃ j c, Function.update f i p j = .notify c := by
  obtain ⟨j, c, hj⟩ := h
  have hne : j ≠ i := by
    rintro rfl
    exact hi c hj
  exact ⟨j, c, by rwa [Function.update_of_ne hne]⟩

theorem Waiting.move (h : Waiting s) {i : ι} {p : ProducerPc ι}
    (hp : ShortOfRoom s.proBuf s.worker p) (hi : ∀ c, s.producer i ≠ .notify c)
    (m : Option (Agent ι)) (cs ds : List (Call ι)) :
    Waiting { s with
      mutex := m
      producer := Function.update s.producer i p
      entered := cs
      returned := ds } :=
  ⟨forall_producer hp fun j _ => h.producer j,
    fun hw => (h.worker hw).imp_right fun hn => notify_elsewhere hn hi⟩

theorem unsafe_never_waits (h : (system ι .asyncUnsafe).Reachable s) :
    ∀ i, (s.producer i).waits = false := by
  apply h.invariant
  · intro s hs
    subst hs
    exact fun _ => rfl
  · intro s a t _ ih hs
    have hnot {i : ι} {p : ProducerPc ι} (hi : s.producer i = p) : p.waits = false := hi ▸ ih i
    cases hs with
    | call | producerLock | append | notifyOne | producerReturn =>
      exact forall_producer (Q := fun p => p.waits = false) rfl fun j _ => ih j
    | producerTest i c hi | producerSleep i c hi | producerSpurious i c hi
    | producerRelock i c hi => cases hnot hi
    | notifyAll => exact fun i => (ProducerPc.wake_waits _).trans (ih i)
    | _ => exact ih

/-- What a thread appends leaves the others no more room than before. -/
theorem append_room {ty : AsyncType} (hr : (system ι ty).Reachable s) {i : ι} {c : Call ι}
    {b : Buffer} (hi : s.producer i = .write c) (hb : s.proBuf.push c.data = some b) {j : ι}
    (h : ShortOfRoom s.proBuf s.worker (s.producer j)) :
    ShortOfRoom b s.worker (s.producer j) := by
  cases ty with
  | asyncUnsafe => exact shortOfRoom_of_waits (unsafe_never_waits hr j)
  | asyncSafe =>
    have hfits : c.data.length ≤ s.proBuf.writeAbleSize := by
      have := (bounded hr).room i
      rwa [hi] at this
    obtain ⟨hsize, -, hw⟩ := Buffer.push_fits hfits hb
    refine h.mono ?_ id
    simp only [Buffer.writeAbleSize, hsize, hw]
    omega

theorem Waiting.step {ty : AsyncType} (h : Waiting s) (hr : (system ι ty).Reachable s)
    (hs : Step ty s a t) : Waiting t := by
  cases hs with
  | call i data hi | producerSpurious i c hi | producerRelock i c hi | producerReturn i c hi =>
    exact h.move (i := i) (by trivial) (by simp [hi]) _ _ _
  | producerLock i c hi =>
    refine h.move ?_ (by simp [hi]) _ _ _
    split <;> trivial
  | producerTest i c hi =>
    refine h.move ?_ (by simp [hi]) _ _ _
    split
    · trivial
    · next hn => exact .inl (Nat.lt_of_not_le hn)
  | producerSleep i c hi =>
    have hp : ShortOfRoom s.proBuf s.worker (.asleep c) := by
      have := h.producer i
      rwa [hi] at this
    exact h.move hp (by simp [hi]) _ _ _
  | append i c b hi hb =>
    exact ⟨forall_producer trivial fun j _ => append_room hr hi hb (h.producer j),
      fun _ => .inr ⟨i, c, Function.update_self ..⟩⟩
  | notifyOne i c hi =>
    refine ⟨forall_producer trivial fun j _ => (h.producer j).mono le_rfl ?_, fun hw => ?_⟩
    · intro he
      rw [he]
      rfl
    · -- a worker that is about to sleep owns the mutex, and so does this thread
      have hp := worker_excludes hr (by rw [WorkerPc.wake_waits hw]; rfl) i
      rw [hi] at hp
      cases hp
  | workerTest hw =>
    refine ⟨fun i => (h.producer i).worker (by simp [hw]), fun hsleep => ?_⟩
    dsimp only at hsleep ⊢
    split at hsleep
    · simp at hsleep
    · next he => exact .inl ((Buffer.empty_iff _).mp (by simp_all))
  | workerCheck hw =>
    refine ⟨fun i => (h.producer i).worker (by simp [hw]), fun hsleep => ?_⟩
    dsimp only at hsleep
    split at hsleep <;> simp at hsleep
  | workerSleep hw =>
    exact ⟨fun i => (h.producer i).worker (by simp [hw]), fun _ => h.worker (.inl hw)⟩
  | swap hw =>
    refine ⟨fun i => ?_, fun hsleep => ?_⟩
    · cases ty with
      | asyncSafe => exact shortOfRoom_notify _ _
      | asyncUnsafe => exact shortOfRoom_of_waits (unsafe_never_waits hr i)
    · dsimp only at hsleep
      split at hsleep <;> simp at hsleep
  | notifyAll hw =>
    have hfree := worker_excludes hr (by rw [hw]; rfl)
    exact ⟨fun i => shortOfRoom_wake (hfree i), by simp⟩
  | workerLock hw | workerSpurious hw | workerRelock hw | workerUnlock hw | callBack hw
  | callBackReturns hw | reset hw | leave hw =>
    exact ⟨fun i => (h.producer i).worker (by simp [hw]), by simp⟩
  | stopCall | stopFlag | stopReturn => exact ⟨h.producer, h.worker⟩
  | stopNotify =>
    refine ⟨fun i => (h.producer i).mono le_rfl ?_, fun hw => ?_⟩
    · intro he
      rw [he]
      rfl
    · exact h.worker (.inl (WorkerPc.wake_waits hw))

theorem waiting {ty : AsyncType} (h : (system ι ty).Reachable s) : Waiting s := by
  apply h.invariant
  · intro s hs
    subst hs
    exact ⟨fun _ => trivial, by simp [init]⟩
  · intro s a t hr ih hs
    exact ih.step hr hs

section Free

variable {ty : AsyncType} (h : (system ι ty).Reachable s) (hm : s.mutex = none)
include h hm

theorem nobody_inside (a : Agent ι) : inside s.worker s.producer a = false := by
  rw [← Bool.not_eq_true, exclusive h a, hm]
  simp

theorem empty_of_asleep (hw : s.worker = .asleep) : s.proBuf.readable = [] := by
  refine ((waiting h).worker (.inr hw)).resolve_right fun ⟨j, d, hj⟩ => ?_
  have hfree := nobody_inside h hm (.producer j)
  rw [inside, hj] at hfree
  cases hfree

theorem short_of_asleep {i : ι} {c : Call ι} (hi : s.producer i = .asleep c) :
    s.proBuf.writeAbleSize < c.data.length := by
  have hshort := (waiting h).producer i
  rw [hi] at hshort
  refine hshort.resolve_right fun hw => ?_
  have hfree := nobody_inside h hm .worker
  rw [inside, hw] at hfree
  cases hfree

end Free

/-- Nobody owns the mutex, the worker sleeps and so does thread `i`, and no one is left
to notify either of them. -/
def BothAsleep (s : Looper ι) (i : ι) (c : Call ι) : Prop :=
  s.mutex = none ∧ s.worker = .asleep ∧ s.producer i = .asleep c

theorem oversized_of_bothAsleep (h : (system ι .asyncSafe).Reachable s) {i : ι} {c : Call ι}
    (hb : BothAsleep s i c) : defaultBufferSize < c.data.length := by
  obtain ⟨hm, hw, hi⟩ := hb
  have hp := bounded h
  have hempty := empty_of_asleep h hm hw
  have hshort := short_of_asleep h hm hi
  have hidx : s.proBuf.writerIdx = 0 := by
    have hlen := congrArg List.length hempty
    rw [Buffer.readable_length, Buffer.readAbleSize, hp.pro.reader] at hlen
    simpa using hlen
  rwa [Buffer.writeAbleSize, hp.pro.size, hidx] at hshort

/-- The messages that thread `i` logs satisfy `ok i`. -/
def Messages (ok : ι → Bytes → Prop) (_ : Looper ι) (a : Action ι) : Prop :=
  ∀ i data, a = .call i data → ok i data

theorem entered_ok {ok : ι → Bytes → Prop} {ty : AsyncType}
    (h : ((system ι ty).restrict (Messages ok)).Reachable s) :
    ∀ c ∈ s.entered, ok c.thread c.data := by
  apply h.invariant
  · intro s hs
    rw [show s = init from hs]
    simp [init]
  · rintro s a t - ih ⟨hs, hok⟩
    cases hs with
    | call i data =>
      intro c hc
      rcases List.mem_append.mp hc with hc | hc
      · exact ih c hc
      · rw [List.mem_singleton.mp hc]
        exact hok i data rfl
    | _ => exact ih

theorem bothAsleep_of_oversized (ok : ι → Bytes → Prop) {i : ι} {data : Bytes}
    (hok : ok i data) (hd : defaultBufferSize < data.length) :
    ∃ s, ((system ι .asyncSafe).restrict (Messages ok)).Reachable s ∧ s.stopper = .idle ∧
      ∃ c, BothAsleep s i c := by
  have hshort : ¬ data.length ≤ Buffer.init.writeAbleSize := Nat.not_le_of_lt hd
  have hquiet (s : Looper ι) (a : Action ι) (ha : ∀ j d, a ≠ .call j d) : Messages ok s a :=
    fun j d he => (ha j d he).elim
  have h := System.Reachable.init (S := (system ι .asyncSafe).restrict (Messages ok)) rfl
  have h := h.step ⟨.call _ i data rfl, fun j d he => by cases he; exact hok⟩
  have h := h.step ⟨.producerLock _ i _ (Function.update_self ..) rfl, hquiet _ _ (by simp)⟩
  have h := h.step ⟨.producerTest _ i _ (Function.update_self ..), hquiet _ _ (by simp)⟩
  have h := h.step ⟨.producerSleep _ i _ ((Function.update_self ..).trans (if_neg hshort)),
    hquiet _ _ (by simp)⟩
  have h := h.step ⟨.workerLock _ rfl rfl, hquiet _ _ (by simp)⟩
  have h := h.step ⟨.workerCheck _ rfl, hquiet _ _ (by simp)⟩
  have h := h.step ⟨.workerTest _ rfl, hquiet _ _ (by simp)⟩
  have h := h.step ⟨.workerSleep _ rfl, hquiet _ _ (by simp)⟩
  exact ⟨_, h, rfl, _, rfl, rfl, Function.update_self ..⟩

/-- While the mutex is free, whoever sleeps with no notification on its way has reason to:
the worker finds nothing to take, and a thread in `push` finds too little room. -/
theorem no_missing_notification {ty : AsyncType} (h : (system ι ty).Reachable s)
    (hm : s.mutex = none) :
    (s.worker = .asleep → s.proBuf.empty = true) ∧
    ∀ i c, s.producer i = .asleep c → s.proBuf.writeAbleSize < c.data.length :=
  ⟨fun hw => (Buffer.empty_iff _).mpr (empty_of_asleep h hm hw),
    fun _ _ hi => short_of_asleep h hm hi⟩

theorem no_missing_notification_idle :
    (∃ s : Looper Nat, (system Nat .asyncUnsafe).Reachable s ∧ s.worker = .asleep ∧
      s.proBuf.empty = true) ∧
    ∃ (s : Looper Nat) (i : Nat) (c : Call Nat), (system Nat .asyncSafe).Reachable s ∧
      s.producer i = .asleep c ∧ s.proBuf.writeAbleSize < c.data.length := by
  obtain ⟨s, hr, -, c, hm, -, hi⟩ := bothAsleep_of_oversized (i := 0)
    (fun _ d => d = List.replicate (defaultBufferSize + 1) 0) rfl (by simp)
  have hs : (system Nat .asyncSafe).Reachable s := System.restrict_reachable hr
  refine ⟨?_, s, 0, c, hs, hi, (no_missing_notification hs hm).2 0 c hi⟩
  have h := System.Reachable.init (S := system Nat .asyncUnsafe) rfl
  have h := h.step (.workerLock _ rfl rfl)
  have h := h.step (.call _ 0 [104, 105] rfl)
  have h := h.step (.workerCheck _ rfl)
  have h := h.step (.workerTest _ rfl)
  have h := h.step (.workerSleep _ rfl)
  exact ⟨_, h, rfl, (no_missing_notification h rfl).1 rfl⟩

/-- Before `stop` is called, the two sides are never both asleep exactly if every message
fits into an empty buffer. -/
theorem safe_mode_awake (ι : Type) [DecidableEq ι] (ok : ι → Bytes → Prop) :
    (∀ s, ((system ι .asyncSafe).restrict (Messages ok)).Reachable s → s.stopper = .idle →
      ∀ i c, ¬ BothAsleep s i c) ↔ ∀ i data, ok i data → data.length ≤ defaultBufferSize := by
  constructor
  · intro h i data hd
    by_contra hlong
    obtain ⟨s, hr, hs, c, hb⟩ := bothAsleep_of_oversized ok hd (Nat.lt_of_not_le hlong)
    exact h s hr hs i c hb
  · intro hfit s hr _ i c hb
    have hreach := System.restrict_reachable hr
    have hlong := oversized_of_bothAsleep hreach hb
    have hc : c ∈ s.entered := by
      have hp := (threads hreach).pending i
      have hmem : c ∈ byThread i s.entered := by simp [hp, hb.2.2, ProducerPc.pending]
      exact (List.mem_filter.mp hmem).1
    exact absurd (hfit _ _ (entered_ok hr c hc)) (Nat.not_le_of_lt hlong)

theorem oversized_message_sleeps : ¬ ∀ s : Looper Nat, (system Nat .asyncSafe).Reachable s →
    s.stopper = .idle → ∀ i c, ¬ BothAsleep s i c := by
  intro hall
  obtain ⟨s, hr, hs, c, hb⟩ := bothAsleep_of_oversized (i := 0)
    (fun _ d => d = List.replicate (defaultBufferSize + 1) 0) rfl (by simp)
  exact hall s (System.restrict_reachable hr) hs 0 c hb

end Looper

end MyLog
