import MyLog.LooperInvariant

/-! What the steps of the looper read and write. The mutex orders all accesses to the two
buffers. The flag of `stop` is a plain `bool` that the worker reads under the mutex and
`stop` writes without it. -/

namespace MyLog

open Transition

/-- The members of the looper that more than one thread gets at. -/
inductive SharedMember
  | stop
  | proBuf
  | conBuf
  deriving DecidableEq

inductive Access
  | read
  | write
  deriving DecidableEq

/-- A thread that logs, the looper's thread, or the thread that calls `stop`. -/
inductive Party (ι : Type)
  | agent (a : Agent ι)
  | stopper
  deriving DecidableEq

def ProducerPc.access {ι : Type} : ProducerPc ι → SharedMember → Option Access
  | .test _, .proBuf => some .read
  | .write _, .proBuf => some .write
  | _, _ => none

/-- The second operands of `_stop && _pro_buf.empty()` and of `_stop || !_pro_buf.empty()`
are not always looked at. -/
def WorkerPc.access (stop : Bool) : WorkerPc → SharedMember → Option Access
  | .check, .stop | .test, .stop => some .read
  | .check, .proBuf => if stop then some .read else none
  | .test, .proBuf => if stop then none else some .read
  | .swap, .proBuf | .swap, .conBuf | .reset, .conBuf => some .write
  | .call, .conBuf | .callback, .conBuf => some .read
  | _, _ => none

def StopPc.access : StopPc → SharedMember → Option Access
  | .flag, .stop => some .write
  | _, _ => none

namespace Looper

variable {ι : Type}

/-- The thread that takes a step. -/
def Action.party : Action ι → Party ι
  | .call i _ | .append i | .producer i => .agent (.producer i)
  | .worker | .callBack | .callBackReturns => .agent .worker
  | .stopCall | .stopFlag | .stopNotify | .stopReturn => .stopper

/-- How the next step of a thread gets at a member. -/
def access (s : Looper ι) : Party ι → SharedMember → Option Access
  | .agent (.producer i), m => (s.producer i).access m
  | .agent .worker, m => s.worker.access s.stop m
  | .stopper, m => s.stopper.access m

/-- Two threads can get at a member at the same time, one of them to write it. -/
def Race (s : Looper ι) (m : SharedMember) : Prop :=
  ∃ x y, x ≠ y ∧ s.access x m = some .write ∧ s.access y m ≠ none

/-- The state with one member as it is in another state. -/
def overwrite (s v : Looper ι) : SharedMember → Looper ι
  | .stop => { s with stop := v.stop }
  | .proBuf => { s with proBuf := v.proBuf }
  | .conBuf => { s with conBuf := v.conBuf }

variable [DecidableEq ι] {ty : AsyncType} {s t : Looper ι} {a : Action ι} {m : SharedMember}

/-- A step changes no member that it does not write. -/
theorem Step.unchanged (hs : Step ty s a t) (hm : s.access a.party m ≠ some .write) :
    t.overwrite s m = t := by
  cases hs <;> cases m <;> simp_all [overwrite, Action.party, access, ProducerPc.access,
    WorkerPc.access, StopPc.access]

/-- A step does not depend on a member that it does not get at. -/
theorem Step.independent (hs : Step ty s a t) (hx : s.access a.party m = none) (v : Looper ι) :
    Step ty (s.overwrite v m) a (t.overwrite v m) := by
  cases hs with
  | call i data hi => cases m <;> exact .call _ i data hi
  | producerLock i c hi hm => cases m <;> exact .producerLock _ i c hi hm
  | producerTest i c hi =>
    cases m with
    | proBuf => simp [Action.party, access, hi, ProducerPc.access] at hx
    | _ => exact .producerTest _ i c hi
  | producerSleep i c hi => cases m <;> exact .producerSleep _ i c hi
  | producerSpurious i c hi => cases m <;> exact .producerSpurious _ i c hi
  | producerRelock i c hi hm => cases m <;> exact .producerRelock _ i c hi hm
  | append i c b hi hb =>
    cases m with
    | proBuf => simp [Action.party, access, hi, ProducerPc.access] at hx
    | _ => exact .append _ i c b hi hb
  | notifyOne i c hi => cases m <;> exact .notifyOne _ i c hi
  | producerReturn i c hi => cases m <;> exact .producerReturn _ i c hi
  | workerLock hw hm => cases m <;> exact .workerLock _ hw hm
  | workerCheck hw =>
    cases m with
    | stop => simp [Action.party, access, hw, WorkerPc.access] at hx
    | proBuf =>
      have hs : s.stop = false := by simpa [Action.party, access, hw, WorkerPc.access] using hx
      have h : Step ty (s.overwrite v .proBuf) _ _ := .workerCheck _ hw
      simpa [overwrite, hs] using h
    | conBuf => exact .workerCheck _ hw
  | workerTest hw =>
    cases m with
    | stop => simp [Action.party, access, hw, WorkerPc.access] at hx
    | proBuf =>
      have hs : s.stop = true := by simpa [Action.party, access, hw, WorkerPc.access] using hx
      have h : Step ty (s.overwrite v .proBuf) _ _ := .workerTest _ hw
      simpa [overwrite, hs] using h
    | conBuf => exact .workerTest _ hw
  | workerSleep hw => cases m <;> exact .workerSleep _ hw
  | workerSpurious hw => cases m <;> exact .workerSpurious _ hw
  | workerRelock hw hm => cases m <;> exact .workerRelock _ hw hm
  | swap hw =>
    cases m with
    | stop => exact .swap _ hw
    | _ => simp [Action.party, access, hw, WorkerPc.access] at hx
  | notifyAll hw => cases m <;> exact .notifyAll _ hw
  | workerUnlock hw => cases m <;> exact .workerUnlock _ hw
  | callBack hw =>
    cases m with
    | conBuf => simp [Action.party, access, hw, WorkerPc.access] at hx
    | _ => exact .callBack _ hw
  | callBackReturns hw => cases m <;> exact .callBackReturns _ hw
  | reset hw =>
    cases m with
    | conBuf => simp [Action.party, access, hw, WorkerPc.access] at hx
    | _ => exact .reset _ hw
  | leave hw => cases m <;> exact .leave _ hw
  | stopCall hp => cases m <;> exact .stopCall _ hp
  | stopFlag hp =>
    cases m with
    | stop => simp [Action.party, access, hp, StopPc.access] at hx
    | _ => exact .stopFlag _ hp
  | stopNotify hp => cases m <;> exact .stopNotify _ hp
  | stopReturn hp hw => cases m <;> exact .stopReturn _ hp hw

/-- Whoever gets at the producers' buffer owns the mutex. -/
theorem owner_of_proBuf (hr : (system ι ty).Reachable s) {x : Party ι}
    (hx : s.access x .proBuf ≠ none) : ∃ a, x = .agent a ∧ s.mutex = some a := by
  cases x with
  | stopper =>
    refine (hx ?_).elim
    cases hp : s.stopper <;> simp [access, hp, StopPc.access]
  | agent a =>
    refine ⟨a, rfl, (exclusive hr a).mp ?_⟩
    cases a with
    | worker => cases hw : s.worker <;> simp_all [access, WorkerPc.access, inside, WorkerPc.holds]
    | producer i =>
      cases hi : s.producer i <;> simp_all [access, ProducerPc.access, inside, ProducerPc.holds]

omit [DecidableEq ι] in
theorem worker_of_conBuf {x : Party ι} (hx : s.access x .conBuf ≠ none) : x = .agent .worker := by
  cases x with
  | stopper => cases hp : s.stopper <;> simp [access, hp, StopPc.access] at hx
  | agent a =>
    cases a with
    | worker => rfl
    | producer i => cases hi : s.producer i <;> simp [access, hi, ProducerPc.access] at hx

omit [DecidableEq ι] in
theorem reader_of_stop {x : Party ι} (hx : s.access x .stop ≠ none) :
    x = .stopper ∧ s.stopper = .flag ∨
      x = .agent .worker ∧ (s.worker = .check ∨ s.worker = .test) := by
  cases x with
  | stopper =>
    refine .inl ⟨rfl, ?_⟩
    cases hp : s.stopper <;> simp_all [access, StopPc.access]
  | agent a =>
    cases a with
    | worker =>
      refine .inr ⟨rfl, ?_⟩
      cases hw : s.worker <;> simp_all [access, WorkerPc.access]
    | producer i => cases hi : s.producer i <;> simp [access, hi, ProducerPc.access] at hx

/-- The buffers are free of races. The flag is not, exactly where `stop` is about to write
it and the worker is about to read it. -/
theorem race_iff (hr : (system ι ty).Reachable s) (m : SharedMember) :
    s.Race m ↔ m = .stop ∧ s.stopper = .flag ∧ (s.worker = .check ∨ s.worker = .test) := by
  constructor
  · rintro ⟨x, y, hne, hx, hy⟩
    have hx' : s.access x m ≠ none := by simp [hx]
    cases m with
    | proBuf =>
      obtain ⟨a, rfl, ha⟩ := owner_of_proBuf hr hx'
      obtain ⟨b, rfl, hb⟩ := owner_of_proBuf hr hy
      rw [ha] at hb
      exact (hne (congrArg Party.agent (Option.some.inj hb))).elim
    | conBuf => exact (hne ((worker_of_conBuf hx').trans (worker_of_conBuf hy).symm)).elim
    | stop =>
      rcases reader_of_stop hx' with ⟨rfl, hp⟩ | ⟨rfl, hw⟩
      · rcases reader_of_stop hy with ⟨rfl, -⟩ | ⟨-, hw⟩
        · exact (hne rfl).elim
        · exact ⟨rfl, hp, hw⟩
      · rcases hw with hw | hw <;> simp [access, hw, WorkerPc.access] at hx
  · rintro ⟨rfl, hp, hw⟩
    refine ⟨.stopper, .agent .worker, by simp, by simp [access, hp, StopPc.access], ?_⟩
    rcases hw with hw | hw <;> simp [access, hw, WorkerPc.access]

theorem race_iff_flag : ∃ s : Looper Nat, (system Nat .asyncSafe).Reachable s ∧ s.Race .stop ∧
    ¬ s.Race .proBuf := by
  have h := System.Reachable.init (S := system Nat .asyncSafe) rfl
  have h := h.step (.workerLock _ rfl rfl)
  have h := h.step (.stopCall _ rfl)
  exact ⟨_, h, (race_iff h .stop).mpr ⟨rfl, rfl, .inl rfl⟩, fun hp => by
    cases ((race_iff h .proBuf).mp hp).1⟩

end Looper

end MyLog
