import MyLog.LooperInvariant

/-! The life of an `AsyncLooper` and of the `AsyncLogger` that owns it. The worker runs
from the middle of the construction until a `stop` has joined it. -/

namespace MyLog

open Transition

inductive Member
  | looperType
  | stop
  | proBuf
  | conBuf
  | mutex
  | condPro
  | condCon
  | thread
  | callBack
  deriving DecidableEq

/-- In the order of their declarations. -/
def Member.all : List Member :=
  [.looperType, .stop, .proBuf, .conBuf, .mutex, .condPro, .condCon, .thread, .callBack]

/-- The members of the base class `Logger`. -/
inductive BaseMember
  | mutex
  | loggerName
  | limitLevel
  | formatter
  | sinks
  deriving DecidableEq

def BaseMember.all : List BaseMember := [.mutex, .loggerName, .limitLevel, .formatter, .sinks]

/-- How far the owner is with the construction and the destruction. A number is how
many members are alive. -/
inductive Phase
  | constructingBase (k : Nat)
  | constructing (k : Nat)
  | constructed
  | stopping
  | destroying (k : Nat)
  | destroyingBase (k : Nat)
  deriving DecidableEq

namespace Phase

def members : Phase → List Member
  | constructing k | destroying k => Member.all.take k
  | constructed | stopping => Member.all
  | constructingBase _ | destroyingBase _ => []

def baseMembers : Phase → List BaseMember
  | constructingBase k | destroyingBase k => BaseMember.all.take k
  | _ => BaseMember.all

/-- No one but the constructor and the worker knows of the looper. -/
def Unpublished : Phase → Prop
  | constructingBase _ | constructing _ => True
  | _ => False

def PastStop : Phase → Prop
  | destroying _ | destroyingBase _ => True
  | _ => False

end Phase

/-- A looper with its owner: whether the thread of the worker has started, what
`_thread.joinable()` is, and the calls of `stop`, of which `none` is the destructor's. -/
structure Lifetime (ι : Type) where
  looper : Looper ι
  phase : Phase
  started : Bool
  joinable : Bool
  stops : Option ι → StopPc

def Looper.Action.Worker {ι : Type} : Looper.Action ι → Prop
  | .worker | .callBack | .callBackReturns => True
  | _ => False

/-- What a thread does in a call of `push` that it has made. -/
def Looper.Action.Push {ι : Type} : Looper.Action ι → Prop
  | .append _ | .producer _ => True
  | _ => False

namespace Lifetime

variable {ι : Type}

inductive Action (ι : Type)
  | construct
  | spawn
  | destroy
  | looper (a : Looper.Action ι)
  | stop (o : Option ι)

def init : Lifetime ι where
  looper := Looper.init
  phase := .constructingBase 0
  started := false
  joinable := false
  stops _ := .idle

variable [DecidableEq ι]

inductive Step (ty : AsyncType) : Lifetime ι → Action ι → Lifetime ι → Prop
  | initBase (s : Lifetime ι) (k : Nat) (h : s.phase = .constructingBase k)
      (hk : k < BaseMember.all.length) :
      Step ty s .construct { s with phase := .constructingBase (k + 1) }
  | baseDone (s : Lifetime ι) (h : s.phase = .constructingBase BaseMember.all.length) :
      Step ty s .construct { s with phase := .constructing 0 }
  | spawn (s : Lifetime ι) (k : Nat) (h : s.phase = .constructing k)
      (hk : Member.all[k]? = some .thread) :
      -- the temporary `std::thread` runs before `_thread` is made from it
      Step ty s .spawn { s with started := true }
  | initMember (s : Lifetime ι) (k : Nat) (m : Member) (h : s.phase = .constructing k)
      (hk : Member.all[k]? = some m) (hm : m = .thread → s.started = true) :
      Step ty s .construct { s with
        phase := .constructing (k + 1)
        joinable := s.joinable || m == .thread }
  | publish (s : Lifetime ι) (h : s.phase = .constructing Member.all.length) :
      Step ty s .construct { s with phase := .constructed }
  | worker (s : Lifetime ι) (a : Looper.Action ι) (x : Looper ι) (h : s.started = true)
      (ha : a.Worker) (hx : Looper.Step ty s.looper a x) :
      Step ty s (.looper a) { s with looper := x }
  | call (s : Lifetime ι) (i : ι) (data : Bytes) (x : Looper ι) (h : s.phase = .constructed)
      (hx : Looper.Step ty s.looper (.call i data) x) :
      Step ty s (.looper (.call i data)) { s with looper := x }
  | push (s : Lifetime ι) (a : Looper.Action ι) (x : Looper ι) (ha : a.Push)
      (hx : Looper.Step ty s.looper a x) :
      -- the destruction does not wait for the calls in progress
      Step ty s (.looper a) { s with looper := x }
  | stopCall (s : Lifetime ι) (i : ι) (h : s.phase = .constructed)
      (hi : s.stops (some i) = .idle ∨ s.stops (some i) = .returned) :
      Step ty s (.stop (some i)) { s with
        stops := Function.update s.stops (some i) (if s.joinable then .flag else .returned) }
  | destructor (s : Lifetime ι) (h : s.phase = .constructed) :
      Step ty s (.stop none) { s with
        phase := .stopping
        stops := Function.update s.stops none (if s.joinable then .flag else .returned) }
  | stopFlag (s : Lifetime ι) (o : Option ι) (h : s.stops o = .flag) :
      Step ty s (.stop o) { s with
        looper := { s.looper with stop := true }
        stops := Function.update s.stops o .notify }
  | stopNotify (s : Lifetime ι) (o : Option ι) (h : s.stops o = .notify) :
      Step ty s (.stop o) { s with
        looper := { s.looper with worker := s.looper.worker.wake }
        stops := Function.update s.stops o .join }
  | stopJoin (s : Lifetime ι) (o : Option ι) (h : s.stops o = .join)
      (hw : s.looper.worker = .exited) :
      Step ty s (.stop o) { s with
        joinable := false
        stops := Function.update s.stops o .returned }
  | stopped (s : Lifetime ι) (h : s.phase = .stopping) (hs : s.stops none = .returned) :
      Step ty s .destroy { s with phase := .destroying Member.all.length }
  | destroyMember (s : Lifetime ι) (k : Nat) (h : s.phase = .destroying (k + 1)) :
      Step ty s .destroy { s with phase := .destroying k }
  | looperDestroyed (s : Lifetime ι) (h : s.phase = .destroying 0) :
      Step ty s .destroy { s with phase := .destroyingBase BaseMember.all.length }
  | destroyBase (s : Lifetime ι) (k : Nat) (h : s.phase = .destroyingBase (k + 1)) :
      Step ty s .destroy { s with phase := .destroyingBase k }

def system (ι : Type) [DecidableEq ι] (ty : AsyncType) : System (Lifetime ι) (Action ι) where
  init s := s = init
  step := Step ty

end Lifetime

def WorkerPc.early : WorkerPc → Bool
  | .lock | .check | .test | .sleep | .asleep | .relock => true
  | _ => false

namespace Looper

variable {ι : Type}

structure Untouched (s : Looper ι) : Prop where
  stop : s.stop = false
  empty : s.proBuf.empty = true
  producer : ∀ i, s.producer i = .idle
  worker : s.worker.early = true

variable [DecidableEq ι] {ty : AsyncType} {s t : Looper ι} {a : Action ι}

/-- Then the predicate of the worker's wait is false. -/
theorem Untouched.step (h : s.Untouched) (hs : Step ty s a t) (ha : a.Worker) :
    t.Untouched := by
  obtain ⟨hstop, hempty, hidle, hw⟩ := h
  cases hs with
  | workerLock | workerSleep | workerSpurious | workerRelock => exact ⟨hstop, hempty, hidle, rfl⟩
  | workerCheck | workerTest => exact ⟨hstop, hempty, hidle, by simp [hstop, hempty]; rfl⟩
  | swap h | notifyAll h | workerUnlock h | callBack h | callBackReturns h | reset h | leave h =>
    rw [h] at hw
    cases hw
  | _ => exact ha.elim

theorem Untouched.no_push (h : s.Untouched) (hs : Step ty s a t) : ¬ a.Push := by
  intro ha
  have hidle := h.producer
  cases hs with
  | producerLock i c hi | producerTest i c hi | producerSleep i c hi | producerSpurious i c hi
  | producerRelock i c hi | append i c b hi | notifyOne i c hi | producerReturn i c hi =>
    rw [hidle i] at hi
    cases hi
  | _ => exact ha

theorem stays_exited (hs : Step ty s a t) (hw : s.worker = .exited) : t.worker = .exited := by
  cases hs with
  | notifyOne | stopNotify => exact WorkerPc.wake_exited.mpr hw
  | workerLock h | workerCheck h | workerTest h | workerSleep h | workerSpurious h
  | workerRelock h | swap h | notifyAll h | workerUnlock h | callBack h | callBackReturns h
  | reset h =>
    rw [hw] at h
    cases h
  | leave => rfl
  | _ => exact hw

end Looper

namespace Lifetime

variable {ι : Type} {s t : Lifetime ι} {a : Action ι} {ty : AsyncType}

/-- Until the looper is published it is untouched; from then on the thread can be joined
until it is over, and the destructor does not go on before. -/
structure Ordered (s : Lifetime ι) : Prop where
  unpublished : s.phase.Unpublished → s.looper.Untouched ∧ ∀ o, s.stops o = .idle
  joinable : .thread ∈ s.phase.members → s.joinable = true ∨ s.looper.worker = .exited
  returned : s.stops none = .returned → s.looper.worker = .exited
  past : s.phase.PastStop → s.looper.worker = .exited

theorem ordered_init : (init : Lifetime ι).Ordered where
  unpublished _ := ⟨⟨rfl, rfl, fun _ => rfl, rfl⟩, fun _ => rfl⟩
  joinable h := nomatch h
  returned h := nomatch h
  past h := h.elim

theorem Ordered.looper (h : s.Ordered) {x : Looper ι}
    (hu : s.phase.Unpublished → x.Untouched)
    (hw : s.looper.worker = .exited → x.worker = .exited) :
    Ordered { s with looper := x } where
  unpublished hp := ⟨hu hp, (h.unpublished hp).2⟩
  joinable hm := (h.joinable hm).imp_right hw
  returned hr := hw (h.returned hr)
  past ho := hw (h.past ho)

theorem Ordered.phase (h : s.Ordered) {p : Phase}
    (hu : p.Unpublished → s.phase.Unpublished)
    (hm : .thread ∈ p.members → .thread ∈ s.phase.members)
    (ho : p.PastStop → s.looper.worker = .exited) : Ordered { s with phase := p } where
  unpublished hp := h.unpublished (hu hp)
  joinable ht := h.joinable (hm ht)
  returned := h.returned
  past := ho

theorem Ordered.used (h : s.Ordered) {o : Option ι} (ho : s.stops o ≠ .idle) :
    ¬ s.phase.Unpublished :=
  fun hp => ho ((h.unpublished hp).2 o)

variable [DecidableEq ι]

theorem Ordered.stops (h : s.Ordered) {o : Option ι} {p : StopPc} (hu : ¬ s.phase.Unpublished)
    (hp : p = .returned → s.looper.worker = .exited) :
    Ordered { s with stops := Function.update s.stops o p } where
  unpublished hp := (hu hp).elim
  joinable := h.joinable
  returned hr := by
    by_cases ho : o = none
    · subst ho
      exact hp (by simpa using hr)
    · exact h.returned (by simpa [Ne.symm ho] using hr)
  past := h.past

omit [DecidableEq ι] in
theorem Ordered.checked (h : s.Ordered) (hm : .thread ∈ s.phase.members)
    (hp : (if s.joinable = true then StopPc.flag else .returned) = .returned) :
    s.looper.worker = .exited := by
  rcases h.joinable hm with hj | hw
  · rw [if_pos hj] at hp
    cases hp
  · exact hw

theorem Ordered.step (h : s.Ordered) (hs : Step ty s a t) : t.Ordered := by
  cases hs with
  | initBase k hp hk =>
    exact h.phase (fun _ => by rw [hp]; trivial) (fun hm => nomatch hm) (fun ho => ho.elim)
  | baseDone hp =>
    exact h.phase (fun _ => by rw [hp]; trivial) (fun hm => nomatch hm) (fun ho => ho.elim)
  | spawn k hp hk => exact ⟨h.unpublished, h.joinable, h.returned, h.past⟩
  | initMember k m hp hk hm =>
    have hu : s.phase.Unpublished := by rw [hp]; trivial
    refine ⟨fun _ => h.unpublished hu, fun ht => ?_, h.returned, fun ho => ho.elim⟩
    have hmem : .thread ∈ s.phase.members ∨ m = .thread := by
      rw [Phase.members, List.take_add_one, hk] at ht
      rw [hp, Phase.members]
      simpa [eq_comm] using ht
    rcases hmem with hmem | rfl
    · exact (h.joinable hmem).imp_left fun hj => by simp [hj]
    · exact .inl (by simp)
  | publish hp =>
    exact h.phase (fun hu => hu.elim) (fun _ => by rw [hp]; simp [Phase.members, Member.all])
      (fun ho => ho.elim)
  | worker a x hst ha hx =>
    exact h.looper (fun hp => (h.unpublished hp).1.step hx ha) (Looper.stays_exited hx)
  | call i data x hp hx =>
    exact h.looper (fun hu => by rw [hp] at hu; exact hu.elim) (Looper.stays_exited hx)
  | push a x ha hx =>
    exact h.looper (fun hu => ((h.unpublished hu).1.no_push hx ha).elim) (Looper.stays_exited hx)
  | stopCall i hp hi =>
    exact h.stops (by rw [hp]; exact id) (h.checked (by rw [hp]; decide))
  | destructor hp =>
    have hchecked := h.checked (by rw [hp]; decide)
    have hstop := h.stops (o := none) (by rw [hp]; exact id) hchecked
    exact hstop.phase (fun hu => hu.elim) (fun _ => by rw [hp]; decide) (fun ho => ho.elim)
  | stopFlag o ho =>
    have hu := h.used (o := o) (by simp [ho])
    have hlooper := h.looper (x := { s.looper with stop := true }) (fun hp => (hu hp).elim) id
    exact hlooper.stops hu (fun hp => nomatch hp)
  | stopNotify o ho =>
    have hu := h.used (o := o) (by simp [ho])
    have hlooper := h.looper (x := { s.looper with worker := s.looper.worker.wake })
      (fun hp => (hu hp).elim) WorkerPc.wake_exited.mpr
    exact hlooper.stops hu (fun hp => nomatch hp)
  | stopJoin o ho hw =>
    have hu := h.used (o := o) (by simp [ho])
    have hstop := h.stops (o := o) (p := .returned) hu (fun _ => hw)
    exact ⟨hstop.unpublished, fun _ => .inr hw, hstop.returned, hstop.past⟩
  | stopped hp hs =>
    exact h.phase (fun hu => hu.elim) (fun _ => by rw [hp]; decide) (fun _ => h.returned hs)
  | destroyMember k hp =>
    refine h.phase (fun hu => hu.elim) (fun hm => ?_) (fun _ => h.past (by rw [hp]; trivial))
    rw [hp]
    exact (List.take_subset_take_left _ (Nat.le_succ k)) hm
  | looperDestroyed hp =>
    exact h.phase (fun hu => hu.elim) (fun hm => nomatch hm)
      (fun _ => h.past (by rw [hp]; trivial))
  | destroyBase k hp =>
    exact h.phase (fun hu => hu.elim) (fun hm => nomatch hm)
      (fun _ => h.past (by rw [hp]; trivial))

theorem ordered (h : (system ι ty).Reachable s) : s.Ordered := by
  apply h.invariant
  · rintro s rfl
    exact ordered_init
  · intro u a v _ hu hs
    exact hu.step hs

theorem thread_index {k : Nat} (h : Member.all[k]? = some .thread) : k = 7 := by
  have hall : ∀ k < Member.all.length, Member.all[k]? = some .thread → k = 7 := by decide
  exact hall k (List.getElem?_eq_some_iff.mp h).1 h

theorem started_late (h : (system ι ty).Reachable s) (hs : s.started = true) :
    (∀ k, s.phase ≠ .constructingBase k) ∧ ∀ k, s.phase = .constructing k → 7 ≤ k := by
  apply h.invariant (P := fun s => s.started = true →
    (∀ k, s.phase ≠ .constructingBase k) ∧ ∀ k, s.phase = .constructing k → 7 ≤ k)
  · rintro s rfl hs
    cases hs
  · intro u a v _ hu hs hv
    cases hs with
    | initBase k hp | baseDone hp => exact ((hu hv).1 _ hp).elim
    | spawn k hp hk =>
      refine ⟨by simp [hp], fun j hj => ?_⟩
      have hk := thread_index hk
      have hj : Phase.constructing k = .constructing j := hp.symm.trans hj
      cases hj
      omega
    | initMember k m hp =>
      refine ⟨by simp, fun j hj => ?_⟩
      have hk := (hu hv).2 k hp
      cases hj
      omega
    | publish | destructor | stopped | destroyMember | looperDestroyed | destroyBase => simp
    | _ => exact hu hv
  · exact hs

/-- While the worker runs, the members declared before `_thread` are alive. -/
theorem worker_within_lifetime (h : (system ι ty).Reachable s) (hs : s.started = true)
    (hw : s.looper.worker ≠ .exited) {m : Member} (hm : m ∈ Member.all.take 7) :
    m ∈ s.phase.members := by
  have hlate := started_late h hs
  cases hp : s.phase with
  | constructingBase k => exact (hlate.1 k hp).elim
  | constructing k => exact List.take_subset_take_left _ (hlate.2 k hp) hm
  | constructed | stopping => exact List.mem_of_mem_take hm
  | destroying k | destroyingBase k => exact (hw ((ordered h).past (by rw [hp]; trivial))).elim

/-- When the worker invokes `_callBack`, and as long as `realLog` runs, the constructor
has finished, the destructor has not come out of `stop`, and all members are alive. -/
theorem callBack_within_lifetime (h : (system ι ty).Reachable s)
    (hw : s.looper.worker = .call ∨ s.looper.worker = .callback) :
    (s.phase = .constructed ∨ s.phase = .stopping ∧ s.stops none ≠ .returned) ∧
      Member.callBack ∈ s.phase.members ∧ ∀ m : BaseMember, m ∈ s.phase.baseMembers := by
  have ho := ordered h
  have hnot : s.looper.worker ≠ .exited := by
    rcases hw with hw | hw <;> simp [hw]
  have hlate : ¬ s.looper.worker.early = true := by
    rcases hw with hw | hw <;> simp [hw, WorkerPc.early]
  have hphase : s.phase = .constructed ∨ s.phase = .stopping := by
    cases hp : s.phase with
    | constructed => exact .inl rfl
    | stopping => exact .inr rfl
    | constructingBase k | constructing k =>
      exact (hlate (ho.unpublished (by rw [hp]; trivial)).1.worker).elim
    | destroying k | destroyingBase k => exact (hnot (ho.past (by rw [hp]; trivial))).elim
  refine ⟨hphase.imp_right fun hp => ⟨hp, fun hr => hnot (ho.returned hr)⟩, ?_⟩
  rcases hphase with hp | hp <;> rw [hp] <;> exact ⟨by decide, fun m => by cases m <;> decide⟩

theorem init_base_reachable {k : Nat} (hk : k ≤ BaseMember.all.length) :
    (system ι ty).Reachable { init with phase := .constructingBase k } := by
  induction k with
  | zero => exact .init rfl
  | succ k ih => exact (ih (Nat.le_of_succ_le hk)).step (.initBase _ k rfl hk)

theorem init_members_reachable {k : Nat} (hk : k ≤ 7) :
    (system ι ty).Reachable { init with phase := .constructing k } := by
  induction k with
  | zero => exact (init_base_reachable (Nat.le_refl _)).step (.baseDone _ rfl)
  | succ k ih =>
    have hlen : k < Member.all.length := Nat.lt_of_lt_of_le hk (by decide)
    have hget : Member.all[k]? = some Member.all[k] := List.getElem?_eq_getElem hlen
    have hne : Member.all[k] ≠ .thread := fun he => by
      have := thread_index (hget.trans (congrArg some he))
      omega
    have h := (ih (Nat.le_of_succ_le hk)).step
      (.initMember _ k _ rfl hget (fun he => (hne he).elim))
    simpa [beq_eq_false_iff_ne.mpr hne] using h

theorem constructed_reachable : (system ι ty).Reachable
    { init with phase := .constructed, started := true, joinable := true } := by
  have h : (system ι ty).Reachable _ := init_members_reachable (Nat.le_refl 7)
  have h := h.step (.spawn _ 7 rfl rfl)
  have h := h.step (.initMember _ 7 .thread rfl rfl (fun _ => rfl))
  have h := h.step (.initMember _ 8 .callBack rfl rfl (fun _ => rfl))
  exact h.step (.publish _ rfl)

/-- The callback of an empty batch, while the destructor is in `stop`. -/
theorem callBack_within_lifetime_stopping : ∃ s : Lifetime Unit,
    (system Unit .asyncUnsafe).Reachable s ∧ s.looper.worker = .call ∧ s.phase = .stopping ∧
      Member.callBack ∈ s.phase.members := by
  have h : (system Unit .asyncUnsafe).Reachable _ := constructed_reachable
  have h := h.step (.worker _ .worker _ rfl trivial (.workerLock _ rfl rfl))
  have h := h.step (.worker _ .worker _ rfl trivial (.workerCheck _ rfl))
  have h := h.step (.destructor _ rfl)
  have h := h.step (.stopFlag _ none rfl)
  have h := h.step (.worker _ .worker _ rfl trivial (.workerTest _ rfl))
  have h := h.step (.worker _ .worker _ rfl trivial (.swap _ rfl))
  have h := h.step (.worker _ .worker _ rfl trivial (.workerUnlock _ rfl))
  exact ⟨_, h, rfl, rfl, (callBack_within_lifetime h (.inl rfl)).2.1⟩

end Lifetime

end MyLog
