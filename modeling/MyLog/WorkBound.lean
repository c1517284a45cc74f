import Mathlib.Algebra.Order.BigOperators.Group.Finset
import MyLog.Lib.Potential
import MyLog.LooperFrame
import MyLog.Standstill

/-! The work of the looper: each call of `push`, the call of `stop` and each spurious
wakeup makes for a bounded number of steps of all threads together. -/

namespace MyLog

open Transition

/-- How many steps that can wake the worker a thread has still to take: the append and
its notification. -/
def ProducerPc.owes {ι : Type} : ProducerPc ι → Nat
  | .lock _ | .test _ | .sleep _ | .asleep _ | .relock _ | .write _ => 2
  | .notify _ => 1
  | .unlock _ | .idle => 0

def StopPc.owes : StopPc → Nat
  | .flag => 2
  | .notify => 1
  | .idle | .join | .returned => 0

/-- How far a thread is from its next append, notification or rest. -/
def ProducerPc.distance {ι : Type} : ProducerPc ι → Nat
  | .lock _ | .relock _ => 3
  | .test _ => 2
  | .sleep _ | .write _ | .notify _ | .unlock _ => 1
  | .asleep _ | .idle => 0

def StopPc.distance : StopPc → Nat
  | .join => 1
  | _ => 0

def ProducerPc.sleeps {ι : Type} : ProducerPc ι → Bool
  | .asleep _ => true
  | _ => false

/-- How far the worker is from its rest, by way of a swap if there is something to take. -/
def WorkerPc.distance (stop empty : Bool) : WorkerPc → Nat
  | .asleep | .exited => 0
  | .sleep | .leave => 1
  | .test => if stop || !empty then 11 else 2
  | .relock => if stop || !empty then 12 else 3
  | .check => if empty then 3 else 12
  | .lock => if empty then 4 else 13
  | .reset => if empty then 5 else 14
  | .callback => if empty then 6 else 15
  | .call => if empty then 7 else 16
  | .unlock => if empty then 8 else 17
  | .notify => if empty then 9 else 18
  | .swap => 10

theorem WorkerPc.distance_lt (stop empty : Bool) (w : WorkerPc) : w.distance stop empty < 19 := by
  cases w <;> cases stop <;> cases empty <;> decide

theorem ProducerPc.owes_le {ι : Type} (p : ProducerPc ι) : p.owes ≤ 2 := by
  cases p <;> simp [ProducerPc.owes]

theorem ProducerPc.distance_le {ι : Type} (p : ProducerPc ι) : p.distance ≤ 3 := by
  cases p <;> simp [ProducerPc.distance]

@[simp] theorem ProducerPc.wake_owes {ι : Type} (p : ProducerPc ι) : p.wake.owes = p.owes := by
  cases p <;> rfl

namespace Looper

variable {ι : Type}

def owed (T : Finset ι) (s : Looper ι) : Nat :=
  ∑ i ∈ T, (s.producer i).owes + s.stopper.owes

def workerDistance (s : Looper ι) : Nat := s.worker.distance s.stop s.proBuf.empty

def threadsDistance (T : Finset ι) (s : Looper ι) : Nat :=
  ∑ i ∈ T, (s.producer i).distance + s.stopper.distance

def base (T : Finset ι) : Nat := 3 * T.card + 2

def budget (T : Finset ι) (s : Looper ι) : Nat :=
  packed (base T) (packed 19 (s.owed T) s.workerDistance) (s.threadsDistance T)

/-- The steps that the looper does not take on its own: the calls, and the wakeups
without a notification. -/
def outside (s : Looper ι) : Action ι → Bool
  | .call _ _ | .stopCall => true
  | .producer i => (s.producer i).sleeps
  | .worker => s.worker == .asleep
  | _ => false

theorem threadsDistance_lt (T : Finset ι) (s : Looper ι) : s.threadsDistance T < base T := by
  have hp : ∑ i ∈ T, (s.producer i).distance ≤ T.card • 3 :=
    Finset.sum_le_card_nsmul _ _ _ fun i _ => (s.producer i).distance_le
  have hs : s.stopper.distance ≤ 1 := by cases s.stopper <;> decide
  rw [Nat.nsmul_eq_mul] at hp
  unfold threadsDistance base
  omega

variable [DecidableEq ι] {ty : AsyncType} {s t : Looper ι} {a : Action ι}

/-- What one step does to the three counters of the budget. -/
inductive Spends (T : Finset ι) (s t : Looper ι) : Prop
  | signal (h : t.owed T < s.owed T)
  | worker (h : t.owed T = s.owed T) (hw : t.workerDistance < s.workerDistance)
  | thread (h : t.owed T = s.owed T) (hw : t.workerDistance = s.workerDistance)
      (ht : t.threadsDistance T < s.threadsDistance T)

omit [DecidableEq ι] in
theorem Spends.budget_lt {T : Finset ι} (h : Spends T s t) : t.budget T < s.budget T := by
  have hw : t.workerDistance < 19 := WorkerPc.distance_lt ..
  have ht := threadsDistance_lt T t
  cases h with
  | signal h => exact packed_lt_left (packed_lt_left h hw) ht
  | worker h hw' =>
    refine packed_lt_left ?_ ht
    rw [h]
    exact packed_lt_right hw'
  | thread h hw' ht' =>
    rw [budget, budget, h, hw']
    exact packed_lt_right ht'

omit [DecidableEq ι] in
/-- A step from outside adds two appends or notifications at most. -/
theorem budget_lt_add {T : Finset ι} (h : t.owed T ≤ s.owed T + 2) :
    t.budget T < s.budget T + 57 * base T :=
  packed_lt_add (packed_lt_add (n := 3) (Nat.lt_succ_of_le h) (WorkerPc.distance_lt ..))
    (threadsDistance_lt T t)

section Moves

variable {T : Finset ι} {i : ι} {p : ProducerPc ι} {m : Option (Agent ι)} {cs : List (Call ι)}

/-- A thread moves on inside `push`. -/
theorem Spends.move (hi : i ∈ T) (ho : p.owes = (s.producer i).owes)
    (hd : p.distance < (s.producer i).distance) :
    Spends T s { s with mutex := m, producer := Function.update s.producer i p, returned := cs } := by
  have h₁ := sum_move (f := ProducerPc.owes) (g := s.producer) hi p
  have h₂ := sum_move (f := ProducerPc.distance) (g := s.producer) hi p
  refine .thread ?_ rfl ?_
  · dsimp only [owed]
    omega
  · dsimp only [threadsDistance]
    omega

theorem Spends.signal_move (hi : i ∈ T) (ho : p.owes < (s.producer i).owes) {t : Looper ι}
    (hp : t.producer = Function.update s.producer i p) (hs : t.stopper = s.stopper) :
    Spends T s t := by
  have h := sum_move (f := ProducerPc.owes) (g := s.producer) hi p
  refine .signal ?_
  rw [owed, owed, hp, hs]
  omega

end Moves

/-- A thread that is in `push` has entered a call. -/
def EnteredBy (cs : List (Call ι)) (f : ι → ProducerPc ι) : Prop :=
  ∀ i, f i ≠ .idle → ∃ c ∈ cs, c.thread = i

theorem EnteredBy.update {cs : List (Call ι)} {f : ι → ProducerPc ι} (h : EnteredBy cs f) {i : ι}
    (hi : ∃ c ∈ cs, c.thread = i) (p : ProducerPc ι) : EnteredBy cs (Function.update f i p) := by
  intro j hj
  by_cases hji : j = i
  · rwa [hji]
  · exact h j (by rwa [Function.update_of_ne hji] at hj)

theorem entered_by (h : (system ι ty).Reachable s) : EnteredBy s.entered s.producer := by
  apply h.invariant
  · intro s hs
    subst hs
    exact fun i hi => (hi rfl).elim
  · intro s a t _ ih hs
    cases hs with
    | call i data hi =>
      have hmore : EnteredBy (s.entered ++ [s.nextCall i data]) s.producer := fun j hj => by
        obtain ⟨c, hc, hcj⟩ := ih j hj
        exact ⟨c, List.mem_append_left _ hc, hcj⟩
      exact hmore.update ⟨s.nextCall i data, by simp, rfl⟩ _
    | producerLock i c hi | producerTest i c hi | producerSleep i c hi | producerSpurious i c hi
    | producerRelock i c hi | append i c _ hi | notifyOne i c hi | producerReturn i c hi =>
      exact ih.update (ih i (by simp [hi])) _
    | notifyAll =>
      intro i hi
      refine ih i fun he => hi ?_
      show (s.producer i).wake = .idle
      rw [he]
      rfl
    | _ => exact ih

theorem Step.spends {T : Finset ι} (hs : Step ty s a t) (hr : (system ι ty).Reachable s)
    (hT : ∀ c ∈ s.entered, c.thread ∈ T) (ha : outside s a = false) : Spends T s t := by
  have hmem {i : ι} (hi : s.producer i ≠ .idle) : i ∈ T := by
    obtain ⟨c, hc, rfl⟩ := entered_by hr i hi
    exact hT c hc
  cases hs with
  | call | stopCall => cases ha
  | producerSpurious i c hi => simp [outside, hi, ProducerPc.sleeps] at ha
  | workerSpurious hw => simp [outside, hw] at ha
  | producerLock i c hi | producerTest i c hi =>
    refine .move (hmem (by simp [hi])) ?_ ?_ <;> rw [hi] <;> split <;>
      simp [ProducerPc.owes, ProducerPc.distance]
  | producerSleep i c hi | producerRelock i c hi | producerReturn i c hi =>
    refine .move (hmem (by simp [hi])) ?_ ?_ <;> rw [hi] <;>
      simp [ProducerPc.owes, ProducerPc.distance]
  | append i c b hi | notifyOne i c hi =>
    exact .signal_move (hmem (by simp [hi])) (by simp [hi, ProducerPc.owes]) rfl rfl
  | workerLock hw | workerSleep hw | workerRelock hw | workerUnlock hw | callBack hw
  | callBackReturns hw | reset hw | leave hw | workerCheck hw | workerTest hw =>
    refine .worker rfl ?_
    simp only [workerDistance, hw]
    cases s.stop <;> cases s.proBuf.empty <;> decide
  | swap hw =>
    have hempty := (Buffer.empty_iff _).mpr (staged_nil hr hw).2
    refine .worker rfl ?_
    simp only [workerDistance, hw, hempty]
    cases ty <;> cases s.stop <;> cases s.proBuf.empty <;> decide
  | notifyAll hw =>
    refine .worker (by simp [owed]) ?_
    simp only [workerDistance, hw]
    cases s.stop <;> cases s.proBuf.empty <;> decide
  | stopFlag hp | stopNotify hp =>
    refine .signal ?_
    simp [owed, hp, StopPc.owes]
  | stopReturn hp hw =>
    refine .thread (by simp [owed, hp, StopPc.owes]) rfl ?_
    simp [threadsDistance, hp, StopPc.distance]

theorem owed_move_le {T : Finset ι} {i : ι} (hi : i ∈ T) (p : ProducerPc ι) :
    ∑ j ∈ T, (Function.update s.producer i p j).owes ≤ ∑ j ∈ T, (s.producer j).owes + 2 := by
  have h := sum_move (f := ProducerPc.owes) (g := s.producer) hi p
  have hp := p.owes_le
  omega

/-- A step from outside brings in one append and one notification at most. -/
theorem Step.owed_le {T : Finset ι} (hs : Step ty s a t) (hr : (system ι ty).Reachable t)
    (hT : ∀ c ∈ t.entered, c.thread ∈ T) (ha : outside s a = true) : t.owed T ≤ s.owed T + 2 := by
  have hmem {i : ι} (hi : t.producer i ≠ .idle) : i ∈ T := by
    obtain ⟨c, hc, rfl⟩ := entered_by hr i hi
    exact hT c hc
  cases hs with
  | call i | producerSpurious i =>
    rw [owed, owed, Nat.add_right_comm]
    exact Nat.add_le_add_right (owed_move_le (hmem (i := i) (by simp)) _) _
  | stopCall hp => simp [owed, hp, StopPc.owes]
  | producerLock i c hi | producerTest i c hi | producerSleep i c hi | producerRelock i c hi
  | notifyOne i c hi | producerReturn i c hi => simp [outside, hi, ProducerPc.sleeps] at ha
  | append | callBack | callBackReturns | stopFlag | stopNotify | stopReturn => cases ha
  | notifyAll hw => simp [outside, hw] at ha
  | _ => exact Nat.le_add_right _ 2

/-- The states of a looper that the threads in `T` call. -/
def CalledBy (T : Finset ι) (ty : AsyncType) (s : Looper ι) : Prop :=
  (system ι ty).Reachable s ∧ ∀ c ∈ s.entered, c.thread ∈ T

def potential (T : Finset ι) (ty : AsyncType) :
    (system ι ty).Potential (CalledBy T ty) outside (57 * base T) where
  value s := s.budget T
  pays s a t hs hst ht := by
    cases ha : outside s a with
    | true => exact budget_lt_add (Step.owed_le hst ht.1 ht.2 ha)
    | false => exact (Step.spends hst hs.1 hs.2 ha).budget_lt

theorem Step.entered_subset (hs : Step ty s a t) : s.entered ⊆ t.entered := by
  cases hs with
  | call => exact List.subset_append_left _ _
  | _ => exact List.Subset.refl _

theorem visited_entered {tr : List (Looper ι × Action ι)} (h : (system ι ty).Run s tr t) :
    ∀ v ∈ System.visited tr t, v.entered ⊆ t.entered := by
  induction h with
  | nil => simp [System.visited]
  | @snoc t u a tr _ hs ih =>
    intro v hv
    rw [System.visited_snoc] at hv
    rcases List.mem_append.mp hv with hv | hv
    · exact List.Subset.trans (ih v hv) (Step.entered_subset hs)
    · rw [List.mem_singleton.mp hv]
      exact List.Subset.refl _

/-- All threads together take a bounded number of steps for each call, for each call of
`stop` and for each spurious wakeup. The bound is linear in the number of threads. -/
theorem work_bounded {tr : List (Looper ι × Action ι)} (h : (system ι ty).Run init tr t) :
    tr.length ≤ 57 * (3 * (t.entered.map Call.thread).toFinset.card + 2) *
      (tr.countP (fun x => outside x.1 x.2) + 1) := by
  let T := (t.entered.map Call.thread).toFinset
  have hI : ∀ v ∈ System.visited tr t, CalledBy T ty v := fun v hv =>
    ⟨h.visited_reachable (.init rfl) v hv, fun c hc =>
      List.mem_toFinset.mpr (List.mem_map_of_mem (visited_entered h v hv hc))⟩
  have hlen := (potential T ty).run_length h hI
  have hinit : (init : Looper ι).budget T = 4 * base T := by
    simp [budget, packed, owed, workerDistance, threadsDistance, init, ProducerPc.owes,
      ProducerPc.distance, StopPc.owes, StopPc.distance, WorkerPc.distance, Buffer.empty,
      Buffer.init]
  calc tr.length
      ≤ 4 * base T + 57 * base T * tr.countP fun x => outside x.1 x.2 := by
        rw [← hinit]
        exact (Nat.le_add_right _ _).trans hlen
    _ ≤ 57 * base T * (tr.countP (fun x => outside x.1 x.2) + 1) := by
        rw [Nat.mul_add]
        omega

theorem work_bounded_call : ∃ tr t, (system Nat .asyncUnsafe).Run init tr t ∧ tr.length = 4 ∧
    tr.length ≤ 57 * (3 * (t.entered.map Call.thread).toFinset.card + 2) *
      (tr.countP (fun x => outside x.1 x.2) + 1) := by
  have h := System.Run.nil (S := system Nat .asyncUnsafe) (s := init)
  have h := h.snoc (.call _ 0 [104, 105] rfl)
  have h := h.snoc (.producerLock _ 0 _ rfl rfl)
  have h := h.snoc (.append _ 0 _ _ rfl rfl)
  have h := h.snoc (.notifyOne _ 0 _ rfl)
  exact ⟨_, _, h, rfl, work_bounded h⟩

end Looper

end MyLog
