import MyLog.Wakeup

/-! Batches without a byte: the worker makes one only where it finds the flag of `stop` up,
and then only once. -/

namespace MyLog

open Transition

/-- The empty batch that the worker is about to take or to give to the callback. -/
def WorkerPc.blank (pro con : Bytes) : WorkerPc → Nat
  | swap => if pro = [] then 1 else 0
  | notify | unlock | call => if con = [] then 1 else 0
  | _ => 0

namespace Looper

variable {ι : Type}

def blanks (s : Looper ι) : Nat :=
  s.handed.count [] + s.worker.blank s.proBuf.readable s.conBuf.readable

/-- After an empty batch the worker goes to its wait only where it need not sleep. -/
def Roused (pro : Bytes) : WorkerPc → Prop
  | .sleep | .asleep | .relock => False
  | .test => pro ≠ []
  | _ => True

structure BlankOnce (s : Looper ι) : Prop where
  once : s.blanks ≤ 1
  stop : s.blanks = 1 → s.stop = true
  roused : s.blanks = 1 → Roused s.proBuf.readable s.worker

section Move

variable {s t : Looper ι}

theorem BlankOnce.move (h : BlankOnce s) (hb : t.blanks = s.blanks)
    (hs : s.stop = true → t.stop = true)
    (hw : s.stop = true → Roused s.proBuf.readable s.worker → Roused t.proBuf.readable t.worker) :
    BlankOnce t := by
  obtain ⟨ho, hf, hr⟩ := h
  exact ⟨hb ▸ ho, fun h => hs (hf (hb ▸ h)), fun h => hw (hf (hb ▸ h)) (hr (hb ▸ h))⟩

theorem BlankOnce.wake (h : BlankOnce s) : BlankOnce { s with worker := s.worker.wake } := by
  refine h.move ?_ id fun _ hr => ?_
  · cases hw : s.worker <;> simp [blanks, hw, WorkerPc.wake, WorkerPc.blank]
  · show Roused s.proBuf.readable s.worker.wake
    cases hw : s.worker <;> rw [hw] at hr
    case asleep => exact hr.elim
    all_goals exact hr

theorem BlankOnce.test (h : BlankOnce s) (hw : s.worker = .test) : BlankOnce { s with
    worker := if s.stop || !s.proBuf.empty then .swap else .sleep } := by
  have hs : s.blanks = s.handed.count [] := by simp [blanks, hw, WorkerPc.blank]
  by_cases hp : s.proBuf.readable = []
  · have hempty : s.proBuf.empty = true := (Buffer.empty_iff _).mpr hp
    -- with nothing to take, no empty batch was made before
    have hnone : s.handed.count [] = 0 := by
      have ho := h.once
      have hr := h.roused
      rw [hw] at hr
      have hne : s.blanks ≠ 1 := fun he => hr he hp
      omega
    cases hstop : s.stop <;> constructor <;>
      simp [blanks, WorkerPc.blank, Roused, hempty, hp, hnone]
  · have hempty : s.proBuf.empty = false := by
      rwa [← Bool.not_eq_true, Buffer.empty_iff]
    refine h.move ?_ id fun _ _ => ?_
    · simp [blanks, WorkerPc.blank, hw, hempty, hp]
    · simp [Roused, hempty]

end Move

variable [DecidableEq ι] {ty : AsyncType} {s t : Looper ι} {a : Action ι}

theorem BlankOnce.step (h : BlankOnce s) (hr : (system ι ty).Reachable s) (hs : Step ty s a t) :
    BlankOnce t := by
  cases hs with
  | call | producerLock | producerTest | producerSleep | producerSpurious | producerRelock
  | producerReturn | stopCall | stopReturn => exact h.move rfl id fun _ => id
  | stopFlag => exact h.move rfl (fun _ => rfl) fun _ => id
  | notifyOne | stopNotify => exact h.wake.move rfl id fun _ => id
  | append i c b hi hb =>
    have hnot : s.worker.holds = false := by
      by_contra hw
      have hx := worker_excludes hr (by simpa using hw) i
      rw [hi] at hx
      cases hx
    refine h.move ?_ id fun _ hr => ?_
    · cases hw : s.worker <;> simp_all [blanks, WorkerPc.blank, WorkerPc.holds]
    · show Roused b.readable s.worker
      cases hw : s.worker <;> simp_all [Roused, WorkerPc.holds]
  | workerLock hw | workerUnlock hw | callBackReturns hw | reset hw | leave hw | notifyAll hw =>
    exact h.move (by simp [blanks, hw, WorkerPc.blank]) id fun _ _ => trivial
  | workerSleep hw | workerSpurious hw | workerRelock hw =>
    refine h.move (by simp [blanks, hw, WorkerPc.blank]) id fun _ hr => ?_
    rw [hw] at hr
    exact hr.elim
  | workerCheck hw =>
    refine h.move ?_ id fun hstop _ => ?_
    · show _ + WorkerPc.blank _ _ (if s.stop && s.proBuf.empty then .leave else .test) = _
      split <;> simp [blanks, hw, WorkerPc.blank]
    · show Roused s.proBuf.readable (if s.stop && s.proBuf.empty then .leave else .test)
      split
      · trivial
      · next hne => simpa [Roused, hstop, Buffer.empty_iff] using hne
  | workerTest hw => exact h.test hw
  | swap hw =>
    refine h.move ?_ id fun _ _ => ?_
    · show _ + WorkerPc.blank _ _ (if ty = .asyncSafe then .notify else .unlock) = _
      split <;> simp [blanks, hw, WorkerPc.blank]
    · show Roused _ (if ty = .asyncSafe then .notify else .unlock)
      split <;> trivial
  | callBack hw =>
    refine h.move ?_ id fun _ _ => trivial
    simp [blanks, hw, WorkerPc.blank, List.count_singleton]

theorem blankOnce (h : (system ι ty).Reachable s) : BlankOnce s := by
  apply h.invariant
  · intro s hs
    subst hs
    have hnone : (init : Looper ι).blanks = 0 := rfl
    refine ⟨by omega, fun hone => ?_, fun hone => ?_⟩ <;> omega
  · intro s a t hr ih hs
    exact ih.step hr hs

/-- In a run of any length the callback is given an empty batch at most once, and only after
`stop` was called. -/
theorem empty_batch_once (h : (system ι ty).Reachable s) :
    s.handed.count [] ≤ 1 ∧ ([] ∈ s.handed → s.stopper ≠ .idle) := by
  obtain ⟨ho, hstop, -⟩ := blankOnce h
  refine ⟨(Nat.le_add_right ..).trans ho, fun hmem hidle => ?_⟩
  have hpos := List.count_pos_iff.mpr hmem
  have hone : s.blanks = 1 := by
    rw [blanks] at ho ⊢
    omega
  have hflag := (stopping h).flag
  rw [hstop hone, hidle] at hflag
  cases hflag

theorem empty_batch_once_stopped : ∃ s : Looper Nat, (system Nat .asyncSafe).Reachable s ∧
    s.handed = [[]] ∧ s.stopper ≠ .idle := by
  have h := System.Reachable.init (S := system Nat .asyncSafe) rfl
  have h := h.step (.workerLock _ rfl rfl)
  have h := h.step (.workerCheck _ rfl)
  have h := h.step (.stopCall _ rfl)
  have h := h.step (.stopFlag _ rfl)
  have h := h.step (.workerTest _ rfl)
  have h := h.step (.swap _ rfl)
  have h := h.step (.notifyAll _ rfl)
  have h := h.step (.workerUnlock _ rfl)
  have h := h.step (.callBack _ rfl)
  exact ⟨_, h, rfl, (empty_batch_once h).2 (List.mem_singleton.mpr rfl)⟩

end Looper

end MyLog
