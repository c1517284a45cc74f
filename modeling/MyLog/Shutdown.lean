import MyLog.Conservation
import MyLog.Wakeup

/-! Messages at shutdown. The worker's last look at the producers' buffer and the
append of a producer that has not yet taken the mutex can come in either order. -/

namespace MyLog

open Transition

namespace Looper

variable {ι : Type}

def InBatch (s : Looper ι) (c : Call ι) (k : Nat) : Prop :=
  ∃ pre post : List (Call ι), s.flow.batches[k]? = some (pre ++ c :: post) ∧
    s.handed[k]? = some (bytesOf pre ++ c.data ++ bytesOf post)

/-- The bytes of the call, if it has any, went to the callback in one batch. -/
def HandedOnce (s : Looper ι) (c : Call ι) : Prop :=
  c.data ≠ [] → ∃! k, InBatch s c k

def AppendsLate (s : Looper ι) (i : ι) (c : Call ι) : Prop :=
  s.producer i = .write c ∧ c.data ≠ [] ∧ s.worker = .exited

theorem data_nil_of_bytesOf {cs : List (Call ι)} (h : bytesOf cs = []) {c : Call ι}
    (hc : c ∈ cs) : c.data = [] :=
  List.flatMap_eq_nil_iff.mp h c hc

variable [DecidableEq ι] {ty : AsyncType} {s t u : Looper ι} {a : Action ι}
  {tr : List (Looper ι × Action ι)} {c : Call ι} {i : ι}

theorem handedOnce_of_mem (h : (system ι ty).Reachable s)
    (hc : c ∈ s.flow.batches.flatten) : HandedOnce s c := by
  intro _
  obtain ⟨k, pre, post, hk⟩ := exists_batch hc
  have hnd : s.flow.batches.flatten.Nodup := (accepted_nodup h).sublist (batches_prefix_accepted h).sublist
  refine ⟨k, ⟨pre, post, hk, ?_⟩, ?_⟩
  · rw [(coupled h).handed, List.getElem?_map, hk]
    simp [bytesOf]
  · rintro j ⟨pre', post', hj, _⟩
    exact batch_unique hnd hj hk (a := c) (by simp) (by simp)

/-- When the worker has left, what still lies in the producers' buffer was
appended late. -/
theorem queued_late (h : (system ι ty).Run s tr t) (hs : s = init)
    (hw : t.worker = .leave ∨ t.worker = .exited) (hc : c ∈ t.flow.queued)
    (hd : c.data ≠ []) : ∃ u i, (u, Action.append i) ∈ tr ∧ AppendsLate u i c := by
  induction h with
  | nil =>
    subst hs
    simp [init] at hw
  | @snoc t u a tr hr hst ih =>
    have hreach : (system ι ty).Reachable t := hr.reachable (.init hs)
    -- a step that keeps the worker's position and the buffer keeps the claim
    have hkeep : (t.worker = .leave ∨ t.worker = .exited) → c ∈ t.flow.queued →
        ∃ v i, (v, Action.append i) ∈ tr ++ [(t, a)] ∧ AppendsLate v i c := by
      intro hw' hc'
      obtain ⟨v, i, hm, hl⟩ := ih hw' hc'
      exact ⟨v, i, List.mem_append_left _ hm, hl⟩
    cases hst with
    | append i d b hi hb =>
      rcases List.mem_append.mp hc with hc | hc
      · exact hkeep hw hc
      · obtain rfl : c = d := by simpa using hc
        refine ⟨t, i, by simp, hi, hd, hw.resolve_left fun hl => ?_⟩
        have hp := worker_excludes hreach (by rw [show t.worker = .leave from hl]; rfl) i
        rw [hi] at hp
        cases hp
    | workerCheck hw' =>
      by_cases he : (t.stop && t.proBuf.empty) = true
      · have hb := (Buffer.empty_iff _).mp (Bool.and_eq_true_iff.mp he).2
        rw [(coupled hreach).pro] at hb
        exact (hd (data_nil_of_bytesOf hb hc)).elim
      · simp [he] at hw
    | leave hw' => exact hkeep (.inl hw') hc
    | workerTest | swap =>
      dsimp only at hw
      split at hw <;> simp at hw
    | notifyOne | stopNotify => exact hkeep (by simpa using hw) hc
    | workerLock | workerSleep | workerSpurious | workerRelock | notifyAll | workerUnlock
    | callBack | callBackReturns | reset => simp at hw
    | _ => exact hkeep hw hc

theorem exited_run (h : (system ι ty).Run s tr t) (hw : s.worker = .exited) :
    t.worker = .exited ∧ t.flow.batches = s.flow.batches := by
  induction h with
  | nil => exact ⟨hw, rfl⟩
  | snoc _ hs ih =>
    obtain ⟨hw, hb⟩ := ih
    cases hs with
    | notifyOne | stopNotify => exact ⟨WorkerPc.wake_exited.mpr hw, hb⟩
    | workerLock h | workerCheck h | workerTest h | workerSleep h | workerSpurious h
    | workerRelock h | swap h | notifyAll h | workerUnlock h | callBack h
    | callBackReturns h | reset h | leave h =>
      rw [hw] at h
      cases h
    | _ => exact ⟨hw, hb⟩

theorem late_not_handed (h : (system ι ty).Run s tr t) (hs : (system ι ty).Reachable s)
    (hm : (u, Action.append i) ∈ tr) (hl : AppendsLate u i c) : ¬ HandedOnce t c := by
  intro hh
  obtain ⟨hi, hd, hw⟩ := hl
  obtain ⟨k, ⟨pre, post, hk, _⟩, _⟩ := hh hd
  obtain ⟨tr₁, v, tr₂, h₁, hv, h₂, _⟩ := h.split hm
  have hv' := (h₁.reachable hs).step hv
  cases hv with
  | append _ d b hi' hb =>
    obtain rfl : c = d := by
      rw [hi] at hi'
      exact ProducerPc.write.inj hi'
    rw [(exited_run h₂ hw).2] at hk
    -- the call was handed over before it was appended
    have hmem : c ∈ u.flow.accepted := by
      refine (batches_prefix_accepted (h₁.reachable hs)).subset ?_
      exact List.mem_flatten.mpr ⟨_, List.mem_of_getElem? hk, by simp⟩
    have hnd : (u.flow.accepted ++ [c]).Nodup := accepted_nodup hv'
    exact (List.nodup_append.mp hnd).2.2 c hmem c (by simp) rfl

/-- After `stop` every call entered before it has been handed over, except for
those that appended when the worker had already left its loop. -/
theorem shutdown_delivers (h : (system ι ty).Run init tr t) (hr : t.stopper = .returned) :
    (∀ c ∈ t.returned, c.beforeStop = true → HandedOnce t c) ↔
      ∀ s i c, (s, Action.append i) ∈ tr → c ∈ t.returned → c.beforeStop = true →
        ¬ AppendsLate s i c := by
  have hreach : (system ι ty).Reachable t := h.reachable (.init rfl)
  have hw : t.worker = .exited := (stopping hreach).exited hr
  constructor
  · intro hall s i c hm hc hb hl
    exact late_not_handed h (.init rfl) hm hl (hall c hc hb)
  · intro hall c hc hb hd
    have hstaged : t.flow.staged = [] := by
      have hcon := (coupled hreach).con
      rw [hw] at hcon
      exact hcon.1
    rcases (Pipeline.mem_delivered (flow_reachable hreach)).mp
      ((threads hreach).returned c hc) with hc' | hc' | hc'
    · exact handedOnce_of_mem hreach hc' hd
    · simp [hstaged] at hc'
    · obtain ⟨u, i, hm, hl⟩ := queued_late h rfl (.inr hw) hc' hd
      exact (hall u i c hm hc hb hl).elim

theorem shutdown_delivers_run : ∃ tr t, (system Nat .asyncSafe).Run init tr t ∧
    t.stopper = .returned ∧ t.returned.length = 1 ∧
    ((∀ c ∈ t.returned, c.beforeStop = true → HandedOnce t c) ↔
      ∀ s i c, (s, Action.append i) ∈ tr → c ∈ t.returned → c.beforeStop = true →
        ¬ AppendsLate s i c) := by
  have h := System.Run.nil (S := system Nat .asyncSafe) (s := init)
  have h := h.snoc (.call _ 0 [104, 105] rfl)
  have h := h.snoc (.producerLock _ 0 _ rfl rfl)
  have h := h.snoc (.producerTest _ 0 _ rfl)
  have h := h.snoc (.append _ 0 _ _ rfl rfl)
  have h := h.snoc (.notifyOne _ 0 _ rfl)
  have h := h.snoc (.producerReturn _ 0 _ rfl)
  have h := h.snoc (.stopCall _ rfl)
  have h := h.snoc (.stopFlag _ rfl)
  have h := h.snoc (.stopNotify _ rfl)
  have h := h.snoc (.workerLock _ rfl rfl)
  have h := h.snoc (.workerCheck _ rfl)
  have h := h.snoc (.workerTest _ rfl)
  have h := h.snoc (.swap _ rfl)
  have h := h.snoc (.notifyAll _ rfl)
  have h := h.snoc (.workerUnlock _ rfl)
  have h := h.snoc (.callBack _ rfl)
  have h := h.snoc (.callBackReturns _ rfl)
  have h := h.snoc (.reset _ rfl)
  have h := h.snoc (.workerLock _ rfl rfl)
  have h := h.snoc (.workerCheck _ rfl)
  have h := h.snoc (.leave _ rfl)
  have h := h.snoc (.stopReturn _ rfl rfl)
  exact ⟨_, _, h, rfl, rfl, shutdown_delivers h rfl⟩

/-- A producer that is in `push` but has not taken the mutex yet finds the worker gone. -/
theorem shutdown_loses_message : ¬ ∀ (ty : AsyncType) (t : Looper Nat),
    (system Nat ty).Reachable t → t.stopper = .returned →
      ∀ c ∈ t.returned, c.beforeStop = true → HandedOnce t c := by
  intro hall
  have h := System.Reachable.init (S := system Nat .asyncSafe) rfl
  have h := h.step (.call _ 0 [104, 105] rfl)
  have h := h.step (.stopCall _ rfl)
  have h := h.step (.stopFlag _ rfl)
  have h := h.step (.stopNotify _ rfl)
  have h := h.step (.workerLock _ rfl rfl)
  have h := h.step (.workerCheck _ rfl)
  have h := h.step (.leave _ rfl)
  have h := h.step (.stopReturn _ rfl rfl)
  have h := h.step (.producerLock _ 0 _ rfl rfl)
  have h := h.step (.producerTest _ 0 _ rfl)
  have h := h.step (.append _ 0 _ _ rfl rfl)
  have h := h.step (.notifyOne _ 0 _ rfl)
  have h := h.step (.producerReturn _ 0 _ rfl)
  obtain ⟨k, ⟨pre, post, hk, _⟩, _⟩ :=
    hall _ _ h rfl _ (List.mem_singleton.mpr rfl) rfl (List.cons_ne_nil _ _)
  cases hk

end Looper

end MyLog
