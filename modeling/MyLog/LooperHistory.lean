import MyLog.LooperInvariant

/-! The calls of each thread: entered, appended and returned in program order. -/

namespace MyLog

open Transition

/-- The call whose bytes the thread has still to append. -/
def ProducerPc.pending {ι : Type} : ProducerPc ι → List (Call ι)
  | .lock c | .test c | .sleep c | .asleep c | .relock c | .write c => [c]
  | _ => []

/-- The call whose bytes the thread has appended, until it returns. -/
def ProducerPc.written {ι : Type} : ProducerPc ι → List (Call ι)
  | .notify c | .unlock c => [c]
  | _ => []

@[simp] theorem ProducerPc.wake_pending {ι : Type} (p : ProducerPc ι) :
    p.wake.pending = p.pending := by
  cases p <;> rfl

@[simp] theorem ProducerPc.wake_written {ι : Type} (p : ProducerPc ι) :
    p.wake.written = p.written := by
  cases p <;> rfl

namespace Looper

variable {ι : Type} [DecidableEq ι] {ty : AsyncType} {s t : Looper ι} {a : Action ι}

@[simp] theorem byThread_append (i : ι) (cs ds : List (Call ι)) :
    byThread i (cs ++ ds) = byThread i cs ++ byThread i ds :=
  List.filter_append ..

theorem byThread_singleton_self {i : ι} {c : Call ι} (h : c.thread = i) :
    byThread i [c] = [c] := by
  simp [byThread, h]

theorem byThread_singleton_ne {i : ι} {c : Call ι} (h : c.thread ≠ i) :
    byThread i [c] = [] := by
  simp [byThread, h]

structure Threads (entered returned accepted : List (Call ι)) (f : ι → ProducerPc ι) :
    Prop where
  seqs : ∀ i, (byThread i entered).map Call.seq = List.range (byThread i entered).length
  pending : ∀ i, byThread i entered = byThread i accepted ++ (f i).pending
  written : ∀ i, ∀ c ∈ (f i).written, c ∈ accepted
  returned : ∀ c ∈ returned, c ∈ accepted

section Threads

variable {entered returned accepted : List (Call ι)} {f : ι → ProducerPc ι} {i : ι}
  {c : Call ι} {p : ProducerPc ι}

theorem Threads.thread_eq (h : Threads entered returned accepted f)
    (hc : c ∈ (f i).pending) : c.thread = i := by
  have hm : c ∈ byThread i entered := by
    rw [h.pending i]
    exact List.mem_append_right _ hc
  simpa [byThread] using (List.mem_filter.mp hm).2

/-- Inside `push` a thread moves on with the same call, appended or not. -/
theorem Threads.move (h : Threads entered returned accepted f)
    (hp : p.pending = (f i).pending) (hw : ∀ c ∈ p.written, c ∈ accepted) :
    Threads entered returned accepted (Function.update f i p) := by
  refine ⟨h.seqs, fun j => ?_, fun j => ?_, h.returned⟩ <;> by_cases hj : j = i
  · subst hj
    simpa [hp] using h.pending j
  · simpa [hj] using h.pending j
  · subst hj
    simpa using hw
  · simpa [hj] using h.written j

theorem Threads.enter (h : Threads entered returned accepted f) (hi : f i = .idle)
    (hc : c.thread = i) (hs : c.seq = (byThread i entered).length) :
    Threads (entered ++ [c]) returned accepted (Function.update f i (.lock c)) := by
  refine ⟨fun j => ?_, fun j => ?_, fun j => ?_, h.returned⟩ <;> by_cases hj : j = i
  · subst hj
    simp [byThread_singleton_self hc, h.seqs, List.range_succ, hs]
  · have hc' : c.thread ≠ j := fun he => hj (he.symm.trans hc)
    simpa [byThread_singleton_ne hc'] using h.seqs j
  · subst hj
    have := h.pending j
    rw [hi] at this
    simp [byThread_singleton_self hc, this, ProducerPc.pending]
  · have hc' : c.thread ≠ j := fun he => hj (he.symm.trans hc)
    simpa [byThread_singleton_ne hc', hj] using h.pending j
  · subst hj
    simp [ProducerPc.written]
  · simpa [hj] using h.written j

theorem Threads.append (h : Threads entered returned accepted f) (hi : f i = .write c) :
    Threads entered returned (accepted ++ [c]) (Function.update f i (.notify c)) := by
  have hc : c.thread = i := h.thread_eq (by simp [hi, ProducerPc.pending])
  refine ⟨h.seqs, fun j => ?_, fun j d hd => ?_, fun d hd => ?_⟩
  · by_cases hj : j = i
    · subst hj
      have := h.pending j
      rw [hi] at this
      simpa [byThread_singleton_self hc, ProducerPc.pending] using this
    · have hc' : c.thread ≠ j := fun he => hj (he.symm.trans hc)
      simpa [byThread_singleton_ne hc', hj] using h.pending j
  · by_cases hj : j = i
    · subst hj
      have : d = c := by simpa [ProducerPc.written] using hd
      simp [this]
    · exact List.mem_append_left _ (h.written j d (by simpa [hj] using hd))
  · exact List.mem_append_left _ (h.returned d hd)

theorem Threads.finish (h : Threads entered returned accepted f) (hi : f i = .unlock c) :
    Threads entered (returned ++ [c]) accepted (Function.update f i .idle) := by
  have hm := h.move (i := i) (p := .idle) (by rw [hi]; rfl) (by simp [ProducerPc.written])
  refine ⟨hm.seqs, hm.pending, hm.written, fun d hd => ?_⟩
  rcases List.mem_append.mp hd with hd | hd
  · exact h.returned d hd
  · exact h.written i d (by simpa [hi, ProducerPc.written] using hd)

end Threads

theorem Step.threads (hs : Step ty s a t)
    (h : Threads s.entered s.returned s.flow.accepted s.producer) :
    Threads t.entered t.returned t.flow.accepted t.producer := by
  cases hs with
  | call i data hi => exact h.enter hi rfl rfl
  | append i c b hi hb => exact h.append hi
  | producerReturn i c hi => exact h.finish hi
  | producerLock i c hi | producerTest i c hi =>
    exact h.move (by rw [hi]; split <;> rfl) (by split <;> simp [ProducerPc.written])
  | producerSleep i c hi | producerSpurious i c hi | producerRelock i c hi =>
    exact h.move (by rw [hi]; rfl) (by simp [ProducerPc.written])
  | notifyOne i c hi =>
    have hw := h.written i
    rw [hi] at hw
    exact h.move (by rw [hi]; rfl) hw
  | notifyAll =>
    exact ⟨h.seqs, by simpa using h.pending, by simpa using h.written, h.returned⟩
  | _ => exact h

theorem threads (h : (system ι ty).Reachable s) :
    Threads s.entered s.returned s.flow.accepted s.producer := by
  apply h.invariant
  · intro s hs
    subst hs
    exact ⟨fun _ => rfl, fun _ => rfl, by simp [init, ProducerPc.written], by simp [init]⟩
  · intro s a t hr ih hs
    exact Step.threads hs ih

theorem accepted_order (h : (system ι ty).Reachable s) (i : ι) :
    byThread i s.flow.accepted <+: byThread i s.entered :=
  ⟨_, ((threads h).pending i).symm⟩

theorem accepted_nodup (h : (system ι ty).Reachable s) : s.flow.accepted.Nodup := by
  rw [List.nodup_iff_count_le_one]
  intro c
  have he : (byThread c.thread s.entered).Nodup := by
    apply List.Nodup.of_map Call.seq
    rw [(threads h).seqs c.thread]
    exact List.nodup_range
  have ha : (byThread c.thread s.flow.accepted).Nodup :=
    he.sublist (accepted_order h c.thread).sublist
  have hcount := List.nodup_iff_count_le_one.mp ha c
  rwa [byThread, List.count_filter (by simp)] at hcount

end Looper

end MyLog
