import MyLog.Delivery
import MyLog.Quiescence

/-! The loggers left alone come to rest, with all calls of their threads completed and
delivered to every sink. -/

namespace MyLog

open Transition

/-- How many steps of a loop over `n` sinks are still to come. -/
def SinkPc.distance (n : Nat) : SinkPc → Nat
  | next k => 2 * (n - k) + 1
  | within k => 2 * (n - (k + 1)) + 2

theorem SinkPc.distance_lt (n : Nat) (pc : SinkPc) : pc.distance n < 2 * n + 3 := by
  cases pc <;> simp only [distance] <;> omega

theorem SinkPc.distance_enter {n k : Nat} (hk : k < n) :
    (within k).distance n < (next k).distance n := by
  simp only [distance]
  omega

theorem SinkPc.distance_exit (n k : Nat) : (next (k + 1)).distance n < (within k).distance n := by
  simp only [distance]
  omega

def SyncPc.distance (n : Nat) : SyncPc → Nat
  | idle => 0
  | lock _ _ => 2 * n + 2
  | sinks _ pc => pc.distance n

theorem SyncPc.distance_lt (n : Nat) (p : SyncPc) : p.distance n < 2 * n + 3 := by
  cases p with
  | sinks _ pc => exact pc.distance_lt n
  | _ => simp only [distance]; omega

namespace SyncLogger

variable {ι : Type}

/-- Only the calls come from outside. -/
def outside (_ : SyncLogger ι) : LoggerAction ι → Bool
  | .call _ _ => true
  | _ => false

variable [DecidableEq ι] {P : Platform} {l : Logger} {s t : SyncLogger ι} {a : LoggerAction ι}

/-- The states in which only threads in `T` are in a call. -/
def BusyIn (P : Platform) (l : Logger) (T : Finset ι) (s : SyncLogger ι) : Prop :=
  (system P l ι).Reachable s ∧ ∀ i, i ∉ T → s.thread i = .idle

theorem BusyIn.mem {T : Finset ι} (h : BusyIn P l T s) {i : ι} {p : SyncPc} (hi : s.thread i = p)
    (hp : p ≠ .idle) : i ∈ T := by
  by_contra hT
  exact hp (hi.symm.trans (h.2 i hT))

def distance (l : Logger) (T : Finset ι) (s : SyncLogger ι) : Nat :=
  ∑ i ∈ T, (s.thread i).distance l.sinks.length

theorem distance_move_lt {T : Finset ι} {i : ι} (hi : i ∈ T) {p : SyncPc}
    (hp : p.distance l.sinks.length < (s.thread i).distance l.sinks.length) {t : SyncLogger ι}
    (ht : t.thread = Function.update s.thread i p) : t.distance l T < s.distance l T := by
  have h := sum_move (f := SyncPc.distance l.sinks.length) (g := s.thread) hi p
  rw [distance, distance, ht]
  omega

theorem Step.distance_lt {T : Finset ι} (hs : Step P l s a t) (h : BusyIn P l T s)
    (ha : outside s a = false) : t.distance l T < s.distance l T := by
  cases hs with
  | filtered | call => cases ha
  | acquire i r data hi =>
    refine distance_move_lt (h.mem hi (by simp)) ?_ rfl
    rw [hi]
    simp only [SyncPc.distance, SinkPc.distance]
    omega
  | enter i data k hi hk =>
    refine distance_move_lt (h.mem hi (by simp)) ?_ rfl
    rw [hi]
    exact SinkPc.distance_enter hk
  | exit i data k hi =>
    refine distance_move_lt (h.mem hi (by simp)) ?_ rfl
    rw [hi]
    exact SinkPc.distance_exit _ k
  | release i data k hi =>
    refine distance_move_lt (h.mem hi (by simp)) ?_ rfl
    rw [hi]
    exact Nat.succ_pos _

theorem Step.distance_le {T : Finset ι} (hs : Step P l s a t) (h : BusyIn P l T t)
    (ha : outside s a = true) : t.distance l T < s.distance l T + (2 * l.sinks.length + 3) := by
  cases hs with
  | filtered => exact Nat.lt_add_of_pos_right (by omega)
  | call i r data hi =>
    have hT : i ∈ T := h.mem (Function.update_self ..) (by simp)
    have hmove := sum_move (f := SyncPc.distance l.sinks.length) (g := s.thread) hT (.lock r data)
    have hlt := SyncPc.distance_lt l.sinks.length (.lock r data)
    dsimp only [distance]
    omega
  | acquire | enter | exit | release => cases ha

def potential (P : Platform) (l : Logger) (T : Finset ι) :
    (system P l ι).Potential (BusyIn P l T) outside (2 * l.sinks.length + 3) where
  value := distance l T
  pays s a t hs hst ht := by
    cases ha : outside s a with
    | true => exact Step.distance_le hst ht ha
    | false => exact Step.distance_lt hst hs ha

theorem idle_of_resting (hr : (system P l ι).Reachable s)
    (hrest : ((system P l ι).alone outside).Resting s) (i : ι) : s.thread i = .idle := by
  -- the owner of the mutex goes on through the sinks
  have hsinks (j : ι) (data : Bytes) (pc : SinkPc) : s.thread j ≠ .sinks data pc := by
    intro hj
    cases pc with
    | next k =>
      by_cases hk : k < l.sinks.length
      · exact hrest _ _ ⟨.enter _ j data k hj hk, rfl⟩
      · exact hrest _ _ ⟨.release _ j data k hj (Nat.le_of_not_lt hk), rfl⟩
    | within k => exact hrest _ _ ⟨.exit _ j data k hj, rfl⟩
  have hm : s.mutex = none := by
    cases hm : s.mutex with
    | none => rfl
    | some j =>
      have hj : (s.thread j).holds = true := (exclusive hr j).mpr hm
      cases hp : s.thread j with
      | sinks data pc => exact (hsinks j data pc hp).elim
      | _ =>
        rw [hp] at hj
        cases hj
  cases hi : s.thread i with
  | idle => rfl
  | lock r data => exact (hrest _ _ ⟨.acquire _ i r data hi hm, rfl⟩).elim
  | sinks data pc => exact (hsinks i data pc hi).elim

theorem Step.issued_eq (hs : Step P l s a t) (ha : outside s a = false) : t.issued = s.issued := by
  cases hs with
  | filtered | call => cases ha
  | _ => rfl

theorem Step.busyIn {T : Finset ι} (hs : Step P l s a t) (h : BusyIn P l T s)
    (ha : outside s a = false) : BusyIn P l T t := by
  refine ⟨h.1.step hs, ?_⟩
  have hmove {i : ι} {p q : SyncPc} (hi : s.thread i = p) (hp : p ≠ .idle) (j : ι) (hj : j ∉ T) :
      Function.update s.thread i q j = .idle := by
    rw [Function.update_of_ne (ne_of_mem_of_not_mem (h.mem hi hp) hj).symm]
    exact h.2 j hj
  cases hs with
  | filtered | call => cases ha
  | acquire i r data hi => exact hmove hi (by simp)
  | enter i data k hi | exit i data k hi | release i data k hi => exact hmove hi (by simp)

theorem alone_run {tr : List (SyncLogger ι × LoggerAction ι)} (hr : (system P l ι).Reachable s)
    (h : ((system P l ι).alone outside).Run s tr t) :
    (system P l ι).Reachable t ∧ t.issued = s.issued := by
  induction h with
  | nil => exact ⟨hr, rfl⟩
  | snoc _ hs ih => exact ⟨ih.1.step hs.1, (Step.issued_eq hs.1 hs.2).trans ih.2⟩

/-- Whatever the order of the steps, the calls of the threads in `T` are over after at
most `2 n + 2` steps each, `n` sinks, and every sink has then been handed all of them. -/
theorem settles {T : Finset ι} (h : BusyIn P l T s) :
    ((system P l ι).alone outside).Settles (T.card * (2 * l.sinks.length + 2))
      (fun t => (∀ i, t.thread i = .idle) ∧ Delivered P l s.issued t.order t.streams) s := by
  have hbound : s.distance l T ≤ T.card * (2 * l.sinks.length + 2) :=
    Finset.sum_le_card_nsmul _ _ _ fun i _ => Nat.le_of_lt_succ (SyncPc.distance_lt ..)
  have hidle := (potential P l T).settles (P := fun t => ∀ i, t.thread i = .idle) h
    (fun _ _ _ hs hst => hst.1.busyIn hs hst.2) fun t ht hrest => idle_of_resting ht.1 hrest
  refine (hidle.mono hbound).imp fun tr t hrun hi => ?_
  obtain ⟨ht, he⟩ := alone_run h.1 hrun
  exact ⟨hi, he ▸ delivered ht hi⟩

/-- A thread that is in a call has made one. -/
theorem idle_of_issued (h : (system P l ι).Reachable s) :
    ∀ i, s.issued i = [] → s.thread i = .idle := by
  apply h.invariant
  · intro s hs
    subst hs
    exact fun _ _ => rfl
  · intro s a t _ ih hs j hj
    have hmove {i : ι} {p q : SyncPc} (hi : s.thread i = p) (hp : p ≠ .idle) (hj : s.issued j = []) :
        Function.update s.thread i q j = .idle := by
      have hji : j ≠ i := fun he => hp (hi.symm.trans (he ▸ ih j hj))
      rw [Function.update_of_ne hji]
      exact ih j hj
    cases hs with
    | filtered i | call i =>
      by_cases hji : j = i
      · subst hji
        simp at hj
      · simp_all
    | acquire i r data hi => exact hmove hi (by simp) hj
    | enter i data k hi | exit i data k hi | release i data k hi => exact hmove hi (by simp) hj

theorem Step.issued_nil (hs : Step P l s a t) {j : ι} (hj : t.issued j = []) : s.issued j = [] := by
  cases hs with
  | filtered i | call i =>
    by_cases hji : j = i
    · subst hji
      simp at hj
    · simpa [hji] using hj
  | _ => exact hj

theorem exists_callers (h : (system P l ι).Reachable s) :
    ∃ T : Finset ι, ∀ i, i ∉ T → s.issued i = [] := by
  apply h.invariant
  · intro s hs
    subst hs
    exact ⟨∅, fun _ _ => rfl⟩
  · rintro s a t - ⟨T, hT⟩ hs
    cases hs with
    | filtered i | call i =>
      refine ⟨insert i T, fun j hj => ?_⟩
      rw [Finset.mem_insert, not_or] at hj
      simpa [Function.update_of_ne hj.1] using hT j hj.2
    | _ => exact ⟨T, hT⟩

theorem exists_busyIn (h : (system P l ι).Reachable s) : ∃ T : Finset ι, BusyIn P l T s :=
  (exists_callers h).imp fun _ hT => ⟨h, fun i hi => idle_of_issued h i (hT i hi)⟩

theorem visited_issued {tr : List (SyncLogger ι × LoggerAction ι)} (h : (system P l ι).Run s tr t)
    {j : ι} (hj : t.issued j = []) : ∀ v ∈ System.visited tr t, v.issued j = [] := by
  induction h with
  | nil => simpa [System.visited] using hj
  | @snoc t u a tr _ hs ih =>
    intro v hv
    rw [System.visited_snoc] at hv
    rcases List.mem_append.mp hv with hv | hv
    · exact ih (Step.issued_nil hs hj) v hv
    · rwa [List.mem_singleton.mp hv]

/-- A call takes `2 n + 3` steps at most, `n` sinks, however the threads interleave, and a
logger left alone completes the calls in progress: each thread in `T` within `2 n + 2`
steps. -/
theorem sync_calls_complete (P : Platform) (l : Logger) (ι : Type) [DecidableEq ι] :
    (∀ tr t, (system P l ι).Run init tr t →
      tr.length ≤ (2 * l.sinks.length + 3) * tr.countP fun x => x.1.outside x.2) ∧
    (∀ s, (system P l ι).Reachable s → ∃ T : Finset ι, ∀ i, i ∉ T → s.thread i = .idle) ∧
    (∀ s (T : Finset ι), (system P l ι).Reachable s → (∀ i, i ∉ T → s.thread i = .idle) →
      ((system P l ι).alone outside).Settles (T.card * (2 * l.sinks.length + 2))
        (fun t => (∀ i, t.thread i = .idle) ∧ Delivered P l s.issued t.order t.streams) s) := by
  refine ⟨fun tr t h => ?_, fun s hs => (exists_busyIn hs).imp fun _ hT => hT.2,
    fun s T hs hT => settles ⟨hs, hT⟩⟩
  have hreach : (system P l ι).Reachable t := h.reachable (.init rfl)
  obtain ⟨T, hT⟩ := exists_callers hreach
  have hI : ∀ v ∈ System.visited tr t, BusyIn P l T v := fun v hv => by
    have hv' := h.visited_reachable (.init rfl) v hv
    exact ⟨hv', fun i hi => idle_of_issued hv' i (visited_issued h (hT i hi) v hv)⟩
  have hlen := (potential P l T).run_length h hI
  have hinit : (init : SyncLogger ι).distance l T = 0 := by simp [distance, init, SyncPc.distance]
  have hvalue : (potential P l T).value init = 0 := hinit
  omega

theorem sync_calls_complete_one :
    let P : Platform := ⟨fun _ => [], fun _ => ⟨0, 0, 0, 0, 0, 0, 0, 0, 0⟩, fun _ _ => [],
      fun _ _ _ => 0⟩
    let l : Logger := ⟨[], .info, ⟨[], [.msg, .newLine]⟩, [0]⟩
    let r : Request := ⟨.warn, [], 1, 0, 0, [104, 105], by decide⟩
    ∃ (s : SyncLogger Nat) (tr : _) (t : SyncLogger Nat), (system P l Nat).Reachable s ∧
      s.issued 0 = [r] ∧ ((system P l Nat).alone outside).Run s tr t ∧
      Delivered P l s.issued t.order t.streams := by
  intro P l r
  have h := System.Reachable.init (S := system P l Nat) rfl
  have h := h.step (.call _ 0 r [104, 105, 10] rfl rfl)
  obtain ⟨tr, t, hr, -, hd⟩ := ((sync_calls_complete P l Nat).2.2 _ {0} h fun i hi =>
    Function.update_of_ne (by simpa using hi) _ _).exists_rest
  exact ⟨_, tr, t, h, rfl, hr, hd⟩

end SyncLogger

namespace AsyncLogger

variable {ι : Type}

/-- The calls, the destruction and the spurious wakeups come from outside. -/
def outside (s : AsyncLogger ι) : LoggerAction ι → Bool
  | .call _ _ => true
  | .looper a => s.looper.outside a
  | _ => false

/-- How many steps of `realLog` are still to come in this call of it. -/
def sinkDistance (l : Logger) (s : AsyncLogger ι) : Nat :=
  if s.looper.worker = .callback then s.realLog.distance l.sinks.length else 0

theorem sinkDistance_lt (l : Logger) (s : AsyncLogger ι) :
    s.sinkDistance l < 2 * l.sinks.length + 3 := by
  unfold sinkDistance
  split
  · exact SinkPc.distance_lt ..
  · omega

def budget (l : Logger) (T : Finset ι) (s : AsyncLogger ι) : Nat :=
  packed (2 * l.sinks.length + 3) (s.looper.budget T) (s.sinkDistance l)

variable [DecidableEq ι] {P : Platform} {l : Logger} {ty : AsyncType} {s t : AsyncLogger ι}
  {a : LoggerAction ι}

/-- A step of the logger is a step of its looper, a step of `realLog` or a filtered call. -/
theorem Step.looper_step (hs : Step P l ty s a t) :
    (∃ b, Looper.Step ty s.looper b t.looper ∧ outside s a = s.looper.outside b) ∨
      t.looper = s.looper ∧ (outside s a = true ∧ t.realLog = s.realLog ∨
        t.sinkDistance l < s.sinkDistance l) := by
  cases hs with
  | filtered => exact .inr ⟨rfl, .inl ⟨rfl, rfl⟩⟩
  | call i r data x hd hr hx => exact .inl ⟨_, hx, rfl⟩
  | append i x hx => exact .inl ⟨_, hx, rfl⟩
  | inner b x hb hx => exact .inl ⟨_, hx, rfl⟩
  | destroy x hidle hx => exact .inl ⟨_, hx, rfl⟩
  | realLog x hx => exact .inl ⟨_, hx, rfl⟩
  | realLogReturns k x hp hk hx => exact .inl ⟨_, hx, rfl⟩
  | enter k hw hp hk =>
    refine .inr ⟨rfl, .inr ?_⟩
    simp only [sinkDistance, hw, if_true, hp]
    exact SinkPc.distance_enter hk
  | exit k hw hp =>
    refine .inr ⟨rfl, .inr ?_⟩
    simp only [sinkDistance, hw, if_true, hp]
    exact SinkPc.distance_exit _ k

/-- The states in which the threads in `T` have made all the calls. -/
def CalledBy (P : Platform) (l : Logger) (ty : AsyncType) (T : Finset ι) (s : AsyncLogger ι) :
    Prop :=
  (system P l ty ι).Reachable s ∧ ∀ c ∈ s.looper.entered, c.thread ∈ T

def potential (P : Platform) (l : Logger) (ty : AsyncType) (T : Finset ι) :
    (system P l ty ι).Potential (CalledBy P l ty T) outside
      (57 * Looper.base T * (2 * l.sinks.length + 3)) where
  value := budget l T
  pays s a t hs hst ht := by
    have hlt := sinkDistance_lt l t
    rcases hst.looper_step with ⟨b, hb, ho⟩ | ⟨hl, ⟨ho, hp⟩ | hd⟩
    · have hpays := (Looper.potential T ty).pays _ b _ ⟨looper_reachable hs.1, hs.2⟩ hb
        ⟨looper_reachable ht.1, ht.2⟩
      have hpacked := packed_lt_add (y := s.sinkDistance l) hpays hlt
      rw [ite_mul, Nat.zero_mul, ← ho] at hpacked
      exact hpacked
    · have he : budget l T t = budget l T s := by rw [budget, budget, sinkDistance, hl, hp]; rfl
      rw [ho, he]
      exact Nat.lt_add_of_pos_right (Nat.mul_pos (Nat.mul_pos (by omega) (Nat.succ_pos _)) (by omega))
    · rw [budget, budget, hl]
      exact Nat.lt_add_right _ (packed_lt_right hd)

/-- A logger at rest leaves its looper at rest. -/
theorem looper_resting (hrest : ((system P l ty ι).alone outside).Resting s) :
    ((Looper.system ι ty).alone Looper.outside).Resting s.looper := by
  rintro b x ⟨hx, ho⟩
  cases b with
  | call | stopCall => cases ho
  | append i => exact hrest _ _ ⟨.append _ i x hx, ho⟩
  | producer | worker | stopFlag | stopNotify | stopReturn =>
    exact hrest (.looper _) _ ⟨.inner _ _ x (by trivial) hx, ho⟩
  | callBack => exact hrest _ _ ⟨.realLog _ x hx, ho⟩
  | callBackReturns =>
    have hw : s.looper.worker = .callback := by
      cases hx with
      | callBackReturns hw => exact hw
    -- `realLog` returns when it is through with the sinks
    cases hp : s.realLog with
    | next k =>
      by_cases hk : k < l.sinks.length
      · exact hrest _ _ ⟨.enter _ k hw hp hk, rfl⟩
      · exact hrest _ _ ⟨.realLogReturns _ k x hp (Nat.le_of_not_lt hk) hx, ho⟩
    | within k => exact hrest _ _ ⟨.exit _ k hw hp, rfl⟩

structure Kept (s t : AsyncLogger ι) : Prop where
  issued : t.issued = s.issued
  entered : t.looper.entered = s.looper.entered
  stopper : t.looper.stopper = .idle ↔ s.looper.stopper = .idle
  awake : Looper.Awake s.looper → Looper.Awake t.looper

theorem Step.kept (hs : Step P l ty s a t) (ha : outside s a = false) : Kept s t := by
  have hissued : t.issued = s.issued := by
    cases hs with
    | filtered | call => cases ha
    | _ => rfl
  rcases hs.looper_step with ⟨b, hb, ho⟩ | ⟨hl, -⟩
  · obtain ⟨he, hst⟩ := Looper.Step.entered_eq hb (ho ▸ ha)
    exact ⟨hissued, he, hst, fun h => h.step hb⟩
  · exact ⟨hissued, by rw [hl], by rw [hl], fun h => hl ▸ h⟩

theorem alone_run {tr : List (AsyncLogger ι × LoggerAction ι)} (hr : (system P l ty ι).Reachable s)
    (h : ((system P l ty ι).alone outside).Run s tr t) : (system P l ty ι).Reachable t ∧ Kept s t := by
  induction h with
  | nil => exact ⟨hr, rfl, rfl, Iff.rfl, id⟩
  | snoc _ hs ih =>
    obtain ⟨ht, hi, he, hst, hw⟩ := ih
    have hk := hs.1.kept hs.2
    exact ⟨ht.step hs.1, hk.issued.trans hi, hk.entered.trans he, hk.stopper.trans hst,
      fun h => hk.awake (hw h)⟩

theorem settles (hr : (system P l ty ι).Reachable s) :
    ((system P l ty ι).alone outside).Settles (s.budget l s.looper.callers)
      (fun t => Looper.AtRest t.looper) s :=
  (potential P l ty s.looper.callers).settles
    ⟨hr, fun _ hc => List.mem_toFinset.mpr (List.mem_map_of_mem hc)⟩
    (fun _ _ _ hs hst => ⟨hs.1.step hst.1, (hst.1.kept hst.2).entered ▸ hs.2⟩)
    fun _ ht hrest => Looper.atRest_of_resting (looper_resting hrest) (looper_reachable ht.1)

/-- With no thread in `push`, a logger whose looper is at rest has delivered. -/
theorem delivered_at_rest (hr : (system P l ty ι).Reachable s) (h : Looper.AtRest s.looper)
    (hidle : ∀ i, s.looper.producer i = .idle) : Delivered P l s.issued s.order s.streams := by
  have hl := linked hr
  have hlooper := looper_reachable hr
  have hw : s.looper.worker ≠ .callback := by
    rcases h.worker with ⟨hw, -⟩ | ⟨hw, -⟩ <;> simp [hw]
  have hall : s.looper.handed.flatten = (s.order.map fun c => l.textOf P c.2).flatten := by
    rcases h.worker with ⟨hw, -⟩ | ⟨-, hd⟩
    · rw [h.handed hlooper hw, hl.text]
      exact List.flatMap_def
    · exact handed_all hr hd
  refine ⟨fun i => ?_, fun k hk => ?_⟩
  · have ho := hl.inOrder i
    have hp := hl.pushing i
    rw [hidle i] at hp
    have hnone : (s.pushing i).toList = [] := by simpa [ProducerPc.pending] using hp
    simp only [hnone, List.append_nil] at ho
    exact ho.symm
  · rw [(spread hr).free hw k hk, hall, List.flatMap_def]
    rfl

/-- A thread that sleeps in `push` does so with the text of a call it made. -/
theorem exists_request (hr : (system P l ty ι).Reachable s) {i : ι} {c : Call ι}
    (hi : s.looper.producer i = .asleep c) :
    ∃ r ∈ s.issued i, l.enabled r = true ∧ l.textOf P r = c.data := by
  have hp := (linked hr).pushing i
  have ho := (linked hr).inOrder i
  rw [hi] at hp
  cases hr' : s.pushing i with
  | none => simp [hr', ProducerPc.pending] at hp
  | some r =>
    rw [hr'] at hp
    have hmem : r ∈ (s.issued i).filter l.enabled := by simp [ho, hr']
    obtain ⟨hmem, he⟩ := List.mem_filter.mp hmem
    exact ⟨r, hmem, he, by simpa [ProducerPc.pending] using hp⟩

/-- Before its destruction the logger left alone comes to rest with all calls returned and
delivered, if the texts fit into a buffer where threads wait for room. -/
theorem settles_before_destruction (hr : (system P l ty ι).Reachable s)
    (hd : s.looper.stopper = .idle)
    (hfit : ty = .asyncSafe → ∀ i, ∀ r ∈ s.issued i, l.enabled r = true →
      (l.textOf P r).length ≤ defaultBufferSize) :
    ((system P l ty ι).alone outside).Settles (s.budget l s.looper.callers)
      (fun t => (∀ i, t.looper.producer i = .idle) ∧
        Delivered P l s.issued t.order t.streams) s := by
  refine (settles hr).imp fun tr t hrun h => ?_
  obtain ⟨ht, hk⟩ := alone_run hr hrun
  have hlooper := looper_reachable ht
  have hw : t.looper.worker = .asleep := by
    rcases h.worker with ⟨hw, -⟩ | ⟨-, hret⟩
    · exact hw
    · rw [hk.stopper.mpr hd] at hret
      cases hret
  have hidle (i : ι) : t.looper.producer i = .idle := by
    refine (h.producer i).resolve_right fun ⟨c, hi⟩ => ?_
    obtain ⟨rfl, -⟩ := h.asleep hlooper hi
    obtain ⟨r, hmem, he, hc⟩ := exists_request ht hi
    have hlong := Looper.oversized_of_bothAsleep hlooper ⟨h.mutex hlooper, hw, hi⟩
    have hshort := hfit rfl i r (hk.issued ▸ hmem) he
    rw [hc] at hshort
    omega
  exact ⟨hidle, hk.issued ▸ delivered_at_rest ht h hidle⟩

/-- The destruction of the logger delivers all calls and then completes, unless the
wakeup of `stop` was lost; even then everything is delivered. -/
theorem destruction_settles (hr : (system P l ty ι).Reachable s)
    (hd : s.looper.stopper ≠ .idle) :
    ((system P l ty ι).alone outside).Settles (s.budget l s.looper.callers)
      (fun t => Delivered P l s.issued t.order t.streams ∧
        (t.looper.stopper = .returned ∨ Looper.LostWakeup t.looper) ∧
        (Looper.Awake s.looper → t.looper.stopper = .returned)) s := by
  refine (settles hr).imp fun tr t hrun h => ?_
  obtain ⟨ht, hk⟩ := alone_run hr hrun
  have hidle := (quiet ht).idle fun he => hd (hk.stopper.mp he)
  refine ⟨hk.issued ▸ delivered_at_rest ht h hidle, ?_, fun hw => ?_⟩
  · rcases h.worker with ⟨hw, hst | hst⟩ | ⟨-, hret⟩
    · exact (hd (hk.stopper.mp hst)).elim
    · exact .inr ⟨hst, hw⟩
    · exact .inl hret
  · rcases h.worker with ⟨hasleep, -⟩ | ⟨-, hret⟩
    · exact ((hk.awake hw).asleep hasleep).elim
    · exact hret

theorem destruction_settles_one :
    let P : Platform := ⟨fun _ => [], fun _ => ⟨0, 0, 0, 0, 0, 0, 0, 0, 0⟩, fun _ _ => [],
      fun _ _ _ => 0⟩
    let l : Logger := ⟨[], .info, ⟨[], [.msg, .newLine]⟩, [0]⟩
    let r : Request := ⟨.warn, [], 1, 0, 0, [104, 105], by decide⟩
    ∃ (s : AsyncLogger Nat) (tr : _) (t : AsyncLogger Nat),
      (system P l .asyncUnsafe Nat).Reachable s ∧ s.issued 0 = [r] ∧
      ((system P l .asyncUnsafe Nat).alone outside).Run s tr t ∧ t.looper.stopper = .returned ∧
      Delivered P l s.issued t.order t.streams := by
  intro P l r
  have g := System.Reachable.init (S := system P l .asyncUnsafe Nat) rfl
  have g := g.step (.call _ 0 r [104, 105, 10] _ rfl rfl (.call _ 0 _ rfl))
  have g := g.step (.inner _ (.producer 0) _ trivial (.producerLock _ 0 _ rfl rfl))
  have g := g.step (.append _ 0 _ (.append _ 0 _ _ rfl rfl))
  have g := g.step (.inner _ (.producer 0) _ trivial (.notifyOne _ 0 _ rfl))
  have g := g.step (.inner _ (.producer 0) _ trivial (.producerReturn _ 0 _ rfl))
  have g := g.step (.destroy _ _ (fun i => by cases i <;> rfl) (.stopCall _ rfl))
  have g := g.step (.inner _ .stopFlag _ trivial (.stopFlag _ rfl))
  have g := g.step (.inner _ .stopNotify _ trivial (.stopNotify _ rfl))
  obtain ⟨tr, t, hr, hd, -, hret⟩ := (destruction_settles g (by simp)).exists_rest
  exact ⟨_, tr, t, g, rfl, hr, hret ⟨rfl, by simp [Looper.init, init, WorkerPc.wake],
    by simp [Looper.init, init, WorkerPc.wake]⟩, hd⟩

end AsyncLogger

end MyLog
