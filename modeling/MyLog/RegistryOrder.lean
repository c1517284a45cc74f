import MyLog.Registry

/-! Every history of the manager is one of atomic operations in some order. A call takes
effect where it finds the name there, where it inserts, or where it looks. -/

namespace MyLog

open Transition Linearizability

namespace Loggers

variable {m : Loggers} {name : Bytes} {l : LoggerPtr}

theorem insert_of_has (h : m.hasLogger name = true) (l : LoggerPtr) : m.insert name l = m :=
  if_pos h

theorem insert_keeps (h : m name = some l) (name' : Bytes) (l' : LoggerPtr) :
    (m.insert name' l') name = some l := by
  unfold insert
  split
  · exact h
  · next hn =>
    have hne : name ≠ name' := by
      rintro rfl
      simp [h] at hn
    rw [Function.update_of_ne hne, h]

theorem insert_has (m : Loggers) (name : Bytes) (l : LoggerPtr) :
    ((m.insert name l) name).isSome = true := by
  unfold insert
  split
  · next h => exact h
  · simp

def Named (m : Loggers) : Prop := ∀ name l, m name = some l → l.getName = name

theorem Named.insert (h : m.Named) (l : LoggerPtr) : (m.insert l.getName l).Named := by
  unfold Loggers.insert
  split
  · exact h
  · intro name l' hl'
    by_cases hn : name = l.getName
    · subst hn
      rw [Function.update_self] at hl'
      rw [← Option.some.inj hl']
    · rw [Function.update_of_ne hn] at hl'
      exact h name l' hl'

end Loggers

open LoggerManager in
def CriticalSection.Serves : CriticalSection → ManagerCall → Prop
  | .addHas l r, op | .addInsert l r, op => ∀ m, Atomic m op r (m.insert l.getName l)
  | .hasLogger name, op => op = .hasLogger name
  | .getLogger name, op => op = .getLogger name

def ManagerPc.Serves : ManagerPc → ManagerCall → Prop
  | .build b, op => op = .build b
  | .lock k, op | .locked k, op => k.Serves op
  | .idle, _ | .ret _, _ => False

namespace LoggerManager

section Atomic

variable {m m' : Loggers} {op : ManagerCall} {r : ManagerResult} {name : Bytes} {l : LoggerPtr}

theorem Atomic.keeps (h : Atomic m op r m') (hl : m name = some l) : m' name = some l := by
  cases h with
  | addLogger l' | build l' => exact Loggers.insert_keeps hl _ _
  | hasLogger | getLogger => exact hl

theorem Atomic.keeps_some (h : Atomic m op r m') (hm : (m name).isSome) : (m' name).isSome := by
  obtain ⟨l, hl⟩ := Option.isSome_iff_exists.mp hm
  rw [h.keeps hl]
  rfl

theorem Atomic.got (h : Atomic m (.getLogger name) r m') : r = .got (m name) ∧ m' = m := by
  cases h
  exact ⟨rfl, rfl⟩

theorem Atomic.found (h : Atomic m (.getLogger name) (.got (some l)) m') : m' name = some l := by
  obtain ⟨hg, rfl⟩ := h.got
  exact (ManagerResult.got.inj hg).symm

theorem Atomic.added (h : Atomic m op r m') (hl : op = .addLogger l ∨ r = .built l) :
    (m' l.getName).isSome := by
  cases h with
  | addLogger l' =>
    obtain rfl : l' = l := by simpa using hl
    exact Loggers.insert_has m _ _
  | build l' =>
    obtain rfl : l' = l := by simpa using hl
    exact Loggers.insert_has m _ _
  | hasLogger | getLogger => simp at hl

theorem Atomic.named (h : Atomic m op r m') (hm : m.Named) : m'.Named := by
  cases h with
  | addLogger l' | build l' => exact hm.insert _
  | hasLogger | getLogger => exact hm

theorem serves_enter (op : ManagerCall) : op.enter.Serves op := by
  cases op with
  | addLogger l => exact fun m => .addLogger m l
  | hasLogger | getLogger | build => rfl

/-- A section either takes effect and returns, or leaves the map and goes on. -/
theorem run_cases {k : CriticalSection} (hk : k.Serves op) (m : Loggers) :
    (∃ r, (k.run m).2 = .ret r ∧ Atomic m op r (k.run m).1) ∨
      (k.run m).1 = m ∧ ∃ k', (k.run m).2 = .lock k' ∧ k'.Serves op := by
  cases k with
  | addHas l r =>
    by_cases hh : m.hasLogger l.getName = true
    · left
      refine ⟨r, by simp [CriticalSection.run, hh], ?_⟩
      have := hk m
      rwa [Loggers.insert_of_has hh] at this
    · exact .inr ⟨rfl, .addInsert l r, by simp [CriticalSection.run, hh], hk⟩
  | addInsert l r => exact .inl ⟨r, rfl, hk m⟩
  | hasLogger name =>
    subst hk
    exact .inl ⟨_, rfl, .hasLogger m name⟩
  | getLogger name =>
    subst hk
    exact .inl ⟨_, rfl, .getLogger m name⟩

end Atomic

variable {ι : Type}

abbrev Order (ι : Type) := List (Entry (ι × Nat) ManagerCall ManagerResult)

def Progress (h : List (Event (ι × Nat) ManagerCall ManagerResult)) (order : Order ι)
    (c : ι × Nat) : ManagerPc → Prop
  | .idle => c ∉ h.filterMap Event.invoked
  | .ret r => ∃ op, ⟨c, op, r⟩ ∈ order
  | p => c ∉ order.map Entry.call ∧ ∃ op, .invoke c op ∈ h ∧ p.Serves op

variable {h h' : List (Event (ι × Nat) ManagerCall ManagerResult)} {order order' : Order ι}
  {c : ι × Nat} {p : ManagerPc}

theorem Progress.frame (hp : Progress h order c p) (hh : h ⊆ h') (ho : order ⊆ order')
    (hi : c ∈ h'.filterMap Event.invoked → c ∈ h.filterMap Event.invoked)
    (hc : c ∈ order'.map Entry.call → c ∈ order.map Entry.call) : Progress h' order' c p := by
  cases p with
  | idle => exact fun hm => hp (hi hm)
  | ret r =>
    obtain ⟨op, he⟩ := hp
    exact ⟨op, ho he⟩
  | build | lock | locked =>
    obtain ⟨hn, op, hm, hs⟩ := hp
    exact ⟨fun hm => hn (hc hm), op, hh hm, hs⟩

/-- The order of the calls that have taken effect, which the map is the result of. -/
structure Ordered (w : LoggerManager ι) (order : Order ι) : Prop where
  lin : Linearization Atomic (rooted w.rootLogger) w.history order w.loggers
  later : ∀ i n, w.calls i < n → (i, n) ∉ w.history.filterMap Event.invoked
  progress : ∀ i, Progress w.history order (i, w.calls i) (w.pc i)

variable [DecidableEq ι] {w w' : LoggerManager ι} {a : Action ι}

omit [DecidableEq ι] in
theorem progress_of_serves {op : ManagerCall} (hc : c ∉ order.map Entry.call)
    (hi : .invoke c op ∈ h) (hs : p.Serves op) : Progress h order c p := by
  cases p with
  | idle | ret => exact hs.elim
  | build | lock | locked => exact ⟨hc, op, hi, hs⟩

theorem forall_pc {Q : ι → ManagerPc → Prop} {f : ι → ManagerPc} {i : ι} (hp : Q i p)
    (hf : ∀ j, j ≠ i → Q j (f j)) (j : ι) : Q j (Function.update f i p j) :=
  (Function.forall_update_iff f Q).mpr ⟨hp, hf⟩ j

theorem Ordered.call (ho : Ordered w order) {i : ι} {op : ManagerCall} (hpc : w.pc i = .idle) :
    Ordered { w with
      pc := Function.update w.pc i op.enter
      history := w.history ++ [.invoke (i, w.calls i) op] } order := by
  have hnew : (i, w.calls i) ∉ w.history.filterMap Event.invoked := by
    have := ho.progress i
    rwa [hpc] at this
  refine ⟨ho.lin.invoke hnew, fun j n hn => ?_, forall_pc ?_ fun j hj => ?_⟩
  · have hold := ho.later j n hn
    rw [invoked_invoke, List.mem_append, List.mem_singleton, Prod.mk.injEq]
    rintro (hm | ⟨rfl, rfl⟩)
    · exact hold hm
    · exact absurd hn (lt_irrefl _)
  · refine progress_of_serves (fun hm => hnew ?_) (by simp) (serves_enter op)
    obtain ⟨e, he, hec⟩ := List.mem_map.mp hm
    exact hec ▸ mem_invoked (ho.lin.invoked e he)
  · refine (ho.progress j).frame (List.subset_append_left _ _) (List.Subset.refl _)
      (fun hm => ?_) id
    rw [invoked_invoke, List.mem_append, List.mem_singleton, Prod.mk.injEq] at hm
    exact hm.resolve_right fun he => hj he.1

theorem Ordered.commit (ho : Ordered w order) {i : ι} {op : ManagerCall} {r : ManagerResult}
    {m : Loggers} (hi : .invoke (i, w.calls i) op ∈ w.history)
    (hn : (i, w.calls i) ∉ order.map Entry.call) (hx : Atomic w.loggers op r m)
    (mutex : Option ι) :
    Ordered { w with mutex := mutex, loggers := m, pc := Function.update w.pc i (.ret r) }
      (order ++ [⟨(i, w.calls i), op, r⟩]) := by
  refine ⟨ho.lin.commit hi hn hx, ho.later, forall_pc ⟨op, by simp⟩ fun j hj => ?_⟩
  refine (ho.progress j).frame (List.Subset.refl _) (List.subset_append_left _ _) id fun hm => ?_
  rw [List.map_append, List.mem_append] at hm
  refine hm.resolve_right fun he => hj ?_
  exact congrArg Prod.fst (List.mem_singleton.mp he)

theorem Ordered.ret (ho : Ordered w order) {i : ι} {r : ManagerResult} (hpc : w.pc i = .ret r) :
    Ordered { w with
      pc := Function.update w.pc i .idle
      calls := Function.update w.calls i (w.calls i + 1)
      history := w.history ++ [.respond (i, w.calls i) r] } order := by
  have hp := ho.progress i
  rw [hpc] at hp
  obtain ⟨op, he⟩ := hp
  refine ⟨ho.lin.respond he, fun j n hn => ?_, fun j => ?_⟩
  · rw [invoked_respond]
    apply ho.later
    by_cases hj : j = i
    · subst hj
      exact Nat.lt_of_succ_lt (by simpa using hn)
    · simpa [hj] using hn
  · by_cases hj : j = i
    · subst hj
      simp only [Function.update_self, Progress, invoked_respond]
      exact ho.later j _ (Nat.lt_succ_self _)
    · simp only [Function.update_of_ne hj]
      exact (ho.progress j).frame (List.subset_append_left _ _) (List.Subset.refl _)
        (fun hm => by rwa [invoked_respond] at hm) id

theorem Ordered.step (ho : Ordered w order) (hs : Step w a w') : ∃ order, Ordered w' order := by
  cases hs with
  | construct => exact ⟨order, ho.lin, ho.later, ho.progress⟩
  | call i op hpc => exact ⟨order, ho.call hpc⟩
  | build i b b' psink x hpc hb =>
    refine ⟨order, ho.lin, ho.later, forall_pc ?_ fun j _ => ho.progress j⟩
    have hp := ho.progress i
    rw [hpc] at hp
    obtain ⟨hn, op, hi, rfl⟩ := hp
    exact ⟨hn, _, hi, fun m => .build m _ b b' psink hb⟩
  | lock i k hpc hm =>
    refine ⟨order, ho.lin, ho.later, forall_pc ?_ fun j _ => ho.progress j⟩
    have hp := ho.progress i
    rwa [hpc] at hp
  | run i k hpc =>
    have hp := ho.progress i
    rw [hpc] at hp
    obtain ⟨hn, op, hi, hk⟩ := hp
    rcases run_cases hk w.loggers with ⟨r, hr, hx⟩ | ⟨hm, k', hr, hk'⟩
    · rw [hr]
      exact ⟨_, ho.commit hi hn hx none⟩
    · rw [hm, hr]
      exact ⟨order, ho.lin, ho.later, forall_pc ⟨hn, op, hi, hk'⟩ fun j _ => ho.progress j⟩
  | ret i r hpc => exact ⟨order, ho.ret hpc⟩

theorem ordered (hr : (system ι).Reachable w) : ∃ order, Ordered w order := by
  apply hr.invariant
  · rintro w ⟨psink, b, x, -, rfl⟩
    exact ⟨[], .empty _ _, by simp [init], fun i => by simp [init, Progress]⟩
  · rintro s a t - ⟨order, ho⟩ hs
    exact ho.step hs

theorem root_name (hr : (system ι).Reachable w) : w.rootLogger.getName = utf8 "root" := by
  apply hr.invariant
  · rintro w ⟨psink, b, x, hx, rfl⟩
    exact LoggerBuilder.build_name hx
  · rintro s a t - ih hs
    cases hs <;> exact ih

theorem rooted_root (l : LoggerPtr) : rooted l (utf8 "root") = some l := by
  simp [rooted, Loggers.insert]

theorem rooted_named {l : LoggerPtr} (hl : l.getName = utf8 "root") : (rooted l).Named := by
  have hempty : Loggers.Named fun _ => none := fun _ _ h => by cases h
  rw [rooted, ← hl]
  exact hempty.insert l

/-- The results of every history are those of atomic operations in an order that agrees
with real time; what a lookup has found stays, every entry is under its own name, an added
name is found, and the name of the root logger gives the root logger. -/
theorem registry_atomic (hr : (system ι).Reachable w) :
    (∃ order, Linearization Atomic (rooted w.rootLogger) w.history order w.loggers) ∧
    (∀ c c' name l r, .invoke c (.getLogger name) ∈ w.history →
      .respond c (.got (some l)) ∈ w.history → Before w.history c c' →
      .invoke c' (.getLogger name) ∈ w.history → .respond c' r ∈ w.history →
      r = .got (some l)) ∧
    (∀ name l, w.loggers.getLogger name = some l → l.getName = name) ∧
    (∀ c c' op l r r', .invoke c op ∈ w.history → .respond c r ∈ w.history →
      (op = .addLogger l ∨ r = .built l) → Before w.history c c' →
      .invoke c' (.getLogger l.getName) ∈ w.history → .respond c' r' ∈ w.history →
      ∃ l', r' = .got (some l')) ∧
    (∀ c r, .invoke c (.getLogger (utf8 "root")) ∈ w.history → .respond c r ∈ w.history →
      r = .got (some w.rootLogger)) := by
  obtain ⟨order, ho⟩ := ordered hr
  refine ⟨⟨order, ho.lin⟩, fun c c' name l r hi hc hb hi' hc' => ?_, ?_,
    fun c c' op l r r' hi hc hl hb hi' hc' => ?_, fun c r hi hc => ?_⟩
  · obtain ⟨m, m', hm, hx⟩ := ho.lin.later (P := fun m => m name = some l)
      (fun _ _ _ _ hx => hx.keeps) hb hi hc (fun m m' hx => hx.found) hi' hc'
    rw [hx.got.1, hm]
  · exact ho.lin.legal.invariant (rooted_named (root_name hr)) fun _ _ _ _ hx => hx.named
  · obtain ⟨m, m', hm, hx⟩ := ho.lin.later (P := fun m => (m l.getName).isSome)
      (fun _ _ _ _ hx => hx.keeps_some) hb hi hc (fun m m' hx => hx.added hl) hi' hc'
    obtain ⟨l', hl'⟩ := Option.isSome_iff_exists.mp hm
    exact ⟨l', by rw [hx.got.1, hl']⟩
  · obtain ⟨m, m', hm, hx⟩ := ho.lin.always (rooted_root w.rootLogger)
      (fun _ _ _ _ hx => hx.keeps) hi hc
    rw [hx.got.1, hm]

theorem root_builds : ∃ b x,
    (LoggerBuilder.init.buildLoggerName (utf8 "root")).build 0 = some (b, x) := by
  obtain ⟨f, hf⟩ := Formatter.default_accepted
  have hn : utf8 "root" ≠ [] := by decide
  simp [LoggerBuilder.build, LoggerBuilder.buildLoggerName, LoggerBuilder.init, hf, hn]

/-- Both threads find the name missing, and the first one inserts second. -/
theorem registry_atomic_race : ∃ (w : LoggerManager Bool) (l l' : LoggerPtr),
    (system Bool).Reachable w ∧ l.address ≠ l'.address ∧
      .invoke (true, 0) (.addLogger l) ∈ w.history ∧ .respond (true, 0) .done ∈ w.history ∧
      .respond (true, 1) (.got (some l')) ∈ w.history ∧ l'.getName = [97] := by
  obtain ⟨b, x, hx⟩ := root_builds
  have h := System.Reachable.init (S := system Bool) ⟨0, b, x, hx, rfl⟩
  have h := h.step (.construct _ { x with logger := { x.logger with loggerName := [97] } })
  have h := h.step (.construct _ { x with logger := { x.logger with loggerName := [97] } })
  have h := h.step (.call _ true (.addLogger _) rfl (by rintro l ⟨⟩; exact .tail _ (.head _)))
  have h := h.step (.call _ false (.addLogger _) rfl
    (by rintro l ⟨⟩; exact .tail _ (.tail _ (.head _))))
  have h := h.step (.lock _ true _ rfl rfl)
  have h := h.step (.run _ true _ rfl)
  have h := h.step (.lock _ false _ rfl rfl)
  have h := h.step (.run _ false _ rfl)
  have h := h.step (.lock _ false _ rfl rfl)
  have h := h.step (.run _ false _ rfl)
  have h := h.step (.lock _ true _ rfl rfl)
  have h := h.step (.run _ true _ rfl)
  have h := h.step (.ret _ true _ rfl)
  have h := h.step (.call _ true (.getLogger [97]) rfl (by rintro l ⟨⟩))
  have h := h.step (.lock _ true _ rfl rfl)
  have h := h.step (.run _ true _ rfl)
  have h := h.step (.ret _ true _ rfl)
  refine ⟨_, ⟨1, _⟩, ⟨2, _⟩, h, (show (1 : Nat) ≠ 2 by decide), .head _,
    .tail _ (.tail _ (.head _)), .tail _ (.tail _ (.tail _ (.tail _ (.head _)))), ?_⟩
  exact (registry_atomic h).2.2.1 _ _ rfl

end LoggerManager

end MyLog
