import Mathlib.Data.List.Induction
import Mathlib.Data.List.Nodup
import Mathlib.Data.List.Pairwise

/-! Concurrent calls on an object whose results are those of its operations one after the
other, in an order that agrees with real time. -/

namespace Linearizability

variable {C O R σ : Type*}

inductive Event (C O R : Type*)
  | invoke (c : C) (op : O)
  | respond (c : C) (r : R)

def Event.invoked : Event C O R → Option C
  | .invoke c _ => some c
  | .respond _ _ => none

structure Entry (C O R : Type*) where
  call : C
  op : O
  result : R

/-- The operations one after the other take the object from `s` to the last state. -/
inductive Legal (X : σ → O → R → σ → Prop) (s : σ) : List (Entry C O R) → σ → Prop
  | nil : Legal X s [] s
  | snoc {t u : σ} {es : List (Entry C O R)} {e : Entry C O R} (h : Legal X s es t)
      (hx : X t e.op e.result u) : Legal X s (es ++ [e]) u

/-- The call `c` returned before `c'` began. -/
def Before (h : List (Event C O R)) (c c' : C) : Prop :=
  ∃ r op, [.respond c r, .invoke c' op].Sublist h

structure Linearization (X : σ → O → R → σ → Prop) (s : σ) (h : List (Event C O R))
    (order : List (Entry C O R)) (t : σ) : Prop where
  once : (h.filterMap Event.invoked).Nodup
  legal : Legal X s order t
  nodup : (order.map Entry.call).Nodup
  invoked : ∀ e ∈ order, .invoke e.call e.op ∈ h
  complete : ∀ c r, .respond c r ∈ h → ∃ op, ⟨c, op, r⟩ ∈ order
  realTime : ∀ pre e post, order = pre ++ e :: post →
    ∀ c, Before h c e.call → c ∈ pre.map Entry.call

variable {X : σ → O → R → σ → Prop} {s t u : σ} {h : List (Event C O R)}
  {order : List (Entry C O R)} {c c' d : C} {op op' : O} {r r' : R} {P : σ → Prop}

@[simp] theorem invoked_invoke (h : List (Event C O R)) (c : C) (op : O) :
    (h ++ [Event.invoke c op]).filterMap Event.invoked = h.filterMap Event.invoked ++ [c] := by
  rw [List.filterMap_append]
  rfl

@[simp] theorem invoked_respond (h : List (Event C O R)) (c : C) (r : R) :
    (h ++ [Event.respond c r]).filterMap Event.invoked = h.filterMap Event.invoked := by
  rw [List.filterMap_append]
  exact List.append_nil _

theorem mem_invoked (hi : .invoke c op ∈ h) : c ∈ h.filterMap Event.invoked :=
  List.mem_filterMap.mpr ⟨_, hi, rfl⟩

theorem Before.left (hb : Before h c c') : ∃ r, .respond c r ∈ h := by
  obtain ⟨r, op, hs⟩ := hb
  exact ⟨r, hs.subset (by simp)⟩

theorem pair_sublist_concat {α : Type*} {l : List α} {a b x : α}
    (hs : [a, b].Sublist (l ++ [x])) : [a, b].Sublist l ∨ a ∈ l ∧ b = x := by
  obtain ⟨l₁, l₂, he, h₁, h₂⟩ := List.sublist_append_iff.mp hs
  rcases List.sublist_singleton.mp h₂ with rfl | rfl
  · left
    rwa [he, List.append_nil]
  · right
    obtain ⟨rfl, hb⟩ := List.append_inj' (show [a] ++ [b] = _ from he) rfl
    exact ⟨h₁.subset (by simp), List.singleton_inj.mp hb⟩

theorem Before.of_invoke (hb : Before (h ++ [.invoke c op]) c' d) : Before h c' d ∨ d = c := by
  obtain ⟨r, op', hs⟩ := hb
  rcases pair_sublist_concat hs with hs | ⟨-, he⟩
  · exact .inl ⟨r, op', hs⟩
  · cases he
    exact .inr rfl

theorem Before.of_respond (hb : Before (h ++ [.respond c r]) c' d) : Before h c' d := by
  obtain ⟨r', op', hs⟩ := hb
  rcases pair_sublist_concat hs with hs | ⟨-, he⟩
  · exact ⟨r', op', hs⟩
  · cases he

namespace Legal

variable {es pre post : List (Entry C O R)} {e : Entry C O R}

theorem last (hl : Legal X s (es ++ [e]) t) : ∃ u, Legal X s es u ∧ X u e.op e.result t := by
  generalize ho : es ++ [e] = o at hl
  cases hl with
  | nil => simp at ho
  | snoc hl hx =>
    obtain ⟨rfl, he⟩ := List.append_inj' ho rfl
    obtain rfl := List.singleton_inj.mp he
    exact ⟨_, hl, hx⟩

theorem split (hl : Legal X s (pre ++ e :: post) t) :
    ∃ u v, Legal X s pre u ∧ X u e.op e.result v := by
  induction post using List.reverseRecOn generalizing t with
  | nil =>
    obtain ⟨u, hu, hx⟩ := hl.last
    exact ⟨u, t, hu, hx⟩
  | append_singleton post e' ih =>
    rw [← List.cons_append, ← List.append_assoc] at hl
    obtain ⟨u, hu, -⟩ := hl.last
    exact ih hu

theorem invariant (hl : Legal X s es t) (h₀ : P s)
    (hP : ∀ s op r t, X s op r t → P s → P t) : P t := by
  induction hl with
  | nil => exact h₀
  | snoc _ hx ih => exact hP _ _ _ _ hx ih

theorem established (hl : Legal X s es t) (he : e ∈ es)
    (hset : ∀ s t, X s e.op e.result t → P t)
    (hP : ∀ s op r t, X s op r t → P s → P t) : P t := by
  induction hl with
  | nil => simp at he
  | snoc _ hx ih =>
    rcases List.mem_append.mp he with he | he
    · exact hP _ _ _ _ hx (ih he)
    · obtain rfl := List.mem_singleton.mp he
      exact hset _ _ hx

end Legal

theorem op_unique (h₁ : (h.filterMap Event.invoked).Nodup) (hi : .invoke c op ∈ h)
    (hi' : .invoke c op' ∈ h) : op = op' := by
  by_contra hne
  have hpair : h.Pairwise fun a b => ∀ d ∈ a.invoked, ∀ d' ∈ b.invoked, d ≠ d' :=
    List.pairwise_filterMap.mp h₁
  have : Std.Symm fun a b : Event C O R => ∀ d ∈ a.invoked, ∀ d' ∈ b.invoked, d ≠ d' :=
    ⟨fun a b hab d hd d' hd' => (hab d' hd' d hd).symm⟩
  have hdiff : Event.invoke (R := R) c op ≠ .invoke c op' := fun he => by
    cases he
    exact hne rfl
  exact hpair.forall hi hi' hdiff c rfl c rfl rfl

namespace Linearization

theorem empty (X : σ → O → R → σ → Prop) (s : σ) :
    Linearization (C := C) X s [] [] s where
  once := .nil
  legal := .nil
  nodup := .nil
  invoked := by simp
  complete := by simp
  realTime := by simp

theorem invoke (hl : Linearization X s h order t) (hc : c ∉ h.filterMap Event.invoked) :
    Linearization X s (h ++ [.invoke c op]) order t where
  once := by
    rw [invoked_invoke]
    exact hl.once.append (List.nodup_singleton c) (by simpa using hc)
  legal := hl.legal
  nodup := hl.nodup
  invoked e he := List.mem_append_left _ (hl.invoked e he)
  complete d r hd := hl.complete d r (by simpa using hd)
  realTime pre e post ho d hb := by
    have he : e ∈ order := by simp [ho]
    rcases hb.of_invoke with hb | hb
    · exact hl.realTime pre e post ho d hb
    · exact (hc (hb ▸ mem_invoked (hl.invoked e he))).elim

theorem commit (hl : Linearization X s h order t) (hi : .invoke c op ∈ h)
    (hc : c ∉ order.map Entry.call) (hx : X t op r u) :
    Linearization X s h (order ++ [⟨c, op, r⟩]) u where
  once := hl.once
  legal := hl.legal.snoc hx
  nodup := by
    rw [List.map_append]
    exact hl.nodup.append (List.nodup_singleton c) (by simpa using hc)
  invoked e he := by
    rcases List.mem_append.mp he with he | he
    · exact hl.invoked e he
    · obtain rfl := List.mem_singleton.mp he
      exact hi
  complete d r hd := by
    obtain ⟨op', he⟩ := hl.complete d r hd
    exact ⟨op', List.mem_append_left _ he⟩
  realTime pre e post ho d hb := by
    rcases List.eq_nil_or_concat post with rfl | ⟨post, e', rfl⟩
    · -- what has returned has taken effect before
      obtain ⟨rfl, -⟩ := List.append_inj' ho rfl
      obtain ⟨r', hr⟩ := hb.left
      obtain ⟨op', he⟩ := hl.complete d r' hr
      exact List.mem_map_of_mem he
    · rw [List.concat_eq_append, ← List.cons_append, ← List.append_assoc] at ho
      obtain ⟨ho, -⟩ := List.append_inj' ho rfl
      exact hl.realTime pre e post ho d hb

theorem respond (hl : Linearization X s h order t) (he : ⟨c, op, r⟩ ∈ order) :
    Linearization X s (h ++ [.respond c r]) order t where
  once := by
    rw [invoked_respond]
    exact hl.once
  legal := hl.legal
  nodup := hl.nodup
  invoked e he := List.mem_append_left _ (hl.invoked e he)
  complete d r' hd := by
    rcases List.mem_append.mp hd with hd | hd
    · exact hl.complete d r' hd
    · cases List.mem_singleton.mp hd
      exact ⟨op, he⟩
  realTime pre e post ho d hb := hl.realTime pre e post ho d hb.of_respond

theorem entry (hl : Linearization X s h order t) (hi : .invoke c op ∈ h)
    (hr : .respond c r ∈ h) : ⟨c, op, r⟩ ∈ order := by
  obtain ⟨op', he⟩ := hl.complete c r hr
  rwa [op_unique hl.once hi (hl.invoked _ he)]

/-- What every operation keeps holds wherever a call takes effect. -/
theorem always (hl : Linearization X s h order t) (h₀ : P s)
    (hP : ∀ s op r t, X s op r t → P s → P t) (hi : .invoke c op ∈ h)
    (hr : .respond c r ∈ h) : ∃ u v, P u ∧ X u op r v := by
  obtain ⟨pre, post, ho⟩ := List.append_of_mem (hl.entry hi hr)
  obtain ⟨u, v, hpre, hx⟩ := (ho ▸ hl.legal).split
  exact ⟨u, v, hpre.invariant h₀ hP, hx⟩

/-- What one call brings about, and every operation keeps, holds wherever a call that
begins after its return takes effect. -/
theorem later (hl : Linearization X s h order t)
    (hP : ∀ s op r t, X s op r t → P s → P t) (hb : Before h c c')
    (hi : .invoke c op ∈ h) (hr : .respond c r ∈ h)
    (hset : ∀ s t, X s op r t → P t) (hi' : .invoke c' op' ∈ h) (hr' : .respond c' r' ∈ h) :
    ∃ u v, P u ∧ X u op' r' v := by
  obtain ⟨pre, post, ho⟩ := List.append_of_mem (hl.entry hi' hr')
  obtain ⟨u, v, hpre, hx⟩ := (ho ▸ hl.legal).split
  obtain ⟨e, he, hec⟩ := List.mem_map.mp (hl.realTime pre _ post ho c hb)
  have hmem : e ∈ order := ho ▸ List.mem_append_left _ he
  have heq : e = ⟨c, op, r⟩ :=
    List.inj_on_of_nodup_map hl.nodup hmem (hl.entry hi hr) hec
  exact ⟨u, v, hpre.established he (heq ▸ hset) hP, hx⟩

end Linearization

end Linearizability
