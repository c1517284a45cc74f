import Mathlib.Data.List.Nodup
import MyLog.Lib.System

/-! A two-stage pipeline: accepted items queue up, the whole queue is staged at
once, and the staged items are delivered as one batch. -/

namespace Transition

structure Pipeline (α : Type*) where
  accepted : List α
  queued : List α
  staged : List α
  batches : List (List α)

namespace Pipeline

variable {α : Type*}

inductive Action (α : Type*)
  | accept (a : α)
  | stage
  | deliver

def empty : Pipeline α := ⟨[], [], [], []⟩

def accept (p : Pipeline α) (a : α) : Pipeline α :=
  { p with accepted := p.accepted ++ [a], queued := p.queued ++ [a] }

def exchange (p : Pipeline α) : Pipeline α :=
  { p with queued := p.staged, staged := p.queued }

def deliver (p : Pipeline α) : Pipeline α :=
  { p with staged := [], batches := p.batches ++ [p.staged] }

/-- An exchange waits until the staged items have been delivered. -/
inductive Step : Pipeline α → Action α → Pipeline α → Prop
  | accept (p : Pipeline α) (a : α) : Step p (.accept a) (p.accept a)
  | stage (p : Pipeline α) (h : p.staged = []) : Step p .stage p.exchange
  | deliver (p : Pipeline α) : Step p .deliver p.deliver

def system : System (Pipeline α) (Action α) where
  init p := p = empty
  step := Step

theorem conserved {p : Pipeline α} (h : (system (α := α)).Reachable p) :
    p.batches.flatten ++ p.staged ++ p.queued = p.accepted := by
  induction h with
  | init h => rw [h]; rfl
  | step _ hs hp =>
    cases hs with
    | accept => simp only [accept, ← hp, List.append_assoc]
    | stage h => simp [exchange, ← hp, h]
    | deliver => simp [deliver, ← hp]

theorem mem_delivered {p : Pipeline α} (h : (system (α := α)).Reachable p) {a : α} :
    a ∈ p.accepted ↔ a ∈ p.batches.flatten ∨ a ∈ p.staged ∨ a ∈ p.queued := by
  rw [← conserved h]
  simp only [List.mem_append, or_assoc]

end Pipeline

section Batches

variable {α : Type*}

theorem batch_unique {gs : List (List α)} (hnd : gs.flatten.Nodup) {a : α} {j k : Nat}
    {g g' : List α} (hj : gs[j]? = some g) (hk : gs[k]? = some g') (ha : a ∈ g)
    (ha' : a ∈ g') : j = k := by
  have hp := (List.nodup_flatten.mp hnd).2
  rw [List.pairwise_iff_getElem] at hp
  obtain ⟨hj', rfl⟩ := List.getElem?_eq_some_iff.mp hj
  obtain ⟨hk', rfl⟩ := List.getElem?_eq_some_iff.mp hk
  rcases Nat.lt_trichotomy j k with h | h | h
  · exact (List.disjoint_left.mp (hp j k hj' hk' h) ha ha').elim
  · exact h
  · exact (List.disjoint_left.mp (hp k j hk' hj' h) ha' ha).elim

theorem exists_batch {gs : List (List α)} {a : α} (h : a ∈ gs.flatten) :
    ∃ (k : Nat) (pre post : List α), gs[k]? = some (pre ++ a :: post) := by
  obtain ⟨g, hg, ha⟩ := List.mem_flatten.mp h
  obtain ⟨k, hk⟩ := List.mem_iff_getElem?.mp hg
  obtain ⟨pre, post, rfl⟩ := List.append_of_mem ha
  exact ⟨k, pre, post, hk⟩

end Batches

end Transition
