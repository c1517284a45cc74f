import Mathlib.Logic.Function.Basic

/-! Mutual exclusion by one lock. The lock records its owner; which agents are
inside a critical section is read off their program counters. -/

namespace Transition

namespace Mutex

variable {A : Type*} {m m' : Option A} {inside inside' : A → Bool}

/-- The owner of the lock is the one agent inside. -/
def Exclusive (m : Option A) (inside : A → Bool) : Prop :=
  ∀ a, inside a = true ↔ m = some a

theorem Exclusive.unique (h : Exclusive m inside) {a b : A} (ha : inside a = true)
    (hb : inside b = true) : a = b := by
  have hm := (h a).mp ha
  rw [(h b).mp hb] at hm
  exact (Option.some.inj hm).symm

variable [DecidableEq A]

/-- What one step can do to the lock and to the critical sections. -/
inductive Move : Option A → (A → Bool) → Option A → (A → Bool) → Prop
  | keep (m : Option A) (inside : A → Bool) : Move m inside m inside
  | acquire (a : A) (inside : A → Bool) :
      Move none inside (some a) (Function.update inside a true)
  | release (m : Option A) (a : A) (inside : A → Bool) (h : inside a = true) :
      Move m inside none (Function.update inside a false)

theorem Move.stay {a : A} {b : Bool} (m : Option A) (h : inside a = b) :
    Move m inside m (Function.update inside a b) := by
  rw [← h, Function.update_eq_self]
  exact .keep m inside

theorem Exclusive.move (h : Exclusive m inside) (hm : Move m inside m' inside') :
    Exclusive m' inside' := by
  intro b
  cases hm with
  | keep => exact h b
  | acquire a =>
    by_cases hb : b = a
    · simp [hb]
    · have := h b
      simp_all [Ne.symm hb]
  | release _ a _ ha =>
    by_cases hb : b = a
    · simp [hb]
    · have hm := (h a).mp ha
      have := h b
      simp_all [Ne.symm hb]

end Mutex

end Transition
