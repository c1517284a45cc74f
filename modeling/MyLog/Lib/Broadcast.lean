import Mathlib.Logic.Function.Basic

/-! Items given to a row of receivers, one item at a time and one receiver after
the other. -/

namespace Transition

namespace Broadcast

variable {α : Type*} {n m : Nat} {streams : Nat → List α} {sent : List (List α)} {d : List α}

/-- The streams of the first `n` receivers after the items `sent`. While the last
item `d` is being given and has reached `m` of them, the state is `some (d, m)`. -/
def Delivering (n : Nat) (streams : Nat → List α) (sent : List (List α)) :
    Option (List α × Nat) → Prop
  | none => ∀ k < n, streams k = sent.flatten
  | some (d, m) => ∃ earlier, sent = earlier ++ [d] ∧
      ∀ k < n, streams k = earlier.flatten ++ if k < m then d else []

theorem Delivering.start (h : Delivering n streams sent none) (d : List α) :
    Delivering n streams (sent ++ [d]) (some (d, 0)) :=
  ⟨sent, rfl, fun k hk => by simpa using h k hk⟩

theorem Delivering.give (h : Delivering n streams sent (some (d, m))) :
    Delivering n (Function.update streams m (streams m ++ d)) sent (some (d, m + 1)) := by
  obtain ⟨earlier, hs, hk⟩ := h
  refine ⟨earlier, hs, fun k hn => ?_⟩
  by_cases hm : k = m
  · subst hm
    have := hk k hn
    simp_all
  · have hlt : k < m + 1 ↔ k < m := by omega
    rw [Function.update_of_ne hm, hk k hn]
    simp only [hlt]

theorem Delivering.finish (h : Delivering n streams sent (some (d, m))) (hm : n ≤ m) :
    Delivering n streams sent none := by
  obtain ⟨earlier, rfl, hk⟩ := h
  intro k hn
  rw [hk k hn, if_pos (by omega)]
  simp

theorem Delivering.begun {o : Option (List α × Nat)} (h : Delivering n streams sent o) {k : Nat}
    (hk : k < n) : streams k <+: sent.flatten := by
  cases o with
  | none =>
    exact (h k hk).symm ▸ List.prefix_rfl
  | some dm =>
    obtain ⟨earlier, rfl, hstreams⟩ := h
    rw [hstreams k hk, List.flatten_append, List.flatten_singleton,
      List.prefix_append_right_inj]
    split
    · exact List.prefix_rfl
    · exact List.nil_prefix

end Broadcast

end Transition
