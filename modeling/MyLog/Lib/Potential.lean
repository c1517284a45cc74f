import Mathlib.Algebra.Order.BigOperators.Group.Finset
import MyLog.Lib.System

/-! Potentials. Only a step from outside brings some potential in, and every step uses some
up, so a run is no longer than what was brought in, and a system left alone comes to rest. -/

namespace Transition

/-- Two counters as one number, the first with priority while the second is below `b`. -/
def packed (b x y : Nat) : Nat := x * b + y

section Packed

variable {b x x' y y' : Nat}

theorem packed_lt_add {n : Nat} (hx : x' < x + n) (hy : y' < b) :
    packed b x' y' < packed b x y + n * b := by
  have h : (x' + 1) * b ≤ (x + n) * b := Nat.mul_le_mul_right b hx
  rw [Nat.add_mul, Nat.add_mul, Nat.one_mul] at h
  unfold packed
  omega

theorem packed_lt_left (hx : x' < x) (hy : y' < b) : packed b x' y' < packed b x y := by
  simpa using packed_lt_add (n := 0) hx hy

theorem packed_lt_right (hy : y' < y) : packed b x y' < packed b x y :=
  Nat.add_lt_add_left hy _

end Packed

/-- A sum over the members of a finite set, one of which moves. -/
theorem sum_move {ι β : Type*} [DecidableEq ι] {f : β → Nat} {g : ι → β} {T : Finset ι} {i : ι}
    (hi : i ∈ T) (b : β) :
    ∑ j ∈ T, f (Function.update g i b j) + f (g i) = ∑ j ∈ T, f (g j) + f b := by
  have hrest : ∑ j ∈ T.erase i, f (Function.update g i b j) = ∑ j ∈ T.erase i, f (g j) :=
    Finset.sum_congr rfl fun j hj => by rw [Function.update_of_ne (Finset.ne_of_mem_erase hj)]
  rw [← Finset.add_sum_erase T _ hi, ← Finset.add_sum_erase T (fun j => f (g j)) hi, hrest,
    Function.update_self]
  omega

namespace System

variable {σ α : Type*}

/-- No step is possible. -/
def Resting (S : System σ α) (s : σ) : Prop := ∀ a t, ¬ S.step s a t

/-- Every run from `s` ends after at most `n` steps, and in a state that satisfies `P`. -/
def Settles (S : System σ α) (n : Nat) (P : σ → Prop) (s : σ) : Prop :=
  ∀ tr t, S.Run s tr t → tr.length ≤ n ∧ (S.Resting t → P t)

/-- The steps that the system takes on its own. -/
def alone (S : System σ α) (outside : σ → α → Bool) : System σ α :=
  S.restrict fun s a => outside s a = false

variable {S : System σ α} {I P Q : σ → Prop} {outside : σ → α → Bool} {unit n : Nat} {s t : σ}
  {tr : List (σ × α)}

theorem Settles.imp (h : S.Settles n P s) (hPQ : ∀ tr t, S.Run s tr t → P t → Q t) :
    S.Settles n Q s :=
  fun tr t hr => ⟨(h tr t hr).1, fun ht => hPQ tr t hr ((h tr t hr).2 ht)⟩

theorem Settles.mono {m : Nat} (h : S.Settles n P s) (hnm : n ≤ m) : S.Settles m P s :=
  fun tr t hr => ⟨(h tr t hr).1.trans hnm, (h tr t hr).2⟩

/-- A run that cannot be prolonged exists, since none has more than `n` steps. -/
theorem Settles.exists_rest (h : S.Settles n P s) : ∃ tr t, S.Run s tr t ∧ P t := by
  by_contra hnone
  have hlong : ∀ m, ∃ tr t, S.Run s tr t ∧ tr.length = m := by
    intro m
    induction m with
    | zero => exact ⟨[], s, .nil, rfl⟩
    | succ m ih =>
      obtain ⟨tr, t, hr, hm⟩ := ih
      have hgo : ¬ S.Resting t := fun ht => hnone ⟨tr, t, hr, (h tr t hr).2 ht⟩
      simp only [Resting, not_forall, not_not] at hgo
      obtain ⟨a, u, hs⟩ := hgo
      exact ⟨_, u, hr.snoc hs, by simp [hm]⟩
  obtain ⟨tr, t, hr, hm⟩ := hlong (n + 1)
  have := (h tr t hr).1
  omega

/-- Between states that satisfy `I`, a step lowers the value, unless it is from outside;
then it adds less than `unit`. -/
structure Potential (S : System σ α) (I : σ → Prop) (outside : σ → α → Bool) (unit : Nat) where
  value : σ → Nat
  pays : ∀ s a t, I s → S.step s a t → I t →
    value t < value s + if outside s a then unit else 0

theorem Potential.run_length (p : Potential S I outside unit) (h : S.Run s tr t)
    (hI : ∀ v ∈ visited tr t, I v) :
    tr.length + p.value t ≤ p.value s + unit * tr.countP fun x => outside x.1 x.2 := by
  induction h with
  | nil => simp
  | @snoc t u a tr _ hs ih =>
    rw [visited_snoc] at hI
    have ht := ih fun v hv => hI v (List.mem_append_left _ hv)
    have hp := p.pays t a u (hI t (by simp [visited])) hs (hI u (by simp))
    rw [List.length_append, List.countP_append, Nat.mul_add]
    by_cases ho : outside t a = true
    · simp only [ho, if_true, List.length_singleton, List.countP_singleton, Nat.mul_one] at hp ⊢
      omega
    · simp only [ho, if_false, List.length_singleton, List.countP_singleton, Nat.mul_zero,
        Bool.false_eq_true] at hp ⊢
      omega

theorem Potential.settles (p : Potential S I outside unit) (hs : I s)
    (hkeep : ∀ s a t, I s → (S.alone outside).step s a t → I t)
    (hrest : ∀ t, I t → (S.alone outside).Resting t → P t) :
    (S.alone outside).Settles (p.value s) P s := by
  intro tr t hr
  suffices h : tr.length + p.value t ≤ p.value s ∧ I t from
    ⟨by omega, fun ht => hrest t h.2 ht⟩
  induction hr with
  | nil => exact ⟨by simp, hs⟩
  | @snoc t u a tr _ hst ih =>
    obtain ⟨hlen, ht⟩ := ih
    have hu := hkeep t a u ht hst
    have hp := p.pays t a u ht hst.1 hu
    rw [hst.2] at hp
    simp only [List.length_append, List.length_singleton, Bool.false_eq_true, if_false] at hp ⊢
    exact ⟨by omega, hu⟩

section Embedding

variable {τ : Type*} {S' : System τ α} {e : σ → τ} {P' : τ → Prop}

theorem run_of_embedded (hback : ∀ s a u, S'.step (e s) a u → ∃ t, u = e t ∧ S.step s a t)
    {tr : List (τ × α)} {u : τ} (h : S'.Run (e s) tr u) :
    ∃ tr' t, u = e t ∧ S.Run s tr' t ∧ tr'.length = tr.length := by
  induction h with
  | nil => exact ⟨[], s, rfl, .nil, rfl⟩
  | snoc _ hs ih =>
    obtain ⟨tr', t, rfl, hr, hlen⟩ := ih
    obtain ⟨t', rfl, hst⟩ := hback t _ _ hs
    exact ⟨_, t', rfl, hr.snoc hst, by simp [hlen]⟩

theorem Settles.embed (h : S.Settles n (fun t => P' (e t)) s)
    (hback : ∀ s a u, S'.step (e s) a u → ∃ t, u = e t ∧ S.step s a t)
    (hforth : ∀ s a t, S.step s a t → S'.step (e s) a (e t)) : S'.Settles n P' (e s) := by
  intro tr u hr
  obtain ⟨tr', t, rfl, hr, hlen⟩ := run_of_embedded hback hr
  obtain ⟨hle, hP⟩ := h tr' t hr
  exact ⟨hlen ▸ hle, fun hrest => hP fun a t' hs => hrest a (e t') (hforth t a t' hs)⟩

end Embedding

section Family

variable {κ : Type*} [DecidableEq κ] [Fintype κ] {θ : κ → Type*} {F : ∀ k, System (θ k) α}
  {guard : (∀ k, θ k) → κ → α → Prop} {out : ∀ k, θ k → α → Bool}

def familyOutside (out : ∀ k, θ k → α → Bool) (s : ∀ k, θ k) (a : κ × α) : Bool :=
  out a.1 (s a.1) a.2

/-- A run of a family is a run of each member, and their lengths add up. -/
theorem family_runs {s t : ∀ k, θ k} {tr : List ((∀ k, θ k) × (κ × α))}
    (h : ((family F guard).alone (familyOutside out)).Run s tr t) :
    ∃ trs : ∀ k, List (θ k × α), (∀ k, ((F k).alone (out k)).Run (s k) (trs k) (t k)) ∧
      tr.length = ∑ k, (trs k).length := by
  induction h with
  | nil => exact ⟨fun _ => [], fun _ => .nil, by simp⟩
  | @snoc t u a tr _ hs ih =>
    obtain ⟨trs, hr, hlen⟩ := ih
    obtain ⟨⟨x, hx, -, rfl⟩, ho⟩ := hs
    let longer := trs a.1 ++ [(t a.1, a.2)]
    refine ⟨Function.update trs a.1 longer, fun k => ?_, ?_⟩
    · by_cases hk : k = a.1
      · subst hk
        simpa [longer] using (hr a.1).snoc ⟨hx, ho⟩
      · simpa [hk] using hr k
    · have hlens (k : κ) : (Function.update trs a.1 longer k).length =
          Function.update (fun k => (trs k).length) a.1 longer.length k :=
        Function.apply_update (fun _ => List.length) trs a.1 longer k
      have hsum := sum_move (f := id) (g := fun k => (trs k).length) (Finset.mem_univ a.1)
        longer.length
      simp only [id, longer, List.length_append, List.length_singleton] at hsum hlens ⊢
      simp only [hlens]
      omega

theorem family_settles {s : ∀ k, θ k} {n : κ → Nat} {P : ∀ k, θ k → Prop}
    (h : ∀ k, ((F k).alone (out k)).Settles (n k) (P k) (s k))
    (hg : ∀ s k a, out k (s k) a = false → guard s k a) :
    ((family F guard).alone (familyOutside out)).Settles (∑ k, n k) (fun t => ∀ k, P k (t k)) s := by
  intro tr t hr
  obtain ⟨trs, hruns, hlen⟩ := family_runs hr
  refine ⟨?_, fun hrest k => (h k _ _ (hruns k)).2 fun a x hx => ?_⟩
  · rw [hlen]
    exact Finset.sum_le_sum fun k _ => (h k _ _ (hruns k)).1
  · exact hrest (k, a) _ ⟨⟨x, hx.1, hg t k a hx.2, rfl⟩, hx.2⟩

end Family

end System

end Transition
