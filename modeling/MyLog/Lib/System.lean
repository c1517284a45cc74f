import Mathlib.Logic.Function.Basic
import Mathlib.Logic.Relation

/-! Labelled transition systems: runs, invariants, simulations, and families of
systems that run side by side. -/

namespace Transition

structure System (σ α : Type*) where
  init : σ → Prop
  step : σ → α → σ → Prop

namespace System

variable {σ τ α β : Type*}

inductive Reachable (S : System σ α) : σ → Prop
  | init {s : σ} (h : S.init s) : Reachable S s
  | step {s t : σ} {a : α} (h : Reachable S s) (hs : S.step s a t) : Reachable S t

/-- A finite run. Each entry is an action with the state it was taken in. -/
inductive Run (S : System σ α) (s : σ) : List (σ × α) → σ → Prop
  | nil : Run S s [] s
  | snoc {t u : σ} {a : α} {tr : List (σ × α)} (h : Run S s tr t) (hs : S.step t a u) :
      Run S s (tr ++ [(t, a)]) u

variable {S : System σ α}

theorem Reachable.invariant {P : σ → Prop} {s : σ} (h : S.Reachable s)
    (h₀ : ∀ s, S.init s → P s)
    (hstep : ∀ s a t, S.Reachable s → P s → S.step s a t → P t) : P s := by
  induction h with
  | init h => exact h₀ _ h
  | step h hs ih => exact hstep _ _ _ h ih hs

theorem Run.single {s t : σ} {a : α} (h : S.step s a t) : S.Run s [(s, a)] t := by
  simpa using Run.snoc .nil h

theorem Run.reachable {s t : σ} {tr : List (σ × α)} (h : S.Run s tr t)
    (hr : S.Reachable s) : S.Reachable t := by
  induction h with
  | nil => exact hr
  | snoc _ hs ih => exact ih.step hs

theorem Run.split {s t u : σ} {a : α} {tr : List (σ × α)} (h : S.Run s tr t)
    (hm : (u, a) ∈ tr) : ∃ tr₁ v tr₂, S.Run s tr₁ u ∧ S.step u a v ∧ S.Run v tr₂ t ∧
      tr = tr₁ ++ (u, a) :: tr₂ := by
  induction h with
  | nil => simp at hm
  | @snoc t w b tr hr hs ih =>
    rcases List.mem_append.mp hm with hm | hm
    · obtain ⟨tr₁, v, tr₂, h₁, hv, h₂, rfl⟩ := ih hm
      exact ⟨tr₁, v, tr₂ ++ [(t, b)], h₁, hv, h₂.snoc hs, by simp⟩
    · obtain ⟨rfl, rfl⟩ : u = t ∧ a = b := by simpa using hm
      exact ⟨tr, w, [], hr, hs, .nil, rfl⟩

/-- The states of a run, the last one included. -/
def visited (tr : List (σ × α)) (t : σ) : List σ := tr.map Prod.fst ++ [t]

theorem visited_snoc (tr : List (σ × α)) (t u : σ) (a : α) :
    visited (tr ++ [(t, a)]) u = visited tr t ++ [u] := by
  simp [visited]

theorem Run.visited_reachable {s t : σ} {tr : List (σ × α)} (h : S.Run s tr t)
    (hr : S.Reachable s) : ∀ v ∈ visited tr t, S.Reachable v := by
  induction h with
  | nil => simpa [visited] using hr
  | @snoc t u a tr h hs ih =>
    intro v hv
    rw [visited_snoc] at hv
    rcases List.mem_append.mp hv with hv | hv
    · exact ih v hv
    · rw [List.mem_singleton.mp hv]
      exact (h.reachable hr).step hs

theorem Run.mem_reachable {s t : σ} {x : σ × α} {tr : List (σ × α)} (h : S.Run s tr t)
    (hr : S.Reachable s) (hx : x ∈ tr) : S.Reachable x.1 :=
  h.visited_reachable hr x.1 (List.mem_append_left _ (List.mem_map_of_mem hx))

/-- An invariant that each step keeps where the state it leads to satisfies `Q`. -/
theorem Run.invariant {P Q : σ → Prop} {s t : σ} {tr : List (σ × α)} (h : S.Run s tr t)
    (h₀ : P s) (hstep : ∀ u a v, P u → S.step u a v → Q v → P v)
    (hQ : ∀ v ∈ visited tr t, Q v) : P t := by
  induction h with
  | nil => exact h₀
  | @snoc t u a tr _ hs ih =>
    rw [visited_snoc] at hQ
    have ht := ih fun v hv => hQ v (List.mem_append_left _ hv)
    exact hstep t a u ht hs (hQ u (by simp))

/-- The steps of `S` that a condition on the state before them allows. -/
def restrict (S : System σ α) (ok : σ → α → Prop) : System σ α where
  init := S.init
  step s a t := S.step s a t ∧ ok s a

theorem restrict_reachable {ok : σ → α → Prop} {s : σ}
    (h : (S.restrict ok).Reachable s) : S.Reachable s := by
  induction h with
  | init h => exact .init h
  | step _ hs ih => exact ih.step hs.1

theorem restrict_run {ok : σ → α → Prop} {s t : σ} {tr : List (σ × α)}
    (h : (S.restrict ok).Run s tr t) : S.Run s tr t := by
  induction h with
  | nil => exact .nil
  | snoc _ hs ih => exact ih.snoc hs.1

/-- `A` follows every step of `C`, or stays where it is. -/
structure Simulation (C : System σ α) (A : System τ β) where
  abs : σ → τ
  init : ∀ s, C.init s → A.init (abs s)
  step : ∀ s a t, C.Reachable s → C.step s a t →
    abs t = abs s ∨ ∃ b, A.step (abs s) b (abs t)

theorem Simulation.reachable {C : System σ α} {A : System τ β} (f : Simulation C A)
    {s : σ} (h : C.Reachable s) : A.Reachable (f.abs s) := by
  induction h with
  | init h => exact .init (f.init _ h)
  | @step s t a hr hs ih =>
    rcases f.step s a t hr hs with he | ⟨b, hb⟩
    · rwa [he]
    · exact ih.step hb

section Observed

variable {γ : Type*}

/-- A system with a record of what its steps let through. -/
def observed (S : System σ α) (see : σ → α → γ → γ) (g : γ) : System (σ × γ) α where
  init x := S.init x.1 ∧ x.2 = g
  step x a y := S.step x.1 a y.1 ∧ y.2 = see x.1 a x.2

variable {see : σ → α → γ → γ} {g : γ}

theorem observed_reachable {x : σ × γ} (h : (S.observed see g).Reachable x) :
    S.Reachable x.1 := by
  induction h with
  | init h => exact .init h.1
  | step _ hs ih => exact ih.step hs.1

/-- Recording does not keep the system from a step. -/
theorem observed_step {s t : σ} {a : α} {r : γ} (h : (S.observed see g).Reachable (s, r))
    (hs : S.step s a t) : (S.observed see g).Reachable (t, see s a r) :=
  h.step ⟨hs, rfl⟩

theorem exists_observed (see : σ → α → γ → γ) (g : γ) {s : σ} (h : S.Reachable s) :
    ∃ r, (S.observed see g).Reachable (s, r) := by
  induction h with
  | init h => exact ⟨g, .init ⟨h, rfl⟩⟩
  | step _ hs ih =>
    obtain ⟨r, hr⟩ := ih
    exact ⟨_, observed_step hr hs⟩

end Observed

section Family

variable {κ : Type*} [DecidableEq κ] {θ : κ → Type*}

/-- Systems that run side by side. A step is a step of one member; the guard can
make it wait for the others. -/
def family (F : ∀ k, System (θ k) α) (guard : (∀ k, θ k) → κ → α → Prop) :
    System (∀ k, θ k) (κ × α) where
  init s := ∀ k, (F k).init (s k)
  step s a t := ∃ x, (F a.1).step (s a.1) a.2 x ∧ guard s a.1 a.2 ∧
    t = Function.update s a.1 x

variable {F : ∀ k, System (θ k) α} {guard : (∀ k, θ k) → κ → α → Prop}

theorem family_member {s : ∀ k, θ k} (h : (family F guard).Reachable s) (k : κ) :
    (F k).Reachable (s k) := by
  induction h with
  | init h => exact .init (h k)
  | @step s t a _ hs ih =>
    obtain ⟨x, hx, _, rfl⟩ := hs
    by_cases hk : k = a.1
    · subst hk
      simpa using ih.step hx
    · simpa [hk] using ih

theorem family_run {s : ∀ k, θ k} {k : κ} {x : θ k} {tr : List (θ k × α)}
    {ok : θ k → α → Prop} (h : (family F guard).Reachable s)
    (hr : ((F k).restrict ok).Run (s k) tr x)
    (hg : ∀ y a, ok y a → guard (Function.update s k y) k a) :
    (family F guard).Reachable (Function.update s k x) := by
  induction hr with
  | nil => simpa using h
  | @snoc y z a tr _ hs ih =>
    refine ih.step (a := (k, a)) ⟨z, by simpa using hs.1, hg y a hs.2, ?_⟩
    simp

end Family

end System

end Transition
