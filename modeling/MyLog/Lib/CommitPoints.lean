import Mathlib.Logic.Function.Basic
import MyLog.Lib.Linearization

/-! Objects whose calls take effect at one step each, between the invocation and the return.
Every step of such an object keeps a linearization of its history. -/

namespace Linearizability

variable {ι O R σ : Type*}

/-- How many calls each thread has finished, and the events of all calls. -/
structure History (ι O R : Type*) where
  finished : ι → Nat
  events : List (Event (ι × Nat) O R)

namespace History

def empty : History ι O R := ⟨fun _ => 0, []⟩

def invoke (g : History ι O R) (i : ι) (op : O) : History ι O R :=
  { g with events := g.events ++ [.invoke (i, g.finished i) op] }

def respond [DecidableEq ι] (g : History ι O R) (i : ι) (r : R) : History ι O R where
  finished := Function.update g.finished i (g.finished i + 1)
  events := g.events ++ [.respond (i, g.finished i) r]

end History

/-- Where a thread is with its current call. -/
inductive CallState (O R : Type*)
  | idle
  | pending (op : O)
  | done (r : R)

/-- What the history and the order say of a call that is in this phase. -/
def CallState.Holds (h : List (Event (ι × Nat) O R)) (order : List (Entry (ι × Nat) O R))
    (c : ι × Nat) : CallState O R → Prop
  | idle => c ∉ h.filterMap Event.invoked
  | pending op => .invoke c op ∈ h ∧ c ∉ order.map Entry.call
  | done r => ∃ op, ⟨c, op, r⟩ ∈ order

structure Committed (X : σ → O → R → σ → Prop) (s : σ) (g : History ι O R)
    (order : List (Entry (ι × Nat) O R)) (t : σ) (phase : ι → CallState O R) : Prop where
  lin : Linearization X s g.events order t
  later : ∀ i n, g.finished i < n → (i, n) ∉ g.events.filterMap Event.invoked
  holds : ∀ i, (phase i).Holds g.events order (i, g.finished i)

variable {X : σ → O → R → σ → Prop} {s t u : σ} {g : History ι O R}
  {order : List (Entry (ι × Nat) O R)} {phase : ι → CallState O R} {i : ι} {op : O} {r : R}

theorem CallState.Holds.frame {h h' : List (Event (ι × Nat) O R)}
    {order' : List (Entry (ι × Nat) O R)} {c : ι × Nat} {p : CallState O R}
    (hp : p.Holds h order c) (hh : h ⊆ h') (ho : order ⊆ order')
    (hi : c ∈ h'.filterMap Event.invoked → c ∈ h.filterMap Event.invoked)
    (hc : c ∈ order'.map Entry.call → c ∈ order.map Entry.call) : p.Holds h' order' c := by
  cases p with
  | idle => exact fun hm => hp (hi hm)
  | pending op => exact ⟨hh hp.1, fun hm => hp.2 (hc hm)⟩
  | done r =>
    obtain ⟨op, he⟩ := hp
    exact ⟨op, ho he⟩

namespace Committed

theorem empty (X : σ → O → R → σ → Prop) (s : σ) :
    Committed X s (.empty : History ι O R) [] s fun _ => .idle :=
  ⟨.empty X s, by simp [History.empty], fun i => by simp [CallState.Holds, History.empty]⟩

variable [DecidableEq ι]

omit [DecidableEq ι] in
theorem congr (h : Committed X s g order t phase) {phase' : ι → CallState O R}
    (he : ∀ i, phase' i = phase i) : Committed X s g order t phase' := by
  rwa [show phase' = phase from funext he]

theorem invoke (h : Committed X s g order t phase) (hi : phase i = .idle) :
    Committed X s (g.invoke i op) order t (Function.update phase i (.pending op)) := by
  have hnew : (i, g.finished i) ∉ g.events.filterMap Event.invoked := by
    have hp := h.holds i
    rwa [hi] at hp
  refine ⟨h.lin.invoke hnew, fun j n hn => ?_, fun j => ?_⟩
  · have hold := h.later j n hn
    rw [History.invoke, invoked_invoke, List.mem_append, List.mem_singleton, Prod.mk.injEq]
    rintro (hm | ⟨rfl, rfl⟩)
    · exact hold hm
    · exact absurd hn (Nat.lt_irrefl _)
  · by_cases hj : j = i
    · subst hj
      rw [Function.update_self]
      refine ⟨by simp [History.invoke], fun hm => hnew ?_⟩
      obtain ⟨e, he, hec⟩ := List.mem_map.mp hm
      exact hec ▸ mem_invoked (h.lin.invoked e he)
    · rw [Function.update_of_ne hj]
      refine (h.holds j).frame (List.subset_append_left _ _) (List.Subset.refl _) (fun hm => ?_) id
      rw [History.invoke, invoked_invoke, List.mem_append, List.mem_singleton,
        Prod.mk.injEq] at hm
      exact hm.resolve_right fun he => hj he.1

theorem commit (h : Committed X s g order t phase) (hi : phase i = .pending op)
    (hx : X t op r u) : Committed X s g (order ++ [⟨(i, g.finished i), op, r⟩]) u
      (Function.update phase i (.done r)) := by
  have hp := h.holds i
  rw [hi] at hp
  refine ⟨h.lin.commit hp.1 hp.2 hx, h.later, fun j => ?_⟩
  by_cases hj : j = i
  · subst hj
    rw [Function.update_self]
    exact ⟨op, by simp⟩
  · rw [Function.update_of_ne hj]
    refine (h.holds j).frame (List.Subset.refl _) (List.subset_append_left _ _) id fun hm => ?_
    rw [List.map_append, List.mem_append] at hm
    refine hm.resolve_right fun he => hj ?_
    exact congrArg Prod.fst (List.mem_singleton.mp he)

theorem respond (h : Committed X s g order t phase) (hi : phase i = .done r) :
    Committed X s (g.respond i r) order t (Function.update phase i .idle) := by
  have hp := h.holds i
  rw [hi] at hp
  obtain ⟨op, he⟩ := hp
  refine ⟨h.lin.respond he, fun j n hn => ?_, fun j => ?_⟩
  · rw [History.respond, invoked_respond]
    apply h.later
    by_cases hj : j = i
    · subst hj
      exact Nat.lt_of_succ_lt (by simpa [History.respond] using hn)
    · simpa [History.respond, hj] using hn
  · by_cases hj : j = i
    · subst hj
      simp only [History.respond, Function.update_self, CallState.Holds, invoked_respond]
      exact h.later j _ (Nat.lt_succ_self _)
    · simp only [History.respond, Function.update_of_ne hj]
      exact (h.holds j).frame (List.subset_append_left _ _) (List.Subset.refl _)
        (fun hm => by rwa [invoked_respond] at hm) id

/-- A call that is invoked, takes effect and returns in one step. -/
theorem instant (h : Committed X s g order t phase) (hi : phase i = .idle) (hx : X t op r u) :
    Committed X s ((g.invoke i op).respond i r)
      (order ++ [⟨(i, g.finished i), op, r⟩]) u phase := by
  have hdone := ((h.invoke hi).commit (Function.update_self ..) hx).respond
    (Function.update_self ..)
  refine hdone.congr fun j => ?_
  by_cases hj : j = i
  · simp [hj, hi]
  · simp [hj]

end Committed

end Linearizability
