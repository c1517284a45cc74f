import Mathlib.Data.List.Forall2
import MyLog.Lib.Delimited

/-! Templates of fixed texts and holes. Where each hole is followed by a symbol that its
value does not contain, the values can be read back from what was printed. -/

namespace Template

inductive Slot (α κ : Type*)
  | text (t : List α)
  | hole (k : κ)

variable {α κ : Type*} {v w : κ → List α} {ps : List (Slot α κ)}

def Slot.fill (v : κ → List α) : Slot α κ → List α
  | .text t => t
  | .hole k => v k

def render (v : κ → List α) (ps : List (Slot α κ)) : List α := ps.flatMap (Slot.fill v)

/-- The symbol that all renderings begin with, where it is that of a text. -/
def first : List (Slot α κ) → Option α
  | [] => none
  | .hole _ :: _ => none
  | .text [] :: ps => first ps
  | .text (d :: _) :: _ => some d

def Separated (v : κ → List α) : List (Slot α κ) → Prop
  | [] => True
  | .text _ :: ps => Separated v ps
  | .hole k :: ps => (∃ d, first ps = some d ∧ d ∉ v k) ∧ Separated v ps

theorem render_cons (v : κ → List α) (p : Slot α κ) (ps : List (Slot α κ)) :
    render v (p :: ps) = p.fill v ++ render v ps :=
  List.flatMap_cons

theorem render_first {d : α} (h : first ps = some d) (v : κ → List α) :
    ∃ r, render v ps = d :: r := by
  induction ps with
  | nil => cases h
  | cons p ps ih =>
    match p with
    | .hole k => cases h
    | .text [] => exact ih h
    | .text (e :: t) =>
      obtain rfl : e = d := Option.some.inj h
      exact ⟨t ++ render v ps, rfl⟩

/-- What was printed before any tail determines the values and the tail. -/
theorem render_append_inj {x y : List α} (hv : Separated v ps) (hw : Separated w ps)
    (h : render v ps ++ x = render w ps ++ y) : (∀ k, .hole k ∈ ps → v k = w k) ∧ x = y := by
  induction ps with
  | nil => exact ⟨fun k hk => (List.not_mem_nil hk).elim, h⟩
  | cons p ps ih =>
    rw [render_cons, render_cons, List.append_assoc, List.append_assoc] at h
    cases p with
    | text t =>
      obtain ⟨hall, hxy⟩ := ih hv hw (List.append_cancel_left h)
      exact ⟨fun k hk => hall k (by simpa using hk), hxy⟩
    | hole k =>
      obtain ⟨⟨d, hd, hvk⟩, hv⟩ := hv
      obtain ⟨⟨e, he, hwk⟩, hw⟩ := hw
      obtain rfl : d = e := Option.some.inj (hd.symm.trans he)
      obtain ⟨r, hr⟩ := render_first hd v
      obtain ⟨r', hr'⟩ := render_first hd w
      -- both values end where the symbol after the hole is met for the first time
      have hsplit : v k ++ d :: (r ++ x) = w k ++ d :: (r' ++ y) := by
        rwa [hr, hr'] at h
      obtain ⟨hk, hrest⟩ := Delimited.split_first_delimiter hsplit hvk hwk
      have hps : render v ps ++ x = render w ps ++ y := by
        rw [hr, hr', List.cons_append, List.cons_append, hrest]
      obtain ⟨hall, hxy⟩ := ih hv hw hps
      refine ⟨fun j hj => ?_, hxy⟩
      rcases List.mem_cons.mp hj with hj | hj
      · rw [Slot.hole.inj hj, hk]
      · exact hall j hj

/-- Records of one template that are printed one after the other can be told apart. -/
theorem flatMap_render_inj {vs ws : List (κ → List α)}
    (hvs : ∀ v ∈ vs, Separated v ps ∧ render v ps ≠ [])
    (hws : ∀ w ∈ ws, Separated w ps ∧ render w ps ≠ [])
    (h : vs.flatMap (render · ps) = ws.flatMap (render · ps)) :
    List.Forall₂ (fun v w => ∀ k, .hole k ∈ ps → v k = w k) vs ws := by
  induction vs generalizing ws with
  | nil =>
    cases ws with
    | nil => exact .nil
    | cons w ws =>
      rw [List.flatMap_cons] at h
      exact ((hws w List.mem_cons_self).2 (List.append_eq_nil_iff.mp h.symm).1).elim
  | cons v vs ih =>
    cases ws with
    | nil =>
      rw [List.flatMap_cons] at h
      exact ((hvs v List.mem_cons_self).2 (List.append_eq_nil_iff.mp h).1).elim
    | cons w ws =>
      rw [List.forall_mem_cons] at hvs hws
      rw [List.flatMap_cons, List.flatMap_cons] at h
      obtain ⟨hk, hrest⟩ := render_append_inj hvs.1.1 hws.1.1 h
      exact .cons hk (ih hvs.2 hws.2 hrest)

end Template
