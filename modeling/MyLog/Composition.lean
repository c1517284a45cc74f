import MyLog.TimeField

/-! Patterns put one after the other: where the second one is not taken for the
sub-parameter of a placeholder that ends the first, each prints what it prints alone. -/

namespace MyLog

/-- A bare placeholder would take the text in braces after it for its sub-parameter. -/
def Merges (ps : List Piece) (q : Bytes) : Prop :=
  (∃ k, ps.getLast? = some (.bare k)) ∧ q.head? = some openBrace

section Append

variable {p q : Bytes} {ps qs : List Piece} {x : Piece} {k : UInt8}

theorem Merges.cons (h : Merges ps q) : Merges (x :: ps) q := by
  obtain ⟨⟨k, hk⟩, hq⟩ := h
  exact ⟨⟨k, by rw [List.getLast?_cons, hk, Option.getD_some]⟩, hq⟩

theorem derives_nil (h : Derives [] ps) : ps = [] := by
  cases h
  rfl

theorem Derives.append (hp : Derives p ps) (hq : Derives q qs) (hm : ¬ Merges ps q) :
    Derives (p ++ q) (ps ++ qs) := by
  induction hp with
  | empty => exact hq
  | literal hc _ ih => exact .literal hc (ih fun h => hm h.cons)
  | escape _ ih => exact .escape (ih fun h => hm h.cons)
  | @bare k p ps hk hp hd ih =>
    refine .bare hk ?_ (ih fun h => hm h.cons)
    cases p with
    | nil =>
      obtain rfl := derives_nil hd
      exact fun hq => hm ⟨⟨k, rfl⟩, hq⟩
    | cons c p => exact hp
  | @field k s p ps hk hs _ ih =>
    rw [List.cons_append, List.cons_append, List.cons_append, List.append_assoc, List.cons_append]
    exact .field hk hs (ih fun h => hm h.cons)

theorem Derives.after_bare (h : Derives p (ps ++ .bare k :: qs)) :
    ∃ q, Derives q qs ∧ q.head? ≠ some openBrace := by
  induction ps generalizing p with
  | nil =>
    cases h with
    | bare _ hq h => exact ⟨_, h, hq⟩
  | cons x ps ih =>
    cases h with
    | literal _ h => exact ih h
    | escape h => exact ih h
    | bare _ _ h => exact ih h
    | field _ _ h => exact ih h

theorem derives_append_iff (hp : Derives p ps) (hq : Derives q qs) :
    Derives (p ++ q) (ps ++ qs) ↔ ¬ Merges ps q := by
  refine ⟨fun h hm => ?_, hp.append hq⟩
  obtain ⟨⟨k, hk⟩, hbrace⟩ := hm
  obtain ⟨before, rfl⟩ := List.getLast?_eq_some_iff.mp hk
  rw [List.append_assoc, List.singleton_append] at h
  obtain ⟨r, hr, hne⟩ := h.after_bare
  rw [← derives_source hr, derives_source hq] at hne
  exact hne hbrace

/-- The pieces of two patterns are those of the patterns together exactly if the second one
is not merged into the first, and then the texts are put together as well. -/
theorem pattern_append (hp : Derives p ps) (hq : Derives q qs) :
    (Derives (p ++ q) (ps ++ qs) ↔ ¬ Merges ps q) ∧
    (¬ Merges ps q → ∃ f g h, Formatter.make p = some f ∧ Formatter.make q = some g ∧
      Formatter.make (p ++ q) = some h ∧ ∀ P m, h.format P m = f.format P m ++ g.format P m) := by
  refine ⟨derives_append_iff hp hq, fun hm => ?_⟩
  obtain ⟨f, hf, hft⟩ := Formatter.make_format hp
  obtain ⟨g, hg, hgt⟩ := Formatter.make_format hq
  obtain ⟨h, hh, hht⟩ := Formatter.make_format (hp.append hq hm)
  refine ⟨f, g, h, hf, hg, hh, fun P m => ?_⟩
  rw [hht, hft, hgt, List.flatMap_append]

theorem pattern_append_line : ∃ f g h, Formatter.make (utf8 "%m") = some f ∧
    Formatter.make (utf8 "%n") = some g ∧ Formatter.make (utf8 "%m" ++ utf8 "%n") = some h ∧
      ∀ P m, h.format P m = f.format P m ++ g.format P m := by
  have hm : Derives (utf8 "%m") [.bare (ascii 'm')] :=
    Derives.bare (k := ascii 'm') (by decide) (by decide) .empty
  have hn : Derives (utf8 "%n") [.bare (ascii 'n')] :=
    Derives.bare (k := ascii 'n') (by decide) (by decide) .empty
  exact (pattern_append hm hn).2 fun h => absurd h.2 (by decide)

end Append

end MyLog
