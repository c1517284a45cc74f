import Mathlib.Data.List.Infix

/-! Lists cut into pieces after each delimiter, and lists cut into segments. -/

namespace Delimited

variable {α : Type*}

theorem after_last_delimiter {d : α} {l l' s s' : List α} (h : l ++ d :: s = l' ++ d :: s')
    (hs : d ∉ s) (hs' : d ∉ s') : s = s' := by
  rcases List.append_eq_append_iff.mp h with ⟨as, -, h⟩ | ⟨as, -, h⟩
  · cases as with
    | nil => simpa using h
    | cons a as => exact (hs (by simp [(List.cons.inj h).2])).elim
  · cases as with
    | nil => simpa using h.symm
    | cons a as => exact (hs' (by simp [(List.cons.inj h).2])).elim

theorem split_last_delimiter {d : α} {l l' s s' : List α} (h : l ++ d :: s = l' ++ d :: s')
    (hs : d ∉ s) (hs' : d ∉ s') : l = l' ∧ s = s' := by
  obtain rfl := after_last_delimiter h hs hs'
  exact ⟨List.append_cancel_right h, rfl⟩

theorem split_first_delimiter {d : α} {l l' s s' : List α} (h : l ++ d :: s = l' ++ d :: s')
    (hl : d ∉ l) (hl' : d ∉ l') : l = l' ∧ s = s' := by
  have hr : s.reverse ++ d :: l.reverse = s'.reverse ++ d :: l'.reverse := by
    simpa using congrArg List.reverse h
  obtain ⟨hs, hl⟩ := split_last_delimiter hr (by simpa using hl) (by simpa using hl')
  exact ⟨List.reverse_injective hl, List.reverse_injective hs⟩

theorem split_concat {l pre post : List α} {x y : α} (h : l ++ [x] = pre ++ y :: post) :
    (l = pre ∧ x = y) ∨ ∃ post', l = pre ++ y :: post' := by
  rcases List.eq_nil_or_concat post with rfl | ⟨post', z, rfl⟩
  · obtain ⟨hl, hx⟩ := List.append_inj' h rfl
    exact .inl ⟨hl, List.singleton_inj.mp hx⟩
  · rw [List.concat_eq_append, ← List.cons_append, ← List.append_assoc] at h
    exact .inr ⟨post', (List.append_inj' h rfl).1⟩

theorem forall_split_concat {Q : List α → α → Prop} {l : List α} {x : α}
    (h : ∀ pre y post, l = pre ++ y :: post → Q pre y) (hx : Q l x) :
    ∀ pre y post, l ++ [x] = pre ++ y :: post → Q pre y := by
  intro pre y post he
  rcases split_concat he with ⟨rfl, rfl⟩ | ⟨post', hl⟩
  · exact hx
  · exact h pre y post' hl

section Pieces

variable [DecidableEq α] {d : α}

/-- The pieces of a list: each ends in the delimiter, except perhaps the last. -/
def pieces (d : α) : List α → List (List α)
  | [] => []
  | a :: l =>
    if a = d then [a] :: pieces d l
    else match pieces d l with
      | [] => [[a]]
      | p :: ps => (a :: p) :: ps

@[simp] theorem pieces_nil : pieces d [] = [] := rfl

theorem pieces_delimiter (l : List α) : pieces d (d :: l) = [d] :: pieces d l := by
  simp [pieces]

@[simp] theorem pieces_flatten (l : List α) : (pieces d l).flatten = l := by
  induction l with
  | nil => rfl
  | cons a l ih =>
    by_cases ha : a = d
    · simp [pieces, ha, ih]
    · cases hp : pieces d l with
      | nil => simp_all [pieces]
      | cons p ps =>
        rw [hp] at ih
        simp only [pieces, if_neg ha, hp, List.flatten_cons, List.cons_append] at ih ⊢
        rw [ih]

@[simp] theorem flatMap_pieces_flatten (ls : List (List α)) :
    (ls.flatMap (pieces d)).flatten = ls.flatten := by
  induction ls with
  | nil => rfl
  | cons l ls ih => simp [ih]

theorem pieces_of_notMem {l : List α} (h : d ∉ l) (hl : l ≠ []) : pieces d l = [l] := by
  induction l with
  | nil => exact (hl rfl).elim
  | cons a l ih =>
    have ha : a ≠ d := fun he => h (by simp [he])
    cases l with
    | nil => simp [pieces, ha]
    | cons b l =>
      have := ih (fun he => h (List.mem_cons_of_mem _ he)) (by simp)
      rw [pieces, if_neg ha, this]

theorem pieces_of_split {s rest : List α} (h : d ∉ s) :
    pieces d (s ++ d :: rest) = (s ++ [d]) :: pieces d rest := by
  induction s with
  | nil => exact pieces_delimiter rest
  | cons a s ih =>
    have ha : a ≠ d := fun he => h (by simp [he])
    have := ih fun he => h (List.mem_cons_of_mem _ he)
    simp only [List.cons_append, pieces, if_neg ha, this]

theorem split_cases (d : α) (l : List α) :
    l = [] ∨ (l ≠ [] ∧ d ∉ l) ∨ ∃ s rest, d ∉ s ∧ l = s ++ d :: rest := by
  by_cases hm : d ∈ l
  · obtain ⟨s, rest, rfl, hs⟩ := List.eq_append_cons_of_mem hm
    exact .inr (.inr ⟨s, rest, hs, rfl⟩)
  · by_cases hl : l = []
    · exact .inl hl
    · exact .inr (.inl ⟨hl, hm⟩)

theorem pieces_append {l m : List α} (h : l ≠ [] → l.getLast? = some d) :
    pieces d (l ++ m) = pieces d l ++ pieces d m := by
  induction hn : l.length using Nat.strong_induction_on generalizing l with
  | _ n ih =>
    rcases split_cases d l with rfl | ⟨hl, hd⟩ | ⟨s, rest, hs, rfl⟩
    · rfl
    · exact (hd (List.mem_of_getLast? (h hl))).elim
    · have hrest : rest ≠ [] → rest.getLast? = some d := by
        intro hr
        have := h (by simp)
        rwa [List.getLast?_append_of_ne_nil _ (by simp), List.getLast?_cons_of_ne_nil hr] at this
      have := ih rest.length (by simp at hn; omega) hrest rfl
      rw [List.append_assoc, List.cons_append, pieces_of_split hs, this, pieces_of_split hs,
        List.cons_append]

theorem pieces_ne_nil {l p : List α} (h : p ∈ pieces d l) : p ≠ [] := by
  induction hn : l.length using Nat.strong_induction_on generalizing l with
  | _ n ih =>
    rcases split_cases d l with rfl | ⟨hl, hd⟩ | ⟨s, rest, hs, rfl⟩
    · simp at h
    · rw [pieces_of_notMem hd hl, List.mem_singleton] at h
      rwa [h]
    · rw [pieces_of_split hs] at h
      rcases List.mem_cons.mp h with rfl | h
      · simp
      · exact ih rest.length (by simp at hn; omega) h rfl

theorem flatten_pos_of_pieces {l : List α} {ps : List (List α)} (hps : ps ≠ [])
    (h : ∀ p ∈ ps, p ∈ pieces d l) : 0 < ps.flatten.length := by
  obtain ⟨p, ps, rfl⟩ := List.exists_cons_of_ne_nil hps
  have hp := List.length_pos_of_ne_nil (pieces_ne_nil (h p (by simp)))
  rw [List.flatten_cons, List.length_append]
  omega

theorem pieces_eq_nil_iff {l : List α} : pieces d l = [] ↔ l = [] := by
  refine ⟨fun h => ?_, fun h => by rw [h]; rfl⟩
  rw [← pieces_flatten (d := d) l, h]
  rfl

theorem pieces_flatten_lines {ls : List (List α)}
    (h : ∀ l ∈ ls.dropLast, l ≠ [] → l.getLast? = some d) :
    pieces d ls.flatten = ls.flatMap (pieces d) := by
  induction ls with
  | nil => rfl
  | cons l ls ih =>
    cases ls with
    | nil => simp
    | cons l' ls =>
      have hls := ih fun x hx => h x (by simp [List.dropLast_cons_cons, hx])
      rw [List.flatMap_cons, List.flatten_cons, pieces_append (h l (by simp)), hls]

theorem flatMap_pieces_filter (ls : List (List α)) :
    (ls.filter (· ≠ [])).flatMap (pieces d) = ls.flatMap (pieces d) := by
  induction ls with
  | nil => rfl
  | cons l ls ih =>
    by_cases hl : l = []
    · subst hl
      simpa using ih
    · rw [List.filter_cons_of_pos (by simpa using hl), List.flatMap_cons, ih, List.flatMap_cons]

/-- Cutting the whole is cutting the parts when all but the last part are empty or
end in the delimiter. -/
theorem pieces_flatten_chunks {ls : List (List α)}
    (h : ∀ l ∈ (ls.filter (· ≠ [])).dropLast, l.getLast? = some d) :
    pieces d ls.flatten = ls.flatMap (pieces d) := by
  rw [← List.flatten_filter_ne_nil, pieces_flatten_lines fun l hl _ => h l hl,
    flatMap_pieces_filter]

theorem flatMap_pieces_batches {batches : List (List (List α))}
    (h : ∀ l ∈ batches.flatten, l.getLast? = some d) :
    (batches.map List.flatten).flatMap (pieces d) = batches.flatten.flatMap (pieces d) := by
  induction batches with
  | nil => rfl
  | cons b batches ih =>
    have hb : pieces d b.flatten = b.flatMap (pieces d) :=
      pieces_flatten_lines fun l hl _ => h l (by simp [List.dropLast_subset b hl])
    rw [List.map_cons, List.flatMap_cons, hb, ih fun l hl => h l (by
      rw [List.flatten_cons]
      exact List.mem_append_right _ hl), List.flatten_cons, List.flatMap_append]

theorem getLast?_of_cut {l : List α} {ps qs : List (List α)} (h : pieces d l = ps ++ qs)
    (hp : ps ≠ []) (hq : qs ≠ []) : ps.flatten.getLast? = some d := by
  induction hn : l.length using Nat.strong_induction_on generalizing l ps with
  | _ n ih =>
    rcases split_cases d l with rfl | ⟨hl, hd⟩ | ⟨s, rest, hs, rfl⟩
    · simp_all
    · rw [pieces_of_notMem hd hl] at h
      have := congrArg List.length h
      have := List.length_pos_of_ne_nil hp
      have := List.length_pos_of_ne_nil hq
      simp only [List.length_append, List.length_singleton] at *
      omega
    · obtain ⟨p, ps, rfl⟩ := List.exists_cons_of_ne_nil hp
      rw [pieces_of_split hs, List.cons_append, List.cons.injEq] at h
      obtain ⟨rfl, h⟩ := h
      cases ps with
      | nil => simp
      | cons q ps =>
        have := ih rest.length (by simp at hn; omega) h (by simp) rfl
        rw [List.flatten_cons, List.getLast?_append_of_ne_nil _ (by rintro he; simp [he] at this),
          this]

/-- Pieces never continue from one list into the next, so a cut between pieces
that falls inside one of the lists comes right after a delimiter. -/
theorem delimiter_of_cut {pre post : List (List α)} {x y : List α} {a b : α}
    {ps qs : List (List α)}
    (h : (pre ++ (x ++ a :: b :: y) :: post).flatMap (pieces d) = ps ++ qs)
    (hlen : ps.flatten.length = pre.flatten.length + x.length + 1) : a = d := by
  induction pre generalizing ps with
  | nil =>
    simp only [List.nil_append, List.flatMap_cons, List.flatten_nil, List.length_nil] at h hlen
    rcases List.append_eq_append_iff.mp h with ⟨rs, hps, -⟩ | ⟨rs, hl, -⟩
    · -- the cut would lie behind the whole list
      rw [hps, List.flatten_append, pieces_flatten] at hlen
      simp only [List.length_append, List.length_cons] at hlen
      omega
    · have hfl : ps.flatten ++ rs.flatten = x ++ a :: b :: y := by
        rw [← List.flatten_append, ← hl, pieces_flatten]
      have hp : ps ≠ [] := by
        rintro rfl
        simp at hlen
      have hr : rs ≠ [] := by
        rintro rfl
        have := congrArg List.length hfl
        simp only [List.flatten_nil, List.length_append, List.length_cons, List.length_nil] at this
        omega
      have hx : ps.flatten = x ++ [a] := by
        rw [show x ++ a :: b :: y = (x ++ [a]) ++ b :: y by simp] at hfl
        exact List.append_inj_left hfl (by simp [hlen])
      have hd := getLast?_of_cut hl hp hr
      rw [hx] at hd
      simpa using hd
  | cons l pre ih =>
    simp only [List.cons_append, List.flatMap_cons, List.flatten_cons, List.length_append]
      at h hlen
    rcases List.append_eq_append_iff.mp h with ⟨rs, hps, hrs⟩ | ⟨rs, hl, -⟩
    · rw [hps, List.flatten_append, pieces_flatten, List.length_append] at hlen
      exact ih hrs (by omega)
    · -- the cut would lie inside a list before
      have := congrArg (fun q => q.flatten.length) hl
      simp only [pieces_flatten, List.flatten_append, List.length_append] at this
      omega

end Pieces

/-- The index of the segment that holds a position of the concatenation. -/
def segmentOf : List (List α) → Nat → Nat
  | [], _ => 0
  | s :: ss, n => if n < s.length then 0 else segmentOf ss (n - s.length) + 1

theorem cut_of_segmentOf_ne {ss : List (List α)} {n : Nat}
    (h : segmentOf ss n ≠ segmentOf ss (n + 1)) :
    ∃ S T, ss = S ++ T ∧ S.flatten.length = n + 1 := by
  induction ss generalizing n with
  | nil => exact (h rfl).elim
  | cons s ss ih =>
    by_cases hn : n < s.length
    · have hs : ¬ n + 1 < s.length := fun hs => h (by simp [segmentOf, hn, hs])
      exact ⟨[s], ss, rfl, by simp; omega⟩
    · have hs : ¬ n + 1 < s.length := by omega
      have he : n + 1 - s.length = n - s.length + 1 := by omega
      simp only [segmentOf, if_neg hn, if_neg hs, he, ne_eq, Nat.add_right_cancel_iff] at h
      obtain ⟨S, T, rfl, hS⟩ := ih h
      exact ⟨s :: S, T, rfl, by simp only [List.flatten_cons, List.length_append]; omega⟩

theorem segmentOf_append {A C : List (List α)} {b : List α} {n : Nat}
    (h₁ : A.flatten.length ≤ n) (h₂ : n < A.flatten.length + b.length) :
    segmentOf (A ++ b :: C) n = A.length := by
  induction A generalizing n with
  | nil => simpa [segmentOf] using h₂
  | cons a A ih =>
    simp only [List.flatten_cons, List.length_append] at h₁ h₂
    have hn : ¬ n < a.length := by omega
    simp only [List.cons_append, segmentOf, if_neg hn, List.length_cons]
    rw [ih (by omega) (by omega)]

theorem lt_segmentOf {A C : List (List α)} {b : List α} {n : Nat}
    (h : A.flatten.length + b.length ≤ n) : A.length < segmentOf (A ++ b :: C) n := by
  induction A generalizing n with
  | nil =>
    have hn : ¬ n < b.length := by simpa using h
    simp [segmentOf, hn]
  | cons a A ih =>
    simp only [List.flatten_cons, List.length_append] at h
    have hn : ¬ n < a.length := by omega
    simp only [List.cons_append, segmentOf, if_neg hn, List.length_cons]
    exact Nat.succ_lt_succ (ih (by omega))

/-- The positions from `q` on lie in one segment exactly if there are none after `q`. -/
theorem segmentOf_constant_iff {A C : List (List α)} {b q : List α} (hq : 0 < q.length) (r : Nat) :
    (∃ k, ∀ i < q.length + r,
      segmentOf (A ++ (b ++ q) :: C) (A.flatten.length + b.length + i) = k) ↔ r = 0 := by
  constructor
  · rintro ⟨k, hk⟩
    by_contra hr
    have hfirst := hk 0 (by omega)
    have hlater := hk q.length (by omega)
    rw [segmentOf_append (by omega) (by rw [List.length_append]; omega)] at hfirst
    have hlt : A.length < segmentOf (A ++ (b ++ q) :: C) (A.flatten.length + b.length + q.length) :=
      lt_segmentOf (by rw [List.length_append]; omega)
    omega
  · rintro rfl
    exact ⟨_, fun i hi => segmentOf_append (by omega) (by rw [List.length_append]; omega)⟩

/-- Where the segments are made of whole pieces, two neighbours within one list
that lie in different segments are separated by a delimiter. -/
theorem delimiter_of_segments [DecidableEq α] {d : α} {groups : List (List (List α))}
    {pre post : List (List α)} {x y : List α} {a b : α}
    (h : groups.flatten = (pre ++ (x ++ a :: b :: y) :: post).flatMap (pieces d))
    (hne : segmentOf (groups.map List.flatten) (pre.flatten.length + x.length) ≠
      segmentOf (groups.map List.flatten) (pre.flatten.length + x.length + 1)) : a = d := by
  obtain ⟨S, T, hST, hlen⟩ := cut_of_segmentOf_ne hne
  obtain ⟨G, H, rfl, rfl, rfl⟩ := List.map_eq_append_iff.mp hST
  have hcut : (pre ++ (x ++ a :: b :: y) :: post).flatMap (pieces d) = G.flatten ++ H.flatten := by
    rw [← h, List.flatten_append]
  refine delimiter_of_cut hcut ?_
  rw [← hlen, List.flatten_flatten]

end Delimited
