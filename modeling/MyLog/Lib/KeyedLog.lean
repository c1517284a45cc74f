import Mathlib.Logic.Function.Basic
import Mathlib.Order.Lattice

/-! Records that are appended under keys. Where the keys never decrease, the records of one
key after the other are all records in their order. -/

namespace KeyedLog

variable {κ α : Type*} [DecidableEq κ]

def append (f : κ → Option (List α)) (w : κ × List α) : κ → Option (List α) :=
  Function.update f w.1 (some ((f w.1).getD [] ++ w.2))

theorem append_append (f : κ → Option (List α)) (k : κ) (c d : List α) :
    append (append f (k, c)) (k, d) = append f (k, c ++ d) := by
  simp [append]

def under (k : κ) (ws : List (κ × List α)) : List (List α) :=
  (ws.filter fun w => w.1 = k).map Prod.snd

theorem under_cons_self (k : κ) (d : List α) (ws : List (κ × List α)) :
    under k ((k, d) :: ws) = d :: under k ws := by
  simp [under]

theorem under_cons_of_ne {k j : κ} (h : j ≠ k) (d : List α) (ws : List (κ × List α)) :
    under k ((j, d) :: ws) = under k ws := by
  simp [under, h]

theorem under_of_notMem {k : κ} {ws : List (κ × List α)} (h : k ∉ ws.map Prod.fst) :
    under k ws = [] := by
  induction ws with
  | nil => rfl
  | cons w ws ih =>
    rw [List.map_cons, List.mem_cons, not_or] at h
    rw [under_cons_of_ne (Ne.symm h.1), ih h.2]

theorem under_of_nodup {ws : List (κ × List α)} (h : (ws.map Prod.fst).Nodup) {k : κ}
    {d : List α} (hd : (k, d) ∈ ws) : under k ws = [d] := by
  induction ws with
  | nil => cases hd
  | cons w ws ih =>
    obtain ⟨j, e⟩ := w
    rw [List.map_cons, List.nodup_cons] at h
    rcases List.mem_cons.mp hd with he | hd
    · obtain ⟨rfl, rfl⟩ := Prod.mk.inj he
      rw [under_cons_self, under_of_notMem h.1]
    · have hmem : k ∈ ws.map Prod.fst := List.mem_map_of_mem (f := Prod.fst) hd
      have hne : j ≠ k := by
        rintro rfl
        exact h.1 hmem
      rw [under_cons_of_ne hne, ih h.2 hd]

/-- What was under a key stays at its beginning. -/
theorem prefix_foldl_append (f : κ → Option (List α)) (ws : List (κ × List α)) (k : κ) :
    (f k).getD [] <+: ((ws.foldl append f) k).getD [] := by
  induction ws generalizing f with
  | nil => exact List.prefix_rfl
  | cons w ws ih =>
    refine List.IsPrefix.trans ?_ (ih (append f w))
    by_cases hk : k = w.1
    · subst hk
      simp [append]
    · have hkeep : append f w k = f k := Function.update_of_ne hk ..
      exact hkeep.symm ▸ List.prefix_rfl

theorem under_map {κ' : Type*} [DecidableEq κ'] {g : κ → κ'} (hg : Function.Injective g) (k : κ)
    (ws : List (κ × List α)) : under (g k) (ws.map fun w => (g w.1, w.2)) = under k ws := by
  induction ws with
  | nil => rfl
  | cons w ws ih =>
    obtain ⟨j, d⟩ := w
    by_cases hj : j = k
    · subst hj
      rw [List.map_cons, under_cons_self, under_cons_self, ih]
    · rw [List.map_cons, under_cons_of_ne (hg.ne hj), under_cons_of_ne hj, ih]

theorem foldl_append (f : κ → Option (List α)) (ws : List (κ × List α)) (k : κ) :
    ws.foldl append f k = if k ∈ ws.map Prod.fst then
      some ((f k).getD [] ++ (under k ws).flatten) else f k := by
  induction ws generalizing f with
  | nil => rfl
  | cons w ws ih =>
    obtain ⟨j, d⟩ := w
    rw [List.foldl_cons, ih]
    by_cases hj : j = k
    · subst hj
      by_cases hk : j ∈ ws.map Prod.fst
      · simp [append, under_cons_self, hk]
      · simp [append, under_cons_self, under_of_notMem hk, hk]
    · have hk : k ∈ ((j, d) :: ws).map Prod.fst ↔ k ∈ ws.map Prod.fst := by
        rw [List.map_cons, List.mem_cons, or_iff_right (Ne.symm hj)]
      simp only [append, under_cons_of_ne hj, Function.update_of_ne (Ne.symm hj), hk]

section Sorted

variable {κ : Type*} [LinearOrder κ]

/-- Each record, from the last one back, goes to the key at the front or to a smaller one. -/
theorem exists_increasing_keys {ws : List (κ × List α)} (h : (ws.map Prod.fst).Pairwise (· ≤ ·)) :
    ∃ ks : List κ, ks.Pairwise (· < ·) ∧ (∀ k, k ∈ ks ↔ k ∈ ws.map Prod.fst) ∧
      (ks.flatMap fun k => under k ws) = ws.map Prod.snd := by
  induction ws with
  | nil => exact ⟨[], .nil, fun k => Iff.rfl, rfl⟩
  | cons w ws ih =>
    obtain ⟨j, d⟩ := w
    rw [List.map_cons, List.pairwise_cons] at h
    obtain ⟨ks, hks, hmem, hall⟩ := ih h.2
    have hlater {l : List κ} (hl : ∀ k ∈ l, j < k) :
        (l.flatMap fun k => under k ((j, d) :: ws)) = l.flatMap fun k => under k ws :=
      congrArg List.flatten (List.map_congr_left fun k hk => under_cons_of_ne (hl k hk).ne d ws)
    by_cases hj : j ∈ ks
    · obtain ⟨ks, rfl⟩ : ∃ tail, ks = j :: tail := by
        cases ks with
        | nil => cases hj
        | cons k ks =>
          rcases List.mem_cons.mp hj with rfl | hj
          · exact ⟨ks, rfl⟩
          · have hlt := (List.pairwise_cons.mp hks).1 j hj
            have hle := h.1 k ((hmem k).mp List.mem_cons_self)
            exact (lt_irrefl j (hle.trans_lt hlt)).elim
      refine ⟨j :: ks, hks, fun k => ?_, ?_⟩
      · rw [hmem, List.map_cons, List.mem_cons]
        exact ⟨.inr, fun hk => hk.elim (fun he => he ▸ (hmem j).mp hj) id⟩
      · rw [List.flatMap_cons, under_cons_self, hlater (List.pairwise_cons.mp hks).1]
        exact congrArg (d :: ·) hall
    · have hlt : ∀ k ∈ ks, j < k := fun k hk =>
        lt_of_le_of_ne (h.1 k ((hmem k).mp hk)) fun he => hj (he ▸ hk)
      refine ⟨j :: ks, List.pairwise_cons.mpr ⟨hlt, hks⟩, fun k => ?_, ?_⟩
      · rw [List.mem_cons, hmem, List.map_cons, List.mem_cons]
      · rw [List.flatMap_cons, under_cons_self, under_of_notMem (mt (hmem j).mpr hj), hlater hlt,
          hall]
        rfl

end Sorted

end KeyedLog
