import Mathlib.Data.List.Induction
import Mathlib.Logic.Function.Basic

/-! A tree of directories and files without links, addressed by lists of names. -/

inductive FileKind
  | directory
  | file
  deriving DecidableEq

structure FileTree (N : Type*) where
  entry : List N → Option FileKind
  root : entry [] = some .directory
  parent : ∀ p c, entry (p ++ [c]) ≠ none → entry p = some .directory

namespace FileTree

variable {N : Type*} (t : FileTree N)

theorem ancestor {p q : List N} (h : t.entry (p ++ q) ≠ none) (hq : q ≠ []) :
    t.entry p = some .directory := by
  induction q using List.reverseRecOn with
  | nil => exact (hq rfl).elim
  | append_singleton q c ih =>
    rw [← List.append_assoc] at h
    have hdir := t.parent _ _ h
    by_cases hq' : q = []
    · simpa [hq'] using hdir
    · exact ih (by rw [hdir]; simp) hq'

theorem entry_dropLast {p : List N} (h : t.entry p ≠ none) :
    t.entry p.dropLast = some .directory := by
  rcases List.eq_nil_or_concat p with rfl | ⟨p, c, rfl⟩
  · exact t.root
  · rw [List.concat_eq_append] at h ⊢
    rw [List.dropLast_concat]
    exact t.parent p c h

variable [DecidableEq N]

/-- It succeeds where the name is free and its parent is a directory. -/
def mkdir (loc : List N) : FileTree N :=
  if h : t.entry loc = none ∧ t.entry loc.dropLast = some .directory then
    { entry := Function.update t.entry loc (some .directory)
      root := by
        have hne : [] ≠ loc := fun he => by
          rw [← he, t.root] at h
          cases h.1
        rw [Function.update_of_ne hne]
        exact t.root
      parent := by
        intro p c hc
        by_cases hp : p = loc
        · rw [hp, Function.update_self]
        rw [Function.update_of_ne hp]
        by_cases hpc : p ++ [c] = loc
        · have := h.2
          rwa [← hpc, List.dropLast_concat] at this
        · rw [Function.update_of_ne hpc] at hc
          exact t.parent p c hc }
  else t

/-- From `t` to `t'` nothing has gone or changed, and what is new is a directory in `S`. -/
structure Grown (t t' : FileTree N) (S : List N → Prop) : Prop where
  keeps : ∀ p, t.entry p ≠ none → t'.entry p = t.entry p
  new : ∀ p, t.entry p = none → t'.entry p ≠ none → t'.entry p = some .directory ∧ S p

variable {t} {t' t'' : FileTree N} {S : List N → Prop} {loc : List N}

omit [DecidableEq N] in
theorem Grown.refl (t : FileTree N) (S : List N → Prop) : Grown t t S :=
  ⟨fun _ _ => rfl, fun _ h h' => (h' h).elim⟩

omit [DecidableEq N] in
theorem Grown.trans (h : Grown t t' S) (h' : Grown t' t'' S) : Grown t t'' S := by
  refine ⟨fun p hp => ?_, fun p hp hp'' => ?_⟩
  · have hk := h.keeps p hp
    rw [h'.keeps p (hk ▸ hp), hk]
  · by_cases hp' : t'.entry p = none
    · exact h'.new p hp' hp''
    · rw [h'.keeps p hp']
      exact h.new p hp hp'

theorem mkdir_of_entry (h : t.entry loc ≠ none) : t.mkdir loc = t :=
  dif_neg fun hl => h hl.1

theorem mkdir_grown (hS : S loc) : Grown t (t.mkdir loc) S := by
  by_cases h : t.entry loc = none ∧ t.entry loc.dropLast = some .directory
  · have hm : (t.mkdir loc).entry = Function.update t.entry loc (some .directory) := by
      rw [mkdir, dif_pos h]
    refine ⟨fun p hp => ?_, fun p hp hp' => ?_⟩ <;> by_cases hpl : p = loc
    · exact (hp (hpl ▸ h.1)).elim
    · rw [hm, Function.update_of_ne hpl]
    · subst hpl
      exact ⟨by rw [hm, Function.update_self], hS⟩
    · rw [hm, Function.update_of_ne hpl] at hp'
      exact (hp' hp).elim
  · rw [mkdir, dif_neg h]
    exact .refl t S

/-- An open for appending makes a file where the name is free and its parent is a directory. -/
def create (t : FileTree N) (loc : List N) : FileTree N :=
  if h : t.entry loc = none ∧ t.entry loc.dropLast = some .directory then
    { entry := Function.update t.entry loc (some .file)
      root := by
        have hne : [] ≠ loc := fun he => by
          rw [← he, t.root] at h
          cases h.1
        rw [Function.update_of_ne hne]
        exact t.root
      parent := by
        intro p c hc
        have hdir : p ++ [c] ≠ loc → t.entry p = some .directory := fun hpc => by
          rw [Function.update_of_ne hpc] at hc
          exact t.parent p c hc
        by_cases hp : p = loc
        · have hp' := hdir (by simp [hp])
          rw [hp, h.1] at hp'
          cases hp'
        rw [Function.update_of_ne hp]
        by_cases hpc : p ++ [c] = loc
        · have := h.2
          rwa [← hpc, List.dropLast_concat] at this
        · exact hdir hpc }
  else t

theorem create_of_ne {p : List N} (h : p ≠ loc) : (t.create loc).entry p = t.entry p := by
  rw [create]
  split
  · exact Function.update_of_ne h ..
  · rfl

theorem create_keeps {p : List N} (h : t.entry p ≠ none) :
    (t.create loc).entry p = t.entry p := by
  by_cases hl : t.entry loc = none ∧ t.entry loc.dropLast = some .directory
  · exact create_of_ne fun he => h (he ▸ hl.1)
  · rw [create, dif_neg hl]

/-- What an open makes is no directory. -/
theorem create_directory_iff {p : List N} :
    (t.create loc).entry p = some .directory ↔ t.entry p = some .directory := by
  by_cases hp : t.entry p = none
  · by_cases hl : t.entry loc = none ∧ t.entry loc.dropLast = some .directory
    · rw [create, dif_pos hl]
      by_cases hpl : p = loc
      · subst hpl
        simp [hp]
      · simp [hpl]
    · rw [create, dif_neg hl]
  · rw [create_keeps hp]

theorem create_entry (hp : t.entry loc.dropLast = some .directory)
    (hd : t.entry loc ≠ some .directory) : (t.create loc).entry loc = some .file := by
  cases hl : t.entry loc with
  | none =>
    rw [create, dif_pos ⟨hl, hp⟩]
    exact Function.update_self ..
  | some k =>
    cases k with
    | directory => exact (hd hl).elim
    | file => rw [create_keeps (by rw [hl]; simp), hl]

theorem mkdir_entry (hp : t.entry loc.dropLast = some .directory) :
    (t.mkdir loc).entry loc ≠ none := by
  by_cases hfree : t.entry loc = none
  · rw [mkdir, dif_pos ⟨hfree, hp⟩]
    simp
  · rwa [(mkdir_grown (S := fun p => p = loc) rfl).keeps loc hfree]

end FileTree
