import Mathlib.Data.List.Infix
import MyLog.FilePath

/-! What file names stand for. Names that go on from one base name differ in their last
component, and so stand for different files. -/

namespace MyLog

/-- The beginning of a path before one of its components. -/
def BeforeName (r : Bytes) : Prop := r = [] ∨ ∃ u, r = u ++ [slash]

theorem split_name (u : Bytes) : ∃ r t, u = r ++ t ∧ slash ∉ t ∧ BeforeName r := by
  induction u using List.reverseRecOn with
  | nil => exact ⟨[], [], rfl, by simp, .inl rfl⟩
  | append_singleton u b ih =>
    by_cases hb : b = slash
    · exact ⟨u ++ [b], [], by simp, by simp, .inr ⟨u, by rw [hb]⟩⟩
    · obtain ⟨r, t, rfl, ht, hr⟩ := ih
      refine ⟨r, t ++ [b], by simp, ?_, hr⟩
      simp [ht, Ne.symm hb]

theorem components_append {r : Bytes} (hr : BeforeName r) :
    ∃ cs, ∀ x, (r ++ x).splitOn slash = cs ++ x.splitOn slash := by
  rcases hr with rfl | ⟨u, rfl⟩
  · exact ⟨[], fun _ => rfl⟩
  · refine ⟨u.splitOn slash, fun x => ?_⟩
    rw [List.append_assoc]
    exact List.splitOn_append_cons_self _ _

section Enter

variable (loc : List Bytes)

theorem enter_nil : enter loc [] = loc := if_pos (.inl rfl)

theorem enter_dots : enter loc (utf8 "..") = loc.dropLast := by
  rw [enter, if_neg (by decide), if_pos rfl]

theorem enter_cases {name : Bytes} (h : name ≠ utf8 "..") :
    enter loc name = loc ∨ enter loc name = loc ++ [name] := by
  unfold enter
  by_cases hn : name = [] ∨ name = utf8 "."
  · exact .inl (if_pos hn)
  · exact .inr (by rw [if_neg hn, if_neg h])

theorem enter_concat {t : Bytes} {c : UInt8} (hc : c ≠ ascii '.') :
    enter loc (t ++ [c]) = loc ++ [t ++ [c]] := by
  have hlast : ∀ w : Bytes, w.getLast? = some (ascii '.') → t ++ [c] ≠ w := by
    intro w hw he
    rw [← he, List.getLast?_concat] at hw
    exact hc (Option.some.inj hw)
  rw [enter, if_neg, if_neg (hlast _ (by decide))]
  rw [not_or]
  exact ⟨by simp, hlast _ (by decide)⟩

end Enter

section Walk

variable (cwd : List Bytes)

theorem walk_append {r t : Bytes} (hr : BeforeName r) (ht : slash ∉ t) :
    walk cwd (r ++ t) = enter (walk cwd r) t := by
  obtain ⟨cs, hcs⟩ := components_append hr
  have hr' : r.splitOn slash = cs ++ [[]] := by simpa using hcs []
  have hbase : ((r ++ t).head? = some slash) = (r.head? = some slash) := by
    cases r with
    | cons => rfl
    | nil =>
      have : t.head? ≠ some slash := fun he => ht (List.mem_of_mem_head? he)
      simpa using this
  rw [walk, walk, hcs, hr', List.splitOn_eq_singleton ht, List.foldl_append, List.foldl_append]
  simp only [hbase, List.foldl_cons, List.foldl_nil, enter_nil]

theorem walk_slash {u : Bytes} (hu : u ≠ []) : walk cwd (u ++ [slash]) = walk cwd u := by
  have hhead : (u ++ [slash]).head? = u.head? := List.head?_append_of_ne_nil _ hu
  rw [walk, walk, hhead, List.splitOn_append_cons_self, List.foldl_append]
  rfl

theorem walk_root : walk cwd [slash] = [] := rfl

theorem place_of_nulFree {pathname : Bytes} (h : 0 ∉ pathname) :
    place cwd pathname = walk cwd pathname := by
  rw [place, cString_of_nulFree h]

end Walk

/-- Part of one component, as the system sees it. -/
def Plain (b : Bytes) : Prop := ∀ x ∈ b, isSeparator x = false ∧ x ≠ 0

theorem plain_iff (b : Bytes) : (b.all fun x => !isSeparator x && x != 0) = true ↔ Plain b := by
  simp [Plain]

instance (b : Bytes) : Decidable (Plain b) := decidable_of_iff _ (plain_iff b)

/-- `name` goes on from `base` in its last component, and it ends in no dot. -/
def Extends (base name : Bytes) : Prop :=
  ∃ v c, name = base ++ (v ++ [c]) ∧ c ≠ ascii '.' ∧ Plain (v ++ [c])

section Extends

variable {base name name' a b : Bytes}

theorem Plain.append (ha : Plain a) (hb : Plain b) : Plain (a ++ b) :=
  List.forall_mem_append.mpr ⟨ha, hb⟩

theorem Plain.slash_notMem (h : Plain a) : slash ∉ a := fun hm =>
  absurd (h slash hm).1 (by decide)

theorem Extends.nulFree (h : Extends base name) (hb : 0 ∉ base) : 0 ∉ name := by
  obtain ⟨v, c, rfl, -, hv⟩ := h
  rw [List.mem_append, not_or]
  exact ⟨hb, fun hm => (hv 0 hm).2 rfl⟩

theorem Extends.place_injective (h : Extends base name) (h' : Extends base name') (hb : 0 ∉ base)
    {cwd : List Bytes} (he : place cwd name = place cwd name') : name = name' := by
  rw [place_of_nulFree cwd (h.nulFree hb), place_of_nulFree cwd (h'.nulFree hb)] at he
  obtain ⟨r, t, rfl, ht, hr⟩ := split_name base
  have hwalk {v : Bytes} {c : UInt8} (hdot : c ≠ ascii '.') (hv : Plain (v ++ [c])) :
      walk cwd (r ++ t ++ (v ++ [c])) = walk cwd r ++ [t ++ v ++ [c]] := by
    have hlast : slash ∉ t ++ v ++ [c] := by
      rw [List.append_assoc, List.mem_append, not_or]
      exact ⟨ht, hv.slash_notMem⟩
    rw [List.append_assoc, ← List.append_assoc t, walk_append cwd hr hlast, enter_concat _ hdot]
  obtain ⟨v, c, rfl, hdot, hv⟩ := h
  obtain ⟨v', c', rfl, hdot', hv'⟩ := h'
  rw [hwalk hdot hv, hwalk hdot' hv', List.append_cancel_left_eq, List.singleton_inj,
    List.append_assoc, List.append_assoc] at he
  rw [List.append_cancel_left he]

end Extends

/-- Every name that goes on from a base name with a NUL byte stands for one and the same file. -/
theorem place_append_nul (cwd : List Bytes) {b : Bytes} (hb : 0 ∉ b) (rest : Bytes) :
    place cwd (b ++ 0 :: rest) = walk cwd b := by
  rw [place, cString_append_nul hb]

end MyLog
