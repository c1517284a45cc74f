import MyLog.Paths

/-! The directories of a log file: what `createDirectory(getPath(f))` leaves behind. -/

namespace MyLog

def EndsInSeparator (q : Bytes) : Prop := ∃ u b, q = u ++ [b] ∧ isSeparator b = true

namespace FileSystem

variable (fs : FileSystem)

def ensure (q : Bytes) : FileSystem := if fs.isExist q then fs else fs.mkdir q

theorem ensure_grown {q : Bytes} {S : List Bytes → Prop} (hS : S (fs.locate q)) :
    FileTree.Grown fs.toFileTree (fs.ensure q).toFileTree S := by
  unfold ensure
  split
  · exact .refl _ _
  · exact FileTree.mkdir_grown hS

theorem ensure_of_entry {q : Bytes} (h : fs.entry (fs.locate q) ≠ none) : fs.ensure q = fs := by
  rw [ensure, mkdir]
  simp only [FileTree.mkdir_of_entry h, ite_self]

theorem ensure_entry {q : Bytes} (h : fs.entry (fs.locate q) ≠ none ∨
    fs.entry (fs.locate q).dropLast = some .directory) :
    (fs.ensure q).entry (fs.locate q) ≠ none := by
  by_cases he : fs.entry (fs.locate q) = none
  · have hx : fs.isExist q = false := by simp [isExist, he]
    rw [ensure, hx]
    exact FileTree.mkdir_entry (h.resolve_left fun hn => hn he)
  · rwa [ensure_of_entry fs he]

end FileSystem

section Loop

variable {pre a c : Bytes} {b : UInt8}

theorem findFirstOf_stop (ha : ∀ x ∈ a, isSeparator x = false) (hb : isSeparator b = true) :
    findFirstOf (pre ++ (a ++ b :: c)) pre.length = some (pre.length + a.length) := by
  have hnone : a.findIdx? isSeparator = none := List.findIdx?_eq_none_iff.mpr ha
  rw [findFirstOf, List.drop_left, List.findIdx?_append, hnone]
  simp [List.findIdx?_cons, hb]

theorem createDirectoryFrom_stop (fs : FileSystem) (ha : ∀ x ∈ a, isSeparator x = false)
    (hb : isSeparator b = true) :
    createDirectoryFrom fs (pre ++ (a ++ b :: c)) pre.length =
      createDirectoryFrom (fs.ensure (pre ++ (a ++ [b]))) (pre ++ (a ++ b :: c))
        (pre ++ (a ++ [b])).length := by
  have hlt : pre.length < (pre ++ (a ++ b :: c)).length := by
    simp only [List.length_append, List.length_cons]
    omega
  have htake : (pre ++ (a ++ b :: c)).take (pre.length + a.length + 1) = pre ++ (a ++ [b]) := by
    rw [show pre ++ (a ++ b :: c) = (pre ++ (a ++ [b])) ++ c by simp]
    exact List.take_left' (by simp [Nat.add_assoc])
  have hlen : (pre ++ (a ++ [b])).length = pre.length + a.length + 1 := by simp [Nat.add_assoc]
  rw [createDirectoryFrom, dif_pos hlt]
  split
  · next h =>
    rw [findFirstOf_stop ha hb] at h
    cases h
  · next pos h =>
    obtain rfl := Option.some.inj ((findFirstOf_stop ha hb).symm.trans h)
    simp only [htake, FileSystem.ensure, hlen]
    split <;> rfl

theorem createDirectoryFrom_end (fs : FileSystem) (pathname : Bytes) :
    createDirectoryFrom fs pathname pathname.length = fs := by
  rw [createDirectoryFrom, dif_neg (lt_irrefl _)]

theorem first_stop {s : Bytes} (h : EndsInSeparator s) : ∃ a b c, s = a ++ b :: c ∧
    (∀ x ∈ a, isSeparator x = false) ∧ isSeparator b = true ∧ (c = [] ∨ EndsInSeparator c) := by
  induction s with
  | nil =>
    obtain ⟨u, b, he, -⟩ := h
    simp at he
  | cons x s ih =>
    have hrest : s = [] ∧ isSeparator x = true ∨ EndsInSeparator s := by
      obtain ⟨u, b, he, hb⟩ := h
      cases u with
      | nil =>
        obtain ⟨rfl, rfl⟩ := List.cons.inj he
        exact .inl ⟨rfl, hb⟩
      | cons y u => exact .inr ⟨u, b, (List.cons.inj he).2, hb⟩
    by_cases hx : isSeparator x = true
    · exact ⟨[], x, s, rfl, by simp, hx, hrest.imp_left And.left⟩
    · have hs := hrest.resolve_left fun hn => hx hn.2
      obtain ⟨a, b, c, rfl, ha, hb, hc⟩ := ih hs
      refine ⟨x :: a, b, c, rfl, ?_, hb, hc⟩
      rw [List.forall_mem_cons]
      exact ⟨by simpa using hx, ha⟩

end Loop

theorem prefix_of_stop {pre a q : Bytes} (ha : ∀ x ∈ a, isSeparator x = false)
    (hq : q <+: pre ++ a) (hs : EndsInSeparator q) : q <+: pre := by
  rcases List.prefix_or_prefix_of_prefix hq (List.prefix_append pre a) with h | ⟨w, rfl⟩
  · exact h
  · obtain ⟨u, b, he, hb⟩ := hs
    rcases List.eq_nil_or_concat w with rfl | ⟨w, y, rfl⟩
    · simp
    · rw [List.concat_eq_append, ← List.append_assoc] at he
      obtain ⟨-, hy⟩ := List.append_inj' he rfl
      have hmem : y ∈ a := by
        have := (List.prefix_append_right_inj pre).mp hq
        exact this.subset (by simp)
      have hsep := ha y hmem
      rw [List.singleton_inj.mp hy, hb] at hsep
      cases hsep

theorem stop_cases {pre a q : Bytes} {b : UInt8} (ha : ∀ x ∈ a, isSeparator x = false)
    (hq : q <+: pre ++ (a ++ [b])) (hs : EndsInSeparator q) :
    q <+: pre ∨ q = pre ++ (a ++ [b]) := by
  rw [← List.append_assoc, List.prefix_concat_iff] at hq
  rcases hq with rfl | hq
  · exact .inr (List.append_assoc ..)
  · exact .inl (prefix_of_stop ha hq hs)

section Parent

variable {fs : FileSystem} {f q r t : Bytes}

theorem name_placed (hr : BeforeName r) (ht : slash ∉ t)
    (hdir : fs.entry (walk fs.cwd r) = some .directory) :
    fs.entry (walk fs.cwd (r ++ t)) ≠ none ∨
      fs.entry (walk fs.cwd (r ++ t)).dropLast = some .directory := by
  rw [walk_append fs.cwd hr ht]
  by_cases hdots : t = utf8 ".."
  · left
    rw [hdots, enter_dots, fs.toFileTree.entry_dropLast (by rw [hdir]; simp)]
    simp
  rcases enter_cases (walk fs.cwd r) hdots with he | he <;> rw [he]
  · left
    rw [hdir]
    simp
  · right
    rw [List.dropLast_concat]
    exact hdir

theorem before_there (hr : BeforeName r)
    (h : EndsInSeparator r → fs.entry (walk fs.cwd r) = some .directory) :
    fs.entry (walk fs.cwd r) = some .directory := by
  rcases hr with rfl | ⟨u, rfl⟩
  · exact fs.cwd_directory
  · exact h ⟨u, slash, rfl, rfl⟩

theorem locate_before (hr : r <+: cString q) : fs.locate r = walk fs.cwd r :=
  place_of_nulFree fs.cwd fun h => nulFree_cString q (hr.subset h)

/-- The directory above a stop is one of the stops before it, the root or the directory
that relative paths start from. Only the code takes the backslash for a separator. -/
theorem parent_there (fs : FileSystem) (hs : EndsInSeparator q)
    (hbefore : ∀ r, r <+: q → r ≠ q → EndsInSeparator r →
      fs.entry (fs.locate r) = some .directory) :
    fs.entry (fs.locate q) ≠ none ∨ fs.entry (fs.locate q).dropLast = some .directory := by
  have hthere {r : Bytes} (hr : BeforeName r) (hpre : r <+: cString q) (hne : r ≠ q) :
      fs.entry (walk fs.cwd r) = some .directory := by
    refine before_there hr fun hs => ?_
    rw [← locate_before hpre]
    exact hbefore r (hpre.trans (List.takeWhile_prefix _)) hne hs
  obtain ⟨r, t, hq, ht, hr⟩ := split_name (cString q)
  have hpre : r <+: cString q := hq ▸ List.prefix_append r t
  rw [FileSystem.locate, place, hq]
  by_cases hne : r = q
  · -- the stop ends in a slash, so its last name is before that
    obtain rfl : t = [] := by
      have hle := (List.takeWhile_prefix (l := q) (· ≠ 0)).length_le
      rw [← cString, hq, hne, List.length_append] at hle
      exact List.length_eq_zero_iff.mp (by omega)
    rw [List.append_nil]
    rcases hr with rfl | ⟨u, rfl⟩
    · obtain ⟨u, b, he, -⟩ := hs
      rw [← hne] at he
      simp at he
    by_cases hu : u = []
    · left
      rw [hu, List.nil_append, walk_root, fs.root]
      simp
    · obtain ⟨r, t, rfl, ht, hr⟩ := split_name u
      rw [walk_slash fs.cwd hu]
      refine name_placed hr ht (hthere hr ?_ fun he => ?_)
      · exact ((List.prefix_append r t).trans (List.prefix_append _ _)).trans hpre
      · have hlen := congrArg List.length (he.trans hne.symm)
        simp only [List.length_append, List.length_singleton] at hlen
        omega
  · exact name_placed hr ht (hthere hr hpre hne)

end Parent

/-- The directories that end inside `pre` are there, and nothing else is new. -/
structure Prepared (fs₀ : FileSystem) (pre : Bytes) (fs : FileSystem) : Prop where
  cwd : fs.cwd = fs₀.cwd
  grown : FileTree.Grown fs₀.toFileTree fs.toFileTree fun p =>
    ∃ q, q <+: pre ∧ EndsInSeparator q ∧ fs₀.locate q = p
  there : ∀ q, q <+: pre → EndsInSeparator q → fs.entry (fs₀.locate q) = some .directory

section Run

variable {fs₀ fs : FileSystem} {f pre a : Bytes} {b : UInt8}

theorem Prepared.locate (h : Prepared fs₀ pre fs) (q : Bytes) : fs.locate q = fs₀.locate q := by
  rw [FileSystem.locate, FileSystem.locate, h.cwd]

theorem directory_of_grown {S : List Bytes → Prop} {p : List Bytes}
    (h : FileTree.Grown fs₀.toFileTree fs.toFileTree S) (hp : fs₀.entry p ≠ some .file)
    (hne : fs.entry p ≠ none) : fs.entry p = some .directory := by
  by_cases h₀ : fs₀.entry p = none
  · exact (h.new p h₀ hne).1
  · rw [h.keeps p h₀] at hne ⊢
    cases hk : fs₀.entry p with
    | none => exact (hne hk).elim
    | some k =>
      cases k with
      | directory => rfl
      | file => exact (hp hk).elim

theorem Prepared.ensure (h : Prepared fs₀ pre fs)
    (hfree : ∀ q, q <+: f → EndsInSeparator q → fs₀.entry (fs₀.locate q) ≠ some .file)
    (hpre : pre ++ (a ++ [b]) <+: f) (ha : ∀ x ∈ a, isSeparator x = false)
    (hb : isSeparator b = true) :
    Prepared fs₀ (pre ++ (a ++ [b])) (fs.ensure (pre ++ (a ++ [b]))) := by
  have hstop : EndsInSeparator (pre ++ (a ++ [b])) := ⟨pre ++ a, b, by simp, hb⟩
  have hnew : FileTree.Grown fs.toFileTree (fs.ensure (pre ++ (a ++ [b]))).toFileTree fun p =>
      ∃ q, q <+: pre ++ (a ++ [b]) ∧ EndsInSeparator q ∧ fs₀.locate q = p :=
    fs.ensure_grown ⟨_, List.prefix_rfl, hstop, (h.locate _).symm⟩
  have hold : FileTree.Grown fs₀.toFileTree fs.toFileTree fun p =>
      ∃ q, q <+: pre ++ (a ++ [b]) ∧ EndsInSeparator q ∧ fs₀.locate q = p := by
    refine ⟨h.grown.keeps, fun p hp hp' => ?_⟩
    obtain ⟨hd, q, hq, hs, he⟩ := h.grown.new p hp hp'
    exact ⟨hd, q, hq.trans (List.prefix_append _ _), hs, he⟩
  have hparent := parent_there fs hstop fun r hr hne hs => by
    rw [h.locate]
    exact h.there r ((stop_cases ha hr hs).resolve_right hne) hs
  have hentry := fs.ensure_entry hparent
  rw [h.locate] at hentry
  refine ⟨?_, hold.trans hnew, fun q hq hs => ?_⟩
  · rw [← h.cwd, FileSystem.ensure]
    split <;> rfl
  · rcases stop_cases ha hq hs with hq | rfl
    · have := h.there q hq hs
      rw [hnew.keeps _ (by rw [this]; simp), this]
    · exact directory_of_grown (hold.trans hnew) (hfree _ hpre hs) hentry

theorem append_stop (pre a c : Bytes) (b : UInt8) :
    pre ++ (a ++ b :: c) = pre ++ (a ++ [b]) ++ c := by simp

theorem stop_induction {motive : Bytes → Bytes → Prop} (nil : ∀ pre, motive pre [])
    (stop : ∀ pre a b c, (∀ x ∈ a, isSeparator x = false) → isSeparator b = true →
      motive (pre ++ (a ++ [b])) c → motive pre (a ++ b :: c))
    (pre : Bytes) {rest : Bytes} (hrest : rest = [] ∨ EndsInSeparator rest) :
    motive pre rest := by
  induction hn : rest.length using Nat.strong_induction_on generalizing rest pre with
  | _ n ih =>
    rcases hrest with rfl | hrest
    · exact nil pre
    · obtain ⟨a, b, c, rfl, ha, hb, hc⟩ := first_stop hrest
      have hlt : c.length < n := by
        rw [← hn, List.length_append, List.length_cons]
        omega
      exact stop pre a b c ha hb (ih c.length hlt _ hc rfl)

theorem Prepared.loop
    (hfree : ∀ q, q <+: f → EndsInSeparator q → fs₀.entry (fs₀.locate q) ≠ some .file)
    {rest : Bytes} (h : Prepared fs₀ pre fs) (hpre : pre ++ rest <+: f)
    (hrest : rest = [] ∨ EndsInSeparator rest) :
    Prepared fs₀ (pre ++ rest) (createDirectoryFrom fs (pre ++ rest) pre.length) := by
  refine stop_induction (motive := fun pre rest => pre ++ rest <+: f → ∀ fs, Prepared fs₀ pre fs →
    Prepared fs₀ (pre ++ rest) (createDirectoryFrom fs (pre ++ rest) pre.length))
    (fun pre _ fs h => ?_) (fun pre a b c ha hb ih hpre fs h => ?_) pre hrest hpre fs h
  · rw [List.append_nil, createDirectoryFrom_end]
    exact h
  · have hsplit := append_stop pre a c b
    have hstop : pre ++ (a ++ [b]) <+: f := (hsplit ▸ List.prefix_append _ c).trans hpre
    rw [createDirectoryFrom_stop fs ha hb]
    have := ih (hsplit ▸ hpre) _ (h.ensure hfree hstop ha hb)
    rwa [← hsplit] at this

theorem createDirectoryFrom_there (pre : Bytes) {rest : Bytes}
    (hrest : rest = [] ∨ EndsInSeparator rest)
    (h : ∀ q, q <+: pre ++ rest → EndsInSeparator q → fs.entry (fs.locate q) ≠ none) :
    createDirectoryFrom fs (pre ++ rest) pre.length = fs := by
  revert h
  refine stop_induction (motive := fun pre rest =>
    (∀ q, q <+: pre ++ rest → EndsInSeparator q → fs.entry (fs.locate q) ≠ none) →
      createDirectoryFrom fs (pre ++ rest) pre.length = fs)
    (fun pre _ => ?_) (fun pre a b c ha hb ih h => ?_) pre hrest
  · rw [List.append_nil, createDirectoryFrom_end]
  · have hsplit := append_stop pre a c b
    have hstop : EndsInSeparator (pre ++ (a ++ [b])) := ⟨pre ++ a, b, by simp, hb⟩
    have hhere := h _ (hsplit ▸ List.prefix_append _ c) hstop
    rw [createDirectoryFrom_stop fs ha hb, fs.ensure_of_entry hhere]
    have := ih (by rwa [← hsplit])
    rwa [← hsplit] at this

theorem createDirectory_dot (fs : FileSystem) : createDirectory fs (utf8 ".") = fs := by
  have hx : fs.isExist (utf8 ".") = true := by
    have hcwd : fs.entry (fs.locate (utf8 ".")) = some .directory := fs.cwd_directory
    rw [FileSystem.isExist, hcwd]
    rfl
  have hnone : findFirstOf (utf8 ".") 0 = none := by decide
  rw [createDirectory, createDirectoryFrom, dif_pos (by decide)]
  split
  · rw [hx, if_pos rfl]
  · next h =>
    rw [hnone] at h
    cases h

theorem last_stop (f : Bytes) : (∀ x ∈ f, isSeparator x = false) ∨
    ∃ u b v, f = u ++ b :: v ∧ isSeparator b = true ∧ ∀ x ∈ v, isSeparator x = false := by
  induction f with
  | nil => exact .inl (by simp)
  | cons x f ih =>
    rcases ih with h | ⟨u, b, v, rfl, hb, hv⟩
    · by_cases hx : isSeparator x = true
      · exact .inr ⟨[], x, f, rfl, hx, h⟩
      · left
        rw [List.forall_mem_cons]
        exact ⟨by simpa using hx, h⟩
    · exact .inr ⟨x :: u, b, v, rfl, hb, hv⟩

theorem getPath_plain {f : Bytes} (h : ∀ x ∈ f, isSeparator x = false) : getPath f = utf8 "." := by
  have hnone : f.reverse.findIdx? isSeparator = none :=
    List.findIdx?_eq_none_iff.mpr fun x hx => h x (List.mem_reverse.mp hx)
  rw [getPath, findLastOf, hnone]
  rfl

theorem getPath_stop {u v : Bytes} (hb : isSeparator b = true)
    (hv : ∀ x ∈ v, isSeparator x = false) : getPath (u ++ b :: v) = u ++ [b] := by
  have hnone : v.reverse.findIdx? isSeparator = none :=
    List.findIdx?_eq_none_iff.mpr fun x hx => hv x (List.mem_reverse.mp hx)
  have hlast : findLastOf (u ++ b :: v) = some u.length := by
    rw [findLastOf, show (u ++ b :: v).reverse = v.reverse ++ b :: u.reverse by simp,
      List.findIdx?_append, hnone]
    simp [List.findIdx?_cons, hb]
  rw [getPath, hlast]
  show (u ++ b :: v).take (u.length + 1) = _
  rw [show u ++ b :: v = (u ++ [b]) ++ v by simp]
  exact List.take_left' (by simp)

theorem prepared_nil (fs : FileSystem) : Prepared fs [] fs := by
  refine ⟨rfl, .refl _ _, fun q hq hs => ?_⟩
  obtain ⟨u, b, rfl, -⟩ := hs
  simp at hq

theorem Prepared.ancestor (h : Prepared fs₀ pre fs)
    (hstops : ∀ q, q <+: f → EndsInSeparator q → q <+: pre) {p : List Bytes}
    (hp : p <+: fs₀.locate f) (hne : p ≠ fs₀.locate f) : fs.entry p = some .directory := by
  obtain ⟨r, t, hf, ht, hr⟩ := split_name (cString f)
  have hpre : r <+: cString f := hf ▸ List.prefix_append r t
  have hdir : fs.entry (walk fs₀.cwd r) = some .directory := by
    rw [← h.cwd]
    refine before_there hr fun hs => ?_
    rw [← locate_before hpre, h.locate]
    exact h.there r (hstops r (hpre.trans (List.takeWhile_prefix _)) hs) hs
  -- the last component adds one name or none, or goes up
  have hle : p <+: walk fs₀.cwd r := by
    rw [FileSystem.locate, place, hf, walk_append fs₀.cwd hr ht] at hp hne
    by_cases hdots : t = utf8 ".."
    · rw [hdots, enter_dots] at hp
      exact hp.trans (List.dropLast_prefix _)
    rcases enter_cases (walk fs₀.cwd r) hdots with he | he <;> rw [he] at hp hne
    · exact hp
    · exact (List.prefix_concat_iff.mp hp).resolve_left hne
  obtain ⟨w, hw⟩ := hle
  by_cases hw' : w = []
  · rw [← hdir, ← hw, hw', List.append_nil]
  · exact fs.toFileTree.ancestor (by rw [hw, hdir]; simp) hw'

theorem createDirectory_prepared {u v : Bytes} (hb : isSeparator b = true)
    (hfree : ∀ q, q <+: u ++ b :: v → EndsInSeparator q →
      fs.entry (fs.locate q) ≠ some .file) :
    Prepared fs (u ++ [b]) (createDirectory fs (u ++ [b])) := by
  have hpre : [] ++ (u ++ [b]) <+: u ++ b :: v := ⟨v, by simp⟩
  exact Prepared.loop hfree (prepared_nil fs) hpre (.inr ⟨u, b, rfl, hb⟩)

end Run

/-- The directories of a log file are there afterwards, nothing that was there has
changed, what is new is a directory on the way, and a second call does nothing. -/
theorem create_directory (fs : FileSystem) {f : Bytes}
    (hfree : ∀ q, q <+: f → EndsInSeparator q → fs.entry (fs.locate q) ≠ some .file) :
    let fs' := createDirectory fs (getPath f)
    (∀ p, p <+: fs.locate f → p ≠ fs.locate f → fs'.entry p = some .directory) ∧
    (∀ p, fs.entry p ≠ none → fs'.entry p = fs.entry p) ∧
    (∀ p, fs.entry p = none → fs'.entry p ≠ none → fs'.entry p = some .directory ∧
      ∃ q, q <+: getPath f ∧ (EndsInSeparator q ∨ q = getPath f) ∧ fs.locate q = p) ∧
    createDirectory fs' (getPath f) = fs' := by
  intro fs'
  rcases last_stop f with hplain | ⟨u, b, v, rfl, hb, hv⟩
  · have hfs : fs' = fs := by
      show createDirectory fs (getPath f) = fs
      rw [getPath_plain hplain, createDirectory_dot]
    rw [hfs]
    refine ⟨fun p hp hne => ?_, fun _ _ => rfl, fun p hp hp' => (hp' hp).elim, hfs⟩
    refine (prepared_nil fs).ancestor (fun q hq hs => ?_) hp hne
    exact prefix_of_stop hplain (by simpa using hq) hs
  · have hpath : getPath (u ++ b :: v) = u ++ [b] := getPath_stop hb hv
    have h : Prepared fs (u ++ [b]) fs' := by
      show Prepared fs (u ++ [b]) (createDirectory fs (getPath (u ++ b :: v)))
      rw [hpath]
      exact createDirectory_prepared hb hfree
    rw [hpath]
    refine ⟨fun p hp hne => h.ancestor (fun q hq hs => ?_) hp hne, h.grown.keeps,
      fun p hp hp' => ?_, ?_⟩
    · rw [show u ++ b :: v = (u ++ [b]) ++ v by simp] at hq
      exact prefix_of_stop hv hq hs
    · obtain ⟨hd, q, hq, hs, he⟩ := h.grown.new p hp hp'
      exact ⟨hd, q, hq, .inl hs, he⟩
    · refine createDirectoryFrom_there [] (.inr ⟨u, b, rfl, hb⟩) fun q hq hs => ?_
      rw [h.locate, h.there q hq hs]
      simp

def FileSystem.bare : FileSystem where
  entry p := if p = [] then some .directory else none
  root := rfl
  parent p c h := by simp at h
  cwd := []
  cwd_directory := rfl

theorem FileSystem.bare_entry (p : List Bytes) : bare.entry p ≠ some .file := by
  show (if p = [] then some FileKind.directory else none) ≠ _
  split <;> simp

theorem create_directory_bare :
    let fs' := createDirectory .bare (getPath (utf8 "./logs//app\\x.log"))
    fs'.entry [utf8 "logs"] = some .directory ∧
      createDirectory fs' (getPath (utf8 "./logs//app\\x.log")) = fs' := by
  have h := create_directory .bare (f := utf8 "./logs//app\\x.log")
    fun q _ _ => FileSystem.bare_entry _
  exact ⟨h.1 _ (by decide) (by decide), h.2.2.2⟩

end MyLog
