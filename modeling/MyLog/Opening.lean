import MyLog.Directories
import MyLog.RollSegments
import MyLog.TimeSlots

/-! The files that the rolling sinks open. They make the directories of their first file, and
one of them makes those of each later file again. -/

namespace MyLog

namespace FileSystem

/-- `open(pathname, std::ios::binary | std::ios::app)`, for a path that ends in a name. -/
def openApp (fs : FileSystem) (pathname : Bytes) : FileSystem :=
  { toFileTree := fs.toFileTree.create (fs.locate pathname)
    cwd := fs.cwd
    cwd_directory := FileTree.create_directory_iff.mpr fs.cwd_directory }

/-- `is_open()` after it -/
def IsOpen (fs : FileSystem) (pathname : Bytes) : Prop :=
  fs.entry (fs.locate pathname) = some .file

end FileSystem

/-- `createDirectory(getPath(filename))`, then the stream is opened. -/
def openFile (fs : FileSystem) (filename : Bytes) : FileSystem :=
  (createDirectory fs (getPath filename)).openApp filename

section Depth

theorem length_enter (loc : List Bytes) {name : Bytes} (h : name ≠ utf8 "..") :
    loc.length ≤ (enter loc name).length := by
  rcases enter_cases loc h with he | he <;> rw [he]
  rw [List.length_append]
  exact Nat.le_add_right ..

theorem length_foldl_enter (names : List Bytes) (loc : List Bytes) (h : utf8 ".." ∉ names) :
    loc.length ≤ (names.foldl enter loc).length := by
  induction names generalizing loc with
  | nil => exact le_rfl
  | cons name names ih =>
    rw [List.mem_cons, not_or] at h
    exact (length_enter loc (Ne.symm h.1)).trans (ih _ h.2)

theorem enter_of_special {loc : List Bytes} {name : Bytes} (h : name = [] ∨ name = utf8 ".") :
    enter loc name = loc := if_pos h

/-- A component goes no deeper than one that it begins. -/
theorem length_enter_le (loc : List Bytes) {w c : Bytes} (hw : w <+: c)
    (hc : c ≠ utf8 "..") : (enter loc w).length ≤ (enter loc c).length := by
  by_cases hs : w = [] ∨ w = utf8 "."
  · rw [enter_of_special hs]
    exact length_enter loc hc
  by_cases hd : w = utf8 ".."
  · have hup : enter loc w = loc.dropLast := by rw [enter, if_neg hs, if_pos hd]
    rw [hup, List.length_dropLast]
    exact (Nat.sub_le ..).trans (length_enter loc hc)
  have hc' : ¬ (c = [] ∨ c = utf8 ".") := by
    intro h
    have hlen : c.length ≤ 1 := by
      rcases h with rfl | rfl
      · simp
      · exact le_of_eq rfl
    rcases List.eq_nil_or_concat w with rfl | ⟨x, b, rfl⟩
    · exact hs (.inl rfl)
    · have hle := hw.length_le
      rw [List.length_concat] at hle
      have he := hw.eq_of_length (by rw [List.length_concat]; omega)
      exact hs (he ▸ h)
  rw [enter, if_neg hs, if_neg hd, enter, if_neg hc', if_neg hc, List.length_append,
    List.length_append]
  exact le_rfl

theorem split_extended {w : Bytes} (hw : slash ∉ w) (z : Bytes) :
    ∃ c rest, (w ++ z).splitOn slash = c :: rest ∧ w <+: c := by
  rcases Delimited.split_cases slash z with rfl | ⟨-, hz⟩ | ⟨line, rest, hz, rfl⟩
  · exact ⟨w, [], by rw [List.append_nil, List.splitOn_eq_singleton hw], List.prefix_rfl⟩
  · have hwz : slash ∉ w ++ z := by simp [hw, hz]
    exact ⟨w ++ z, [], List.splitOn_eq_singleton hwz, List.prefix_append ..⟩
  · have hwl : slash ∉ w ++ line := by simp [hw, hz]
    refine ⟨w ++ line, rest.splitOn slash, ?_, List.prefix_append ..⟩
    rw [← List.append_assoc, List.splitOn_append_cons_self, List.splitOn_eq_singleton hwl]
    rfl

/-- A path without `..` is as deep as every path that it goes on from. -/
theorem length_walk (cwd : List Bytes) {q f : Bytes} (hq : q <+: f) (hne : q ≠ [])
    (hf : utf8 ".." ∉ f.splitOn slash) : (walk cwd q).length ≤ (walk cwd f).length := by
  obtain ⟨z, rfl⟩ := hq
  obtain ⟨r, w, rfl, hw, hr⟩ := split_name q
  obtain ⟨cs, hcs⟩ := components_append hr
  obtain ⟨c, rest, hc, hwc⟩ := split_extended hw z
  have hhead : (r ++ w ++ z).head? = (r ++ w).head? := List.head?_append_of_ne_nil _ hne
  have hcomp : (r ++ w ++ z).splitOn slash = cs ++ c :: rest := by
    rw [List.append_assoc, hcs, hc]
  rw [hcomp, List.mem_append, List.mem_cons, not_or, not_or] at hf
  rw [walk, walk, hhead, hcomp, hcs, List.splitOn_eq_singleton hw, List.foldl_append,
    List.foldl_append]
  exact (length_enter_le _ hwc (Ne.symm hf.2.1)).trans (length_foldl_enter rest _ hf.2.2)

end Depth

section Names

variable {base name b : Bytes}

theorem getPath_append {v : Bytes} (hv : ∀ x ∈ v, isSeparator x = false) :
    getPath (base ++ v) = getPath base := by
  rcases last_stop base with hplain | ⟨u, b, w, rfl, hb, hw⟩
  · rw [getPath_plain (List.forall_mem_append.mpr ⟨hplain, hv⟩), getPath_plain hplain]
  · have hall : ∀ x ∈ w ++ v, isSeparator x = false := List.forall_mem_append.mpr ⟨hw, hv⟩
    rw [List.append_assoc, List.cons_append, getPath_stop hb hall, getPath_stop hb hw]

theorem Extends.getPath_eq (h : Extends base name) : getPath name = getPath base := by
  obtain ⟨v, c, rfl, -, hv⟩ := h
  exact getPath_append fun x hx => (hv x hx).1

theorem no_stop {q : Bytes} (hb : ∀ x ∈ b, isSeparator x = false) (hq : q <+: b) :
    ¬ EndsInSeparator q := by
  intro hs
  obtain ⟨u, x, rfl, hx⟩ := hs
  have hsep := hb x (hq.subset (by simp))
  rw [hx] at hsep
  cases hsep

theorem prefix_getPath_iff {q : Bytes} (hs : EndsInSeparator q) :
    q <+: getPath base ↔ q <+: base := by
  rcases last_stop base with hplain | ⟨u, b, w, rfl, hb, hw⟩
  · have hdot : Plain (utf8 ".") := by decide
    rw [getPath_plain hplain]
    exact ⟨fun hq => (no_stop (fun x hx => (hdot x hx).1) hq hs).elim,
      fun hq => (no_stop hplain hq hs).elim⟩
  · rw [getPath_stop hb hw, List.append_cons u b w]
    exact ⟨fun hq => hq.trans (List.prefix_append ..), fun hq => prefix_of_stop hw hq hs⟩

theorem getPath_nulFree (hb : 0 ∉ base) : 0 ∉ getPath base := by
  rcases last_stop base with hplain | ⟨u, b, w, rfl, hsep, hw⟩
  · rw [getPath_plain hplain]
    decide
  · rw [getPath_stop hsep hw]
    have hpre : u ++ [b] <+: u ++ b :: w := ⟨w, by simp⟩
    exact fun hm => hb (hpre.subset hm)

theorem Extends.stop (h : Extends base name) {q : Bytes} (hq : q <+: name)
    (hs : EndsInSeparator q) : q <+: getPath base := by
  rw [← h.getPath_eq]
  exact (prefix_getPath_iff hs).mpr hq

/-- The last component of the name is a name. -/
theorem Extends.split (h : Extends base name) : ∃ r t c, name = r ++ (t ++ [c]) ∧
    BeforeName r ∧ slash ∉ t ++ [c] ∧ isSeparator c = false ∧ c ≠ ascii '.' := by
  obtain ⟨v, c, rfl, hdot, hv⟩ := h
  obtain ⟨r, t, rfl, ht, hr⟩ := split_name base
  have hc : isSeparator c = false := (hv c (by simp)).1
  refine ⟨r, t ++ v, c, by simp, hr, ?_, hc, hdot⟩
  rw [List.append_assoc, List.mem_append, not_or]
  exact ⟨ht, hv.slash_notMem⟩

end Names

section Located

variable {base name q : Bytes}

theorem Extends.located (h : Extends base name) : ∃ r t, name = r ++ t ∧
    BeforeName r ∧ ∀ cwd, walk cwd name = walk cwd r ++ [t] := by
  obtain ⟨r, t, c, rfl, hr, ht, -, hdot⟩ := h.split
  refine ⟨r, t ++ [c], rfl, hr, fun cwd => ?_⟩
  rw [walk_append cwd hr ht, enter_concat _ hdot]

theorem FileSystem.locate_of_nulFree (fs : FileSystem) (h : 0 ∉ q) :
    fs.locate q = walk fs.cwd q :=
  place_of_nulFree fs.cwd h

theorem notMem_components {r x : Bytes} (hr : BeforeName r)
    (hx : utf8 ".." ∉ (r ++ x).splitOn slash) : utf8 ".." ∉ r.splitOn slash := by
  obtain ⟨cs, hcs⟩ := components_append hr
  have hr' : r.splitOn slash = cs ++ [[]] := by simpa using hcs []
  rw [hcs, List.mem_append, not_or] at hx
  rw [hr', List.mem_append, List.mem_singleton, not_or]
  exact ⟨hx.1, by decide⟩

/-- No stop of the path is at the place of the name. -/
theorem Extends.locate_ne (fs : FileSystem) (h : Extends base name) (hnul : 0 ∉ base)
    (hf : utf8 ".." ∉ (getPath base).splitOn slash) (hq : q <+: getPath base)
    (hs : EndsInSeparator q) : fs.locate q ≠ fs.locate name := by
  have hq₀ : 0 ∉ q := fun hm => getPath_nulFree hnul (hq.subset hm)
  rw [fs.locate_of_nulFree hq₀, fs.locate_of_nulFree (h.nulFree hnul)]
  rw [← h.getPath_eq, prefix_getPath_iff hs] at hq
  obtain ⟨r, t, c, rfl, hr, ht, hc, hdot⟩ := h.split
  obtain ⟨u, b, rfl, hb⟩ := hs
  rw [walk_append fs.cwd hr ht, enter_concat _ hdot]
  intro he
  rcases List.prefix_or_prefix_of_prefix hq (List.prefix_append r _) with hle | ⟨w, hw⟩
  · -- a stop before the last component is no deeper than that begins
    have hstop : EndsInSeparator r := by
      rcases hr with rfl | ⟨v, rfl⟩
      · simp at hle
      · exact ⟨v, slash, rfl, rfl⟩
    obtain ⟨x, hx⟩ := h.stop (List.prefix_append r _) hstop
    have hlen := length_walk fs.cwd hle (by simp) (notMem_components hr (hx ▸ hf))
    rw [he, List.length_append, List.length_singleton] at hlen
    omega
  · have hwt : w <+: t ++ [c] := by rwa [← hw, List.prefix_append_right_inj] at hq
    have hslash : slash ∉ w := fun hm => ht (hwt.subset hm)
    rw [← hw, walk_append fs.cwd hr hslash] at he
    rcases List.eq_nil_or_concat w with rfl | ⟨y, z, rfl⟩
    · rw [enter_nil] at he
      simp at he
    · rw [List.concat_eq_append, ← List.append_assoc] at hw
      obtain rfl : z = b := List.singleton_inj.mp (List.append_inj' hw rfl).2
      have hz : z ≠ ascii '.' := fun hz => by
        rw [hz] at hb
        exact absurd hb (by decide)
      rw [List.concat_eq_append, enter_concat _ hz, List.append_cancel_left_eq,
        List.singleton_inj] at he
      have hzc : z = c := List.singleton_inj.mp (List.append_inj' he rfl).2
      rw [hzc, hc] at hb
      cases hb

end Located

/-- What opening files named after `base` has made of `fs₀`. -/
structure Opened (fs₀ : FileSystem) (base : Bytes) (names : List Bytes) (fs : FileSystem) :
    Prop where
  cwd : fs.cwd = fs₀.cwd
  keeps : ∀ p, fs₀.entry p ≠ none → fs.entry p = fs₀.entry p
  new : ∀ p, fs₀.entry p = none → fs.entry p ≠ none →
    (∃ q, q <+: getPath base ∧ EndsInSeparator q ∧ fs₀.locate q = p) ∨
      ∃ n ∈ names, fs₀.locate n = p
  there : ∀ q, q <+: getPath base → EndsInSeparator q →
    fs.entry (fs₀.locate q) = some .directory
  isOpen : ∀ n ∈ names, fs.IsOpen n ↔ fs₀.entry (fs₀.locate n) ≠ some .directory

namespace Opened

variable {fs₀ fs : FileSystem} {base n : Bytes} {names : List Bytes}

theorem locate (h : Opened fs₀ base names fs) (q : Bytes) : fs.locate q = fs₀.locate q := by
  rw [FileSystem.locate, FileSystem.locate, h.cwd]

theorem directories (fs₀ : FileSystem)
    (hfree : ∀ q, q <+: getPath base → EndsInSeparator q →
      fs₀.entry (fs₀.locate q) ≠ some .file) :
    Opened fs₀ base [] (createDirectory fs₀ (getPath base)) := by
  rcases last_stop base with hplain | ⟨u, b, v, rfl, hb, hv⟩
  · rw [getPath_plain hplain, createDirectory_dot]
    refine ⟨rfl, fun _ _ => rfl, fun p hp hp' => (hp' hp).elim, fun q hq hs => ?_, by simp⟩
    exact (no_stop hplain ((prefix_getPath_iff hs).mp hq) hs).elim
  · rw [getPath_stop hb hv] at hfree ⊢
    have h := createDirectory_prepared (v := []) hb hfree
    refine ⟨h.cwd, h.grown.keeps, fun p hp hp' => ?_, ?_, by simp⟩
    · rw [getPath_stop hb hv]
      exact .inl (h.grown.new p hp hp').2
    · rw [getPath_stop hb hv]
      exact h.there

theorem createDirectory_eq (h : Opened fs₀ base names fs) :
    createDirectory fs (getPath base) = fs := by
  rcases last_stop base with hplain | ⟨u, b, v, rfl, hb, hv⟩
  · rw [getPath_plain hplain, createDirectory_dot]
  · have hthere := h.there
    rw [getPath_stop hb hv] at hthere ⊢
    refine createDirectoryFrom_there [] (.inr ⟨u, b, rfl, hb⟩) fun q hq hs => ?_
    rw [h.locate, hthere q hq hs]
    simp

theorem openFile_eq (h : Opened fs₀ base names fs) (hn : Extends base n) :
    openFile fs n = fs.openApp n := by
  rw [openFile, hn.getPath_eq, h.createDirectory_eq]

/-- The directory that the name is in is one of the stops, or the one paths start from. -/
theorem parent (h : Opened fs₀ base names fs) (hnul : 0 ∉ base) (hn : Extends base n) :
    fs.entry (fs.locate n).dropLast = some .directory := by
  have hn₀ := hn.nulFree hnul
  obtain ⟨r, t, rfl, hr, hloc⟩ := hn.located
  have hr₀ : 0 ∉ r := fun hm => hn₀ (List.mem_append_left t hm)
  rw [fs.locate_of_nulFree hn₀, hloc, List.dropLast_concat]
  refine before_there hr fun hs => ?_
  rw [← fs.locate_of_nulFree hr₀, h.locate]
  exact h.there r (hn.stop (List.prefix_append r t) hs) hs

theorem not_directory (h : Opened fs₀ base names fs) (hnul : 0 ∉ base)
    (hf : utf8 ".." ∉ (getPath base).splitOn slash) (hn : Extends base n)
    (hd : fs₀.entry (fs₀.locate n) ≠ some .directory) :
    fs.entry (fs₀.locate n) ≠ some .directory := by
  intro hdir
  by_cases hnone : fs₀.entry (fs₀.locate n) = none
  · rcases h.new _ hnone (by rw [hdir]; simp) with ⟨q, hq, hs, he⟩ | ⟨m, hm, he⟩
    · exact hn.locate_ne fs₀ hnul hf hq hs he
    · have hopen := (h.isOpen m hm).mpr (he ▸ hd)
      rw [FileSystem.IsOpen, h.locate, he, hdir] at hopen
      cases hopen
  · rw [h.keeps _ hnone] at hdir
    exact hd hdir

theorem openApp (h : Opened fs₀ base names fs) (hnul : 0 ∉ base)
    (hf : utf8 ".." ∉ (getPath base).splitOn slash) (hn : Extends base n) :
    Opened fs₀ base (names ++ [n]) (fs.openApp n) := by
  have hkeeps : ∀ p, fs.entry p ≠ none → (fs.openApp n).entry p = fs.entry p :=
    fun p hp => FileTree.create_keeps hp
  have hkeeps₀ : ∀ p, fs₀.entry p ≠ none → (fs.openApp n).entry p = fs₀.entry p := by
    intro p hp
    have hk := h.keeps p hp
    rw [hkeeps p (hk ▸ hp), hk]
  have hloc : ∀ q, (fs.openApp n).locate q = fs₀.locate q := h.locate
  refine ⟨h.cwd, hkeeps₀, fun p hp hp' => ?_, fun q hq hs => ?_,
    fun m hm => ⟨fun ho hd => ?_, fun hd => ?_⟩⟩
  · by_cases hpf : fs.entry p = none
    · have hpn : p = fs.locate n := by
        by_contra hne
        exact hp' ((FileTree.create_of_ne hne).trans hpf)
      exact .inr ⟨n, by simp, by rw [hpn, h.locate]⟩
    · rcases h.new p hp hpf with hq | ⟨m, hm, he⟩
      · exact .inl hq
      · exact .inr ⟨m, List.mem_append_left _ hm, he⟩
  · have hdir := h.there q hq hs
    rw [hkeeps _ (by rw [hdir]; simp), hdir]
  · rw [FileSystem.IsOpen, hloc, hkeeps₀ _ (by rw [hd]; simp), hd] at ho
    cases ho
  · rw [FileSystem.IsOpen, hloc]
    rcases List.mem_append.mp hm with hm | hm
    · have hopen := (h.isOpen m hm).mpr hd
      rw [FileSystem.IsOpen, h.locate] at hopen
      rw [hkeeps _ (by rw [hopen]; simp), hopen]
    · obtain rfl := List.mem_singleton.mp hm
      have hnd := h.not_directory hnul hf hn hd
      rw [← h.locate] at hnd ⊢
      exact FileTree.create_entry (h.parent hnul hn) hnd

theorem run (h : Opened fs₀ base names fs) (hnul : 0 ∉ base)
    (hf : utf8 ".." ∉ (getPath base).splitOn slash) (more : List Bytes)
    (hmore : ∀ n ∈ more, Extends base n) :
    more.foldl openFile fs = more.foldl FileSystem.openApp fs ∧
      Opened fs₀ base (names ++ more) (more.foldl FileSystem.openApp fs) := by
  induction more generalizing names fs with
  | nil => exact ⟨rfl, by simpa using h⟩
  | cons n more ih =>
    rw [List.forall_mem_cons] at hmore
    obtain ⟨heq, hall⟩ := ih (h.openApp hnul hf hmore.1) hmore.2
    rw [List.foldl_cons, List.foldl_cons, h.openFile_eq hmore.1, List.append_cons]
    exact ⟨heq, hall⟩

end Opened

namespace RollBySizeSink

/-- The constructor and each roll call `openFile`. -/
def openFiles (s : RollBySizeSink) (fs : FileSystem) : FileSystem :=
  (s.opened.map SinkFile.name).foldl openFile fs

theorem opened_extends (P : Platform) (clock : Nat → Int) (basename : Bytes) (maxSize : Nat)
    (files : Files) (ds : List Bytes) :
    let s := (make P clock basename maxSize files).logAll P clock ds
    ∀ n ∈ s.opened.map SinkFile.name, Extends basename n := by
  intro s n hn
  obtain ⟨k, hk⟩ : ∃ k, Since P clock (make P clock basename maxSize files) k s := by
    rw [show s = _ from logAll_make P clock basename maxSize files ds]
    exact since_after _
  rw [hk.make_names] at hn
  obtain ⟨j, -, rfl⟩ := List.mem_map.mp hn
  exact extends_fileName ..

end RollBySizeSink

namespace RollByTimeSink

def opened (s : RollByTimeSink) : List SinkFile := s.closed ++ [s.current]

/-- Only the constructor makes directories. -/
def openFiles (s : RollByTimeSink) (fs : FileSystem) : FileSystem :=
  match s.opened.map SinkFile.name with
  | [] => fs
  | first :: names => names.foldl FileSystem.openApp (openFile fs first)

variable {offset : Int} {clock : Nat → Int} {basename : Bytes}

theorem log_opened {s : RollByTimeSink} (data : Bytes)
    (h : ∀ n ∈ s.opened.map SinkFile.name, Extends s.basename n) :
    ∀ n ∈ (s.log offset clock data).opened.map SinkFile.name, Extends s.basename n := by
  have hnames : (s.log offset clock data).opened.map SinkFile.name = s.opened.map SinkFile.name ∨
      (s.log offset clock data).opened.map SinkFile.name = s.opened.map SinkFile.name ++
        [createNewFile offset clock s.basename (s.readings + 1)] := by
    by_cases hroll : s.Rolls clock
    · right
      simp [log, if_pos hroll, opened, roll, write, SinkFile.write, SinkFile.opened]
    · left
      simp [log, if_neg hroll, opened, write, SinkFile.write]
  rcases hnames with he | he <;> rw [he]
  · exact h
  · rw [List.forall_mem_append]
    refine ⟨h, fun n hn => ?_⟩
    rw [List.mem_singleton.mp hn]
    exact extends_fileName ..

theorem opened_extends (gap : TimeGap) (files : Files) (ds : List Bytes) :
    let s := ds.foldl (log offset clock) (make offset clock basename gap files)
    s.basename = basename ∧ ∀ n ∈ s.opened.map SinkFile.name, Extends s.basename n := by
  induction ds using List.reverseRecOn with
  | nil =>
    refine ⟨rfl, fun n hn => ?_⟩
    rw [List.mem_singleton.mp hn]
    exact extends_fileName ..
  | append_singleton ds d ih =>
    rw [List.foldl_concat]
    simp only [log_basename]
    exact ⟨ih.1, log_opened d ih.2⟩

end RollByTimeSink

theorem Opened.all {fs : FileSystem} {base : Bytes} (hnul : 0 ∉ base)
    (hf : utf8 ".." ∉ (getPath base).splitOn slash)
    (hfree : ∀ q, q <+: getPath base → EndsInSeparator q → fs.entry (fs.locate q) ≠ some .file)
    {first : Bytes} {names : List Bytes} (h : ∀ n ∈ first :: names, Extends base n) :
    names.foldl openFile (openFile fs first) =
        names.foldl FileSystem.openApp (openFile fs first) ∧
      Opened fs base (first :: names) (names.foldl FileSystem.openApp (openFile fs first)) := by
  rw [List.forall_mem_cons] at h
  have hopen : openFile fs first =
      (createDirectory fs (getPath base)).openApp first := by
    rw [openFile, h.1.getPath_eq]
  rw [hopen]
  exact ((directories fs hfree).openApp hnul hf h.1).run hnul hf names h.2

/-- Every file is open in the end, unless a directory had its name before. -/
theorem rolling_sinks_open (fs : FileSystem) {basename : Bytes} (hnul : 0 ∉ basename)
    (hf : utf8 ".." ∉ (getPath basename).splitOn slash)
    (hfree : ∀ q, q <+: getPath basename → EndsInSeparator q →
      fs.entry (fs.locate q) ≠ some .file) :
    (∀ P clock maxSize files (ds : List Bytes),
      let s := (RollBySizeSink.make P clock basename maxSize files).logAll P clock ds
      Opened fs basename (s.opened.map SinkFile.name) (s.openFiles fs)) ∧
    (∀ offset clock gap files (ds : List Bytes),
      let s := ds.foldl (RollByTimeSink.log offset clock)
        (RollByTimeSink.make offset clock basename gap files)
      Opened fs basename (s.opened.map SinkFile.name) (s.openFiles fs)) := by
  constructor
  · intro P clock maxSize files ds s
    have hext : ∀ n ∈ s.opened.map SinkFile.name, Extends basename n :=
      RollBySizeSink.opened_extends P clock basename maxSize files ds
    rw [RollBySizeSink.openFiles]
    cases hnames : s.opened.map SinkFile.name with
    | nil => simp [RollBySizeSink.opened] at hnames
    | cons first names =>
      obtain ⟨heq, hall⟩ := Opened.all hnul hf hfree (hnames ▸ hext)
      rw [List.foldl_cons, heq]
      exact hall
  · intro offset clock gap files ds s
    obtain ⟨hbase, hext⟩ : s.basename = basename ∧
        ∀ n ∈ s.opened.map SinkFile.name, Extends s.basename n :=
      RollByTimeSink.opened_extends gap files ds
    rw [RollByTimeSink.openFiles]
    cases hnames : s.opened.map SinkFile.name with
    | nil => simp [RollByTimeSink.opened] at hnames
    | cons first names =>
      rw [hbase, hnames] at hext
      exact (Opened.all hnul hf hfree hext).2

theorem rolling_sinks_open_bare :
    (∀ P clock maxSize files (ds : List Bytes),
      let s := (RollBySizeSink.make P clock (utf8 "./logs/app") maxSize files).logAll P clock ds
      Opened .bare (utf8 "./logs/app") (s.opened.map SinkFile.name) (s.openFiles .bare)) ∧
    (∀ offset clock gap files (ds : List Bytes),
      let s := ds.foldl (RollByTimeSink.log offset clock)
        (RollByTimeSink.make offset clock (utf8 "./logs/app") gap files)
      Opened .bare (utf8 "./logs/app") (s.opened.map SinkFile.name) (s.openFiles .bare)) :=
  rolling_sinks_open .bare (by decide) (by decide) fun _ _ _ => FileSystem.bare_entry _

end MyLog
