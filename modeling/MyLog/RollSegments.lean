import Mathlib.Data.List.Nodup
import MyLog.FileNames

/-! Which files the rolling sink opens, and what each of them holds. -/

namespace MyLog

namespace RollBySizeSink

def opened (s : RollBySizeSink) : List SinkFile := s.closed ++ [s.current]

variable (P : Platform) (clock : Nat → Int)

/-- The name that is made with the reading `n` of the clock. -/
def nameAt (basename : Bytes) (n : Nat) : Bytes :=
  (createNewFile P clock basename (sizeT n) n).1

section Fields

variable (s : RollBySizeSink) (p : Bytes)

@[simp] theorem write_maxFsize : (s.write p).maxFsize = s.maxFsize := rfl
@[simp] theorem roll_maxFsize : (s.roll P clock).maxFsize = s.maxFsize := rfl
@[simp] theorem roll_basename : (s.roll P clock).basename = s.basename := rfl
@[simp] theorem roll_readings : (s.roll P clock).readings = s.readings + 1 := rfl

theorem write_names : (s.write p).opened.map SinkFile.name = s.opened.map SinkFile.name := by
  simp [opened, write, SinkFile.write]

theorem roll_opened : (s.roll P clock).opened =
    s.opened ++ [SinkFile.opened s.files (nameAt P clock s.basename s.readings)] := by
  rw [nameAt, ← s.counted]
  rfl

theorem roll_closed : (s.roll P clock).closed = s.opened := rfl

theorem roll_current : (s.roll P clock).current =
    SinkFile.opened s.files (nameAt P clock s.basename s.readings) := by
  rw [nameAt, ← s.counted]
  rfl

theorem roll_curFsize : (s.roll P clock).curFsize =
    ((s.files (nameAt P clock s.basename s.readings)).getD []).length := by
  rw [← SinkFile.opened_content, ← roll_current, ← sizeAt_tellp]
  rfl

theorem roll_files : (s.roll P clock).files =
    s.files.store (SinkFile.opened s.files (nameAt P clock s.basename s.readings)) := by
  rw [nameAt, ← s.counted]
  rfl

end Fields

/-- What writing and rolling preserve is true of the sink as long as it logs. -/
theorem logPieces_invariant {motive : RollBySizeSink → Prop}
    (hwrite : ∀ s p, motive s → motive (s.write p))
    (hroll : ∀ s, motive s → motive (s.roll P clock)) {s : RollBySizeSink} (h : motive s)
    (ps : List Bytes) : motive (s.logPieces P clock ps) := by
  induction ps generalizing s with
  | nil => exact h
  | cons p ps ih =>
    refine ih (s := s.logPiece P clock p) ?_
    by_cases hf : (s.write p).curFsize ≥ (s.write p).maxFsize
    · rw [logPiece, rollIfFull, if_pos hf]
      exact hroll _ (hwrite s p h)
    · rw [logPiece, rollIfFull, if_neg hf]
      exact hwrite s p h

/-- From `σ` to `s` the sink has opened `k` more files, the ones its counter names. -/
structure Since (σ : RollBySizeSink) (k : Nat) (s : RollBySizeSink) : Prop where
  basename : s.basename = σ.basename
  maxFsize : s.maxFsize = σ.maxFsize
  readings : s.readings = σ.readings + k
  names : s.opened.map SinkFile.name = σ.opened.map SinkFile.name ++
    (List.range' σ.readings k).map (nameAt P clock σ.basename)

section Since

variable {P clock} {σ s : RollBySizeSink} {k : Nat}

theorem Since.refl (σ : RollBySizeSink) : Since P clock σ 0 σ :=
  ⟨rfl, rfl, rfl, by simp⟩

theorem Since.write (h : Since P clock σ k s) (p : Bytes) : Since P clock σ k (s.write p) :=
  ⟨h.basename, h.maxFsize, h.readings, (write_names s p).trans h.names⟩

theorem Since.roll (h : Since P clock σ k s) : Since P clock σ (k + 1) (s.roll P clock) := by
  have hr : List.range' σ.readings (k + 1) = List.range' σ.readings k ++ [σ.readings + k] := by
    rw [List.range'_concat, Nat.one_mul]
  refine ⟨h.basename, h.maxFsize, ?_, ?_⟩
  · show s.readings + 1 = σ.readings + (k + 1)
    rw [h.readings]
    omega
  · rw [roll_opened, List.map_append, h.names, hr, List.map_append, h.basename, h.readings]
    simp [SinkFile.opened]

theorem Since.rollIfFull (h : Since P clock σ k s) :
    ∃ k' ≥ k, Since P clock σ k' (s.rollIfFull P clock) := by
  by_cases hs : s.curFsize ≥ s.maxFsize
  · exact ⟨k + 1, by omega, by rw [RollBySizeSink.rollIfFull, if_pos hs]; exact h.roll⟩
  · exact ⟨k, le_refl k, by rw [RollBySizeSink.rollIfFull, if_neg hs]; exact h⟩

theorem Since.logPieces (h : Since P clock σ k s) (ps : List Bytes) :
    ∃ k' ≥ k, Since P clock σ k' (s.logPieces P clock ps) := by
  induction ps generalizing s k with
  | nil => exact ⟨k, le_refl k, h⟩
  | cons p ps ih =>
    obtain ⟨k₁, hk₁, h₁⟩ := (h.write p).rollIfFull
    obtain ⟨k₂, hk₂, h₂⟩ := ih h₁
    exact ⟨k₂, by omega, h₂⟩

theorem Since.count (h : Since P clock σ k s) : s.count = sizeT (σ.readings + k) := by
  rw [s.counted, h.readings]

end Since

theorem rollIfFull_pieces (s : RollBySizeSink) :
    (s.rollIfFull P clock).opened.flatMap SinkFile.pieces = s.opened.flatMap SinkFile.pieces := by
  by_cases hs : s.curFsize ≥ s.maxFsize
  · rw [rollIfFull, if_pos hs, roll_opened]
    simp [SinkFile.opened]
  · rw [rollIfFull, if_neg hs]

theorem logPieces_pieces (s : RollBySizeSink) (ps : List Bytes) :
    (s.logPieces P clock ps).opened.flatMap SinkFile.pieces =
      s.opened.flatMap SinkFile.pieces ++ ps := by
  induction ps using List.reverseRecOn with
  | nil => simp [logPieces]
  | append_singleton ps p ih =>
    have hw (t : RollBySizeSink) : (t.write p).opened.flatMap SinkFile.pieces =
        t.opened.flatMap SinkFile.pieces ++ [p] := by
      simp [opened, write, SinkFile.write]
    rw [logPieces_append]
    show ((s.logPieces P clock ps).write p |>.rollIfFull P clock).opened.flatMap _ = _
    rw [rollIfFull_pieces, hw, ih, List.append_assoc]

section Make

variable (basename : Bytes) (maxSize : Nat) (files₀ : Files)

abbrev after (ps : List Bytes) : RollBySizeSink :=
  (make P clock basename maxSize files₀).logPieces P clock ps

theorem logAll_make (ds : List Bytes) : (make P clock basename maxSize files₀).logAll P clock ds =
    after P clock basename maxSize files₀ (ds.flatMap (Delimited.pieces newline)) :=
  logAll_eq P clock _ ds

variable {P clock basename maxSize files₀} {s : RollBySizeSink} {k : Nat}

theorem since_after (ps : List Bytes) : ∃ k, Since P clock (make P clock basename maxSize files₀)
    k (after P clock basename maxSize files₀ ps) := by
  obtain ⟨k, -, h⟩ := (Since.refl _).logPieces ps
  exact ⟨k, h⟩

theorem Since.make_names (h : Since P clock (make P clock basename maxSize files₀) k s) :
    s.opened.map SinkFile.name = (List.range (k + 1)).map (nameAt P clock basename) := by
  have hr : List.range (k + 1) = 0 :: List.range' 1 k := by
    rw [List.range_eq_range', List.range'_succ]
  rw [h.names, hr]
  rfl

end Make

theorem make_maxFsize (basename : Bytes) (maxSize : Nat) (files₀ : Files) :
    (make P clock basename maxSize files₀).maxFsize = maxSize := rfl

theorem make_opened (basename : Bytes) (maxSize : Nat) (files₀ : Files) :
    (make P clock basename maxSize files₀).opened =
      [SinkFile.opened files₀ (nameAt P clock basename 0)] := rfl

/-- The place of a file and what the sink appended to it. -/
def segment (files₀ : Files) (f : SinkFile) : List Bytes × Bytes :=
  (files₀.locate f.name, f.appended)

/-- All that the sink appended to the file of this name, each time that it had it open. -/
def appendedTo (s : RollBySizeSink) (name : Bytes) : Bytes :=
  (KeyedLog.under (s.files.locate name) (s.opened.map (segment s.files))).flatten

/-- What the sink appended is all that has changed, also where it opened a file twice. -/
structure Kept (files₀ : Files) (s : RollBySizeSink) : Prop where
  files : s.files = (s.opened.map (segment files₀)).foldl Files.append files₀
  before : ∀ pre f post, s.opened = pre ++ f :: post →
    f.before = ((pre.map (segment files₀)).foldl Files.append files₀ f.name).getD []

section Kept

variable {P clock} {files₀ : Files} {s : RollBySizeSink}

theorem segment_opened (files : Files) (name : Bytes) :
    segment files₀ (.opened files name) = (files₀.locate name, []) := rfl

theorem kept_make (basename : Bytes) (maxSize : Nat) :
    Kept files₀ (make P clock basename maxSize files₀) := by
  constructor
  · rw [make_opened, List.map_singleton, List.foldl_cons, List.foldl_nil, segment_opened,
      ← Files.store_opened]
    rfl
  · rw [make_opened]
    exact Delimited.forall_split_concat (l := []) (fun pre f post he => by simp at he) rfl

theorem Kept.locate (h : Kept files₀ s) (name : Bytes) :
    s.files.locate name = files₀.locate name := by
  rw [h.files, Files.foldl_append_locate]

theorem Kept.write (h : Kept files₀ s) (p : Bytes) : Kept files₀ (s.write p) := by
  have hfiles : (s.write p).files = s.files.store (s.current.write p) := rfl
  have happended : (s.current.write p).appended = s.current.appended ++ p := by
    simp [SinkFile.write, SinkFile.appended]
  have hopened : (s.write p).opened = s.closed ++ [s.current.write p] := rfl
  constructor
  · have hold := h.files
    rw [opened, List.map_append, List.foldl_append] at hold
    rw [hfiles, Files.store_write _ s.file, h.locate, hold, hopened, List.map_append,
      List.foldl_append]
    simp only [List.map_singleton, List.foldl_cons, List.foldl_nil, segment, happended,
      Files.append_append]
    rfl
  · rw [hopened]
    refine Delimited.forall_split_concat (fun pre f post he => ?_)
      (h.before s.closed s.current [] rfl)
    refine h.before pre f (post ++ [s.current]) ?_
    rw [opened, he, List.append_assoc, List.cons_append]

theorem Kept.roll (h : Kept files₀ s) : Kept files₀ (s.roll P clock) := by
  constructor
  · rw [roll_files, roll_opened, List.map_append, List.foldl_append, ← h.files,
      Files.store_opened, h.locate]
    rfl
  · rw [roll_opened]
    exact Delimited.forall_split_concat h.before (by rw [← h.files]; rfl)

theorem Kept.logPieces (h : Kept files₀ s) (ps : List Bytes) :
    Kept files₀ (s.logPieces P clock ps) :=
  logPieces_invariant P clock (fun _ p h => h.write p) (fun _ h => h.roll) h ps

theorem kept_after (basename : Bytes) (maxSize : Nat) (files₀ : Files) (ps : List Bytes) :
    Kept files₀ (after P clock basename maxSize files₀ ps) :=
  (kept_make basename maxSize).logPieces ps

theorem Kept.segments (h : Kept files₀ s) : segment s.files = segment files₀ :=
  funext fun f => by rw [segment, segment, h.locate]

theorem Kept.read (h : Kept files₀ s) {f : SinkFile} (hf : f ∈ s.opened) : s.files f.name =
    some ((files₀ f.name).getD [] ++ s.appendedTo f.name) := by
  have hmem : files₀.locate f.name ∈ (s.opened.map (segment files₀)).map Prod.fst :=
    List.mem_map_of_mem (f := Prod.fst) (List.mem_map_of_mem hf)
  rw [appendedTo, h.locate, h.segments, ← Files.foldl_append_read _ hmem, ← h.files]

/-- A file still holds what it held when the sink left it. -/
theorem Kept.grown (h : Kept files₀ s) {f : SinkFile} (hf : f ∈ s.opened) :
    f.content <+: (s.files f.name).getD [] := by
  obtain ⟨pre, post, he⟩ := List.append_of_mem hf
  have hfile : s.files = (post.map (segment files₀)).foldl Files.append
      (((pre.map (segment files₀)).foldl Files.append files₀).append (segment files₀ f)) := by
    rw [h.files, he, List.map_append, List.map_cons, List.foldl_append, List.foldl_cons]
  have hleft : (((pre.map (segment files₀)).foldl Files.append files₀).append
      (segment files₀ f)) f.name = some f.content := by
    rw [segment, ← Files.foldl_append_locate files₀ (pre.map (segment files₀)) f.name,
      Files.append_read, ← h.before pre f post he]
    rfl
  have hgrown := Files.prefix_foldl_append (((pre.map (segment files₀)).foldl Files.append
    files₀).append (segment files₀ f)) (post.map (segment files₀)) f.name
  rwa [← hfile, hleft, Option.getD_some] at hgrown

/-- A file that was opened once got what was appended to it then. -/
theorem Kept.appendedTo_eq (h : Kept files₀ s)
    (hd : (s.opened.map fun f => files₀.locate f.name).Nodup) {f : SinkFile} (hf : f ∈ s.opened) :
    s.appendedTo f.name = f.appended := by
  have hkeys : ((s.opened.map (segment files₀)).map Prod.fst).Nodup := by
    rwa [List.map_map]
  have hmem : (files₀.locate f.name, f.appended) ∈ s.opened.map (segment files₀) :=
    List.mem_map_of_mem (f := segment files₀) hf
  rw [appendedTo, h.locate, h.segments, KeyedLog.under_of_nodup hkeys hmem,
    List.flatten_singleton]

theorem Kept.before_eq (h : Kept files₀ s)
    (hd : (s.opened.map fun f => files₀.locate f.name).Nodup) {f : SinkFile} (hf : f ∈ s.opened) :
    f.before = (files₀ f.name).getD [] := by
  obtain ⟨pre, post, he⟩ := List.append_of_mem hf
  have hpre : files₀.locate f.name ∉ (pre.map (segment files₀)).map Prod.fst := by
    rw [he, List.map_append, List.map_cons, List.nodup_middle, List.nodup_cons,
      List.mem_append, not_or] at hd
    rw [List.map_map]
    exact hd.1.1
  rw [h.before pre f post he, Files.foldl_append_of_notMem _ hpre]

theorem Kept.content (h : Kept files₀ s)
    (hd : (s.opened.map fun f => files₀.locate f.name).Nodup) {f : SinkFile} (hf : f ∈ s.opened) :
    s.files f.name = some f.content := by
  rw [h.read hf, h.appendedTo_eq hd hf, ← h.before_eq hd hf, SinkFile.content]

end Kept

section Numbered

-- the modulus is not to be computed with
attribute [local irreducible] sizeT

/-- The sink numbers the names it makes, whatever the clock says. -/
def Numbered (s : RollBySizeSink) : Prop := ∃ lts : Nat → Tm, s.opened.map SinkFile.name =
  (List.range s.readings).map fun n => fileName s.basename (lts n) (sizeT n)

variable {P clock} {s : RollBySizeSink}

theorem numbered_make (basename : Bytes) (maxSize : Nat) (files₀ : Files) :
    Numbered (make P clock basename maxSize files₀) :=
  ⟨fun n => P.localtime (clock n), by rw [make_opened]; rfl⟩

theorem Numbered.write (h : Numbered s) (p : Bytes) : Numbered (s.write p) := by
  rw [Numbered, write_names]
  exact h

theorem Numbered.roll (h : Numbered s) : Numbered (s.roll P clock) := by
  obtain ⟨lts, hlts⟩ := h
  refine ⟨Function.update lts s.readings (P.localtime (clock s.readings)), ?_⟩
  have hold : (List.range s.readings).map (fun n => fileName s.basename
      (Function.update lts s.readings (P.localtime (clock s.readings)) n) (sizeT n)) =
      s.opened.map SinkFile.name := by
    rw [hlts]
    refine List.map_congr_left fun n hm => ?_
    rw [Function.update_of_ne (List.mem_range.mp hm).ne]
  rw [roll_opened, List.map_append, roll_readings, roll_basename, List.range_succ,
    List.map_append, hold, List.map_singleton, List.map_singleton, Function.update_self]
  rfl

theorem Numbered.logPieces (h : Numbered s) (ps : List Bytes) :
    Numbered (s.logPieces P clock ps) :=
  logPieces_invariant P clock (fun _ p h => h.write p) (fun _ h => h.roll) h ps

/-- No file is opened twice before the counter wraps around. -/
theorem Numbered.nodup (h : Numbered s) (hb : 0 ∉ s.basename)
    (hn : s.opened.length ≤ UInt64.size) (files₀ : Files) :
    (s.opened.map fun f => files₀.locate f.name).Nodup := by
  obtain ⟨lts, hlts⟩ := h
  have hlen : s.opened.length = s.readings := by
    simpa using congrArg List.length hlts
  have hplaces : (s.opened.map fun f => files₀.locate f.name) =
      (List.range s.readings).map fun n =>
        place files₀.cwd (fileName s.basename (lts n) (sizeT n)) := by
    have hname : (fun f => files₀.locate f.name) = files₀.locate ∘ SinkFile.name := rfl
    rw [hname, ← List.map_map, hlts, List.map_map]
    simp only [Function.comp_def, Files.locate]
  rw [hplaces]
  refine List.nodup_range.map_on fun m hm n hm' he => ?_
  rw [List.mem_range] at hm hm'
  have hcount := place_fileName hb he
  rwa [sizeT_of_lt (by omega), sizeT_of_lt (by omega)] at hcount

/-- Two files that are opened one after the other are different, also at the wrap around. -/
theorem Numbered.successive (h : Numbered s) (hb : 0 ∉ s.basename) {pre post : List SinkFile}
    {f g : SinkFile} (he : s.opened = pre ++ f :: g :: post) (files₀ : Files) :
    files₀.locate f.name ≠ files₀.locate g.name := by
  obtain ⟨lts, hlts⟩ := h
  have hname (n : Nat) {x : SinkFile} (hx : s.opened[n]? = some x) :
      x.name = fileName s.basename (lts n) (sizeT n) := by
    have hn := congrArg (fun l => l[n]?) hlts
    simp only [List.getElem?_map, hx, Option.map_some] at hn
    have hlt : n < s.readings := by
      by_contra hle
      rw [List.getElem?_eq_none (by simpa using hle)] at hn
      cases hn
    rw [List.getElem?_range hlt] at hn
    exact Option.some.inj hn
  have hf := hname pre.length (x := f) (by simp [he])
  have hg := hname (pre.length + 1) (x := g) (by simp [he])
  intro hplace
  rw [Files.locate, Files.locate, hf, hg] at hplace
  exact sizeT_ne_succ _ (place_fileName hb hplace)

end Numbered

theorem numbered_after (basename : Bytes) (maxSize : Nat) (files₀ : Files) (ps : List Bytes) :
    Numbered (after P clock basename maxSize files₀ ps) :=
  (numbered_make basename maxSize files₀).logPieces ps

/-- What stays true of a sink that was made over `files₀`, whatever it logs. -/
structure Made (basename : Bytes) (maxSize : Nat) (files₀ : Files) (s : RollBySizeSink) : Prop where
  basename : s.basename = basename
  maxFsize : s.maxFsize = maxSize
  kept : Kept files₀ s
  numbered : Numbered s

section Made

variable {P clock} {basename : Bytes} {maxSize : Nat} {files₀ : Files} {s : RollBySizeSink}

theorem made_after (ps : List Bytes) :
    Made basename maxSize files₀ (after P clock basename maxSize files₀ ps) := by
  obtain ⟨k, hk⟩ : ∃ k, Since P clock (make P clock basename maxSize files₀) k
      (after P clock basename maxSize files₀ ps) := since_after ps
  exact ⟨hk.basename, hk.maxFsize, kept_after .., numbered_after P clock ..⟩

theorem Made.write (h : Made basename maxSize files₀ s) (p : Bytes) :
    Made basename maxSize files₀ (s.write p) :=
  ⟨h.basename, h.maxFsize, h.kept.write p, h.numbered.write p⟩

theorem Made.nodup (h : Made basename maxSize files₀ s) (hb : 0 ∉ basename)
    (hn : s.opened.length ≤ UInt64.size) : (s.opened.map fun f => files₀.locate f.name).Nodup :=
  h.numbered.nodup (h.basename ▸ hb) hn files₀

end Made

theorem after_appended (basename : Bytes) (maxSize : Nat) (files₀ : Files) (ps : List Bytes) :
    ((after P clock basename maxSize files₀ ps).opened.map SinkFile.appended).flatten =
      ps.flatten := by
  have hmap (fs : List SinkFile) :
      fs.map SinkFile.appended = (fs.map SinkFile.pieces).map List.flatten := by
    rw [List.map_map]
    rfl
  rw [hmap, ← List.flatten_flatten, ← List.flatMap_def, logPieces_pieces]
  rfl

/-- Nothing is lost, repeated, reordered or cut inside a line. Every opening is one of another
file, unless the names are cut at a NUL byte or the counter has wrapped around. -/
theorem segments_conserved (basename : Bytes) (maxSize : Nat) (files₀ : Files)
    (ds : List Bytes) :
    let s := (make P clock basename maxSize files₀).logAll P clock ds
    (0 ∉ basename → s.opened.length ≤ UInt64.size →
      (s.opened.map fun f => files₀.locate f.name).Nodup ∧
      ∀ f ∈ s.opened, s.appendedTo f.name = f.appended) ∧
    (∀ f ∈ s.opened, s.files f.name = some ((files₀ f.name).getD [] ++ s.appendedTo f.name)) ∧
    (s.opened.map SinkFile.appended).flatten = ds.flatten ∧
    ∀ pre post x y a b, ds = pre ++ (x ++ a :: b :: y) :: post →
      Delimited.segmentOf (s.opened.map SinkFile.appended)
        (pre.flatten.length + x.length) ≠
      Delimited.segmentOf (s.opened.map SinkFile.appended)
        (pre.flatten.length + x.length + 1) →
      a = newline := by
  intro s
  have hs : s = after P clock basename maxSize files₀ (ds.flatMap (Delimited.pieces newline)) :=
    logAll_make P clock basename maxSize files₀ ds
  have hmade : Made basename maxSize files₀ s := hs ▸ made_after _
  have hgroups : (s.opened.map SinkFile.pieces).flatten =
      ds.flatMap (Delimited.pieces newline) := by
    rw [hs, ← List.flatMap_def]
    exact logPieces_pieces P clock _ _
  have hmap : s.opened.map SinkFile.appended =
      (s.opened.map SinkFile.pieces).map List.flatten := by
    rw [List.map_map]
    rfl
  refine ⟨fun hb hn => ?_, fun f hf => hmade.kept.read hf, ?_, fun pre post x y a b hds hne => ?_⟩
  · have hd := hmade.nodup hb hn
    exact ⟨hd, fun f hf => hmade.kept.appendedTo_eq hd hf⟩
  · rw [hs, after_appended, Delimited.flatMap_pieces_flatten]
  · rw [hmap] at hne
    exact Delimited.delimiter_of_segments (hgroups.trans (by rw [hds])) hne

theorem opened_length_le (s : RollBySizeSink) (ps : List Bytes) :
    (s.logPieces P clock ps).opened.length ≤ s.opened.length + ps.length := by
  induction ps generalizing s with
  | nil => exact le_rfl
  | cons p ps ih =>
    have hlen : (s.logPiece P clock p).opened.length ≤ s.opened.length + 1 := by
      have hw : (s.write p).opened.length = s.opened.length := by simp [opened, write]
      by_cases hf : (s.write p).curFsize ≥ (s.write p).maxFsize
      · rw [logPiece, rollIfFull, if_pos hf, roll_opened, List.length_append, hw]
        exact le_rfl
      · rw [logPiece, rollIfFull, if_neg hf, hw]
        exact Nat.le_succ _
    have := ih (s.logPiece P clock p)
    rw [List.length_cons]
    show (RollBySizeSink.logPieces P clock (s.logPiece P clock p) ps).opened.length ≤ _
    omega

theorem segments_conserved_app :
    let s := (make .midnight (fun _ => 0) (utf8 "logs/app") 1 .empty).logAll .midnight
      (fun _ => 0) [[97, 10], [98, 10]]
    (s.opened.map fun f => Files.empty.locate f.name).Nodup ∧
      ∀ f ∈ s.opened, s.appendedTo f.name = f.appended := by
  refine (segments_conserved .midnight (fun _ => 0) (utf8 "logs/app") 1 .empty
    [[97, 10], [98, 10]]).1 (by decide) ?_
  rw [logAll_eq]
  exact (opened_length_le _ _ _ _).trans (by decide)

section Repeated

variable {P clock}

/-- With the limit 0 each piece is followed by a new file. -/
theorem opened_length_zero {s : RollBySizeSink} (h : s.maxFsize = 0) (ps : List Bytes) :
    (s.logPieces P clock ps).opened.length = s.opened.length + ps.length := by
  induction ps generalizing s with
  | nil => rfl
  | cons p ps ih =>
    have hroll : s.logPiece P clock p = (s.write p).roll P clock := by
      have hfull : (s.write p).curFsize ≥ (s.write p).maxFsize := by
        rw [write_maxFsize, h]
        exact Nat.zero_le _
      rw [logPiece, rollIfFull, if_pos hfull]
    have hlen : (s.logPiece P clock p).opened.length = s.opened.length + 1 := by
      rw [hroll, roll_opened, List.length_append]
      simp [opened, write]
    have hmax : (s.logPiece P clock p).maxFsize = 0 := by
      rw [hroll, roll_maxFsize, write_maxFsize, h]
    have := ih hmax
    rw [List.length_cons]
    show (RollBySizeSink.logPieces P clock (s.logPiece P clock p) ps).opened.length = _
    omega

theorem names_repeat {basename : Bytes} {files₀ : Files} {n : Nat} (hn : 0 < n)
    (hsame : files₀.locate (nameAt P clock basename n) =
      files₀.locate (nameAt P clock basename 0)) :
    ¬ (((make P clock basename 0 files₀).logAll P clock
      (List.replicate n [newline])).opened.map fun f => files₀.locate f.name).Nodup := by
  have hpieces : (List.replicate n [newline]).flatMap (Delimited.pieces newline) =
      List.replicate n [newline] := by
    clear hn hsame
    induction n with
    | zero => rfl
    | succ n ih => rw [List.replicate_succ, List.flatMap_cons, ih]; rfl
  rw [logAll_make, hpieces]
  obtain ⟨k, hk⟩ : ∃ k, Since P clock (make P clock basename 0 files₀) k
      (after P clock basename 0 files₀ (List.replicate n [newline])) := since_after _
  have hlen : (after P clock basename 0 files₀ (List.replicate n [newline])).opened.length =
      1 + n := by
    rw [after, opened_length_zero (make_maxFsize ..), List.length_replicate, make_opened]
    rfl
  have hkn : k = n := by
    have := congrArg List.length hk.make_names
    rw [List.length_map, List.length_map, List.length_range] at this
    omega
  have hname : (fun f => files₀.locate f.name) = files₀.locate ∘ SinkFile.name := rfl
  rw [hname, ← List.map_map, hk.make_names, hkn, List.map_map]
  intro hd
  have hzero := List.inj_on_of_nodup_map hd (List.mem_range.mpr (Nat.lt_succ_self n))
    (List.mem_range.mpr (Nat.succ_pos n)) (by simpa only [Function.comp_apply] using hsame)
  omega

theorem place_nameAt_nul (cwd : List Bytes) {b : Bytes} (hb : 0 ∉ b) (rest : Bytes) (n : Nat) :
    place cwd (nameAt P clock (b ++ 0 :: rest) n) = walk cwd b := by
  obtain ⟨v, c, he, -, -⟩ : Extends (b ++ 0 :: rest) (nameAt P clock (b ++ 0 :: rest) n) :=
    extends_fileName ..
  rw [he, List.append_assoc, List.cons_append, place_append_nul cwd hb]

end Repeated

/-- A base name with a NUL byte is cut there, so all files are one; and with the limit 0 and a
clock that stands still the counter comes back to the first name. -/
theorem files_reopened :
    (¬ (((make .midnight (fun _ => 0) ([120] ++ 0 :: [121]) 0 .empty).logAll .midnight
      (fun _ => 0) (List.replicate 1 [newline])).opened.map fun f =>
        Files.empty.locate f.name).Nodup) ∧
    ¬ (((make .midnight (fun _ => 0) [120] 0 .empty).logAll .midnight
      (fun _ => 0) (List.replicate UInt64.size [newline])).opened.map fun f =>
        Files.empty.locate f.name).Nodup := by
  constructor
  · refine names_repeat Nat.one_pos ?_
    rw [Files.locate, Files.locate, place_nameAt_nul _ (by decide),
      place_nameAt_nul _ (by decide)]
  · exact names_repeat (by decide) rfl

end RollBySizeSink

end MyLog
