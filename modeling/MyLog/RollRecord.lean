import MyLog.Grammar
import MyLog.RollSegments

/-! A record with a newline inside it, and the files its bytes go to. -/

namespace MyLog

namespace RollBySizeSink

def segments (s : RollBySizeSink) : List Bytes := s.opened.map SinkFile.appended

variable (P : Platform) (clock : Nat → Int)

theorem closed_prefix (s : RollBySizeSink) (ps : List Bytes) :
    s.closed <+: (s.logPieces P clock ps).closed :=
  logPieces_invariant P clock (motive := fun t => s.closed <+: t.closed) (fun _ _ h => h)
    (fun t h => h.trans ⟨[t.current], rfl⟩) List.prefix_rfl ps

theorem segments_logPieces (s : RollBySizeSink) (ps : List Bytes) : ∃ C,
    (s.logPieces P clock ps).segments = s.closed.map SinkFile.appended ++ C := by
  obtain ⟨fs, hfs⟩ := closed_prefix P clock s ps
  exact ⟨_, by rw [segments, opened, ← hfs, List.append_assoc, List.map_append]⟩

section Piece

variable (s : RollBySizeSink) (p : Bytes) (ps : List Bytes)

theorem write_appended : (s.write p).current.appended = s.current.appended ++ p := by
  simp [write, SinkFile.write, SinkFile.appended]

theorem logPieces_full (h : s.maxFsize ≤ s.curFsize + p.length) :
    s.logPieces P clock (p :: ps) = ((s.write p).roll P clock).logPieces P clock ps := by
  show ((s.write p).rollIfFull P clock).logPieces P clock ps = _
  rw [rollIfFull, if_pos (show (s.write p).curFsize ≥ (s.write p).maxFsize from h)]

theorem logPieces_room (h : ¬ s.maxFsize ≤ s.curFsize + p.length) :
    s.logPieces P clock (p :: ps) = (s.write p).logPieces P clock ps := by
  show ((s.write p).rollIfFull P clock).logPieces P clock ps = _
  rw [rollIfFull, if_neg (show ¬ (s.write p).curFsize ≥ (s.write p).maxFsize from h)]

theorem segments_full (h : s.maxFsize ≤ s.curFsize + p.length) : ∃ C,
    (s.logPieces P clock (p :: ps)).segments =
      s.closed.map SinkFile.appended ++ (s.current.appended ++ p) :: C := by
  obtain ⟨C, hC⟩ := segments_logPieces P clock ((s.write p).roll P clock) ps
  refine ⟨C, ?_⟩
  rw [logPieces_full P clock s p ps h, hC, ← write_appended]
  simp [roll, write]

theorem segments_room (h : ¬ s.maxFsize ≤ s.curFsize + p.length) :
    (s.logPieces P clock [p]).segments =
      s.closed.map SinkFile.appended ++ [s.current.appended ++ p] := by
  rw [logPieces_room P clock s p [] h, ← write_appended]
  simp [logPieces, segments, opened, write]

end Piece

/-- The first pieces go to the open file: all of them, or those up to one that fills it. -/
theorem first_file (s : RollBySizeSink) {ps : List Bytes} (hps : ps ≠ []) :
    ∃ qs rs C, ps = qs ++ rs ∧ qs ≠ [] ∧
      (s.logPieces P clock ps).segments =
        s.closed.map SinkFile.appended ++ (s.current.appended ++ qs.flatten) :: C ∧
      (rs ≠ [] → s.maxFsize ≤ s.curFsize + qs.flatten.length) ∧
      ∀ pre post, qs = pre ++ post → pre ≠ [] → post ≠ [] →
        s.curFsize + pre.flatten.length < s.maxFsize := by
  induction ps generalizing s with
  | nil => exact (hps rfl).elim
  | cons p ps ih =>
    have hone : ∀ pre post : List Bytes, [p] = pre ++ post → pre ≠ [] → post ≠ [] →
        s.curFsize + pre.flatten.length < s.maxFsize := by
      intro pre post he hpre hpost
      have := congrArg List.length he
      have := List.length_pos_of_ne_nil hpre
      have := List.length_pos_of_ne_nil hpost
      simp only [List.length_append, List.length_singleton] at *
      omega
    by_cases hf : s.maxFsize ≤ s.curFsize + p.length
    · obtain ⟨C, hC⟩ := segments_full P clock s p ps hf
      exact ⟨[p], ps, C, rfl, by simp, by simpa using hC, fun _ => by simpa using hf, hone⟩
    · by_cases hnil : ps = []
      · subst hnil
        have hC := segments_room P clock s p hf
        exact ⟨[p], [], [], rfl, by simp, by simpa using hC, fun h => (h rfl).elim, hone⟩
      · obtain ⟨qs, rs, C, rfl, hqs, hseg, hfull, hsmall⟩ := ih (s.write p) hnil
        refine ⟨p :: qs, rs, C, rfl, by simp, ?_, fun hrs => ?_, fun pre post he hpre hpost => ?_⟩
        · rw [logPieces_room P clock s p _ hf, hseg, write_appended, List.append_assoc]
          rfl
        · rw [List.flatten_cons, List.length_append, ← Nat.add_assoc]
          exact hfull hrs
        · obtain ⟨q, pre, rfl⟩ := List.exists_cons_of_ne_nil hpre
          obtain ⟨rfl, he'⟩ : p = q ∧ qs = pre ++ post := by simpa using he
          by_cases hpre' : pre = []
          · subst hpre'
            simpa using hf
          · rw [List.flatten_cons, List.length_append, ← Nat.add_assoc]
            exact hsmall pre post he' hpre' hpost

/-- Cut at a newline inside it, the record has begun to fill the open file but has not
reached the limit. -/
def FitsBetweenLines (s : RollBySizeSink) (record : Bytes) : Prop :=
  ∀ x y, record = x ++ newline :: y → y ≠ [] → s.curFsize + (x.length + 1) < s.maxFsize

theorem fitsBetweenLines_iff (s : RollBySizeSink) (record : Bytes) :
    s.FitsBetweenLines record ↔ ∀ pre post, Delimited.pieces newline record = pre ++ post →
      pre ≠ [] → post ≠ [] → s.curFsize + pre.flatten.length < s.maxFsize := by
  constructor
  · intro h pre post he hpre hpost
    obtain ⟨x, hx⟩ := List.getLast?_eq_some_iff.mp (Delimited.getLast?_of_cut he hpre hpost)
    have hrec : record = x ++ newline :: post.flatten := by
      rw [← Delimited.pieces_flatten (d := newline) record, he, List.flatten_append, hx]
      simp
    have hy : post.flatten ≠ [] := by
      obtain ⟨p, post, rfl⟩ := List.exists_cons_of_ne_nil hpost
      have hp : p ≠ [] := Delimited.pieces_ne_nil (by rw [he]; simp)
      simp [hp]
    have hlen : pre.flatten.length = x.length + 1 := by rw [hx]; simp
    rw [hlen]
    exact h x _ hrec hy
  · intro h x y hrec hy
    have hcut : Delimited.pieces newline record =
        Delimited.pieces newline (x ++ [newline]) ++ Delimited.pieces newline y := by
      rw [← Delimited.pieces_append (by simp), hrec]
      simp
    have := h _ _ hcut (by simp [Delimited.pieces_eq_nil_iff])
      (by simpa [Delimited.pieces_eq_nil_iff] using hy)
    simpa using this

theorem segments_length (s : RollBySizeSink) :
    s.segments.flatten.length =
      (s.closed.map SinkFile.appended).flatten.length + s.current.appended.length := by
  simp [segments, opened]

theorem log_one_file_iff (s : RollBySizeSink) (record : Bytes) :
    (∃ k, ∀ i < record.length, Delimited.segmentOf (s.log P clock record).segments
      (s.segments.flatten.length + i) = k) ↔ s.FitsBetweenLines record := by
  by_cases hrec : record = []
  · subst hrec
    simp [FitsBetweenLines]
  · obtain ⟨qs, rs, C, he, hqs, hseg, hfull, hsmall⟩ := first_file P clock s
      (mt (Delimited.pieces_eq_nil_iff (d := newline)).mp hrec)
    have hmem (p : Bytes) (hp : p ∈ qs ∨ p ∈ rs) : p ∈ Delimited.pieces newline record := by
      rw [he]
      exact List.mem_append.mpr hp
    have hq := Delimited.flatten_pos_of_pieces hqs fun p hp => hmem p (.inl hp)
    have hlen : record.length = qs.flatten.length + rs.flatten.length := by
      rw [← Delimited.pieces_flatten (d := newline) record, he, List.flatten_append,
        List.length_append]
    rw [log_eq, hseg, segments_length, hlen, Delimited.segmentOf_constant_iff hq,
      fitsBetweenLines_iff]
    constructor
    · intro hnil
      have hrs : rs = [] := by
        by_contra hrs
        have := Delimited.flatten_pos_of_pieces hrs fun p hp => hmem p (.inr hp)
        omega
      intro pre post hcut
      rw [he, hrs, List.append_nil] at hcut
      exact hsmall pre post hcut
    · intro hfits
      by_contra hne
      have hrs : rs ≠ [] := by
        rintro rfl
        exact hne rfl
      have := hfull hrs
      have := hfits qs rs he hqs hrs
      omega

/-- A record goes to one file exactly if, at each newline inside it, the file that was
open before the record is still smaller than the limit. Files are told apart by their
openings, of which two in a row are never of one file, if the base name has no NUL byte. -/
theorem record_in_one_file (basename : Bytes) (maxSize : Nat) (files₀ : Files)
    (ds : List Bytes) (record : Bytes) :
    let s := (make P clock basename maxSize files₀).logAll P clock ds
    let s' := s.log P clock record
    ((∃ k, ∀ i < record.length, Delimited.segmentOf
      (s'.opened.map SinkFile.appended) (ds.flatten.length + i) = k) ↔
      ∀ x y, record = x ++ newline :: y → y ≠ [] → s.curFsize + (x.length + 1) < maxSize) ∧
    (0 ∉ basename → ∀ pre f g post, s'.opened = pre ++ f :: g :: post →
      files₀.locate f.name ≠ files₀.locate g.name) := by
  intro s s'
  have hs : s = after P clock basename maxSize files₀ (ds.flatMap (Delimited.pieces newline)) :=
    logAll_make P clock basename maxSize files₀ ds
  have hmade : Made basename maxSize files₀ s := hs ▸ made_after _
  constructor
  · have hbytes : s.segments.flatten = ds.flatten := by
      rw [hs, segments, after_appended, Delimited.flatMap_pieces_flatten]
    rw [← hbytes, ← hmade.maxFsize]
    exact log_one_file_iff P clock s record
  · intro hb pre f g post he
    have hs' : s' = after P clock basename maxSize files₀
        ((ds ++ [record]).flatMap (Delimited.pieces newline)) := by
      rw [← logAll_make]
      exact (List.foldl_concat ..).symm
    have hmade' : Made basename maxSize files₀ s' := hs' ▸ made_after _
    exact hmade'.numbered.successive (hmade'.basename ▸ hb) he files₀

theorem record_split : ¬ ∀ (P : Platform) (clock : Nat → Int) (basename : Bytes) (maxSize : Nat)
    (files₀ : Files) (ds : List Bytes) (pattern : Bytes) (f : Formatter) (m : LogMsg),
    Formatter.make pattern = some f →
    ∃ k, ∀ i < (f.format P m).length, Delimited.segmentOf
      ((((make P clock basename maxSize files₀).logAll P clock ds).log P clock
        (f.format P m)).opened.map SinkFile.appended) (ds.flatten.length + i) = k := by
  intro hall
  have h : Derives (utf8 "%m%n") [.bare (ascii 'm'), .bare (ascii 'n')] :=
    Derives.bare (k := ascii 'm') (by decide) (by decide)
      (Derives.bare (k := ascii 'n') (by decide) (by decide) .empty)
  obtain ⟨f, hf, ht⟩ := Formatter.make_format h
  have hrec : f.format .midnight ⟨0, .info, [], 1, 0, utf8 "a\nb", []⟩ =
      [ascii 'a'] ++ newline :: [ascii 'b', newline] := ht _ _
  have hone := hall .midnight (fun _ => 0) [] 1 .empty [] _ f
    ⟨0, .info, [], 1, 0, utf8 "a\nb", []⟩ hf
  have hfits := (log_one_file_iff .midnight (fun _ => 0)
    (make .midnight (fun _ => 0) [] 1 .empty) _).mp hone
  have := hfits _ _ hrec (by simp)
  have hmax : (make .midnight (fun _ => 0) [] 1 .empty).maxFsize = 1 := rfl
  omega

end RollBySizeSink

end MyLog
