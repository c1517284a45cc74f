import Mathlib.Algebra.Order.BigOperators.Group.List
import Mathlib.Algebra.Order.Ring.Nat
import MyLog.RollLimit

/-! How many files the rolling sink makes out of the bytes that it is given. -/

namespace MyLog

namespace RollBySizeSink

variable {P : Platform} {clock : Nat → Int} {basename : Bytes} {maxSize : Nat} {files₀ : Files}

theorem content_lengths (fs : List SinkFile) : (fs.map fun f => f.content.length).sum =
    (fs.map fun f => f.before.length).sum + (fs.map SinkFile.appended).flatten.length := by
  induction fs with
  | nil => rfl
  | cons f fs ih =>
    rw [List.map_cons, List.map_cons, List.map_cons, List.sum_cons, List.sum_cons,
      List.flatten_cons, List.length_append, ih, SinkFile.content, List.length_append]
    omega

theorem closed_lengths {s : RollBySizeSink} (h : WithinLimit s) :
    s.closed.length * s.maxFsize ≤ (s.closed.map fun f => f.content.length).sum := by
  have hfull : ∀ n ∈ s.closed.map fun f => f.content.length, s.maxFsize ≤ n := by
    intro n hn
    obtain ⟨f, hf, rfl⟩ := List.mem_map.mp hn
    exact (h.closed f hf).2.1
  simpa using List.card_nsmul_le_sum _ _ hfull

/-- The last piece is all that an opening can append over the limit. -/
theorem appended_length {f : SinkFile} {n longest : Nat} (h : f.SmallBefore n)
    (hlong : ∀ p ∈ f.pieces, p.length ≤ longest) : f.appended.length ≤ n + longest := by
  rcases List.eq_nil_or_concat f.pieces with he | ⟨pre, p, he⟩
  · simp [SinkFile.appended, he]
  rw [List.concat_eq_append] at he
  have hp := hlong p (by simp [he])
  have hlen : f.appended.length = pre.flatten.length + p.length := by
    simp [SinkFile.appended, he]
  by_cases hpre : pre = []
  · subst hpre
    simp only [List.flatten_nil, List.length_nil] at hlen
    omega
  · have hsmall := h pre p [] he hpre
    rw [List.length_append] at hsmall
    omega

theorem WithinLimit.smallBefore {s : RollBySizeSink} (h : WithinLimit s) {f : SinkFile}
    (hf : f ∈ s.opened) : f.SmallBefore s.maxFsize := by
  rcases List.mem_append.mp hf with hc | hc
  · exact (h.closed f hc).2.2
  · rw [List.mem_singleton.mp hc]
    exact h.current

/-- Each closed file has its share of the bytes, or had them before, if no file is opened
twice. No opening appends more than the limit and one line. -/
theorem files_counted (P : Platform) (clock : Nat → Int) (basename : Bytes) (maxSize : Nat)
    (files₀ : Files) (ds : List Bytes) :
    let s := (make P clock basename maxSize files₀).logAll P clock ds
    (0 ∉ basename → s.opened.length ≤ UInt64.size →
      s.closed.length * maxSize ≤
        (s.closed.map fun f => files₀.size f.name).sum + ds.flatten.length) ∧
    ∀ longest, (∀ line ∈ ds.flatMap (Delimited.pieces newline), line.length ≤ longest) →
      ds.flatten.length ≤ (s.closed.length + 1) * (maxSize + longest) := by
  intro s
  have hs : s = after P clock basename maxSize files₀ (ds.flatMap (Delimited.pieces newline)) :=
    logAll_make P clock basename maxSize files₀ ds
  obtain ⟨hl, -⟩ := withinLimit_after P clock basename maxSize files₀
    (ds.flatMap (Delimited.pieces newline))
  have hmade : Made basename maxSize files₀ s := hs ▸ made_after _
  have hpieces : s.opened.flatMap SinkFile.pieces = ds.flatMap (Delimited.pieces newline) := by
    rw [hs]
    exact logPieces_pieces P clock _ _
  have htotal : (s.opened.map SinkFile.appended).flatten.length = ds.flatten.length := by
    rw [hs, after_appended, Delimited.flatMap_pieces_flatten]
  rw [← hs] at hl
  constructor
  · intro hb hn
    have hd := hmade.nodup hb hn
    have hbefore : (s.closed.map fun f => f.before.length) =
        s.closed.map fun f => files₀.size f.name :=
      List.map_congr_left fun f hf => by
        rw [hmade.kept.before_eq hd (List.mem_append_left _ hf), Files.size]
    have hclosed := closed_lengths hl
    rw [hmade.maxFsize, content_lengths, hbefore] at hclosed
    have hpart : (s.closed.map SinkFile.appended).flatten.length ≤ ds.flatten.length := by
      rw [← htotal, opened, List.map_append, List.flatten_append, List.length_append]
      omega
    omega
  · intro longest hlong
    have hfile : ∀ n ∈ (s.opened.map SinkFile.appended).map List.length,
        n ≤ maxSize + longest := by
      intro n hmem
      rw [List.map_map] at hmem
      obtain ⟨f, hf, rfl⟩ := List.mem_map.mp hmem
      rw [← hmade.maxFsize]
      exact appended_length (hl.smallBefore hf) fun p hp =>
        hlong p (hpieces ▸ List.mem_flatMap.mpr ⟨f, hf, hp⟩)
    have hsum := List.sum_le_card_nsmul _ _ hfile
    have hcount : s.opened.length = s.closed.length + 1 := by simp [opened]
    rw [← List.length_flatten, htotal, List.length_map, List.length_map, hcount, nsmul_eq_mul,
      Nat.cast_id] at hsum
    exact hsum

theorem files_counted_app :
    let s := (make .midnight (fun _ => 0) (utf8 "logs/app") 2 .empty).logAll .midnight
      (fun _ => 0) [[97, 10], [98, 10], [99]]
    s.closed.length * 2 ≤ (s.closed.map fun f => Files.empty.size f.name).sum + 5 := by
  refine (files_counted .midnight (fun _ => 0) (utf8 "logs/app") 2 .empty
    [[97, 10], [98, 10], [99]]).1 (by decide) ?_
  rw [logAll_eq]
  exact (opened_length_le _ _ _ _).trans (by decide)

end RollBySizeSink

end MyLog
