import MyLog.RollSegments

/-! The size counter of the rolling sink, and how large its files get. -/

namespace MyLog

def Files.size (files : Files) (name : Bytes) : Nat := ((files name).getD []).length

/-- The file was smaller than `n` before each piece but the first. -/
def SinkFile.SmallBefore (n : Nat) (f : SinkFile) : Prop :=
  ∀ pre p post, f.pieces = pre ++ p :: post → pre ≠ [] →
    (f.before ++ pre.flatten).length < n

namespace SinkFile

variable {n : Nat} {f : SinkFile}

theorem SmallBefore.write (h : f.SmallBefore n) (hf : f.pieces ≠ [] → f.content.length < n)
    (p : Bytes) : (f.write p).SmallBefore n :=
  Delimited.forall_split_concat h hf

/-- The last piece is all that can lie over the limit. -/
theorem SmallBefore.excess (h : f.SmallBefore n) (hn : 0 < n) (hb : f.before = [])
    (hp : f.pieces ≠ []) : ∃ pre p, f.pieces = pre ++ [p] ∧ f.content.length < n + p.length := by
  rcases List.eq_nil_or_concat f.pieces with he | ⟨pre, p, he⟩
  · exact (hp he).elim
  rw [List.concat_eq_append] at he
  refine ⟨pre, p, he, ?_⟩
  have hlen : f.content.length = pre.flatten.length + p.length := by
    simp [content, appended, hb, he]
  by_cases hpre : pre = []
  · subst hpre
    simp only [List.flatten_nil, List.length_nil] at hlen
    omega
  · have := h pre p [] he hpre
    rw [hb, List.nil_append] at this
    omega

end SinkFile

namespace RollBySizeSink

/-- A file over the limit is closed only after a piece, and at once. -/
structure WithinLimit (s : RollBySizeSink) : Prop where
  size : s.current.content.length = s.curFsize
  current : s.current.SmallBefore s.maxFsize
  closed : ∀ f ∈ s.closed, f.pieces ≠ [] ∧ s.maxFsize ≤ f.content.length ∧
    f.SmallBefore s.maxFsize

def Settled (s : RollBySizeSink) : Prop :=
  s.current.pieces ≠ [] → s.current.content.length < s.maxFsize

section Steps

variable {P : Platform} {clock : Nat → Int} {s : RollBySizeSink}

theorem WithinLimit.write (h : WithinLimit s) (hs : s.Settled) (p : Bytes) :
    WithinLimit (s.write p) := by
  refine ⟨?_, h.current.write hs p, h.closed⟩
  show (s.current.write p).content.length = s.curFsize + p.length
  rw [SinkFile.write_content, List.length_append, h.size]

theorem smallBefore_opened (n : Nat) (files : Files) (name : Bytes) :
    (SinkFile.opened files name).SmallBefore n := by
  intro pre p post he
  simp [SinkFile.opened] at he

theorem WithinLimit.roll (h : WithinLimit s) (hp : s.current.pieces ≠ [])
    (hf : s.curFsize ≥ s.maxFsize) : WithinLimit (s.roll P clock) := by
  refine ⟨(sizeAt_tellp _).symm, smallBefore_opened _ _ _, fun f hm => ?_⟩
  rcases List.mem_append.mp hm with hc | hc
  · exact h.closed f hc
  · obtain rfl := List.mem_singleton.mp hc
    exact ⟨hp, by rw [h.size]; exact hf, h.current⟩

theorem WithinLimit.logPiece (h : WithinLimit s) (hs : s.Settled) (p : Bytes) :
    WithinLimit (s.logPiece P clock p) ∧ (s.logPiece P clock p).Settled := by
  have hw := h.write hs p
  have hp : (s.write p).current.pieces ≠ [] := by simp [RollBySizeSink.write, SinkFile.write]
  by_cases hf : (s.write p).curFsize ≥ (s.write p).maxFsize
  · rw [RollBySizeSink.logPiece, rollIfFull, if_pos hf]
    exact ⟨hw.roll hp hf, fun he => (he rfl).elim⟩
  · rw [RollBySizeSink.logPiece, rollIfFull, if_neg hf]
    refine ⟨hw, fun _ => ?_⟩
    rw [hw.size]
    omega

theorem withinLimit_after (P : Platform) (clock : Nat → Int) (basename : Bytes) (maxSize : Nat)
    (files₀ : Files) (ps : List Bytes) :
    WithinLimit (after P clock basename maxSize files₀ ps) ∧
      (after P clock basename maxSize files₀ ps).Settled := by
  induction ps using List.reverseRecOn with
  | nil =>
    exact ⟨⟨(sizeAt_tellp _).symm, smallBefore_opened _ _ _, fun f hf => by cases hf⟩,
      fun he => (he rfl).elim⟩
  | append_singleton ps p ih =>
    rw [after, logPieces_append]
    exact ih.1.logPiece ih.2 p

end Steps

/-- The file was full when the sink left it. -/
theorem Kept.full {files₀ : Files} {s : RollBySizeSink} (h : Kept files₀ s) (hl : WithinLimit s)
    {f : SinkFile} (hf : f ∈ s.closed) : s.maxFsize ≤ s.files.size f.name :=
  (hl.closed f hf).2.1.trans (h.grown (List.mem_append_left _ hf)).length_le

structure ClosedAtLimit (maxSize : Nat) (files₀ files : Files) (f : SinkFile) : Prop where
  written : f.pieces ≠ []
  full : maxSize ≤ files.size f.name
  small : ∀ pre p post, f.pieces = pre ++ p :: post → pre ≠ [] →
    ((files₀ f.name).getD [] ++ pre.flatten).length < maxSize
  excess : 0 < maxSize → files₀ f.name = none →
    ∃ pre p, f.pieces = pre ++ [p] ∧ files.size f.name < maxSize + p.length

theorem Kept.size {files₀ : Files} {s : RollBySizeSink} (h : Kept files₀ s)
    (hd : (s.opened.map fun f => files₀.locate f.name).Nodup) {f : SinkFile} (hf : f ∈ s.opened) :
    s.files.size f.name = f.content.length := by
  rw [Files.size, h.content hd hf, Option.getD_some]

theorem Kept.closedAtLimit {files₀ : Files} {s : RollBySizeSink} (h : Kept files₀ s)
    (hd : (s.opened.map fun f => files₀.locate f.name).Nodup) (hl : WithinLimit s)
    {f : SinkFile} (hf : f ∈ s.closed) : ClosedAtLimit s.maxFsize files₀ s.files f := by
  obtain ⟨hp, hfull, hsmall⟩ := hl.closed f hf
  have hmem : f ∈ s.opened := List.mem_append_left _ hf
  have hb := h.before_eq hd hmem
  refine ⟨hp, h.full hl hf, fun pre p post he hpre => ?_, fun hn hnone => ?_⟩
  · rw [← hb]
    exact hsmall pre p post he hpre
  · rw [h.size hd hmem]
    exact hsmall.excess hn (by rw [hb, hnone, Option.getD_none]) hp

/-- In a call the sink is where it is between two calls, or between a write and its test. -/
theorem logStates_invariant {P : Platform} {clock : Nat → Int} {basename : Bytes}
    {maxSize : Nat} {files₀ : Files} {ps : List Bytes} {data : Bytes} {τ : RollBySizeSink}
    (hτ : τ ∈ (after P clock basename maxSize files₀ ps).logStates P clock data) :
    Made basename maxSize files₀ τ ∧ WithinLimit τ := by
  obtain ⟨qs, rs, -, hτ⟩ := mem_logStates P clock hτ
  have he : (after P clock basename maxSize files₀ ps).logPieces P clock qs =
      after P clock basename maxSize files₀ (ps ++ qs) :=
    (logPieces_append P clock _ ps qs).symm
  have hmade : Made basename maxSize files₀ (after P clock basename maxSize files₀ (ps ++ qs)) :=
    made_after _
  obtain ⟨hl, hs⟩ := withinLimit_after P clock basename maxSize files₀ (ps ++ qs)
  rw [he] at hτ
  rcases hτ with rfl | ⟨p, -, rfl⟩
  · exact ⟨hmade, hl⟩
  · exact ⟨hmade.write p, hl.write hs p⟩

/-- In every state of every call the counter is the size of the open file, and each closed
file was full, but only with its last piece. That piece is all that lies over the limit in a
new file, if no file is opened twice. -/
theorem rolls_at_limit (P : Platform) (clock : Nat → Int) (basename : Bytes) (maxSize : Nat)
    (files₀ : Files) (ds : List Bytes) (data : Bytes) :
    let s := (make P clock basename maxSize files₀).logAll P clock ds
    (∀ τ ∈ s.logStates P clock data,
      τ.curFsize = τ.files.size τ.current.name ∧
      (∀ f ∈ τ.closed, f.pieces ≠ [] ∧ maxSize ≤ τ.files.size f.name ∧ f.SmallBefore maxSize) ∧
      (0 ∉ basename → τ.opened.length ≤ UInt64.size →
        ∀ f ∈ τ.closed, ClosedAtLimit maxSize files₀ τ.files f)) ∧
    (s.files.size s.current.name < maxSize ∨ s.current.pieces = []) := by
  intro s
  have hs : s = after P clock basename maxSize files₀ (ds.flatMap (Delimited.pieces newline)) :=
    logAll_make P clock basename maxSize files₀ ds
  have hsize (τ : RollBySizeSink) : τ.files.size τ.current.name = τ.current.content.length := by
    rw [Files.size, τ.file, Option.getD_some]
  refine ⟨fun τ hτ => ?_, ?_⟩
  · obtain ⟨hmade, hl⟩ := logStates_invariant (hs ▸ hτ)
    refine ⟨by rw [hsize, hl.size], fun f hf => ?_, fun hb hn f hf => ?_⟩
    · obtain ⟨hp, -, hsmall⟩ := hl.closed f hf
      rw [← hmade.maxFsize]
      exact ⟨hp, hmade.kept.full hl hf, hsmall⟩
    · rw [← hmade.maxFsize]
      exact hmade.kept.closedAtLimit (hmade.nodup hb hn) hl hf
  · obtain ⟨-, hsettled⟩ := withinLimit_after P clock basename maxSize files₀
      (ds.flatMap (Delimited.pieces newline))
    have hmade : Made basename maxSize files₀ s := hs ▸ made_after _
    rw [← hs] at hsettled
    rw [hsize, ← hmade.maxFsize]
    by_cases hp : s.current.pieces = []
    · exact .inr hp
    · exact .inl (hsettled hp)

theorem rolls_at_limit_app :
    let s := (make .midnight (fun _ => 0) (utf8 "logs/app") 1 .empty).logAll .midnight
      (fun _ => 0) [[97, 10], [98, 10]]
    ∀ f ∈ s.closed, ClosedAtLimit 1 .empty s.files f := by
  intro s
  have hmem : s ∈ s.logStates .midnight (fun _ => 0) [] := by
    rw [logStates, dif_pos rfl]
    exact List.mem_singleton_self s
  refine ((rolls_at_limit .midnight (fun _ => 0) (utf8 "logs/app") 1 .empty
    [[97, 10], [98, 10]] []).1 s hmem).2.2 (by decide) ?_
  show (logAll .midnight (fun _ => 0) _ [[97, 10], [98, 10]]).opened.length ≤ _
  rw [logAll_eq]
  exact (opened_length_le _ _ _ _).trans (by decide)

/-- All openings are one file, so the first of them ends with the pieces of the others. -/
theorem limit_exceeded :
    let s := (make .midnight (fun _ => 0) ([120] ++ 0 :: [121]) 1 .empty).logAll .midnight
      (fun _ => 0) [[97, 10], [98, 10]]
    ∃ f ∈ s.closed, Files.empty f.name = none ∧ ¬ ClosedAtLimit 1 .empty s.files f := by
  intro s
  have hs : s = after .midnight (fun _ => 0) ([120] ++ 0 :: [121]) 1 .empty
      [[97, 10], [98, 10]] := logAll_make ..
  have hclosed : s.closed.map (fun f => (f.pieces, s.files.size f.name)) =
      [([[97, 10]], 4), ([[98, 10]], 4)] := by
    rw [hs]
    decide +kernel
  obtain ⟨f, l, hl, he, -⟩ := List.map_eq_cons_iff.mp hclosed
  obtain ⟨hp, hsize⟩ := Prod.mk.inj he
  refine ⟨f, hl ▸ List.mem_cons_self, rfl, fun h => ?_⟩
  obtain ⟨pre, p, hlast, hlt⟩ := h.excess Nat.one_pos rfl
  have hone : p = [97, 10] := by
    have hget := congrArg List.getLast? (hlast.symm.trans hp)
    simpa using hget
  rw [hsize, hone] at hlt
  exact absurd hlt (by decide)

end RollBySizeSink

end MyLog
