import MyLog.RollSegments

/-! The rolling sink does not depend on how its data is cut into calls. -/

namespace MyLog

def SinkFile.body (f : SinkFile) : Bytes × List Bytes := (f.before, f.pieces)

namespace RollBySizeSink

/-- The files opened from `σ` to `s` held nothing when they were opened. -/
def Fresh (σ s : RollBySizeSink) : Prop :=
  ∀ f ∈ s.opened.drop σ.opened.length, f.before = []

/-- Two continuations of `σ` under different clocks agree but for the times in the
names of the files they opened. -/
structure Agree (P : Platform) (clock clock' : Nat → Int) (σ s t : RollBySizeSink) : Prop where
  segments : s.opened.map SinkFile.appended = t.opened.map SinkFile.appended
  contents : s.opened.map SinkFile.content = t.opened.map SinkFile.content
  curFsize : s.curFsize = t.curFsize
  count : s.count = t.count
  opened : s.opened.length = t.opened.length
  names : ∃ k,
    s.opened.map SinkFile.name = σ.opened.map SinkFile.name ++
      (List.range' σ.readings k).map (nameAt P clock σ.basename) ∧
    t.opened.map SinkFile.name = σ.opened.map SinkFile.name ++
      (List.range' σ.readings k).map (nameAt P clock' σ.basename)

section Twin

variable {P : Platform} {clock clock' : Nat → Int} {σ s t : RollBySizeSink} {k : Nat}

theorem befores_roll (s : RollBySizeSink) : (s.roll P clock).opened.map SinkFile.before =
    s.opened.map SinkFile.before ++ [(s.files (nameAt P clock s.basename s.readings)).getD []] := by
  rw [roll_opened, List.map_append]
  rfl

/-- What a file held when it was opened does not change later. -/
theorem befores_logPieces (s : RollBySizeSink) (ps : List Bytes) :
    s.opened.map SinkFile.before <+: (s.logPieces P clock ps).opened.map SinkFile.before := by
  refine logPieces_invariant P clock
    (motive := fun t => s.opened.map SinkFile.before <+: t.opened.map SinkFile.before)
    (fun t p h => ?_) (fun t h => ?_) List.prefix_rfl ps
  · have hw : (t.write p).opened.map SinkFile.before = t.opened.map SinkFile.before := by
      simp [RollBySizeSink.opened, write, SinkFile.write]
    rwa [hw]
  · rw [befores_roll]
    exact h.trans (List.prefix_append ..)

theorem Since.fresh_next (h : Since P clock σ k s) (ps : List Bytes)
    (hf : Fresh σ ((s.roll P clock).logPieces P clock ps)) :
    (s.files (nameAt P clock s.basename s.readings)).getD [] = [] := by
  have hlen : σ.opened.length ≤ s.opened.length := by
    have := congrArg List.length h.names
    rw [List.length_map, List.length_append, List.length_map] at this
    omega
  have hgrown : (s.roll P clock).opened.map SinkFile.before <+:
      ((s.roll P clock).logPieces P clock ps).opened.map SinkFile.before :=
    befores_logPieces _ ps
  obtain ⟨later, hlater⟩ := hgrown
  rw [befores_roll, List.append_assoc] at hlater
  have hall : ∀ b ∈ (((s.roll P clock).logPieces P clock ps).opened.map SinkFile.before).drop
      σ.opened.length, b = [] := by
    rw [← List.map_drop, List.forall_mem_map]
    exact hf
  rw [← hlater, List.drop_append_of_le_length (by rwa [List.length_map])] at hall
  exact hall _ (List.mem_append_right _ List.mem_cons_self)

/-- Two continuations of `σ` under different clocks that have opened as many files. -/
structure Twin (P : Platform) (clock clock' : Nat → Int) (σ : RollBySizeSink) (k : Nat)
    (s t : RollBySizeSink) : Prop where
  left : Since P clock σ k s
  right : Since P clock' σ k t
  closed : s.closed.map SinkFile.body = t.closed.map SinkFile.body
  current : s.current.body = t.current.body
  curFsize : s.curFsize = t.curFsize

theorem Twin.refl (σ : RollBySizeSink) : Twin P clock clock' σ 0 σ σ :=
  ⟨.refl σ, .refl σ, rfl, rfl, rfl⟩

theorem Twin.write (h : Twin P clock clock' σ k s t) (p : Bytes) :
    Twin P clock clock' σ k (s.write p) (t.write p) := by
  obtain ⟨hb, hp⟩ := Prod.ext_iff.mp h.current
  refine ⟨h.left.write p, h.right.write p, h.closed, Prod.ext hb ?_, ?_⟩
  · exact congrArg (· ++ [p]) hp
  · exact congrArg (· + p.length) h.curFsize

theorem Twin.roll (h : Twin P clock clock' σ k s t)
    (hs : (s.files (nameAt P clock s.basename s.readings)).getD [] = [])
    (ht : (t.files (nameAt P clock' t.basename t.readings)).getD [] = []) :
    Twin P clock clock' σ (k + 1) (s.roll P clock) (t.roll P clock') := by
  have hbody : (SinkFile.opened s.files (nameAt P clock s.basename s.readings)).body =
      (SinkFile.opened t.files (nameAt P clock' t.basename t.readings)).body := by
    simp only [SinkFile.body, SinkFile.opened, hs, ht]
  refine ⟨h.left.roll, h.right.roll, ?_, ?_, ?_⟩
  · rw [roll_closed, roll_closed, RollBySizeSink.opened, RollBySizeSink.opened, List.map_append,
      List.map_append, h.closed, List.map_singleton, List.map_singleton, h.current]
  · rw [roll_current, roll_current]
    exact hbody
  · rw [roll_curFsize, roll_curFsize, hs, ht]

theorem Twin.full_iff (h : Twin P clock clock' σ k s t) :
    s.curFsize ≥ s.maxFsize ↔ t.curFsize ≥ t.maxFsize := by
  rw [h.curFsize, h.left.maxFsize, h.right.maxFsize]

theorem Twin.logPieces (h : Twin P clock clock' σ k s t) (ps : List Bytes)
    (hs : Fresh σ (s.logPieces P clock ps)) (ht : Fresh σ (t.logPieces P clock' ps)) :
    ∃ k', Twin P clock clock' σ k' (s.logPieces P clock ps) (t.logPieces P clock' ps) := by
  induction ps generalizing s t k with
  | nil => exact ⟨k, h⟩
  | cons p ps ih =>
    have hw := h.write p
    by_cases hf : (s.write p).curFsize ≥ (s.write p).maxFsize
    · have hs₁ : s.logPiece P clock p = (s.write p).roll P clock := if_pos hf
      have ht₁ : t.logPiece P clock' p = (t.write p).roll P clock' := if_pos (hw.full_iff.mp hf)
      have hroll := hw.roll (hw.left.fresh_next ps (hs₁ ▸ hs))
        (hw.right.fresh_next ps (ht₁ ▸ ht))
      rw [← hs₁, ← ht₁] at hroll
      exact ih hroll hs ht
    · have hs₁ : s.logPiece P clock p = s.write p := if_neg hf
      have ht₁ : t.logPiece P clock' p = t.write p := if_neg (fun hf' => hf (hw.full_iff.mpr hf'))
      rw [← hs₁, ← ht₁] at hw
      exact ih hw hs ht

theorem Twin.agree (h : Twin P clock clock' σ k s t) : Agree P clock clock' σ s t := by
  have hopened : s.opened.map SinkFile.body = t.opened.map SinkFile.body := by
    simp only [RollBySizeSink.opened, List.map_append, h.closed, List.map_singleton, h.current]
  have happended (l : List SinkFile) :
      l.map SinkFile.appended = (l.map SinkFile.body).map fun b => b.2.flatten := by
    rw [List.map_map]
    rfl
  have hcontent (l : List SinkFile) :
      l.map SinkFile.content = (l.map SinkFile.body).map fun b => b.1 ++ b.2.flatten := by
    rw [List.map_map]
    rfl
  refine ⟨?_, ?_, h.curFsize, ?_, ?_, k, h.left.names, h.right.names⟩
  · rw [happended, happended, hopened]
  · rw [hcontent, hcontent, hopened]
  · rw [h.left.count, h.right.count]
  · simpa using congrArg List.length hopened

theorem logPieces_agree {ps : List Bytes} (hs : Fresh σ (σ.logPieces P clock ps))
    (ht : Fresh σ (σ.logPieces P clock' ps)) :
    Agree P clock clock' σ (σ.logPieces P clock ps) (σ.logPieces P clock' ps) := by
  obtain ⟨k, h⟩ := (Twin.refl σ).logPieces ps hs ht
  exact h.agree

end Twin

/-- Cutting the data at line ends into more or fewer calls makes no difference, so
neither does writing lines one by one or in batches. -/
theorem log_batching (P : Platform) (clock clock' : Nat → Int) (σ : RollBySizeSink) :
    (∀ chunks : List Bytes,
      (∀ c ∈ (chunks.filter (· ≠ [])).dropLast, c.getLast? = some newline) →
      Fresh σ (σ.logAll P clock chunks) → Fresh σ (σ.log P clock' chunks.flatten) →
      Agree P clock clock' σ (σ.logAll P clock chunks) (σ.log P clock' chunks.flatten)) ∧
    (∀ (records : List Bytes) (batches : List (List Bytes)),
      (∀ r ∈ records, r.getLast? = some newline) → batches.flatten = records →
      Fresh σ (σ.logAll P clock records) →
      Fresh σ (σ.logAll P clock' (batches.map List.flatten)) →
      Agree P clock clock' σ (σ.logAll P clock records)
        (σ.logAll P clock' (batches.map List.flatten))) := by
  refine ⟨fun chunks h => ?_, fun records batches h hb => ?_⟩
  · rw [logAll_eq, log_eq, Delimited.pieces_flatten_chunks h]
    exact logPieces_agree
  · subst hb
    rw [logAll_eq, logAll_eq, Delimited.flatMap_pieces_batches h]
    exact logPieces_agree

/-- On an empty disk every file is new, as long as no name comes twice. -/
theorem fresh_make (P : Platform) (clock clock' : Nat → Int) {basename : Bytes}
    (hb : 0 ∉ basename) (maxSize : Nat) {ps : List Bytes} (hn : ps.length < UInt64.size) :
    let σ := make P clock basename maxSize .empty
    Fresh σ (σ.logPieces P clock' ps) := by
  intro σ f hf
  obtain ⟨k, -, hk⟩ := (Since.refl σ : Since P clock' σ 0 σ).logPieces ps
  have hbase : (σ.logPieces P clock' ps).basename = basename := hk.basename
  have hlen : (σ.logPieces P clock' ps).opened.length ≤ UInt64.size := by
    have hle := opened_length_le P clock' σ ps
    have hone : σ.opened.length = 1 := rfl
    omega
  have hd := ((numbered_make basename maxSize .empty).logPieces ps).nodup
    (show 0 ∉ (σ.logPieces P clock' ps).basename by rwa [hbase]) hlen .empty
  exact ((kept_make basename maxSize).logPieces ps).before_eq hd (List.mem_of_mem_drop hf)

theorem log_batching_lines :
    let P : Platform := ⟨fun _ => [], fun _ => ⟨0, 0, 0, 0, 0, 0, 0, 0, 0⟩, fun _ _ => [],
      fun _ _ _ => 0⟩
    let σ := make P (fun _ => 0) (utf8 "roll") 1 .empty
    Agree P (fun _ => 0) (fun _ => 7) σ (σ.logAll P (fun _ => 0) [[10], [10]])
      (σ.log P (fun _ => 7) [10, 10]) := by
  intro P σ
  refine (log_batching P (fun _ => 0) (fun _ => 7) σ).1 [[10], [10]] (by decide) ?_ ?_
  · rw [logAll_eq]
    exact fresh_make P _ _ (by decide) _ (by decide)
  · rw [log_eq]
    exact fresh_make P _ _ (by decide) _ (by decide)

end RollBySizeSink

end MyLog
