import MyLog.Formatter

/-! The grammar of patterns and its meaning, and the parser's agreement with both. -/

namespace MyLog

inductive Piece
  | literal (c : UInt8)
  | escape
  | bare (k : UInt8)
  | field (k : UInt8) (s : Bytes)
  deriving DecidableEq

inductive Derives : Bytes → List Piece → Prop
  | empty : Derives [] []
  | literal {c : UInt8} {p : Bytes} {ps : List Piece} (hc : c ≠ percent)
      (h : Derives p ps) : Derives (c :: p) (.literal c :: ps)
  | escape {p : Bytes} {ps : List Piece} (h : Derives p ps) :
      Derives (percent :: percent :: p) (.escape :: ps)
  | bare {k : UInt8} {p : Bytes} {ps : List Piece} (hk : k ≠ percent)
      (hp : p.head? ≠ some openBrace) (h : Derives p ps) :
      Derives (percent :: k :: p) (.bare k :: ps)
  | field {k : UInt8} {s p : Bytes} {ps : List Piece} (hk : k ≠ percent)
      (hs : closeBrace ∉ s) (h : Derives p ps) :
      Derives (percent :: k :: openBrace :: (s ++ closeBrace :: p)) (.field k s :: ps)

/-- Scanning from the left meets a `%` at the end, or a `{` right after a
placeholder character and no `}` after it. -/
inductive Dangling : Bytes → Prop
  | lone : Dangling [percent]
  | unclosed {k : UInt8} {s : Bytes} (hk : k ≠ percent) (hs : closeBrace ∉ s) :
      Dangling (percent :: k :: openBrace :: s)
  | literal {c : UInt8} {p : Bytes} (hc : c ≠ percent) (h : Dangling p) : Dangling (c :: p)
  | escape {p : Bytes} (h : Dangling p) : Dangling (percent :: percent :: p)
  | bare {k : UInt8} {p : Bytes} (hk : k ≠ percent) (hp : p.head? ≠ some openBrace)
      (h : Dangling p) : Dangling (percent :: k :: p)
  | field {k : UInt8} {s p : Bytes} (hk : k ≠ percent) (hs : closeBrace ∉ s)
      (h : Dangling p) : Dangling (percent :: k :: openBrace :: (s ++ closeBrace :: p))

section Meaning

variable (P : Platform) (m : LogMsg)

def fieldText (k : UInt8) (s : Bytes) : Bytes :=
  if k = ascii 'd' then cString (P.strftime 31 s (P.localtime m.ctime))
  else if k = ascii 't' then P.threadText m.tid
  else if k = ascii 'c' then m.logger
  else if k = ascii 'f' then m.file
  else if k = ascii 'l' then decimal m.line
  else if k = ascii 'p' then m.level.toString
  else if k = ascii 'T' then [ascii '\t']
  else if k = ascii 'm' then m.payload
  else if k = ascii 'n' then [newline]
  else s

def Piece.text : Piece → Bytes
  | .literal c => [c]
  | .escape => [percent]
  | .bare k => fieldText P m k []
  | .field k s => fieldText P m k s

def orderText (order : List (Bytes × Bytes)) : Bytes :=
  order.flatMap fun it => (createItem it.1 it.2).format P m

variable {P m}

theorem createItem_format (k : UInt8) (s : Bytes) :
    (createItem [k] s).format P m = fieldText P m k s := by
  simp only [createItem, List.cons.injEq, and_true, apply_ite (FormatItem.format P m)]
  rfl

theorem orderText_flush (order : List (Bytes × Bytes)) (val : Bytes) :
    orderText P m (flush order val) = orderText P m order ++ val := by
  cases val with
  | nil => simp [flush]
  | cons c val => simp [flush, orderText, createItem, FormatItem.format]

theorem orderText_field (order : List (Bytes × Bytes)) (val s : Bytes) (k : UInt8) :
    orderText P m (flush order val ++ [([k], s)]) =
      orderText P m order ++ val ++ fieldText P m k s := by
  rw [← orderText_flush]
  simp [orderText, createItem_format]

end Meaning

/-- On a derived pattern the parser succeeds, and its entries mean the pending
entries, the pending literal text and then the pieces. -/
theorem parseLoop_derives {p : Bytes} {ps : List Piece} (h : Derives p ps)
    (order : List (Bytes × Bytes)) (val : Bytes) :
    ∃ out, parseLoop order val p = .ok out ∧ ∀ P m,
      orderText P m out = orderText P m order ++ val ++ ps.flatMap (Piece.text P m) := by
  induction h generalizing order val with
  | empty => exact ⟨_, parseLoop_nil, fun P m => by simp [orderText_flush]⟩
  | @literal c p ps hc _ ih =>
    obtain ⟨out, ho, ht⟩ := ih order (val ++ [c])
    exact ⟨out, by rw [parseLoop_literal hc, ho], fun P m => by simp [ht, Piece.text]⟩
  | @escape p ps _ ih =>
    obtain ⟨out, ho, ht⟩ := ih order (val ++ [percent])
    exact ⟨out, by rw [parseLoop_escape, ho], fun P m => by simp [ht, Piece.text]⟩
  | @bare k p ps hk hp _ ih =>
    obtain ⟨out, ho, ht⟩ := ih (flush order val ++ [([k], [])]) []
    refine ⟨out, by rw [parseLoop_field hk (subParam_bare hp), ho], fun P m => ?_⟩
    rw [ht, orderText_field]
    simp [Piece.text]
  | @field k s p ps hk hs _ ih =>
    obtain ⟨out, ho, ht⟩ := ih (flush order val ++ [([k], s)]) []
    refine ⟨out, by rw [parseLoop_field hk (subParam_closed hs), ho], fun P m => ?_⟩
    rw [ht, orderText_field]
    simp [Piece.text]

theorem parseLoop_dangling {p : Bytes} (h : Dangling p) (order : List (Bytes × Bytes))
    (val : Bytes) : ∃ e, parseLoop order val p = .error e := by
  induction h generalizing order val with
  | lone => exact ⟨_, parseLoop_lone⟩
  | unclosed hk hs => exact ⟨_, parseLoop_unclosed hk (subParam_open hs)⟩
  | literal hc _ ih =>
    rw [parseLoop_literal hc]
    exact ih _ _
  | escape _ ih =>
    rw [parseLoop_escape]
    exact ih _ _
  | bare hk hp _ ih =>
    rw [parseLoop_field hk (subParam_bare hp)]
    exact ih _ _
  | field hk hs _ ih =>
    rw [parseLoop_field hk (subParam_closed hs)]
    exact ih _ _

theorem after_placeholder (p : Bytes) :
    p.head? ≠ some openBrace ∨
      (∃ s, closeBrace ∉ s ∧ p = openBrace :: s) ∨
      ∃ s rest, closeBrace ∉ s ∧ p = openBrace :: (s ++ closeBrace :: rest) := by
  cases p with
  | nil => simp
  | cons c p =>
    by_cases hc : c = openBrace
    · subst hc
      by_cases hp : closeBrace ∈ p
      · obtain ⟨s, rest, rfl, hs⟩ := List.eq_append_cons_of_mem hp
        exact .inr (.inr ⟨s, rest, hs, rfl⟩)
      · exact .inr (.inl ⟨p, hp, rfl⟩)
    · simp [hc]

theorem derives_or_dangling (p : Bytes) : (∃ ps, Derives p ps) ∨ Dangling p := by
  induction hn : p.length using Nat.strong_induction_on generalizing p with
  | _ n ih =>
    have go (q : Bytes) (hq : q.length < p.length) : (∃ ps, Derives q ps) ∨ Dangling q :=
      ih q.length (hn ▸ hq) q rfl
    match p with
    | [] => exact .inl ⟨[], .empty⟩
    | c :: p =>
      by_cases hc : c = percent
      · subst hc
        match p with
        | [] => exact .inr .lone
        | k :: p =>
          by_cases hk : k = percent
          · subst hk
            rcases go p (by simp only [List.length_cons]; omega) with ⟨ps, h⟩ | h
            · exact .inl ⟨_, .escape h⟩
            · exact .inr (.escape h)
          · rcases after_placeholder p with hp | ⟨s, hs, rfl⟩ | ⟨s, rest, hs, rfl⟩
            · rcases go p (by simp only [List.length_cons]; omega) with ⟨ps, h⟩ | h
              · exact .inl ⟨_, .bare hk hp h⟩
              · exact .inr (.bare hk hp h)
            · exact .inr (.unclosed hk hs)
            · rcases go rest (by simp only [List.length_cons, List.length_append]; omega) with ⟨ps, h⟩ | h
              · exact .inl ⟨_, .field hk hs h⟩
              · exact .inr (.field hk hs h)
      · rcases go p (by simp) with ⟨ps, h⟩ | h
        · exact .inl ⟨_, .literal hc h⟩
        · exact .inr (.literal hc h)

theorem closed_unique {s s' p p' : Bytes} (hs : closeBrace ∉ s) (hs' : closeBrace ∉ s')
    (h : s ++ closeBrace :: p = s' ++ closeBrace :: p') : s = s' ∧ p = p' := by
  have hr : readSubParam [] (s ++ closeBrace :: p) = .ok ([] ++ s, p) := readSubParam_closed hs
  rw [h, readSubParam_closed hs'] at hr
  simp at hr
  exact ⟨hr.1.symm, hr.2.symm⟩

theorem derives_unique {p : Bytes} {ps ps' : List Piece} (h : Derives p ps)
    (h' : Derives p ps') : ps = ps' := by
  induction h generalizing ps' with
  | empty =>
    cases h'
    rfl
  | literal hc _ ih =>
    cases h' with
    | literal _ h' => rw [ih h']
    | escape | bare | field => exact (hc rfl).elim
  | escape _ ih =>
    cases h' with
    | literal hc => exact (hc rfl).elim
    | escape h' => rw [ih h']
    | bare hk | field hk => exact (hk rfl).elim
  | bare hk hp _ ih =>
    cases h' with
    | literal hc => exact (hc rfl).elim
    | escape => exact (hk rfl).elim
    | bare _ _ h' => rw [ih h']
    | field => exact (hp rfl).elim
  | @field k s p ps hk hs _ ih =>
    generalize hq : percent :: k :: openBrace :: (s ++ closeBrace :: p) = q at h'
    cases h' with
    | empty => cases hq
    | literal hc => exact (hc (List.cons.inj hq).1.symm).elim
    | escape => exact (hk (List.cons.inj (List.cons.inj hq).2).1).elim
    | bare _ hp =>
      rw [← (List.cons.inj (List.cons.inj hq).2).2] at hp
      exact (hp rfl).elim
    | @field k' s' p' ps' _ hs' h' =>
      simp only [List.cons.injEq, true_and] at hq
      obtain ⟨rfl, hq⟩ := hq
      obtain ⟨rfl, rfl⟩ := closed_unique hs hs' hq
      rw [ih h']

namespace Formatter

theorem parsePattern_true {p : Bytes} {ps : List Piece} (h : Derives p ps) :
    (parsePattern ⟨p, []⟩).1 = true := by
  obtain ⟨out, ho, _⟩ := parseLoop_derives h [] []
  simp [parsePattern, ho]

theorem parsePattern_false {p : Bytes} (h : Dangling p) :
    (parsePattern ⟨p, []⟩).1 = false := by
  obtain ⟨e, he⟩ := parseLoop_dangling h [] []
  simp [parsePattern, he]

theorem parsePattern_derives {p : Bytes} (h : (parsePattern ⟨p, []⟩).1 = true) :
    ∃ ps, Derives p ps := by
  refine (derives_or_dangling p).resolve_right fun hd => ?_
  simp [parsePattern_false hd] at h

theorem make_format {p : Bytes} {ps : List Piece} (h : Derives p ps) :
    ∃ f, make p = some f ∧ ∀ P m, f.format P m = ps.flatMap (Piece.text P m) := by
  obtain ⟨out, ho, ht⟩ := parseLoop_derives h [] []
  refine ⟨⟨p, out.map fun it => createItem it.1 it.2⟩, by simp [make, parsePattern, ho], ?_⟩
  intro P m
  rw [format, List.flatMap_map]
  simpa [orderText] using ht P m

/-- The parser accepts the patterns of the grammar, each has one derivation, and
the formatter writes what the derivation says. -/
theorem pattern_grammar (p : Bytes) :
    ((parsePattern ⟨p, []⟩).1 = true ↔ ∃ ps, Derives p ps) ∧
    ((parsePattern ⟨p, []⟩).1 = false ↔ Dangling p) ∧
    (∀ ps ps', Derives p ps → Derives p ps' → ps = ps') ∧
    (∀ ps, Derives p ps →
      ∃ f, make p = some f ∧ ∀ P m, f.format P m = ps.flatMap (Piece.text P m)) := by
  refine ⟨⟨parsePattern_derives, fun ⟨_, h⟩ => parsePattern_true h⟩,
    ⟨fun h => ?_, parsePattern_false⟩, fun _ _ => derives_unique, fun _ => make_format⟩
  refine (derives_or_dangling p).resolve_left fun ⟨_, hd⟩ => ?_
  simp [parsePattern_true hd] at h

end Formatter

end MyLog
