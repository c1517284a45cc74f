import MyLog.Grammar

/-! The constructor of `Formatter` parses its pattern inside `assert`, so a build without
assertions never parses it. -/

namespace MyLog

theorem decimal_ne_nil (n : Nat) : decimal n ≠ [] := by
  rw [decimal, ne_eq, List.map_eq_nil_iff]
  exact Nat.toDigits_ne_nil

theorem LogLevel.toString_ne_nil (l : LogLevel) : l.toString ≠ [] := by
  cases l <;> decide

theorem cString_eq_nil_iff {b : Bytes} (hb : b ≠ []) : cString b = [] ↔ b.head? = some 0 := by
  cases b with
  | nil => exact (hb rfl).elim
  | cons c b => by_cases hc : c = 0 <;> simp [cString, hc]

theorem Platform.strftime_ne_nil (P : Platform) (fmt : Bytes) (tm : Tm) :
    P.strftime 31 fmt tm ≠ [] := by
  rw [Platform.strftime]
  split
  · next h => simp; omega
  · simp

def BlankField (P : Platform) (m : LogMsg) (k : UInt8) (s : Bytes) : Prop :=
  if k = ascii 'd' then (P.strftime 31 s (P.localtime m.ctime)).head? = some 0
  else if k = ascii 't' then P.threadText m.tid = []
  else if k = ascii 'c' then m.logger = []
  else if k = ascii 'f' then m.file = []
  else if k = ascii 'm' then m.payload = []
  else if k ∈ [ascii 'l', ascii 'p', ascii 'T', ascii 'n'] then False
  else s = []

def Piece.Blank (P : Platform) (m : LogMsg) : Piece → Prop
  | .literal _ | .escape => False
  | .bare k => BlankField P m k []
  | .field k s => BlankField P m k s

section Blank

variable (P : Platform) (m : LogMsg)

theorem fieldText_eq_nil_iff (k : UInt8) (s : Bytes) :
    fieldText P m k s = [] ↔ BlankField P m k s := by
  by_cases hd : k = ascii 'd'
  · subst hd
    exact cString_eq_nil_iff (P.strftime_ne_nil _ _)
  by_cases ht : k = ascii 't'
  · subst ht
    exact Iff.rfl
  by_cases hc : k = ascii 'c'
  · subst hc
    exact Iff.rfl
  by_cases hf : k = ascii 'f'
  · subst hf
    exact Iff.rfl
  by_cases hm : k = ascii 'm'
  · subst hm
    exact Iff.rfl
  by_cases hl : k = ascii 'l'
  · subst hl
    exact iff_false_intro (decimal_ne_nil _)
  by_cases hp : k = ascii 'p'
  · subst hp
    exact iff_false_intro (LogLevel.toString_ne_nil _)
  by_cases hT : k = ascii 'T'
  · subst hT
    exact iff_false_intro (List.cons_ne_nil _ _)
  by_cases hn : k = ascii 'n'
  · subst hn
    exact iff_false_intro (List.cons_ne_nil _ _)
  simp [fieldText, BlankField, hd, ht, hc, hf, hm, hl, hp, hT, hn]

theorem Piece.text_eq_nil_iff (x : Piece) : x.text P m = [] ↔ x.Blank P m := by
  cases x with
  | literal | escape => simp [Piece.text, Piece.Blank]
  | bare k => exact fieldText_eq_nil_iff P m k []
  | field k s => exact fieldText_eq_nil_iff P m k s

end Blank

namespace Formatter

/-- `Formatter::Formatter`; `none` where the assertion fails. Without assertions the
expression of the assertion is not evaluated. -/
def construct (ndebug : Bool) (pattern : Bytes) : Option Formatter :=
  if ndebug then some ⟨pattern, []⟩
  else
    let (ok, _, f) := parsePattern ⟨pattern, []⟩
    if ok then some f else none

/-- The two builds write the same text exactly if every piece of the pattern is a
placeholder that is blank for the message. -/
theorem build_modes_agree {p : Bytes} (h : (parsePattern ⟨p, []⟩).1 = true) :
    ∃ ps f g, Derives p ps ∧ construct false p = some f ∧ construct true p = some g ∧
      ∀ P m, f.format P m = g.format P m ↔ ∀ x ∈ ps, x.Blank P m := by
  obtain ⟨ps, hd⟩ := parsePattern_derives h
  obtain ⟨f, hf, ht⟩ := make_format hd
  refine ⟨ps, f, ⟨p, []⟩, hd, hf, rfl, fun P m => ?_⟩
  have hg : format P ⟨p, []⟩ m = [] := rfl
  rw [ht, hg, List.flatMap_eq_nil_iff]
  exact forall₂_congr fun x _ => Piece.text_eq_nil_iff P m x

theorem build_modes_agree_message : ∃ f g, construct false (utf8 "%m") = some f ∧
    construct true (utf8 "%m") = some g ∧
    ∀ P m, f.format P m = g.format P m ↔ m.payload = [] := by
  have h : Derives (utf8 "%m") [.bare (ascii 'm')] :=
    Derives.bare (k := ascii 'm') (by decide) (by decide) .empty
  obtain ⟨ps, f, g, hd, hf, hg, ht⟩ := build_modes_agree (parsePattern_true h)
  refine ⟨f, g, hf, hg, fun P m => ?_⟩
  rw [ht, derives_unique hd h, List.forall_mem_singleton]
  exact Iff.rfl

theorem build_modes_differ : ¬ ∀ (p : Bytes) (f g : Formatter), construct false p = some f →
    construct true p = some g → ∀ P m, f.format P m = g.format P m := by
  intro hall
  have h : Derives (utf8 "-") [.literal dash] := .literal (by decide) .empty
  obtain ⟨f, hf, ht⟩ := make_format h
  have he := hall _ f ⟨utf8 "-", []⟩ hf rfl .midnight ⟨0, .info, [], 1, 0, [], []⟩
  rw [ht] at he
  cases he

end Formatter

end MyLog
