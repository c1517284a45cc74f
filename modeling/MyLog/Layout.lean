import MyLog.Grammar

/-! Layouts, lists of literal texts and fields, and their printed patterns. -/

namespace MyLog

inductive Element
  | literal (text : Bytes)
  | field (k : UInt8) (s : Bytes) (hk : k ≠ percent) (hs : closeBrace ∉ s)

namespace Element

/-- Literals double every `%`; a field is written with its sub-parameter. -/
def print : Element → Bytes
  | literal text => text.flatMap fun c => if c = percent then [percent, percent] else [c]
  | field k s _ _ => percent :: k :: openBrace :: (s ++ [closeBrace])

def text (P : Platform) (m : LogMsg) : Element → Bytes
  | literal text => text
  | field k s _ _ => (createItem [k] s).format P m

def pieces : Element → List Piece
  | literal text => text.map fun c => if c = percent then .escape else .literal c
  | field k s _ _ => [.field k s]

theorem derives_print (e : Element) {p : Bytes} {ps : List Piece} (h : Derives p ps) :
    Derives (e.print ++ p) (e.pieces ++ ps) := by
  cases e with
  | field k s hk hs => simpa [print, pieces] using Derives.field hk hs h
  | literal text =>
    induction text with
    | nil => exact h
    | cons c text ih =>
      by_cases hc : c = percent
      · simpa [print, pieces, hc] using Derives.escape ih
      · simpa [print, pieces, hc] using Derives.literal hc ih

theorem pieces_text (e : Element) (P : Platform) (m : LogMsg) :
    e.pieces.flatMap (Piece.text P m) = e.text P m := by
  cases e with
  | field k s => simp [pieces, text, Piece.text, createItem_format]
  | literal text =>
    induction text with
    | nil => rfl
    | cons c text ih =>
      have hc : Piece.text P m (if c = percent then .escape else .literal c) = [c] := by
        by_cases hc : c = percent
        · simp [hc, Piece.text]
        · simp [hc, Piece.text]
      simpa [pieces, Element.text, hc] using ih

end Element

namespace Formatter

def printLayout (es : List Element) : Bytes :=
  es.flatMap Element.print

theorem derives_printLayout (es : List Element) :
    Derives (printLayout es) (es.flatMap Element.pieces) := by
  induction es with
  | nil => exact .empty
  | cons e es ih => simpa [printLayout] using e.derives_print ih

theorem layout_round_trip (es : List Element) :
    (parsePattern ⟨printLayout es, []⟩).1 = true ∧
      ∃ f, make (printLayout es) = some f ∧
        ∀ P m, f.format P m = es.flatMap (Element.text P m) := by
  have hd := derives_printLayout es
  obtain ⟨f, hf, ht⟩ := make_format hd
  refine ⟨parsePattern_true hd, f, hf, fun P m => ?_⟩
  rw [ht, List.flatMap_assoc]
  exact congrArg List.flatten (List.map_congr_left fun e _ => e.pieces_text P m)

end Formatter

end MyLog
