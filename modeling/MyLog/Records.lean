import MyLog.Formatter
import MyLog.Lib.Template

/-! When the records that a formatter prints can be told apart and read back. -/

namespace MyLog

/-- Tabs, newlines and other text are the same in all records; the other items are fields. -/
def FormatItem.slot : FormatItem → Template.Slot UInt8 FormatItem
  | .tab => .text [ascii '\t']
  | .newLine => .text [newline]
  | .other str => .text str
  | item => .hole item

namespace Formatter

def template (f : Formatter) : List (Template.Slot UInt8 FormatItem) :=
  f.items.map FormatItem.slot

/-- Each field of the record is followed by a character that it does not contain. -/
def Readable (P : Platform) (f : Formatter) (m : LogMsg) : Prop :=
  Template.Separated (FormatItem.format P m) f.template

def SameFields (P : Platform) (f : Formatter) (m m' : LogMsg) : Prop :=
  ∀ item ∈ f.items, item.format P m = item.format P m'

variable {P : Platform} {f : Formatter} {m m' : LogMsg}

theorem slot_fill (P : Platform) (m : LogMsg) (item : FormatItem) :
    item.slot.fill (FormatItem.format P m) = item.format P m := by
  cases item <;> rfl

theorem format_eq_render (P : Platform) (f : Formatter) (m : LogMsg) :
    f.format P m = Template.render (FormatItem.format P m) f.template := by
  rw [format, Template.render, template, List.flatMap_map]
  simp only [slot_fill]

/-- The items that are not fields print the same for every message. -/
theorem slot_cases (item : FormatItem) :
    item.slot = .hole item ∨ ∀ P m m', item.format P m = item.format P m' := by
  cases item with
  | tab | newLine | other => exact .inr fun _ _ _ => rfl
  | _ => exact .inl rfl

theorem sameFields_of_holes
    (h : ∀ item, .hole item ∈ f.template → item.format P m = item.format P m') :
    SameFields P f m m' := by
  intro item hi
  rcases slot_cases item with hs | hs
  · exact h item (hs ▸ List.mem_map_of_mem hi)
  · exact hs P m m'

/-- Readable records that stand one after the other give their fields back. -/
theorem sameFields_of_flatMap {ms ms' : List LogMsg}
    (h : ∀ m ∈ ms ++ ms', f.Readable P m ∧ f.format P m ≠ [])
    (he : ms.flatMap (f.format P) = ms'.flatMap (f.format P)) :
    List.Forall₂ (SameFields P f) ms ms' := by
  rw [List.forall_mem_append] at h
  have hrecord {l : List LogMsg} (hl : ∀ m ∈ l, f.Readable P m ∧ f.format P m ≠ []) :
      ∀ v ∈ l.map (FormatItem.format P), Template.Separated v f.template ∧
        Template.render v f.template ≠ [] := by
    intro v hv
    obtain ⟨m, hm, rfl⟩ := List.mem_map.mp hv
    exact format_eq_render P f m ▸ hl m hm
  have hfields := Template.flatMap_render_inj (hrecord h.1) (hrecord h.2) <| by
    simpa only [List.flatMap_map, ← format_eq_render] using he
  rw [List.forall₂_map_left_iff, List.forall₂_map_right_iff] at hfields
  exact hfields.imp fun _ _ => sameFields_of_holes

theorem format_split {pre post : List FormatItem} (hf : f.items = pre ++ .msg :: post)
    (m : LogMsg) : f.format P m = pre.flatMap (FormatItem.format P m) ++ (m.payload ++
      post.flatMap (FormatItem.format P m)) := by
  rw [format, hf, List.flatMap_append, List.flatMap_cons]
  rfl

/-- Where only texts follow the payload, two records are also one record of a payload with
a line break in it. -/
theorem forged {pre post : List FormatItem} (hf : f.items = pre ++ .msg :: post)
    (hpre : .msg ∉ pre) (hpost : ∀ item ∈ post, ∃ t, item.slot = .text t) (m m' : LogMsg) :
    ∃ payload, f.format P { m with payload := payload } = f.format P m ++ f.format P m' ∧
      (0 ∉ f.format P m ++ f.format P m' → 0 ∉ payload) := by
  have htail (n : LogMsg) : post.flatMap (FormatItem.format P n) =
      post.flatMap (FormatItem.format P m') := by
    refine congrArg List.flatten (List.map_congr_left fun item hi => ?_)
    rcases slot_cases item with hs | hs
    · obtain ⟨t, ht⟩ := hpost item hi
      rw [hs] at ht
      cases ht
    · exact hs P n m'
  have hhead (payload : Bytes) : pre.flatMap (FormatItem.format P { m with payload := payload }) =
      pre.flatMap (FormatItem.format P m) := by
    refine congrArg List.flatten (List.map_congr_left fun item hi => ?_)
    cases item with
    | msg => exact (hpre hi).elim
    | _ => rfl
  obtain ⟨payload, hp⟩ : ∃ payload, payload = m.payload ++ (post.flatMap (FormatItem.format P m') ++
    (pre.flatMap (FormatItem.format P m') ++ m'.payload)) := ⟨_, rfl⟩
  have he : f.format P { m with payload := payload } = f.format P m ++ f.format P m' := by
    simp only [format_split hf, hhead, htail, hp, List.append_assoc]
  refine ⟨payload, he, fun hn hm => hn ?_⟩
  rw [← he, format_split hf]
  exact List.mem_append_right _ (List.mem_append_left _ hm)

/-- Records give their fields back where each field ends at the character after it. A
payload that ends at a line break must not contain one: with it, two records can be one. -/
theorem records_readable (P : Platform) (f : Formatter) :
    (∀ ms ms', (∀ m ∈ ms ++ ms', f.Readable P m ∧ f.format P m ≠ []) →
      ms.flatMap (f.format P) = ms'.flatMap (f.format P) →
      List.Forall₂ (SameFields P f) ms ms') ∧
    ∀ pre post, f.items = pre ++ .msg :: post → .msg ∉ pre →
      (∀ item ∈ post, ∃ t, item.slot = .text t) →
      ∀ m m', ∃ payload, f.format P { m with payload := payload } = f.format P m ++ f.format P m' ∧
        (0 ∉ f.format P m ++ f.format P m' → 0 ∉ payload) :=
  ⟨fun _ _ => sameFields_of_flatMap, fun _ _ => forged⟩

theorem readable_default_iff {pattern : Bytes} : Readable P ⟨pattern, defaultItems⟩ m ↔
    ascii ']' ∉ timeText P (utf8 "%H:%M:%S") m.ctime ∧ ascii ']' ∉ P.threadText m.tid ∧
      ascii ']' ∉ m.logger ∧ ascii ':' ∉ m.file ∧ newline ∉ m.payload := by
  have hline : ascii ']' ∉ decimal m.line := notMem_decimal (by decide) _
  have hlevel : ascii ']' ∉ m.level.toString := by
    cases m.level <;> decide
  have hnext : utf8 "][" = [ascii ']', ascii '['] := rfl
  have hlast : utf8 "]" = [ascii ']'] := rfl
  have hcolon : utf8 ":" = [ascii ':'] := rfl
  simp [Readable, template, defaultItems, FormatItem.slot, Template.Separated, Template.first,
    FormatItem.format, hnext, hlast, hcolon, hline, hlevel]

end Formatter

end MyLog
