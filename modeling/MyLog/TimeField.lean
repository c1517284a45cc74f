import MyLog.Grammar

/-! What `TimeFormatItem` writes: into an array of 32 bytes, of which `strftime` may use 31,
and with the empty format where a pattern has a bare `%d`. -/

namespace MyLog

theorem cString_padded {b : Bytes} {n : Nat} (h : 0 ∉ b) (hn : 0 < n) :
    cString (b ++ List.replicate n 0) = b := by
  obtain ⟨k, rfl⟩ : ∃ k, n = k + 1 := ⟨n - 1, by omega⟩
  exact cString_append_nul h (List.replicate k 0)

section Fits

variable {P : Platform} {fmt : Bytes} {ctime : Int}

theorem timeText_fits (hn : 0 ∉ P.expansion (cString fmt) (P.localtime ctime))
    (hl : (P.expansion (cString fmt) (P.localtime ctime)).length + 1 ≤ 31) :
    timeText P fmt ctime = P.expansion (cString fmt) (P.localtime ctime) := by
  rw [timeText, Platform.strftime, if_pos hl]
  exact cString_padded hn (by omega)

variable (P) in
/-- Where it does not fit, the first byte printed may be any. -/
theorem timeText_overflow (hl : ¬ (P.expansion (cString fmt) (P.localtime ctime)).length + 1 ≤ 31) :
    timeText { P with leftover := fun _ _ _ => 0 } fmt ctime = [] ∧
      timeText { P with leftover := fun _ _ _ => 1 } fmt ctime ≠ [] := by
  have hr : List.range 31 = 0 :: List.range' 1 30 := rfl
  constructor <;> simp only [timeText, Platform.strftime, if_neg hl, hr] <;> simp [cString]

/-- The whole expansion of the sub-format is printed, whatever `strftime` leaves behind where
it fails, exactly if all of the sub-format reaches `strftime` and the expansion fits. -/
theorem timeText_complete_iff (hP : ∀ fmt tm, 0 ∉ P.expansion (cString fmt) tm) :
    (∀ leftover, timeText { P with leftover := leftover } fmt ctime =
        P.expansion fmt (P.localtime ctime)) ↔
      P.expansion (cString fmt) (P.localtime ctime) = P.expansion fmt (P.localtime ctime) ∧
        (P.expansion fmt (P.localtime ctime)).length + 1 ≤ 31 := by
  constructor
  · intro h
    have hl : (P.expansion (cString fmt) (P.localtime ctime)).length + 1 ≤ 31 := by
      by_contra hl
      obtain ⟨h₀, h₁⟩ := timeText_overflow P hl
      rw [h] at h₀ h₁
      exact h₁ h₀
    have he := h P.leftover
    rw [timeText_fits (P := { P with leftover := P.leftover }) (hP _ _) hl] at he
    exact ⟨he, he ▸ hl⟩
  · rintro ⟨he, hl⟩ leftover
    rw [← he] at hl ⊢
    exact timeText_fits (P := { P with leftover := leftover }) (hP _ _) hl

end Fits

namespace Formatter

theorem fieldText_time (P : Platform) (m : LogMsg) (s : Bytes) :
    fieldText P m (ascii 'd') s = timeText P s m.ctime := if_pos rfl

/-- A `%d` with the sub-format `s`, anywhere in an accepted pattern, is printed completely
exactly if `s` has no NUL that cuts it and its expansion fits into 31 bytes with its NUL. -/
theorem time_field_complete (P : Platform) (hP : ∀ fmt tm, 0 ∉ P.expansion (cString fmt) tm)
    {p s : Bytes} {ps qs : List Piece} (h : Derives p (ps ++ .field (ascii 'd') s :: qs))
    (m : LogMsg) : ∃ f, make p = some f ∧
      ((∀ leftover, f.format { P with leftover := leftover } m =
          ps.flatMap (Piece.text { P with leftover := leftover } m) ++
            P.expansion s (P.localtime m.ctime) ++
            qs.flatMap (Piece.text { P with leftover := leftover } m)) ↔
        P.expansion (cString s) (P.localtime m.ctime) = P.expansion s (P.localtime m.ctime) ∧
          (P.expansion s (P.localtime m.ctime)).length + 1 ≤ 31) := by
  obtain ⟨f, hf, ht⟩ := make_format h
  refine ⟨f, hf, ?_⟩
  rw [← timeText_complete_iff hP]
  refine forall_congr' fun leftover => ?_
  rw [ht, List.flatMap_append, List.flatMap_cons, List.append_assoc, List.append_cancel_left_eq,
    List.append_cancel_right_eq, Piece.text, fieldText_time]

theorem midnight_nulFree (fmt : Bytes) (tm : Tm) : 0 ∉ Platform.midnight.expansion fmt tm := by
  show 0 ∉ if fmt = utf8 "%H:%M:%S" then utf8 "00:00:00" else cString fmt
  split
  · decide
  · exact nulFree_cString fmt

theorem time_field_complete_now : ∃ f, make (utf8 "%d\x7bnow\x7d") = some f ∧ ∀ leftover,
    f.format { Platform.midnight with leftover := leftover } ⟨0, .info, [], 1, 0, [], []⟩ = utf8 "now" := by
  have h : Derives (utf8 "%d\x7bnow\x7d") ([] ++ .field (ascii 'd') (utf8 "now") :: []) :=
    Derives.field (k := ascii 'd') (s := utf8 "now") (by decide) (by decide) .empty
  obtain ⟨f, hf, ht⟩ := time_field_complete .midnight (fun fmt => midnight_nulFree (cString fmt)) h
    ⟨0, .info, [], 1, 0, [], []⟩
  exact ⟨f, hf, fun leftover => ht.mpr ⟨rfl, by decide⟩ leftover⟩

theorem time_field_cut : ¬ ∀ P : Platform, (∀ fmt tm, 0 ∉ P.expansion fmt tm) →
    ∀ (p s : Bytes) (ps qs : List Piece), Derives p (ps ++ .field (ascii 'd') s :: qs) →
    ∀ (m : LogMsg) (f : Formatter), make p = some f → f.format P m =
      ps.flatMap (Piece.text P m) ++ P.expansion s (P.localtime m.ctime) ++
        qs.flatMap (Piece.text P m) := by
  intro hall
  have h : Derives (utf8 "%d\x7bthe local time of this message is\x7d")
      ([] ++ .field (ascii 'd') (utf8 "the local time of this message is") :: []) :=
    Derives.field (k := ascii 'd') (s := utf8 "the local time of this message is")
      (by decide) (by decide) .empty
  obtain ⟨f, hf, ht⟩ := make_format h
  have he := hall .midnight midnight_nulFree _ _ _ _ h ⟨0, .info, [], 1, 0, [], []⟩ f hf
  rw [ht] at he
  have hover : ¬ (Platform.midnight.expansion (cString (utf8 "the local time of this message is"))
      (Platform.midnight.localtime 0)).length + 1 ≤ 31 := by decide
  have hlong := (timeText_overflow .midnight hover).1
  simp only [List.nil_append, List.flatMap_cons, List.flatMap_nil, List.append_nil, Piece.text,
    fieldText_time] at he
  rw [show timeText .midnight _ _ = [] from hlong] at he
  exact absurd he (by decide)

end Formatter

def Piece.source : Piece → Bytes
  | .literal c => [c]
  | .escape => [percent, percent]
  | .bare k => [percent, k]
  | .field k s => percent :: k :: openBrace :: (s ++ [closeBrace])

/-- A `%d` without a sub-parameter is given the default of `TimeFormatItem`. -/
def Piece.withDefault : Piece → Piece
  | .bare k => if k = ascii 'd' then .field k (utf8 "%H:%M:%S") else .bare k
  | x => x

theorem derives_source {p : Bytes} {ps : List Piece} (h : Derives p ps) :
    ps.flatMap Piece.source = p := by
  induction h with
  | empty => rfl
  | literal _ _ ih | escape _ ih | bare _ _ _ ih | field _ _ _ ih =>
    simp [Piece.source, ih]

theorem derives_withDefault {p : Bytes} {ps : List Piece} (h : Derives p ps) :
    Derives ((ps.map Piece.withDefault).flatMap Piece.source) (ps.map Piece.withDefault) ∧
      ((ps.map Piece.withDefault).flatMap Piece.source).head? = p.head? := by
  induction h with
  | empty => exact ⟨.empty, rfl⟩
  | literal hc _ ih => exact ⟨.literal hc ih.1, rfl⟩
  | escape _ ih => exact ⟨.escape ih.1, rfl⟩
  | @bare k p ps hk hp _ ih =>
    by_cases hd : k = ascii 'd'
    · subst hd
      have hfield := Derives.field hk (s := utf8 "%H:%M:%S") (by decide) ih.1
      simpa [Piece.withDefault, Piece.source] using hfield
    · have hbare := Derives.bare hk (ih.2 ▸ hp) ih.1
      simpa [Piece.withDefault, hd, Piece.source] using hbare
  | @field k s p ps hk hs _ ih =>
    have hfield := Derives.field hk hs ih.1
    simpa [Piece.withDefault, Piece.source] using hfield

/-- What `strftime` documents of the empty format and of `%H:%M:%S`. -/
structure Platform.ClockFormat (P : Platform) : Prop where
  empty : ∀ tm, P.expansion [] tm = []
  clock : ∀ ctime, (P.expansion (utf8 "%H:%M:%S") (P.localtime ctime)).length = 8
  nulFree : ∀ ctime, 0 ∉ P.expansion (utf8 "%H:%M:%S") (P.localtime ctime)

section Default

variable {P : Platform} (hP : P.ClockFormat) (m : LogMsg)

include hP

theorem timeText_empty : timeText P [] m.ctime = [] := by
  have he : P.expansion (cString []) (P.localtime m.ctime) = [] := hP.empty _
  rw [timeText_fits (by simp [he]) (by simp [he]), he]

theorem timeText_clock : (timeText P (utf8 "%H:%M:%S") m.ctime).length = 8 := by
  have hc : cString (utf8 "%H:%M:%S") = utf8 "%H:%M:%S" := by decide
  have hl := hP.clock m.ctime
  rw [timeText_fits (by rw [hc]; exact hP.nulFree _) (by rw [hc, hl]; decide), hc, hl]

omit hP in
theorem withDefault_of_ne {x : Piece} (h : x ≠ .bare (ascii 'd')) : x.withDefault = x := by
  cases x with
  | bare k =>
    have hk : k ≠ ascii 'd' := fun he => h (by rw [he])
    simp [Piece.withDefault, hk]
  | _ => rfl

theorem withDefault_length (ps : List Piece) :
    ((ps.map Piece.withDefault).flatMap (Piece.text P m)).length =
      (ps.flatMap (Piece.text P m)).length + 8 * ps.count (.bare (ascii 'd')) := by
  induction ps with
  | nil => rfl
  | cons x ps ih =>
    rw [List.map_cons, List.flatMap_cons, List.flatMap_cons, List.length_append,
      List.length_append, ih]
    by_cases hx : x = .bare (ascii 'd')
    · subst hx
      have hbare : (Piece.text P m (.bare (ascii 'd'))).length = 0 :=
        congrArg List.length (timeText_empty hP m)
      have hclock : (Piece.text P m (Piece.withDefault (.bare (ascii 'd')))).length = 8 :=
        timeText_clock hP m
      rw [hbare, hclock, List.count_cons_self]
      omega
    · rw [withDefault_of_ne hx, List.count_cons_of_ne hx]
      omega

end Default

namespace Formatter

/-- Writing the documented default into the pattern changes nothing exactly if the pattern
has no `%d` without a sub-parameter. -/
theorem default_time_format (P : Platform) (hP : P.ClockFormat) {p : Bytes}
    (h : (parsePattern ⟨p, []⟩).1 = true) :
    ∃ ps f g, Derives p ps ∧ make p = some f ∧
      make ((ps.map Piece.withDefault).flatMap Piece.source) = some g ∧
      ps.flatMap Piece.source = p ∧
      ∀ m, f.format P m = g.format P m ↔ .bare (ascii 'd') ∉ ps := by
  obtain ⟨ps, hd⟩ := parsePattern_derives h
  obtain ⟨f, hf, hft⟩ := make_format hd
  obtain ⟨g, hg, hgt⟩ := make_format (derives_withDefault hd).1
  refine ⟨ps, f, g, hd, hf, hg, derives_source hd, fun m => ?_⟩
  rw [hft, hgt]
  constructor
  · intro he
    have hlen := congrArg List.length he
    rw [withDefault_length hP] at hlen
    exact List.count_eq_zero.mp (by omega)
  · intro hn
    have hsame (x : Piece) (hx : x ∈ ps) : x.withDefault = x :=
      withDefault_of_ne fun he => hn (he ▸ hx)
    rw [List.map_congr_left hsame, List.map_id']

theorem midnight_clock : Platform.midnight.ClockFormat :=
  ⟨fun _ => rfl, fun _ => rfl, fun _ => midnight_nulFree _ _⟩

theorem default_time_format_message : ∃ ps f g, Derives (utf8 "%m") ps ∧
    make (utf8 "%m") = some f ∧
    make ((ps.map Piece.withDefault).flatMap Piece.source) = some g ∧
    ∀ m, f.format .midnight m = g.format .midnight m := by
  have h : Derives (utf8 "%m") [.bare (ascii 'm')] :=
    Derives.bare (k := ascii 'm') (by decide) (by decide) .empty
  obtain ⟨ps, f, g, hd, hf, hg, -, ht⟩ :=
    default_time_format .midnight midnight_clock (parsePattern_true h)
  refine ⟨ps, f, g, hd, hf, hg, fun m => (ht m).mpr ?_⟩
  rw [derives_unique hd h]
  decide

theorem default_time_lost : ¬ ∀ P : Platform, P.ClockFormat → ∀ (p : Bytes) (ps : List Piece)
    (f g : Formatter), Derives p ps → make p = some f →
    make ((ps.map Piece.withDefault).flatMap Piece.source) = some g →
    ∀ m, f.format P m = g.format P m := by
  intro hall
  have h : Derives (utf8 "%d") [.bare (ascii 'd')] :=
    Derives.bare (k := ascii 'd') (by decide) (by decide) .empty
  obtain ⟨f, hf, hft⟩ := make_format h
  obtain ⟨g, hg, hgt⟩ := make_format (derives_withDefault h).1
  have he := hall .midnight midnight_clock _ _ f g h hf hg ⟨0, .info, [], 1, 0, [], []⟩
  rw [hft, hgt] at he
  have hlen := congrArg List.length he
  rw [withDefault_length midnight_clock, List.count_singleton_self] at hlen
  omega

end Formatter

end MyLog
