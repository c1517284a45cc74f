import MyLog.Paths
import MyLog.RollBySize

/-! The names that the rolling sinks put together. Both go on from the base name with a moment
of local time. -/

namespace MyLog

theorem plain_decimal (n : Nat) : Plain (decimal n) := by
  intro x hx
  have hs : x ≠ slash := fun he => notMem_decimal (by decide) n (he ▸ hx)
  have hb : x ≠ backslash := fun he => notMem_decimal (by decide) n (he ▸ hx)
  have h0 : x ≠ 0 := fun he => notMem_decimal (by decide) n (he ▸ hx)
  simp [isSeparator, hs, hb, h0]

theorem plain_signedDecimal (n : Int) : Plain (signedDecimal n) := by
  cases n with
  | ofNat n => exact plain_decimal n
  | negSucc n =>
    have hdash : isSeparator dash = false ∧ dash ≠ 0 := by decide
    exact List.forall_mem_cons.mpr ⟨hdash, plain_decimal _⟩

theorem Plain.padded {b : Bytes} (hb : Plain b) : Plain (RollBySizeSink.padded b) := by
  refine Plain.append (fun x hx => ?_) hb
  rw [List.eq_of_mem_replicate hx]
  decide

/-- The moment in a file's name, which both rolling sinks print in the same way. -/
def moment (lt : Tm) : Bytes :=
  utf8 "_" ++ signedDecimal (lt.year + 1900) ++ utf8 "-" ++
    RollBySizeSink.padded (signedDecimal (lt.mon + 1)) ++ utf8 "-" ++ signedDecimal lt.mday ++
    utf8 " " ++ signedDecimal lt.hour ++ utf8 ":" ++ signedDecimal lt.min ++ utf8 ":" ++
    signedDecimal lt.sec

theorem plain_moment (lt : Tm) : Plain (moment lt) := by
  have hn := plain_signedDecimal
  have hcolon : Plain (utf8 ":") := by decide
  have hdash : Plain (utf8 "-") := by decide
  have hdate : Plain (utf8 "_" ++ signedDecimal (lt.year + 1900) ++ utf8 "-" ++
      RollBySizeSink.padded (signedDecimal (lt.mon + 1)) ++ utf8 "-" ++ signedDecimal lt.mday) :=
    (((Plain.append (by decide) (hn _)).append hdash).append (hn _).padded).append hdash
      |>.append (hn _)
  have hspace : Plain (utf8 " ") := by decide
  exact ((((hdate.append hspace).append (hn _)).append hcolon).append (hn _)).append hcolon
    |>.append (hn _)

theorem extends_moment (base : Bytes) (lt : Tm) {w : Bytes} (hw : Plain w) :
    Extends base (base ++ moment lt ++ w ++ utf8 ".log") := by
  have hlog : utf8 ".log" = utf8 ".lo" ++ [ascii 'g'] := by decide
  refine ⟨moment lt ++ w ++ utf8 ".lo", ascii 'g', ?_, by decide, ?_⟩
  · simp only [hlog, List.append_assoc]
  · exact (((plain_moment lt).append hw).append (by decide)).append (by decide)

namespace RollBySizeSink

theorem extends_fileName (base : Bytes) (lt : Tm) (count : Nat) :
    Extends base (fileName base lt count) := by
  have hw : Plain (utf8 "-" ++ decimal count) := Plain.append (by decide) (plain_decimal count)
  simpa only [fileName, moment, List.append_assoc] using extends_moment base lt hw

/-- The counter alone makes the names different. -/
theorem fileName_injective {basename : Bytes} {lt lt' : Tm} {m n : Nat}
    (h : fileName basename lt m = fileName basename lt' n) : m = n := by
  have hcut (b : Bytes) (k : Nat) : b ++ utf8 "-" ++ decimal k = b ++ dash :: decimal k := by
    rw [List.append_assoc]
    rfl
  have he := List.append_cancel_right h
  rw [hcut, hcut] at he
  exact decimal_injective
    (Delimited.after_last_delimiter he (dash_notMem_decimal m) (dash_notMem_decimal n))

theorem place_fileName {basename : Bytes} (hb : 0 ∉ basename) {cwd : List Bytes} {lt lt' : Tm}
    {m n : Nat} (h : place cwd (fileName basename lt m) = place cwd (fileName basename lt' n)) :
    m = n :=
  fileName_injective
    ((extends_fileName basename lt m).place_injective (extends_fileName basename lt' n) hb h)

end RollBySizeSink

end MyLog
