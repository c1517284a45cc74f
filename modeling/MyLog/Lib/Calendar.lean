import Mathlib.Data.Int.Init

/-! The dates of the proleptic Gregorian calendar, numbered by days. -/

namespace Calendar

@[ext]
structure Date where
  year : Int
  month : Int
  day : Int
  deriving DecidableEq

/-- The days from March 1 of the year 0 to March 1 of the year `y`. Years that begin
in March have their leap day at the end. -/
def daysBefore (y : Int) : Int := 365 * y + y / 4 - y / 100 + y / 400

/-- The year that day `z` after March 1 of the year 0 is in, and its day of that year. -/
def yearDay (z : Int) : Int × Int :=
  let rest := z % 146097
  let centuries := min (rest / 36524) 3
  let inCentury := rest - 36524 * centuries
  let years := min (inCentury % 1461 / 365) 3
  (400 * (z / 146097) + 100 * centuries + 4 * (inCentury / 1461) + years,
    inCentury % 1461 - 365 * years)

theorem daysBefore_digits {a b c d : Int} (hb : 0 ≤ b ∧ b ≤ 3) (hc : 0 ≤ c ∧ c ≤ 24)
    (hd : 0 ≤ d ∧ d ≤ 3) :
    daysBefore (400 * a + 100 * b + 4 * c + d) = 146097 * a + 36524 * b + 1461 * c + 365 * d := by
  have h₄ : (400 * a + 100 * b + 4 * c + d) / 4 = 100 * a + 25 * b + c := by omega
  have h₁₀₀ : (400 * a + 100 * b + 4 * c + d) / 100 = 4 * a + b := by omega
  have h₄₀₀ : (400 * a + 100 * b + 4 * c + d) / 400 = a := by omega
  rw [daysBefore, h₄, h₁₀₀, h₄₀₀]
  omega

theorem yearDay_eq (z : Int) :
    z = daysBefore (yearDay z).1 + (yearDay z).2 ∧ 0 ≤ (yearDay z).2 ∧ (yearDay z).2 ≤ 365 := by
  have hb : 0 ≤ min (z % 146097 / 36524) 3 ∧ min (z % 146097 / 36524) 3 ≤ 3 := by omega
  simp only [yearDay]
  have hrest : 0 ≤ z % 146097 - 36524 * min (z % 146097 / 36524) 3 ∧
      z % 146097 - 36524 * min (z % 146097 / 36524) 3 ≤ 36524 := by omega
  generalize hr : z % 146097 - 36524 * min (z % 146097 / 36524) 3 = r at hrest ⊢
  rw [daysBefore_digits hb (by omega) (by omega)]
  omega

/-- From March on the months have 31, 30, 31, 30, 31 days, again and again. -/
def ofYearDay (y doy : Int) : Date :=
  let m := (5 * doy + 2) / 153
  ⟨if m < 10 then y else y + 1, if m < 10 then m + 3 else m - 9, doy - (153 * m + 2) / 5 + 1⟩

/-- March 1 of the year 0 is this many days before January 1, 1970. -/
def epoch : Int := 719468

def ofDays (n : Int) : Date :=
  ofYearDay (yearDay (n + epoch)).1 (yearDay (n + epoch)).2

example : ofDays 0 = ⟨1970, 1, 1⟩ := by decide

example : ofDays 11016 = ⟨2000, 2, 29⟩ := by decide

theorem ofYearDay_injective {y doy y' doy' : Int} (h : ofYearDay y doy = ofYearDay y' doy')
    (hd : 0 ≤ doy ∧ doy ≤ 365) (hd' : 0 ≤ doy' ∧ doy' ≤ 365) : y = y' ∧ doy = doy' := by
  simp only [ofYearDay, Date.mk.injEq] at h
  omega

theorem ofDays_injective {m n : Int} (h : ofDays m = ofDays n) : m = n := by
  obtain ⟨hm, hdm⟩ := yearDay_eq (m + epoch)
  obtain ⟨hn, hdn⟩ := yearDay_eq (n + epoch)
  obtain ⟨hy, hd⟩ := ofYearDay_injective h hdm hdn
  rw [hy, hd, ← hn] at hm
  omega

theorem ofDays_range (n : Int) : 1 ≤ (ofDays n).month ∧ 1 ≤ (ofDays n).day := by
  obtain ⟨-, hd⟩ := yearDay_eq (n + epoch)
  simp only [ofDays, ofYearDay]
  omega

end Calendar
