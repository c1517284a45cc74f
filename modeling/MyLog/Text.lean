import Mathlib.Data.List.TakeWhile

/-! Bytes, the characters the code compares with, `size_t`, and printed numbers. -/

namespace MyLog

abbrev Bytes := List UInt8

def ascii (c : Char) : UInt8 := c.toUInt8

def percent : UInt8 := ascii '%'
def openBrace : UInt8 := ascii '\x7b'
def closeBrace : UInt8 := ascii '\x7d'
def newline : UInt8 := ascii '\n'
def dash : UInt8 := ascii '-'

def utf8 (s : String) : Bytes := s.toUTF8.data.toList

/-- What a `const char*` to these bytes and a NUL after them denotes. -/
def cString (b : Bytes) : Bytes := b.takeWhile (· ≠ 0)

/-- The value of a `size_t` that was counted up to `n`. -/
def sizeT (n : Nat) : Nat := n % UInt64.size

/-- `operator<<` of an unsigned number. -/
def decimal (n : Nat) : Bytes := (Nat.toDigits 10 n).map ascii

/-- `operator<<` of an `int`. -/
def signedDecimal : Int → Bytes
  | .ofNat n => decimal n
  | .negSucc n => dash :: decimal (n + 1)

theorem sizeT_of_lt {n : Nat} (h : n < UInt64.size) : sizeT n = n := Nat.mod_eq_of_lt h

theorem sizeT_succ (n : Nat) : sizeT (sizeT n + 1) = sizeT (n + 1) := Nat.mod_add_mod ..

theorem sizeT_ne_succ (n : Nat) : sizeT n ≠ sizeT (n + 1) := by
  simp only [sizeT, UInt64.size]
  omega

theorem cString_of_nulFree {b : Bytes} (h : 0 ∉ b) : cString b = b := by
  refine List.takeWhile_eq_self_iff.mpr fun x hx => ?_
  have : x ≠ 0 := fun he => h (he ▸ hx)
  simpa using this

theorem nulFree_cString (b : Bytes) : 0 ∉ cString b := by
  intro h
  have := List.mem_takeWhile_imp h
  simp at this

theorem cString_append_nul {b : Bytes} (h : 0 ∉ b) (rest : Bytes) :
    cString (b ++ 0 :: rest) = b := by
  have hb : ∀ x ∈ b, decide (x ≠ 0) = true := fun x hx => by
    have : x ≠ 0 := fun he => h (he ▸ hx)
    simpa using this
  rw [cString, List.takeWhile_append_of_pos hb]
  simp

theorem ascii_digit {c : Char} (h : c.isDigit = true) :
    (ascii c).toNat = c.toNat ∧ 48 ≤ c.toNat ∧ c.toNat ≤ 57 := by
  have hd : 48 ≤ c.toNat ∧ c.toNat ≤ 57 := by
    simp only [Char.isDigit, Bool.and_eq_true, decide_eq_true_eq] at h
    exact ⟨UInt32.le_iff_toNat_le.mp h.1, UInt32.le_iff_toNat_le.mp h.2⟩
  refine ⟨?_, hd⟩
  have : (ascii c).toNat = c.toNat % 256 := UInt32.toNat_toUInt8 c.val
  omega

theorem notMem_decimal {b : UInt8} (hb : b.toNat < 48 ∨ 57 < b.toNat) (n : Nat) :
    b ∉ decimal n := by
  intro h
  obtain ⟨c, hc, rfl⟩ := List.mem_map.mp h
  have hd := ascii_digit (Nat.isDigit_of_mem_toDigits (by omega) (by omega) hc)
  omega

theorem dash_notMem_decimal (n : Nat) : dash ∉ decimal n := notMem_decimal (by decide) n

/-- The number that digits denote. -/
def digitsValue (b : Bytes) : Nat := Nat.ofDigitChars 10 (b.map fun x => Char.ofNat x.toNat) 0

@[simp] theorem digitsValue_decimal (n : Nat) : digitsValue (decimal n) = n := by
  have hback : (decimal n).map (fun x => Char.ofNat x.toNat) = Nat.toDigits 10 n := by
    rw [decimal, List.map_map]
    refine (List.map_congr_left fun c hc => ?_).trans (List.map_id _)
    have hd := ascii_digit (Nat.isDigit_of_mem_toDigits (by omega) (by omega) hc)
    simp [hd.1]
  rw [digitsValue, hback]
  exact Nat.ofDigitChars_toDigits (by omega) (by omega)

theorem decimal_injective {m n : Nat} (h : decimal m = decimal n) : m = n := by
  rw [← digitsValue_decimal m, h, digitsValue_decimal]

theorem digitsValue_zeros (k : Nat) (b : Bytes) :
    digitsValue (List.replicate k (ascii '0') ++ b) = digitsValue b := by
  induction k with
  | zero => rfl
  | succ k ih =>
    rw [List.replicate_succ, List.cons_append, ← ih]
    simp only [digitsValue, List.map_cons, Nat.ofDigitChars_cons]
    rfl

theorem signedDecimal_of_nonneg {n : Int} (h : 0 ≤ n) : signedDecimal n = decimal n.toNat := by
  obtain ⟨k, rfl⟩ := Int.eq_ofNat_of_zero_le h
  rfl

theorem signedDecimal_injective {m n : Int} (h : signedDecimal m = signedDecimal n) : m = n := by
  cases m with
  | ofNat m =>
    cases n with
    | ofNat n => rw [decimal_injective h]
    | negSucc n =>
      have hm : dash ∈ decimal m := by
        rw [show decimal m = dash :: decimal (n + 1) from h]
        exact List.mem_cons_self
      exact (dash_notMem_decimal m hm).elim
  | negSucc m =>
    cases n with
    | ofNat n =>
      have hn : dash ∈ decimal n := by
        rw [show decimal n = dash :: decimal (m + 1) from h.symm]
        exact List.mem_cons_self
      exact (dash_notMem_decimal n hn).elim
    | negSucc n =>
      have he := decimal_injective (List.cons.inj h).2
      omega

end MyLog
