import Mathlib.Data.Int.Log
import Mathlib.Data.Rat.Floor
import Mathlib.Tactic.FieldSimp
import Mathlib.Tactic.NormNum
import NetLabs.Lib.CText

/-!
# Doubles

A `double` is a sign and a magnitude. A result that is not exact is rounded to 53 significant bits, a tie to the even neighbour; the
magnitudes here are far from the ends of the range of a `double`, where that is not so. `%.2f` prints the magnitude rounded to
hundredths, and `atof` reads a number with a point. An integer below 2^53 in magnitude goes through all of this unchanged
(`fixed2_ofInt`, `atof_printed`).
-/

namespace NetLabs.Doubles

open CText

/-- A double that is neither infinite nor a NaN. Zero has a sign, too. -/
structure Double where
  negative : Bool
  magnitude : ℚ

/-- The number a double stands for. -/
def Double.value (d : Double) : ℚ := if d.negative then -d.magnitude else d.magnitude

/-- The nearest integer, and the even one of two that are as near. -/
def roundEven (q : ℚ) : ℤ :=
  if q - ⌊q⌋ < 1 / 2 then ⌊q⌋ else if 1 / 2 < q - ⌊q⌋ then ⌊q⌋ + 1 else if ⌊q⌋ % 2 = 0 then ⌊q⌋ else ⌊q⌋ + 1

/-- The exponent of the last of the 53 bits of a magnitude. -/
def lastBit (q : ℚ) : ℤ := Int.log 2 q - 52

/-- A magnitude rounded to 53 bits. -/
def nearest (q : ℚ) : ℚ := roundEven (q / 2 ^ lastBit q) * 2 ^ lastBit q

/-- An `int` as a double. -/
def ofInt (z : ℤ) : Double := ⟨z < 0, nearest z.natAbs⟩

/-- `(double)a / b`, where `b` is not zero. -/
def divide (a b : ℤ) : Double := ⟨(a < 0) != (b < 0), nearest (a.natAbs / b.natAbs)⟩

/-- The byte of a digit. -/
def digit (n : ℕ) : UInt8 := (48 + n).toUInt8

/-- `%d` of `printf`. -/
def printInt (z : ℤ) : List UInt8 := (if z < 0 then [45] else []) ++ decimal z.natAbs

/-- The text of a number of hundredths. -/
def hundredths (h : ℕ) : List UInt8 := decimal (h / 100) ++ [46, digit (h % 100 / 10), digit (h % 10)]

/-- `%.2f` of `printf`. -/
def fixed2 (d : Double) : List UInt8 :=
  (if d.negative then [45] else []) ++ hundredths (roundEven (d.magnitude * 100)).toNat

/-- The digits after a point, if there is one. -/
def fraction (s : List UInt8) : List UInt8 := if s.head? = some 46 then s.tail.takeWhile isDigit else []

/-- `atof`, for a number without an exponent: 0 when there is no digit. -/
def atof (s : List UInt8) : Double :=
  let (negative, s') := splitSign (s.dropWhile isSpace)
  let fractionDigits := fraction (s'.dropWhile isDigit)
  ⟨negative, nearest (digitsValue (s'.takeWhile isDigit ++ fractionDigits) / 10 ^ fractionDigits.length)⟩

/-- `%d` of `scanf`, and what is left. -/
def scanD (s : List UInt8) : Option (ℤ × List UInt8) :=
  let (negative, s') := splitSign (s.dropWhile isSpace)
  let digits := s'.takeWhile isDigit
  if digits.isEmpty then none
  else some (if negative then -(digitsValue digits : ℤ) else digitsValue digits, s'.dropWhile isDigit)

/-! ## Integers are exact -/

@[simp] theorem roundEven_natCast (n : ℕ) : roundEven n = n := by
  simp [roundEven]

/-- A natural number below 2^53 is its own rounding. -/
theorem nearest_natCast {n : ℕ} (h : n < 2 ^ 53) : nearest n = n := by
  have hlog : Nat.log 2 n ≤ 52 := by
    by_cases hn : n = 0
    · simp [hn]
    · exact Nat.lt_succ_iff.1 (Nat.log_lt_of_lt_pow hn h)
  obtain ⟨k, hk⟩ : ∃ k, 52 = Nat.log 2 n + k := ⟨52 - Nat.log 2 n, by omega⟩
  have hbit : lastBit n = -(k : ℤ) := by
    rw [lastBit, Int.log_natCast]
    omega
  have hscaled : (n : ℚ) / 2 ^ lastBit n = (n * 2 ^ k : ℕ) := by
    rw [hbit, zpow_neg, zpow_natCast, div_inv_eq_mul]
    push_cast
    rfl
  rw [nearest, hscaled, roundEven_natCast, hbit, zpow_neg, zpow_natCast]
  push_cast
  field_simp

/-- An integer below 2^53 in magnitude is a double as it is. -/
theorem value_ofInt {z : ℤ} (h : z.natAbs < 2 ^ 53) : (ofInt z).value = z := by
  rw [Double.value, ofInt, nearest_natCast h]
  rcases lt_or_ge z 0 with hz | hz
  · have : (z.natAbs : ℤ) = -z := by omega
    simp only [hz, decide_true, if_true]
    rw [← Int.cast_natCast, this]
    simp
  · have : (z.natAbs : ℤ) = z := by omega
    simp only [not_lt.2 hz, decide_false, Bool.false_eq_true, if_false]
    rw [← Int.cast_natCast, this]

/-! ## The length of what is printed -/

theorem roundEven_le (q : ℚ) : (roundEven q : ℚ) ≤ q + 1 := by
  have hfloor := Int.floor_le q
  unfold roundEven
  split
  · linarith
  · split
    · push_cast
      linarith
    · split
      · linarith
      · push_cast
        linarith

/-- Rounding to 53 bits does not double a magnitude. -/
theorem nearest_le {q : ℚ} (hq : 0 ≤ q) : nearest q ≤ 2 * q := by
  rcases hq.eq_or_lt with rfl | hpos
  · simp [nearest, roundEven]
  · have hbit : (0 : ℚ) < 2 ^ lastBit q := zpow_pos (by norm_num) _
    have hsmall : (2 : ℚ) ^ lastBit q ≤ q := by
      have hlog : ((2 : ℕ) : ℚ) ^ Int.log 2 q ≤ q := Int.zpow_log_le_self (by norm_num) hpos
      have hless : (2 : ℚ) ^ lastBit q ≤ 2 ^ Int.log 2 q := zpow_le_zpow_right₀ (by norm_num) (by unfold lastBit; omega)
      exact hless.trans (by exact_mod_cast hlog)
    have hround := mul_le_mul_of_nonneg_right (roundEven_le (q / 2 ^ lastBit q)) hbit.le
    rw [add_mul, div_mul_cancel₀ q hbit.ne', one_mul] at hround
    rw [nearest]
    linarith

/-- A magnitude of less than `10 ^ k` is printed in at most `k + 4` bytes. -/
theorem length_fixed2_le {d : Double} {k : ℕ} (hk : 0 < k) (hd : d.magnitude * 100 + 1 < 10 ^ k * 100) : (fixed2 d).length ≤ k + 4 := by
  have hround := roundEven_le (d.magnitude * 100)
  have hless : roundEven (d.magnitude * 100) < 10 ^ k * 100 := by
    have : (roundEven (d.magnitude * 100) : ℚ) < 10 ^ k * 100 := hround.trans_lt hd
    exact_mod_cast this
  have hnat : (roundEven (d.magnitude * 100)).toNat < 10 ^ k * 100 := by
    have hpos : (0 : ℤ) < 10 ^ k * 100 := by positivity
    have : ((roundEven (d.magnitude * 100)).toNat : ℤ) < 10 ^ k * 100 := by
      rw [Int.toNat_eq_max]
      exact max_lt hless hpos
    exact_mod_cast this
  have hdigits : (decimal ((roundEven (d.magnitude * 100)).toNat / 100)).length ≤ k := by
    rw [decimal, List.length_map]
    refine (Nat.length_toDigits_le_iff (by omega) hk).2 ?_
    exact Nat.div_lt_of_lt_mul (by rwa [Nat.mul_comm])
  rw [fixed2, hundredths, List.length_append, List.length_append]
  have hsign : (if d.negative then ([45] : List UInt8) else []).length ≤ 1 := by
    split <;> simp
  simp only [List.length_cons, List.length_nil]
  omega

/-! ## Printing and reading -/

/-- A sign and digits: what is read as a number starts at the sign. -/
theorem splitSign_printed (negative : Bool) {ds : List UInt8} (rest : List UInt8) (hds : ∀ b ∈ ds, isDigit b = true) (hne : ds ≠ []) :
    splitSign (((if negative then [45] else []) ++ ds ++ rest).dropWhile isSpace) = (negative, ds ++ rest) := by
  obtain ⟨b, ds, rfl⟩ := List.exists_cons_of_ne_nil hne
  have hb : isDigit b = true := hds b List.mem_cons_self
  have hspace : isSpace b = false := not_isSpace_of_isDigit hb
  cases negative with
  | true =>
    have hminus : isSpace 45 = false := rfl
    simp [splitSign, hminus]
  | false =>
    have hminus : b ≠ 45 := by
      rintro rfl
      exact absurd hb (by decide)
    have hplus : b ≠ 43 := by
      rintro rfl
      exact absurd hb (by decide)
    simp [splitSign, hspace, hminus, hplus]

/-- `%d` reads back what `%d` printed. -/
theorem scanD_printInt (z : ℤ) {rest : List UInt8} (hrest : ∀ b ∈ rest.head?, isDigit b = false) :
    scanD (printInt z ++ rest) = some (z, rest) := by
  have hdigits : ∀ b ∈ decimal z.natAbs, isDigit b = true := fun b hb => isDigit_of_mem_decimal hb
  obtain ⟨htake, hdrop⟩ := span_append (p := isDigit) hdigits hrest
  have hsign := splitSign_printed (decide (z < 0)) rest hdigits (decimal_ne_nil _)
  simp only [decide_eq_true_eq] at hsign
  rw [scanD, printInt]
  simp only [hsign, htake, hdrop, digitsValue_decimal]
  rw [if_neg (by simp [decimal_ne_nil])]
  have hvalue : (if decide (z < 0) = true then -(z.natAbs : ℤ) else z.natAbs) = z := by
    simp only [decide_eq_true_eq]
    split <;> omega
  rw [hvalue]

/-- Blanks before a number are skipped. -/
theorem scanD_space {b : UInt8} (hb : isSpace b = true) (s : List UInt8) : scanD (b :: s) = scanD s := by
  rw [scanD, scanD, List.dropWhile_cons_of_pos hb]

/-- An integer prints as itself and two zeros. -/
theorem fixed2_ofInt {z : ℤ} (h : z.natAbs < 2 ^ 53) : fixed2 (ofInt z) = printInt z ++ text ".00" := by
  have hround : roundEven ((z.natAbs : ℚ) * 100) = ((z.natAbs * 100 : ℕ) : ℤ) := by
    rw [← roundEven_natCast]
    push_cast
    rfl
  rw [fixed2, ofInt]
  simp only [nearest_natCast h, hround, Int.toNat_natCast, decide_eq_true_eq]
  have hdiv : z.natAbs * 100 / 100 = z.natAbs := by omega
  have hmod : z.natAbs * 100 % 100 / 10 = 0 := by omega
  have hmod' : z.natAbs * 100 % 10 = 0 := by omega
  rw [hundredths, hdiv, hmod, hmod', printInt, List.append_assoc]
  rfl

/-- Two more zeros. -/
theorem digitsValue_append_zeros (ds : List UInt8) : digitsValue (ds ++ text "00") = digitsValue ds * 100 := by
  have htwo : text "00" = [48, 48] := by decide
  rw [digitsValue, htwo, List.foldl_append, ← digitsValue]
  simp
  omega

/-- `atof` reads back what was printed of an integer. -/
theorem atof_printed (z : ℤ) : atof (printInt z ++ text ".00") = ofInt z := by
  have hdigits : ∀ b ∈ decimal z.natAbs, isDigit b = true := fun b hb => isDigit_of_mem_decimal hb
  have hhead : (text ".00").head? = some 46 := rfl
  have hpoint : ∀ b ∈ (text ".00").head?, isDigit b = false := by
    intro b hb
    rw [hhead] at hb
    cases hb
    rfl
  obtain ⟨htake, hdrop⟩ := span_append (p := isDigit) (r := text ".00") hdigits hpoint
  have hsign := splitSign_printed (decide (z < 0)) (text ".00") hdigits (decimal_ne_nil _)
  have hfraction : fraction (text ".00") = text "00" := by decide
  have hlen : (text "00").length = 2 := by decide
  have hvalue : ((z.natAbs * 100 : ℕ) : ℚ) / 10 ^ 2 = (z.natAbs : ℚ) := by
    push_cast
    norm_num
  simp only [decide_eq_true_eq] at hsign
  rw [atof, printInt]
  simp only [hsign, htake, hdrop, hfraction, hlen, digitsValue_append_zeros, digitsValue_decimal, hvalue]
  rfl

end NetLabs.Doubles
