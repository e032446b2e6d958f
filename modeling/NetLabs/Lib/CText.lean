import Mathlib.Data.List.TakeWhile

/-!
# Texts as C has them

A C string is its bytes up to the first NUL. `text` gives the bytes of a literal, `cstr` what the C library sees of a buffer. Then
come the conversions `%d` and `%s` of `printf` and `scanf`, and the pieces in which `fgets` reads a file.
-/

namespace NetLabs.CText

/-- The bytes of a literal. -/
def text (s : String) : List UInt8 := s.toList.map fun c => c.toNat.toUInt8

/-- The C string a buffer holds: its bytes before the first NUL. -/
def cstr (buffer : List UInt8) : List UInt8 := buffer.takeWhile (· != 0)

/-- `strncmp(s, p, strlen(p)) == 0`: the string starts with `p`. -/
def startsWith (s p : List UInt8) : Bool := p.isPrefixOf s

theorem startsWith_iff {s p : List UInt8} : startsWith s p = true ↔ p <+: s := List.isPrefixOf_iff_prefix

/-- A text starts with the first byte of what it starts with. -/
theorem head?_of_startsWith {s p : List UInt8} (h : startsWith s p = true) (hp : p ≠ []) : s.head? = p.head? := by
  obtain ⟨t, rfl⟩ := startsWith_iff.1 h
  obtain ⟨b, p, rfl⟩ := List.exists_cons_of_ne_nil hp
  rfl

/-- A text does not start with two texts that differ in their first byte. -/
theorem not_startsWith_both {s p q : List UInt8} (h : startsWith s p = true) (hp : p ≠ []) (hq : q ≠ [])
    (hpq : p.head? ≠ q.head?) : startsWith s q = false := by
  cases hs : startsWith s q with
  | false => rfl
  | true => exact absurd ((head?_of_startsWith h hp).symm.trans (head?_of_startsWith hs hq)) hpq

/-- A prefix whose elements all pass a test, before something that starts with one that does not, or with nothing. -/
theorem span_append {α : Type*} {p : α → Bool} {l r : List α} (hl : ∀ a ∈ l, p a = true) (hr : ∀ a ∈ r.head?, p a = false) :
    (l ++ r).takeWhile p = l ∧ (l ++ r).dropWhile p = r := by
  rw [List.takeWhile_append_of_pos hl, List.dropWhile_append_of_pos hl]
  cases r with
  | nil => simp
  | cons a r =>
    have ha : p a = false := hr a rfl
    simp [ha]

/-- Every sequence is such a prefix and such a rest. -/
theorem exists_span {α : Type*} (p : α → Bool) (s : List α) :
    ∃ l r, s = l ++ r ∧ (∀ a ∈ l, p a = true) ∧ ∀ a ∈ r.head?, p a = false := by
  refine ⟨s.takeWhile p, s.dropWhile p, List.takeWhile_append_dropWhile.symm, fun a ha => List.mem_takeWhile_imp ha, ?_⟩
  intro a ha
  have := List.head?_dropWhile_not p s
  rw [Option.mem_def.1 ha] at this
  simpa using this

/-- A buffer without a NUL is a C string as it is. -/
theorem cstr_of_not_mem {b : List UInt8} (h : (0 : UInt8) ∉ b) : cstr b = b := by
  refine List.takeWhile_eq_self_iff.2 fun x hx => ?_
  simp only [bne_iff_ne, ne_eq]
  rintro rfl
  exact h hx

/-- Nothing behind a NUL counts. -/
theorem cstr_append_nul (x y : List UInt8) : cstr (x ++ 0 :: y) = cstr x := by
  induction x with
  | nil => simp [cstr]
  | cons c cs ih =>
    rw [List.cons_append, cstr, cstr, List.takeWhile_cons, List.takeWhile_cons]
    split
    · exact congrArg (c :: ·) ih
    · rfl

/-- The C string before a NUL. -/
theorem cstr_append_zero {x : List UInt8} (h : (0 : UInt8) ∉ x) (y : List UInt8) : cstr (x ++ 0 :: y) = x := by
  rw [cstr_append_nul, cstr_of_not_mem h]

/-- A buffer with a NUL in it: the C string it holds, the NUL and the rest. -/
theorem exists_eq_cstr_append {b : List UInt8} (h : (0 : UInt8) ∈ b) : ∃ y, b = cstr b ++ 0 :: y := by
  induction b with
  | nil => simp at h
  | cons a b ih =>
    by_cases ha : a = 0
    · subst ha
      exact ⟨b, by simp [cstr]⟩
    · obtain ⟨y, hy⟩ := ih ((List.mem_cons.1 h).resolve_left fun e => ha e.symm)
      have hcons : cstr (a :: b) = a :: cstr b := by simp [cstr, ha]
      exact ⟨y, by rw [hcons, List.cons_append, ← hy]⟩

/-- A C string has no NUL in it. -/
theorem zero_not_mem_cstr (b : List UInt8) : (0 : UInt8) ∉ cstr b := by
  intro h
  have := List.mem_takeWhile_imp h
  simp at this

/-! ## Strings in arrays -/

/-- `strcat(array, s)`; an array with too little room comes out longer than it was. -/
def strcat (array s : List UInt8) : List UInt8 := cstr array ++ s ++ 0 :: array.drop ((cstr array).length + s.length + 1)

theorem cstr_strcat {array s : List UInt8} (h : (0 : UInt8) ∉ s) : cstr (strcat array s) = cstr array ++ s := by
  refine cstr_append_zero (fun hz => ?_) _
  rcases List.mem_append.1 hz with hz | hz
  · exact zero_not_mem_cstr array hz
  · exact h hz

theorem length_strcat {array s : List UInt8} (h : (cstr array).length + s.length < array.length) :
    (strcat array s).length = array.length := by
  rw [strcat, List.length_append, List.length_append, List.length_cons, List.length_drop]
  omega

/-- `array[0] = '\0'`. -/
theorem cstr_set_zero (array : List UInt8) : cstr (array.set 0 0) = [] := by
  cases array <;> rfl

/-- The string in an array that it does not fill is followed by its NUL. -/
theorem getElem?_cstr_length {array : List UInt8} (h : (cstr array).length < array.length) :
    array[(cstr array).length]? = some 0 := by
  have hz : (0 : UInt8) ∈ array := by
    by_contra hz
    rw [cstr_of_not_mem hz] at h
    exact Nat.lt_irrefl _ h
  obtain ⟨y, hy⟩ := exists_eq_cstr_append hz
  have hget : (cstr array ++ 0 :: y)[(cstr array).length]? = some 0 := by
    rw [List.getElem?_append_right (Nat.le_refl _), Nat.sub_self, List.getElem?_cons_zero]
  rwa [← hy] at hget

/-! ## Words and numbers -/

/-- `isspace`. -/
def isSpace (b : UInt8) : Bool := b == 32 || (9 ≤ b && b ≤ 13)

/-- `isdigit`. -/
def isDigit (b : UInt8) : Bool := 48 ≤ b && b ≤ 57

/-- `%s` of `scanf`: the next word, and what is left; `none` at the end of the string. -/
def scanWord (s : List UInt8) : Option (List UInt8 × List UInt8) :=
  let s' := s.dropWhile isSpace
  if s'.isEmpty then none else some (s'.takeWhile fun b => !isSpace b, s'.dropWhile fun b => !isSpace b)

/-- The number a row of digits stands for. -/
def digitsValue (ds : List UInt8) : Nat := ds.foldl (fun n d => 10 * n + (d.toNat - 48)) 0

/-- Whether a number starts with a minus sign, and its digits. -/
def splitSign (s : List UInt8) : Bool × List UInt8 :=
  if s.head? = some 45 then (true, s.tail) else if s.head? = some 43 then (false, s.tail) else (false, s)

/-- `%d` of `scanf`; `none` when there is no digit. -/
def scanInt (s : List UInt8) : Option Int :=
  let (negative, s') := splitSign (s.dropWhile isSpace)
  let digits := s'.takeWhile isDigit
  if digits.isEmpty then none else some (if negative then -(digitsValue digits : Int) else digitsValue digits)

/-- `atoi`: 0 when there is no digit; `none` for a number out of the range of an `int`, for which C defines nothing. -/
def atoi (s : List UInt8) : Option Int :=
  let n := (scanInt s).getD 0
  if -2147483648 ≤ n ∧ n ≤ 2147483647 then some n else none

/-- A word and what comes after it. -/
theorem scanWord_append {w rest : List UInt8} (hne : w ≠ []) (hw : ∀ b ∈ w, isSpace b = false)
    (hr : ∀ b ∈ rest.head?, isSpace b = true) : scanWord (w ++ rest) = some (w, rest) := by
  obtain ⟨b, w, rfl⟩ := List.exists_cons_of_ne_nil hne
  have hskip : (b :: w ++ rest).dropWhile isSpace = b :: w ++ rest :=
    List.dropWhile_cons_of_neg (by simpa using hw b List.mem_cons_self)
  obtain ⟨htake, hdrop⟩ := span_append (p := fun b => !isSpace b) (l := b :: w) (r := rest)
    (fun a ha => by rw [hw a ha]; rfl) (fun a ha => by rw [hr a ha]; rfl)
  rw [scanWord]
  simp only [hskip, htake, hdrop]
  rfl

/-- Blanks before a word are skipped. -/
theorem scanWord_space {b : UInt8} (hb : isSpace b = true) (s : List UInt8) : scanWord (b :: s) = scanWord s := by
  rw [scanWord, scanWord, List.dropWhile_cons_of_pos hb]

/-- A word has no blank in it. -/
theorem not_isSpace_of_scanWord {s w rest : List UInt8} (h : scanWord s = some (w, rest)) : ∀ b ∈ w, isSpace b = false := by
  rw [scanWord] at h
  split at h
  · cases h
  · cases h
    intro b hb
    simpa using List.mem_takeWhile_imp hb

/-- A word is part of the text it is read from. -/
theorem mem_of_mem_scanWord {s w rest : List UInt8} {b : UInt8} (h : scanWord s = some (w, rest)) (hb : b ∈ w) : b ∈ s := by
  rw [scanWord] at h
  split at h
  · cases h
  · cases h
    exact List.dropWhile_subset _ (List.takeWhile_subset _ hb)

/-- A digit is no blank. -/
theorem not_isSpace_of_isDigit {b : UInt8} (h : isDigit b = true) : isSpace b = false := by
  simp only [isSpace, isDigit, Bool.and_eq_true, decide_eq_true_eq, Bool.or_eq_false_iff, beq_eq_false_iff_ne, ne_eq,
    Bool.and_eq_false_iff, decide_eq_false_iff_not, UInt8.le_iff_toNat_le, ← UInt8.toNat_inj, UInt8.reduceToNat] at *
  omega

/-- `%d` of `printf`, for a number that is not negative. -/
def decimal (n : Nat) : List UInt8 := (Nat.toDigits 10 n).map fun c => c.toNat.toUInt8

/-- The code of a digit. -/
theorem digit_code {c : Char} (h : c.isDigit = true) : 48 ≤ c.toNat ∧ c.toNat ≤ 57 := by
  simp only [Char.isDigit, Bool.and_eq_true, decide_eq_true_eq] at h
  exact ⟨UInt32.le_iff_toNat_le.1 h.1, UInt32.le_iff_toNat_le.1 h.2⟩

theorem toUInt8_toNat_of_digit {c : Char} (h : c.isDigit = true) : c.toNat.toUInt8.toNat = c.toNat := by
  have := digit_code h
  rw [Nat.toUInt8_eq, UInt8.toNat_ofNat']
  omega

/-- The bytes of a printed number are digits. -/
theorem isDigit_of_mem_decimal {n : Nat} {b : UInt8} (h : b ∈ decimal n) : isDigit b = true := by
  obtain ⟨c, hc, rfl⟩ := List.mem_map.1 h
  have hd := Nat.isDigit_of_mem_toDigits (by omega) (by omega) hc
  have hcode := digit_code hd
  have hnat := toUInt8_toNat_of_digit hd
  simp only [isDigit, Bool.and_eq_true, decide_eq_true_eq, UInt8.le_iff_toNat_le, hnat]
  exact hcode

theorem decimal_ne_nil (n : Nat) : decimal n ≠ [] := by
  simp [decimal, Nat.toDigits_ne_nil]

/-- A number is what its printed digits stand for. -/
theorem digitsValue_decimal (n : Nat) : digitsValue (decimal n) = n := by
  have hgen : ∀ (cs : List Char) (m : Nat), (∀ c ∈ cs, c.isDigit = true) →
      (cs.map fun c => c.toNat.toUInt8).foldl (fun n d => 10 * n + (d.toNat - 48)) m = Nat.ofDigitChars 10 cs m := by
    intro cs
    induction cs with
    | nil => intro m _; rfl
    | cons c cs ih =>
      intro m h
      rw [List.forall_mem_cons] at h
      rw [List.map_cons, List.foldl_cons, ih _ h.2, toUInt8_toNat_of_digit h.1]
      rfl
  rw [digitsValue, decimal, hgen _ _ fun c hc => Nat.isDigit_of_mem_toDigits (by omega) (by omega) hc]
  exact Nat.ofDigitChars_ten_toDigits

/-- `scanf` reads a printed number back. -/
theorem scanInt_decimal (n : Nat) : scanInt (32 :: decimal n) = some (n : Int) := by
  have hdigit : ∀ b ∈ decimal n, isDigit b = true := fun b hb => isDigit_of_mem_decimal hb
  have htake : (decimal n).takeWhile isDigit = decimal n := List.takeWhile_eq_self_iff.2 hdigit
  obtain ⟨b, ds, hbs⟩ := List.exists_cons_of_ne_nil (decimal_ne_nil n)
  have hb : isDigit b = true := hdigit b (by rw [hbs]; exact List.mem_cons_self)
  have hskip : (32 :: decimal n).dropWhile isSpace = decimal n := by
    have hblank : isSpace 32 = true := rfl
    rw [List.dropWhile_cons_of_pos hblank, hbs, List.dropWhile_cons_of_neg (by rw [not_isSpace_of_isDigit hb]; decide)]
  have hsign : splitSign (decimal n) = (false, decimal n) := by
    have hminus : ¬(decimal n).head? = some 45 := by
      rw [hbs, List.head?_cons, Option.some.injEq]
      rintro rfl
      exact absurd hb (by decide)
    have hplus : ¬(decimal n).head? = some 43 := by
      rw [hbs, List.head?_cons, Option.some.injEq]
      rintro rfl
      exact absurd hb (by decide)
    rw [splitSign, if_neg hminus, if_neg hplus]
  rw [scanInt]
  simp only [hskip, hsign, htake, digitsValue_decimal]
  rw [if_neg (by simp [decimal_ne_nil])]
  rfl

end NetLabs.CText
