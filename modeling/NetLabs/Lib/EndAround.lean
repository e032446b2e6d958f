import Mathlib.Data.Nat.ModEq

/-!
# Addition with end-around carry

One's-complement addition of digits below `B`: a carry out of the top comes back in at the bottom. It is addition modulo `B - 1`, where
zero has two representations: the digit 0 stands for the number 0 only, and the multiples of `B - 1` beside it are all `B - 1`
(`Represents`). A number below `B * B` is brought to its digit by folding its high half onto its low half twice.
-/

namespace NetLabs.EndAround

variable {B a b m n x y k : Nat} {l : List Nat}

def addCarry (B a b : Nat) : Nat := if a + b < B then a + b else a + b - B + 1

def sumCarry (B : Nat) : List Nat → Nat
  | [] => 0
  | a :: l => addCarry B a (sumCarry B l)

/-- The high part on the low part. -/
def fold (B n : Nat) : Nat := n / B + n % B

/-- The digit of a number. -/
structure Represents (B n x : Nat) : Prop where
  lt : x < B
  modEq : x ≡ n [MOD B - 1]
  eq_zero_iff : x = 0 ↔ n = 0

/-- A number has one digit. -/
theorem Represents.unique (hx : Represents B n x) (hy : Represents B n y) : x = y := by
  have hzero : x = 0 ↔ y = 0 := hx.eq_zero_iff.trans hy.eq_zero_iff.symm
  have hmod : x ≡ y [MOD B - 1] := hx.modEq.trans hy.modEq.symm
  have hxB := hx.lt
  have hyB := hy.lt
  rcases Nat.le_total x y with hle | hle
  · have hdvd := (Nat.modEq_iff_dvd' hle).1 hmod
    by_cases h : y - x < B - 1
    · have := Nat.eq_zero_of_dvd_of_lt hdvd h
      omega
    · omega
  · have hdvd := (Nat.modEq_iff_dvd' hle).1 hmod.symm
    by_cases h : x - y < B - 1
    · have := Nat.eq_zero_of_dvd_of_lt hdvd h
      omega
    · omega

theorem represents_self (h : n < B) : Represents B n n := ⟨h, Nat.ModEq.refl n, Iff.rfl⟩

/-- Digits are added as their numbers are. -/
theorem Represents.add (hx : Represents B m x) (hy : Represents B n y) : Represents B (m + n) (addCarry B x y) := by
  have hxB := hx.lt
  have hyB := hy.lt
  have hsum : x + y ≡ m + n [MOD B - 1] := hx.modEq.add hy.modEq
  have hm := hx.eq_zero_iff
  have hn := hy.eq_zero_iff
  unfold addCarry
  split
  · exact ⟨by assumption, hsum, by omega⟩
  · refine ⟨by omega, ?_, by omega⟩
    have hcarry : x + y = x + y - B + 1 + (B - 1) := by omega
    rw [hcarry] at hsum
    exact Nat.add_modEq_right.symm.trans hsum

theorem represents_sumCarry (h : ∀ a ∈ l, a < B) (hB : 0 < B) : Represents B l.sum (sumCarry B l) := by
  induction l with
  | nil => exact represents_self hB
  | cons a l ih =>
    rw [List.forall_mem_cons] at h
    rw [List.sum_cons, sumCarry]
    exact (represents_self h.1).add (ih h.2)

theorem fold_modEq (hB : 0 < B) (n : Nat) : fold B n ≡ n [MOD B - 1] := by
  have hone : n / B ≡ B * (n / B) [MOD B - 1] := by
    have h : B * (n / B) = n / B + (B - 1) * (n / B) := by
      rw [Nat.sub_mul, Nat.one_mul, Nat.add_sub_cancel' (Nat.le_mul_of_pos_left _ hB)]
    rw [h]
    exact Nat.modEq_add_modulus_mul_iff.2 (Nat.ModEq.refl _)
  have hsplit := hone.add_right (n % B)
  rwa [Nat.div_add_mod] at hsplit

theorem fold_eq_zero_iff : fold B n = 0 ↔ n = 0 := by
  constructor
  · intro h
    obtain ⟨hdiv, hmod⟩ := Nat.add_eq_zero_iff.1 h
    rw [← Nat.div_add_mod n B, hdiv, hmod]
    rfl
  · rintro rfl
    rw [fold, Nat.zero_div, Nat.zero_mod]

/-- A number of two digits has at most one carry after the first fold. -/
theorem fold_lt_two_mul (hn : n < B * B) : fold B n < 2 * B - 1 := by
  have hB : 0 < B := Nat.pos_of_mul_pos_right (Nat.zero_lt_of_lt hn)
  have hdiv : n / B < B := Nat.div_lt_of_lt_mul hn
  have hmod := Nat.mod_lt n hB
  unfold fold
  omega

theorem div_eq_ite (h : m < 2 * B - 1) : m / B = if m < B then 0 else 1 := by
  split
  · exact Nat.div_eq_of_lt (by assumption)
  · exact Nat.div_eq_of_lt_le (by omega) (by omega)

/-- The second fold adds the carry to the low digit. -/
theorem fold_eq_mod (h : m < 2 * B - 1) : fold B m = (m + m / B) % B := by
  rw [fold, div_eq_ite h]
  split
  · rw [Nat.zero_add, Nat.add_zero]
  · have hlow : m % B = m - B := by
      rw [Nat.mod_eq_sub_mod (by omega), Nat.mod_eq_of_lt (by omega)]
    rw [hlow, Nat.mod_eq_sub_mod (by omega), Nat.mod_eq_of_lt (by omega)]
    omega

/-- Two folds are enough for a number of two digits. -/
theorem represents_fold_fold (hn : n < B * B) : Represents B n (fold B (fold B n)) := by
  have hB : 0 < B := Nat.pos_of_mul_pos_right (Nat.zero_lt_of_lt hn)
  refine ⟨?_, (fold_modEq hB _).trans (fold_modEq hB n), fold_eq_zero_iff.trans fold_eq_zero_iff⟩
  rw [fold_eq_mod (fold_lt_two_mul hn)]
  exact Nat.mod_lt _ hB

/-- Folding the sum twice is summing with end-around carry. -/
theorem fold_fold_eq (h : ∀ a ∈ l, a < B) (hn : l.sum < B * B) : fold B (fold B l.sum) = sumCarry B l :=
  (represents_fold_fold hn).unique (represents_sumCarry h (Nat.pos_of_mul_pos_right (Nat.zero_lt_of_lt hn)))

/-- Sums that agree with end-around carry agree modulo `B - 1`. -/
theorem modEq_of_sumCarry_eq {l' : List Nat} (h : ∀ a ∈ l, a < B) (h' : ∀ a ∈ l', a < B) (hB : 0 < B) (heq : sumCarry B l = sumCarry B l') :
    l.sum ≡ l'.sum [MOD B - 1] := by
  have hmod := (represents_sumCarry h hB).modEq
  rw [heq] at hmod
  exact hmod.symm.trans (represents_sumCarry h' hB).modEq

end NetLabs.EndAround
