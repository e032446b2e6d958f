import Mathlib.Data.Nat.ModEq
import NetLabs.Lib.Loop

/-!
# Cyclic numbering

Numbers `1, 2, ..., N, 1, 2, ...`: the `m`-th item (counted from 0) carries the number `num N m`, and `next N` goes from one
number to the one after it. A window shorter than the ring has no number twice (`num_inj`), and the cyclic distance recovers
how far apart two of its items are (`dist_num`). A search around the ring for a number with some property ends when there is one
(`scan_ends`).
-/

namespace NetLabs.Ring

/-- The number after `x` on the ring `1..N`. -/
def next (N x : Nat) : Nat := 1 + x % N

/-- The number of the `m`-th item, counted from 0. -/
def num (N m : Nat) : Nat := 1 + m % N

/-- How many steps lead from `a` to `b` on the ring `1..N`. -/
def dist (N a b : Nat) : Nat := (b + N - a) % N

variable {N m m' x : Nat}

theorem num_pos : 1 ≤ num N m := Nat.le_add_right 1 _

theorem num_le (hN : 0 < N) : num N m ≤ N := by
  have := Nat.mod_lt m hN
  unfold num
  omega

theorem next_pos : 1 ≤ next N x := Nat.le_add_right 1 _

theorem next_le (hN : 0 < N) : next N x ≤ N := by
  have := Nat.mod_lt x hN
  unfold next
  omega

/-- Below the size of the ring the next number is one more. -/
theorem next_of_lt (h : x < N) : next N x = x + 1 := by
  unfold next
  rw [Nat.mod_eq_of_lt h, Nat.add_comm]

/-- No number is next to itself. -/
theorem next_ne (hN : 1 < N) : next N x ≠ x := by
  intro h
  have hlt := Nat.mod_lt x (Nat.lt_of_succ_lt hN)
  rcases Nat.lt_trichotomy x N with hx | rfl | hx
  · rw [next_of_lt hx] at h
    omega
  · unfold next at h
    rw [Nat.mod_self] at h
    omega
  · unfold next at h
    omega

@[simp] theorem next_num : next N (num N m) = num N (m + 1) := by
  unfold next num
  rw [Nat.add_comm 1 (m % N), Nat.mod_add_mod]

/-- Every number of the ring is the number of some item. -/
theorem num_pred (h1 : 1 ≤ x) (hN : x ≤ N) : num N (x - 1) = x := by
  unfold num
  rw [Nat.mod_eq_of_lt (by omega)]
  omega

/-- Below the size of the ring the number of an item is its place. -/
theorem num_of_lt (h : m < N) : num N m = m + 1 := by
  unfold num
  rw [Nat.mod_eq_of_lt h]
  omega

/-- Two items less than a ring apart have different numbers. -/
theorem num_inj (h : num N m = num N m') (hle : m ≤ m') (hlt : m' < m + N) : m = m' := by
  have hmod : m % N = m' % N := by
    unfold num at h
    omega
  obtain ⟨d, rfl⟩ := Nat.exists_eq_add_of_le hle
  have hd : d % N = 0 := by
    have h2 : Nat.ModEq N (m + 0) (m + d) := hmod
    simpa [Nat.ModEq] using (Nat.ModEq.add_left_cancel' m h2).symm
  rw [Nat.mod_eq_of_lt (by omega)] at hd
  omega

theorem num_ne (hle : m < m') (hlt : m' < m + N) : num N m ≠ num N m' := by
  intro h
  have := num_inj h (Nat.le_of_lt hle) hlt
  omega

/-- The distance between the numbers of two items less than a ring apart is the distance between the items. -/
theorem dist_num (hle : m ≤ m') (hlt : m' < m + N) : dist N (num N m) (num N m') = m' - m := by
  obtain ⟨d, rfl⟩ := Nat.exists_eq_add_of_le hle
  have hdN : d < N := by omega
  unfold dist num
  have e : 1 + (m + d) % N + N - (1 + m % N) = (m + d) % N + (N - m % N) := by
    have := Nat.mod_lt m (show 0 < N by omega)
    omega
  rw [e, Nat.mod_add_mod]
  have e2 : m + d + (N - m % N) = d + N * (m / N + 1) := by
    have h1 := Nat.mod_add_div m N
    have h2 := Nat.mod_lt m (show 0 < N by omega)
    rw [Nat.mul_add, Nat.mul_one]
    omega
  rw [e2, Nat.add_mul_mod_self_left, Nat.mod_eq_of_lt hdN]
  omega

/-- The number of the ring at a given distance from the number of an item is the number of the item that far on. -/
theorem num_add_dist {y : Nat} (hy : 1 ≤ y) (hyN : y ≤ N) : num N (m + dist N (num N m) y) = y := by
  have hmN := Nat.mod_lt m (show 0 < N by omega)
  unfold num dist
  rw [Nat.add_mod_mod, ← Nat.mod_add_mod]
  have e : m % N + (y + N - (1 + m % N)) = (y - 1) + N := by omega
  rw [e, Nat.add_mod_right, Nat.mod_eq_of_lt (by omega)]
  omega

/-- Each step brings a number one closer to any other number of the ring. -/
theorem dist_next {y : Nat} (hx : 1 ≤ x) (hxN : x ≤ N) (hy : 1 ≤ y) (hyN : y ≤ N) (hne : x ≠ y) :
    dist N (next N x) y + 1 = dist N x y := by
  unfold dist next
  rcases Nat.lt_or_ge x N with hlt | hge
  · rw [Nat.mod_eq_of_lt hlt]
    rcases Nat.lt_or_gt_of_ne hne with hxy | hxy
    · rw [show y + N - (1 + x) = (y - x - 1) + N by omega, show y + N - x = (y - x) + N by omega, Nat.add_mod_right,
        Nat.add_mod_right, Nat.mod_eq_of_lt (by omega), Nat.mod_eq_of_lt (by omega)]
      omega
    · rw [Nat.mod_eq_of_lt (by omega), Nat.mod_eq_of_lt (by omega)]
      omega
  · obtain rfl : x = N := Nat.le_antisymm hxN hge
    rw [Nat.mod_self, show y + x - (1 + 0) = (y - 1) + x by omega, Nat.add_mod_right, Nat.add_sub_cancel,
      Nat.mod_eq_of_lt (by omega), Nat.mod_eq_of_lt (by omega)]
    omega

theorem dist_lt (hN : 0 < N) (a b : Nat) : dist N a b < N := Nat.mod_lt _ hN

/-- A search around the ring, one number after the other, for one where `p` holds: it ends at such a number when the ring has
one, after fewer tests than the ring has numbers. -/
theorem scan_ends {ε : Type*} {out : ε} {p : Nat → Bool} {y fuel : Nat} (hx : 1 ≤ x) (hxN : x ≤ N) (hy : 1 ≤ y) (hyN : y ≤ N)
    (hp : p y = true) (hf : N ≤ fuel) :
    ∃ z, Loop.loopWhile out (fun j => !p j) (fun j => .ok (next N j)) fuel x = .ok z ∧ (1 ≤ z ∧ z ≤ N) ∧ p z = true := by
  have hbody : ∀ j, (1 ≤ j ∧ j ≤ N) → (!p j) = true →
      ∃ j', (Except.ok (next N j) : Except ε Nat) = .ok j' ∧ (1 ≤ j' ∧ j' ≤ N) ∧ dist N j' y < dist N j y := by
    intro j hj ht
    have hne : j ≠ y := by
      rintro rfl
      simp [hp] at ht
    have hd := dist_next hj.1 hj.2 hy hyN hne
    exact ⟨next N j, rfl, ⟨next_pos, next_le (by omega)⟩, by omega⟩
  have hfuel : dist N x y < fuel := Nat.lt_of_lt_of_le (dist_lt (by omega) x y) hf
  obtain ⟨z, hz, hin, ht⟩ := Loop.loopWhile_total (fun j => 1 ≤ j ∧ j ≤ N) (fun j => dist N j y) hbody ⟨hx, hxN⟩ hfuel
  exact ⟨z, hz, hin, by simpa using ht⟩

end NetLabs.Ring
