import Mathlib.Data.Fintype.Card

/-!
# Slots with a free flag

A finite set of slots, each marked free or in use. `freeCount` counts the free ones; taking a slot or giving one back moves it by
one, and what is held in distinct slots in use is no more than their number (`held_card_le`).
-/

namespace NetLabs.Slots

open Function Finset

section InUse

variable {α β γ : Type*} [DecidableEq α] {free : α → Bool} {i : α}

/-- The slots in use after one is taken. -/
theorem used_take {j : α} : update free i false j = false ↔ free j = false ∨ j = i := by
  by_cases hj : j = i <;> simp [hj]

/-- The slots in use after one is given back. -/
theorem used_give {j : α} : update free i true j = false ↔ free j = false ∧ j ≠ i := by
  by_cases hj : j = i <;> simp [hj]

/-- What slots hold is not changed by putting something into another slot. -/
theorem map_update_off {l : List α} (h : i ∉ l) (held : α → β) (f : β → γ) (b : β) :
    l.map (fun j => f (update held i b j)) = l.map fun j => f (held j) := by
  refine List.map_congr_left fun j hj => ?_
  have hji : j ≠ i := by
    rintro rfl
    exact h hj
  rw [update_of_ne hji]

end InUse

variable {α β : Type*} [Fintype α] {free : α → Bool} {i : α}

/-- How many slots are free. -/
def freeCount (free : α → Bool) : Nat := (univ.filter fun i => free i = true).card

theorem freeCount_le (free : α → Bool) : freeCount free ≤ Fintype.card α := card_le_univ _

theorem freeCount_pos : 0 < freeCount free ↔ ∃ i, free i = true := by
  simp [freeCount, card_pos, Finset.Nonempty]

/-- Taking a free slot leaves one less. -/
theorem freeCount_take [DecidableEq α] (h : free i = true) : freeCount (update free i false) + 1 = freeCount free := by
  have e : (univ.filter fun j => update free i false j = true) = (univ.filter fun j => free j = true).erase i := by
    ext j
    by_cases hj : j = i <;> simp [update_apply, hj]
  unfold freeCount
  rw [e]
  exact card_erase_add_one (by simp [h])

/-- Giving a slot back leaves one more. -/
theorem freeCount_give [DecidableEq α] (h : free i = false) : freeCount (update free i true) = freeCount free + 1 := by
  have e : free = update (update free i true) i false := by
    rw [update_idem, ← h, update_eq_self]
  conv_rhs => rw [e]
  exact (freeCount_take (update_self i true free)).symm

/-- A set of items held in distinct slots in use is no larger than the number of slots in use. -/
theorem held_card_le (s : Finset β) (slot : β → α) (hused : ∀ x ∈ s, free (slot x) = false)
    (hinj : ∀ x ∈ s, ∀ y ∈ s, slot x = slot y → x = y) : s.card + freeCount free ≤ Fintype.card α := by
  have h1 : s.card ≤ (univ.filter fun i => ¬free i = true).card :=
    card_le_card_of_injOn slot (fun x hx => by simp [hused x hx]) (fun x hx y hy h => hinj x hx y hy h)
  have h2 := card_filter_add_card_filter_not (s := (univ : Finset α)) (p := fun i => free i = true)
  rw [Finset.card_univ] at h2
  unfold freeCount
  omega

end NetLabs.Slots
