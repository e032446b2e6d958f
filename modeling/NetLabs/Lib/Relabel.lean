import Mathlib.Logic.Function.Basic
import Mathlib.Data.List.Basic

/-!
# Relabelling letters

Letters `ι` that are written as values of `β`, each in its own way. A map of the letters acts on the values: what writes a letter is
replaced by what writes its image, and everything else stays. Composition goes over, so a map with a left inverse is undone by it.
-/

namespace NetLabs.Relabel

variable {ι β : Type*} {e : ι → β} {σ τ : ι → ι} {b : β}

/-- The action of a map of the letters on what they are written as. -/
noncomputable def relabel (e : ι → β) (σ : ι → ι) : β → β := Function.extend e (e ∘ σ) id

theorem relabel_letter (he : Function.Injective e) (σ : ι → ι) (i : ι) : relabel e σ (e i) = e (σ i) :=
  he.extend_apply (e ∘ σ) id i

theorem relabel_other (σ : ι → ι) (h : ∀ i, e i ≠ b) : relabel e σ b = b := by
  have hnot : ¬∃ i, e i = b := fun ⟨i, hi⟩ => h i hi
  rw [relabel, Function.extend_apply' _ _ _ hnot, id]

/-- One map after the other. -/
theorem relabel_comp (he : Function.Injective e) (σ τ : ι → ι) (b : β) :
    relabel e σ (relabel e τ b) = relabel e (σ ∘ τ) b := by
  by_cases h : ∃ i, e i = b
  · obtain ⟨i, rfl⟩ := h
    rw [relabel_letter he, relabel_letter he, relabel_letter he, Function.comp_apply]
  · have hother : ∀ i, e i ≠ b := fun i hi => h ⟨i, hi⟩
    rw [relabel_other τ hother, relabel_other σ hother, relabel_other _ hother]

theorem relabel_id (he : Function.Injective e) (b : β) : relabel e id b = b := by
  by_cases h : ∃ i, e i = b
  · obtain ⟨i, rfl⟩ := h
    exact relabel_letter he id i
  · exact relabel_other id fun i hi => h ⟨i, hi⟩

/-- A left inverse takes a whole text back. -/
theorem map_relabel_leftInverse (he : Function.Injective e) (h : Function.LeftInverse σ τ) (bs : List β) :
    (bs.map (relabel e τ)).map (relabel e σ) = bs := by
  have hone : relabel e σ ∘ relabel e τ = id := by
    funext b
    rw [Function.comp_apply, relabel_comp he, h.comp_eq_id, relabel_id he, id]
  rw [List.map_map, hone, List.map_id]

/-- A value that writes no letter comes from itself only. -/
theorem relabel_eq_other (he : Function.Injective e) (h : ∀ i, e i ≠ b) {c : β} (hc : relabel e σ c = b) : c = b := by
  by_cases hletter : ∃ i, e i = c
  · obtain ⟨i, rfl⟩ := hletter
    rw [relabel_letter he] at hc
    exact absurd hc (h (σ i))
  · rwa [relabel_other σ fun i hi => hletter ⟨i, hi⟩] at hc

end NetLabs.Relabel
