import Mathlib.Data.Nat.Basic

/-!
# Loops whose body may fail

`loopWhile` is the C loop `while (test) body` over an explicit loop state, with a number of tests after which it gives up with
the error `out`. A loop that ends is a loop for which some number of tests is enough; `loopWhile_total` is the rule of total
correctness (an invariant and a variant below the number of tests), `loopWhile_fails` the rule for a loop that cannot but run into
an error, `loopWhile_keeps` the rule for what a loop that did end has kept.
-/

namespace NetLabs.Loop

variable {σ ε : Type*}

/-- `while (test s) s = body s;`, given up with `out` after `fuel` tests. -/
def loopWhile (out : ε) (test : σ → Bool) (body : σ → Except ε σ) : Nat → σ → Except ε σ
  | 0, _ => .error out
  | fuel + 1, s =>
    if test s then
      match body s with
      | .ok s' => loopWhile out test body fuel s'
      | .error x => .error x
    else .ok s

variable {o x : ε} {test : σ → Bool} {body : σ → Except ε σ} {fuel : Nat} {s s' : σ}

theorem loopWhile_done (h : test s = false) : loopWhile o test body (fuel + 1) s = .ok s := by
  simp [loopWhile, h]

theorem loopWhile_step (h : test s = true) (hb : body s = .ok s') :
    loopWhile o test body (fuel + 1) s = loopWhile o test body fuel s' := by
  simp [loopWhile, h, hb]

theorem loopWhile_error (h : test s = true) (hb : body s = .error x) :
    loopWhile o test body (fuel + 1) s = .error x := by
  simp [loopWhile, h, hb]

/-- Total correctness: a body that succeeds under the invariant, keeps it and lowers the variant makes the loop end, with the
invariant and a false test, within any number of tests above the variant. -/
theorem loopWhile_total (Inv : σ → Prop) (variant : σ → Nat)
    (hbody : ∀ s, Inv s → test s = true → ∃ s', body s = .ok s' ∧ Inv s' ∧ variant s' < variant s)
    (h0 : Inv s) (hf : variant s < fuel) :
    ∃ s', loopWhile o test body fuel s = .ok s' ∧ Inv s' ∧ test s' = false := by
  induction fuel generalizing s with
  | zero => exact absurd hf (Nat.not_lt_zero _)
  | succ n ih =>
    cases ht : test s with
    | false => exact ⟨s, loopWhile_done ht, h0, ht⟩
    | true =>
      obtain ⟨s', hb, hi, hv⟩ := hbody s h0 ht
      rw [loopWhile_step ht hb]
      exact ih hi (by omega)

/-- A loop that goes on wherever the invariant holds, but not for more steps than the variant allows, ends in the error its body
raises. -/
theorem loopWhile_fails (Inv : σ → Prop) (variant : σ → Nat)
    (hbody : ∀ s, Inv s → test s = true ∧
      (body s = .error x ∨ ∃ s', body s = .ok s' ∧ Inv s' ∧ variant s' < variant s))
    (h0 : Inv s) (hf : variant s < fuel) : loopWhile o test body fuel s = .error x := by
  induction fuel generalizing s with
  | zero => exact absurd hf (Nat.not_lt_zero _)
  | succ n ih =>
    obtain ⟨ht, hb | ⟨s', hb, hi, hv⟩⟩ := hbody s h0
    · exact loopWhile_error ht hb
    · rw [loopWhile_step ht hb]
      exact ih hi (by omega)

/-- Partial correctness: what the body keeps, a loop that ended has kept, and its test is false at the end. -/
theorem loopWhile_keeps (Inv : σ → Prop)
    (hbody : ∀ s s', Inv s → test s = true → body s = .ok s' → Inv s')
    (h0 : Inv s) (hx : loopWhile o test body fuel s = .ok s') : Inv s' ∧ test s' = false := by
  induction fuel generalizing s with
  | zero => cases hx
  | succ n ih =>
    cases ht : test s with
    | false =>
      rw [loopWhile_done ht] at hx
      cases hx
      exact ⟨h0, ht⟩
    | true =>
      cases hb : body s with
      | error y => rw [loopWhile_error ht hb] at hx; cases hx
      | ok t =>
        rw [loopWhile_step ht hb] at hx
        exact ih (hbody s t h0 ht hb) hx

end NetLabs.Loop
