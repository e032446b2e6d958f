import Mathlib.Data.List.Basic
import Mathlib.Data.Option.Basic

/-!
# Labelled machines and their runs

A machine is a partial function from a state and a label to the next state: `none` where the label cannot be taken, or where
the code has no defined behaviour. Every choice that is not the machine's (a schedule, a lost datagram, a clock) is part of
the label, so a statement over every list of labels is a statement over every run.

`Meets g` says that every step of a run meets a condition on the state before the step and the label. `exec_invariant` is the
induction rule every safety proof of the development uses, `exec_rounds` the one for repeated rounds, `always_iff_meets` the rule for an
exact condition, `canReach_of_progress` the rule for what can still be done, `not_canReach` the rule for a trap, and `Simulates.run`
and `exec_matched` carry a run of one machine over to another, by a function of the states or by a relation.
-/

namespace NetLabs.Machine

variable {σ τ ι κ : Type*}

/-- The state a run reaches from `s`, if every step of it can be taken. -/
def exec (step : σ → ι → Option σ) : σ → List ι → Option σ
  | s, [] => some s
  | s, e :: es => (step s e).bind (exec step · es)

/-- Every step of the run from `s` meets `g`, a condition on the state before the step and its label. -/
def Meets (step : σ → ι → Option σ) (g : σ → ι → Prop) : σ → List ι → Prop
  | _, [] => True
  | s, e :: es => g s e ∧ ∀ s' ∈ step s e, Meets step g s' es

/-- Every state a run passes through, the first and the last included, satisfies `P`. -/
def Always (step : σ → ι → Option σ) (P : σ → Prop) (s : σ) (es : List ι) : Prop :=
  ∀ pre, pre <+: es → ∀ s' ∈ exec step s pre, P s'

variable {step : σ → ι → Option σ} {g : σ → ι → Prop} {P I : σ → Prop} {s s' : σ} {e : ι} {es es' : List ι}

@[simp] theorem exec_nil : exec step s [] = some s := rfl

theorem exec_cons : exec step s (e :: es) = (step s e).bind (exec step · es) := rfl

theorem exec_cons_eq_some : exec step s (e :: es) = some s' ↔ ∃ t, step s e = some t ∧ exec step t es = some s' := by
  rw [exec_cons, Option.bind_eq_some_iff]

theorem exec_append : exec step s (es ++ es') = (exec step s es).bind (exec step · es') := by
  induction es generalizing s with
  | nil => rfl
  | cons e es ih =>
    rw [List.cons_append, exec_cons, exec_cons]
    cases step s e with
    | none => rfl
    | some t => exact ih

@[simp] theorem meets_nil : Meets step g s [] := trivial

/-- A condition is decided along a run when it is decided at each step. -/
instance decidableMeets [∀ s e, Decidable (g s e)] : ∀ (s : σ) (es : List ι), Decidable (Meets step g s es)
  | _, [] => isTrue trivial
  | s, e :: es =>
    have : ∀ t, Decidable (Meets step g t es) := fun t => decidableMeets t es
    inferInstanceAs (Decidable (_ ∧ ∀ t ∈ step s e, Meets step g t es))

/-- A condition along a run whose first step is known. -/
theorem meets_cons_iff {t : σ} (hs : step s e = some t) : Meets step g s (e :: es) ↔ g s e ∧ Meets step g t es := by
  refine and_congr_right fun _ => ⟨fun hm => hm t hs, fun hm u hu => ?_⟩
  obtain rfl : t = u := Option.some.inj (hs.symm.trans hu)
  exact hm

/-- Two conditions met along a run are met together. -/
theorem Meets.and {g' : σ → ι → Prop} (h : Meets step g s es) (h' : Meets step g' s es) :
    Meets step (fun s e => g s e ∧ g' s e) s es := by
  induction es generalizing s with
  | nil => trivial
  | cons e es ih => exact ⟨⟨h.1, h'.1⟩, fun t ht => ih (h.2 t ht) (h'.2 t ht)⟩

theorem Meets.of_shorter (hm : Meets step g s es) (hp : es' <+: es) : Meets step g s es' := by
  induction es' generalizing s es with
  | nil => trivial
  | cons e es' ih =>
    obtain ⟨rest, rfl⟩ := hp
    exact ⟨hm.1, fun t ht => ih (hm.2 t ht) ⟨rest, rfl⟩⟩

/-- A condition met along the first part of a run, and along the rest from where that ends, is met along the whole. -/
theorem Meets.append (hm : Meets step g s es) (hm' : ∀ t ∈ exec step s es, Meets step g t es') : Meets step g s (es ++ es') := by
  induction es generalizing s with
  | nil => exact hm' s rfl
  | cons e es ih =>
    refine ⟨hm.1, fun t ht => ih (hm.2 t ht) fun u hu => hm' u ?_⟩
    exact exec_cons_eq_some.2 ⟨t, ht, hu⟩

/-- The rule for runs made of one round after another: where `Q n` is what holds after `n` rounds and every round before the `N`th can
be taken from there, as many can be taken. -/
theorem exec_rounds {rounds round : ℕ → List ι} {Q : ℕ → σ → Prop} {N n : ℕ} (hnil : rounds 0 = [])
    (hsucc : ∀ n, rounds (n + 1) = rounds n ++ round n) (h0 : Q 0 s)
    (hround : ∀ n < N, ∀ t, Q n t → Meets step g t (round n) ∧ ∃ t', exec step t (round n) = some t' ∧ Q (n + 1) t')
    (hn : n ≤ N) : Meets step g s (rounds n) ∧ ∃ t, exec step s (rounds n) = some t ∧ Q n t := by
  induction n with
  | zero =>
    rw [hnil]
    exact ⟨trivial, s, rfl, h0⟩
  | succ n ih =>
    obtain ⟨hm, t, ht, hq⟩ := ih (Nat.le_of_succ_le hn)
    obtain ⟨hm', t', ht', hq'⟩ := hround n hn t hq
    rw [hsucc]
    refine ⟨hm.append fun u hu => ?_, t', by rw [exec_append, ht]; exact ht', hq'⟩
    obtain rfl : t = u := Option.some.inj (ht.symm.trans hu)
    exact hm'

/-- The induction rule: what holds at first and is kept by every step that meets `g` holds wherever a run that meets `g`
ends. -/
theorem exec_invariant (hstep : ∀ s e s', I s → g s e → step s e = some s' → I s') (h0 : I s)
    (hm : Meets step g s es) (hx : exec step s es = some s') : I s' := by
  induction es generalizing s with
  | nil =>
    obtain rfl : s = s' := by simpa using hx
    exact h0
  | cons e es ih =>
    obtain ⟨t, ht, hx⟩ := exec_cons_eq_some.1 hx
    exact ih (hstep s e t h0 hm.1 ht) (hm.2 t ht) hx

/-- The induction rule for machines that may refuse a step: where every step that meets `g` can be taken and keeps the invariant, a
run that meets `g` goes through to its end. -/
theorem exec_total (hstep : ∀ s e, I s → g s e → ∃ s', step s e = some s' ∧ I s') (h0 : I s)
    (hm : Meets step g s es) : ∃ s', exec step s es = some s' ∧ I s' := by
  induction es generalizing s with
  | nil => exact ⟨s, rfl, h0⟩
  | cons e es ih =>
    obtain ⟨t, ht, hi⟩ := hstep s e h0 hm.1
    obtain ⟨s', hx, hi'⟩ := ih hi (hm.2 t ht)
    exact ⟨s', exec_cons_eq_some.2 ⟨t, ht, hx⟩, hi'⟩

/-- A condition on the labels alone is met when every label satisfies it. -/
theorem meets_of_forall {q : ι → Prop} (h : ∀ e ∈ es, q e) : Meets step (fun _ e => q e) s es := by
  induction es generalizing s with
  | nil => trivial
  | cons e es ih =>
    rw [List.forall_mem_cons] at h
    exact ⟨h.1, fun t _ => ih h.2⟩

/-- A condition that is evaluated at every step of a run. -/
def checks (step : σ → ι → Option σ) (check : σ → ι → Bool) : σ → List ι → Bool
  | _, [] => true
  | s, e :: es => check s e && (step s e).all fun t => checks step check t es

/-- A condition is met along a run when one that implies it evaluates to true at every step. -/
theorem meets_of_checks {check : σ → ι → Bool} (hg : ∀ s e, check s e = true → g s e) (h : checks step check s es = true) :
    Meets step g s es := by
  induction es generalizing s with
  | nil => trivial
  | cons e es ih =>
    obtain ⟨he, hes⟩ := Bool.and_eq_true_iff.1 h
    exact ⟨hg s e he, fun t ht => ih (by rw [ht] at hes; exact hes)⟩

/-- The induction rule along a whole run: the invariant holds in every state passed through. -/
theorem always_of_invariant (hstep : ∀ s e s', I s → g s e → step s e = some s' → I s') (h0 : I s)
    (hm : Meets step g s es) : Always step I s es :=
  fun _ hp _ hx => exec_invariant hstep h0 (hm.of_shorter hp) hx

/-- What the invariant and the condition of a step imply of it is met along a run that meets the condition. -/
theorem meets_of_invariant {p : σ → ι → Prop} (hstep : ∀ s e s', I s → g s e → step s e = some s' → I s')
    (hp : ∀ s e, I s → g s e → p s e) (h0 : I s) (hm : Meets step g s es) : Meets step p s es := by
  induction es generalizing s with
  | nil => trivial
  | cons e es ih => exact ⟨hp s e h0 hm.1, fun t ht => ih (hstep s e t h0 hm.1 ht) (hm.2 t ht)⟩

/-- The induction rule along a whole run, for an invariant that every step keeps. -/
theorem always_of_kept (hstep : ∀ s e s', I s → step s e = some s' → I s') (h0 : I s) : Always step I s es :=
  always_of_invariant (g := fun _ _ => True) (fun s e s' hI _ hs => hstep s e s' hI hs) h0
    (meets_of_forall (q := fun _ => True) fun _ _ => trivial)

/-- What an invariant of every step implies for every label is met along every run. -/
theorem meets_of_kept (hstep : ∀ s e s', I s → step s e = some s' → I s') (hg : ∀ s e, I s → g s e) (h0 : I s) :
    Meets step g s es := by
  induction es generalizing s with
  | nil => trivial
  | cons e es ih => exact ⟨hg s e h0, fun t ht => ih (hstep s e t h0 ht)⟩

theorem Always.imp (h : ∀ s, I s → P s) (ha : Always step I s es) : Always step P s es :=
  fun pre hp t ht => h t (ha pre hp t ht)

theorem Always.head (ha : Always step P s es) : P s :=
  ha [] List.nil_prefix s rfl

theorem Always.tail {t : σ} (ha : Always step P s (e :: es)) (ht : step s e = some t) : Always step P t es := by
  intro pre hp u hu
  refine ha (e :: pre) ((List.prefix_cons_inj e).2 hp) u ?_
  exact exec_cons_eq_some.2 ⟨t, ht, hu⟩

/-- The rule for an exact condition. If, under an invariant that lasts as long as `P` does, a step keeps `P` when it meets `g` and
breaks `P` when it does not, then along a run `P` holds throughout exactly when every step meets `g`; `q` is what is known of every
step. -/
theorem always_iff_meets_given {q : σ → ι → Prop} (hkeep : ∀ s e s', I s → P s → q s e → g s e → step s e = some s' → I s' ∧ P s')
    (hbreak : ∀ s e s', I s → P s → q s e → ¬g s e → step s e = some s' → ¬P s')
    (h0 : I s) (hP : P s) (hq : Meets step q s es) (hx : exec step s es = some s') : Always step P s es ↔ Meets step g s es := by
  constructor
  · intro ha
    induction es generalizing s with
    | nil => trivial
    | cons e es ih =>
      obtain ⟨t, ht, hx⟩ := exec_cons_eq_some.1 hx
      have hPt : P t := (ha.tail ht).head
      have hg : g s e := by_contra fun hg => hbreak s e t h0 hP hq.1 hg ht hPt
      exact (meets_cons_iff ht).2 ⟨hg, ih (hkeep s e t h0 hP hq.1 hg ht).1 hPt (hq.2 t ht) hx (ha.tail ht)⟩
  · intro hm
    have hboth : Always step (fun s => I s ∧ P s) s es :=
      always_of_invariant (fun s e s' h hg hs => hkeep s e s' h.1 h.2 hg.1 hg.2 hs) ⟨h0, hP⟩ (hq.and hm)
    exact hboth.imp fun _ h => h.2

/-- The same, with nothing known of the steps. -/
theorem always_iff_meets_while (hkeep : ∀ s e s', I s → P s → g s e → step s e = some s' → I s' ∧ P s')
    (hbreak : ∀ s e s', I s → P s → ¬g s e → step s e = some s' → ¬P s')
    (h0 : I s) (hP : P s) (hx : exec step s es = some s') : Always step P s es ↔ Meets step g s es :=
  always_iff_meets_given (fun s e s' hI hP _ hg hs => hkeep s e s' hI hP hg hs) (fun s e s' hI hP _ hg hs => hbreak s e s' hI hP hg hs)
    h0 hP (meets_of_forall (q := fun _ => True) fun _ _ => trivial) hx

/-- The same, with an invariant of every step. -/
theorem always_iff_meets (hinv : ∀ s e s', I s → step s e = some s' → I s')
    (hkeep : ∀ s e s', I s → P s → g s e → step s e = some s' → P s')
    (hbreak : ∀ s e s', I s → P s → ¬g s e → step s e = some s' → ¬P s')
    (h0 : I s) (hP : P s) (hx : exec step s es = some s') : Always step P s es ↔ Meets step g s es :=
  always_iff_meets_while (fun s e s' hI hP hg hs => ⟨hinv s e s' hI hs, hkeep s e s' hI hP hg hs⟩) hbreak h0 hP hx

/-- The rule for an exact condition on the steps. If, under an invariant that lasts as long as `g` is met, a step satisfies `p` exactly
when it meets `g`, then every step of a run satisfies `p` exactly when every step meets `g`; `q` is what is known of every step. -/
theorem meets_iff_meets_while {p q : σ → ι → Prop} (hkeep : ∀ s e s', I s → q s e → g s e → step s e = some s' → I s')
    (hiff : ∀ s e, I s → q s e → (p s e ↔ g s e)) (h0 : I s) (hq : Meets step q s es) :
    Meets step p s es ↔ Meets step g s es := by
  induction es generalizing s with
  | nil => exact Iff.rfl
  | cons e es ih =>
    have hhead := hiff s e h0 hq.1
    constructor
    · intro hp
      have hg := hhead.1 hp.1
      exact ⟨hg, fun t ht => (ih (hkeep s e t h0 hq.1 hg ht) (hq.2 t ht)).1 (hp.2 t ht)⟩
    · intro hg
      exact ⟨hhead.2 hg.1, fun t ht => (ih (hkeep s e t h0 hq.1 hg.1 ht) (hq.2 t ht)).2 (hg.2 t ht)⟩

/-! ## What can still be reached -/

section Reaching

/-- Some run from `s` ends in a state that satisfies `P`. -/
def CanReach (step : σ → ι → Option σ) (P : σ → Prop) (s : σ) : Prop := ∃ es, ∃ s' ∈ exec step s es, P s'

theorem CanReach.here (h : P s) : CanReach step P s := ⟨[], s, rfl, h⟩

/-- One step towards it. -/
theorem CanReach.of_step {t : σ} (hs : step s e = some t) (h : CanReach step P t) : CanReach step P s := by
  obtain ⟨es, s', hx, hP⟩ := h
  exact ⟨e :: es, s', exec_cons_eq_some.2 ⟨t, hs, hx⟩, hP⟩

/-- A run towards it. -/
theorem CanReach.of_run {t : σ} (hx : exec step s es = some t) (h : CanReach step P t) : CanReach step P s := by
  obtain ⟨fs, s', hx', hP⟩ := h
  exact ⟨es ++ fs, s', by rw [exec_append, hx]; exact hx', hP⟩

/-- The progress rule: `P` can be reached from a state of an invariant from which, as long as `P` does not hold, some run leads to a
smaller one. -/
theorem canReach_of_progress {f : σ → ℕ}
    (hrun : ∀ s, I s → ¬P s → ∃ es, ∃ t ∈ exec step s es, P t ∨ I t ∧ f t < f s) (h0 : I s) : CanReach step P s := by
  induction hn : f s using Nat.strongRecOn generalizing s with
  | ind n ih =>
    by_cases hP : P s
    · exact .here hP
    · obtain ⟨es, t, ht, hend | ⟨hI, hless⟩⟩ := hrun s h0 hP
      · exact .of_run ht (.here hend)
      · exact .of_run ht (ih (f t) (hn ▸ hless) hI rfl)

/-- The trap rule: out of an invariant of every step that excludes `P`, no run reaches `P`. -/
theorem not_canReach (hstep : ∀ s e s', I s → step s e = some s' → I s') (hI : ∀ s, I s → ¬P s) (h0 : I s) :
    ¬CanReach step P s := by
  rintro ⟨es, s', hx, hP⟩
  exact hI s' (always_of_kept hstep h0 es (List.prefix_refl es) s' hx) hP

end Reaching

/-! ## What stays true once it is true -/

section Staying

variable {α : Type*} {Q : α → σ → Prop}

/-- What is true of some `a` in one state of a run is true of it in every later state. -/
def Stays (step : σ → ι → Option σ) (Q : α → σ → Prop) (s : σ) (es : List ι) : Prop :=
  ∀ pre mid, pre ++ mid <+: es → ∀ t ∈ exec step s pre, ∀ u ∈ exec step t mid, ∀ a, Q a t → Q a u

/-- A condition met along a run is met along what comes after its first part. -/
theorem Meets.after {t : σ} (hm : Meets step g s (es ++ es')) (hx : exec step s es = some t) : Meets step g t es' := by
  induction es generalizing s with
  | nil =>
    obtain rfl : s = t := by simpa using hx
    exact hm
  | cons e es ih =>
    obtain ⟨u, hu, hx⟩ := exec_cons_eq_some.1 hx
    exact ih (hm.2 u hu) hx

/-- The rule for an exact condition on staying true: if, under an invariant, a step keeps `Q` of everything exactly when it meets
`g`, then along a run `Q` stays true once it is true exactly when every step meets `g`. -/
theorem stays_iff_meets (hinv : ∀ s e s', I s → step s e = some s' → I s')
    (hkeep : ∀ s e s', I s → step s e = some s' → ((∀ a, Q a s → Q a s') ↔ g s e))
    (h0 : I s) (hx : exec step s es = some s') : Stays step Q s es ↔ Meets step g s es := by
  constructor
  · intro hst
    induction es generalizing s with
    | nil => trivial
    | cons e es ih =>
      obtain ⟨t, ht, hx⟩ := exec_cons_eq_some.1 hx
      have hone : exec step s [e] = some t := exec_cons_eq_some.2 ⟨t, ht, rfl⟩
      have hg : g s e := (hkeep s e t h0 ht).1 (hst [] [e] (by simp) s rfl t hone)
      refine (meets_cons_iff ht).2 ⟨hg, ih (hinv s e t h0 ht) hx fun pre mid hp v hv w hw => ?_⟩
      exact hst (e :: pre) mid ((List.prefix_cons_inj e).2 hp) v (exec_cons_eq_some.2 ⟨t, ht, hv⟩) w hw
  · intro hm pre mid hp t ht u hu a hQ
    have hI : I t := exec_invariant (g := fun _ _ => True) (fun s e s' h _ hs => hinv s e s' h hs) h0
      (meets_of_forall (q := fun _ => True) fun _ _ => trivial) ht
    have hmid : Meets step g t mid := (hm.of_shorter hp).after ht
    have hboth : I u ∧ Q a u := exec_invariant (I := fun s => I s ∧ Q a s)
      (fun s e s' h hg hs => ⟨hinv s e s' h.1 hs, (hkeep s e s' h.1 hs).2 hg a h.2⟩) ⟨hI, hQ⟩ hmid hu
    exact hboth.2

/-- What every step keeps stays true, under an invariant. -/
theorem stays_of_kept (hinv : ∀ s e s', I s → step s e = some s' → I s')
    (hkeep : ∀ s e s', I s → step s e = some s' → ∀ a, Q a s → Q a s') (h0 : I s) : Stays step Q s es := by
  intro pre mid _ t ht u hu a hQ
  have hI : I t := always_of_kept hinv h0 pre (List.prefix_refl pre) t ht
  have hboth : I u ∧ Q a u := always_of_kept (I := fun s => I s ∧ Q a s)
    (fun s e s' h hs => ⟨hinv s e s' h.1 hs, hkeep s e s' h.1 hs a h.2⟩) ⟨hI, hQ⟩ mid (List.prefix_refl mid) u hu
  exact hboth.2

end Staying

/-! ## Simulation -/

/-- Every step of `step` that meets `g` in a state satisfying `Inv` is matched, through `abs`, by a run of `spec`. -/
def Simulates (step : σ → ι → Option σ) (g : σ → ι → Prop) (Inv : σ → Prop) (spec : τ → κ → Option τ) (abs : σ → τ) : Prop :=
  ∀ s e s', Inv s → g s e → step s e = some s' → ∃ fs, exec spec (abs s) fs = some (abs s')

/-- A simulated run is a run of the specification. -/
theorem Simulates.run {spec : τ → κ → Option τ} {abs : σ → τ} (hsim : Simulates step g I spec abs)
    (hstep : ∀ s e s', I s → g s e → step s e = some s' → I s') (h0 : I s) (hm : Meets step g s es)
    (hx : exec step s es = some s') : ∃ fs, exec spec (abs s) fs = some (abs s') := by
  induction es generalizing s with
  | nil =>
    obtain rfl : s = s' := by simpa using hx
    exact ⟨[], rfl⟩
  | cons e es ih =>
    obtain ⟨t, ht, hx⟩ := exec_cons_eq_some.1 hx
    obtain ⟨fs, hfs⟩ := hsim s e t h0 hm.1 ht
    obtain ⟨gs, hgs⟩ := ih (hstep s e t h0 hm.1 ht) (hm.2 t ht) hx
    exact ⟨fs ++ gs, by rw [exec_append, hfs]; exact hgs⟩

/-- A run that is matched is matched by a run: where every step of `step` is matched, from related states, by a run of `spec` that ends in
related states, so is every run. -/
theorem exec_matched {spec : τ → κ → Option τ} {R : σ → τ → Prop} {y : τ}
    (hmatch : ∀ x y e x', R x y → step x e = some x' → ∃ fs, ∃ y' ∈ exec spec y fs, R x' y') (hR : R s y)
    (hx : exec step s es = some s') : ∃ fs, ∃ y' ∈ exec spec y fs, R s' y' := by
  induction es generalizing s y with
  | nil =>
    obtain rfl : s = s' := by simpa using hx
    exact ⟨[], y, rfl, hR⟩
  | cons e es ih =>
    obtain ⟨t, ht, hx⟩ := exec_cons_eq_some.1 hx
    obtain ⟨fs, y₁, hfs, hR₁⟩ := hmatch s y e t hR ht
    obtain ⟨gs, y₂, hgs, hR₂⟩ := ih hR₁ hx
    exact ⟨fs ++ gs, y₂, by rw [exec_append, hfs]; exact hgs, hR₂⟩

/-! ## Runs with some of the steps left out -/

section LeavingOut

variable {step' : τ → ι → Option τ} {R : σ → τ → Prop} {keep : ι → Bool} {y : τ}

/-- Two machines in lockstep on the labels `keep` accepts, where the first can always take the others without leaving the
relation: the run of the first and the run of the second over the kept labels end alike, both in related states or both nowhere. -/
theorem exec_filter_rel
    (hkeep : ∀ x y e, R x y → g x e → keep e = true → Option.Rel R (step x e) (step' y e))
    (hskip : ∀ x y e, R x y → g x e → keep e = false → ∃ x', step x e = some x' ∧ R x' y)
    (hR : R s y) (hm : Meets step g s es) : Option.Rel R (exec step s es) (exec step' y (es.filter keep)) := by
  induction es generalizing s y with
  | nil => exact Option.Rel.some hR
  | cons e es ih =>
    cases hk : keep e with
    | true =>
      rw [List.filter_cons_of_pos hk, exec_cons, exec_cons]
      have hrel := hkeep s y e hR hm.1 hk
      have hrest := hm.2
      generalize step s e = a at hrel hrest
      generalize step' y e = b at hrel
      cases hrel with
      | none => exact Option.Rel.none
      | some h => exact ih h (hrest _ rfl)
    | false =>
      obtain ⟨x', hx', hR'⟩ := hskip s y e hR hm.1 hk
      rw [List.filter_cons_of_neg (by simp [hk]), exec_cons, hx']
      exact ih hR' (hm.2 x' hx')

/-- The same from a run of the first machine that went through: the second goes through over the kept labels. -/
theorem exec_filter_some
    (hkeep : ∀ x y e x', R x y → g x e → keep e = true → step x e = some x' → ∃ y', step' y e = some y' ∧ R x' y')
    (hskip : ∀ x y e x', R x y → g x e → keep e = false → step x e = some x' → R x' y)
    (hR : R s y) (hm : Meets step g s es) (hx : exec step s es = some s') :
    ∃ y', exec step' y (es.filter keep) = some y' ∧ R s' y' := by
  induction es generalizing s y with
  | nil =>
    obtain rfl : s = s' := by simpa using hx
    exact ⟨y, rfl, hR⟩
  | cons e es ih =>
    obtain ⟨t, ht, hx⟩ := exec_cons_eq_some.1 hx
    cases hk : keep e with
    | true =>
      obtain ⟨y1, hy1, hR1⟩ := hkeep s y e t hR hm.1 hk ht
      obtain ⟨y', hy', hR'⟩ := ih hR1 (hm.2 t ht) hx
      exact ⟨y', by rw [List.filter_cons_of_pos hk, exec_cons, hy1]; exact hy', hR'⟩
    | false =>
      rw [List.filter_cons_of_neg (by simp [hk])]
      exact ih (hskip s y e t hR hm.1 hk ht) (hm.2 t ht) hx

end LeavingOut

end NetLabs.Machine
