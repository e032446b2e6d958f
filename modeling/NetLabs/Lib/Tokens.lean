import Mathlib.Data.List.Chain

/-!
# Splitting a sequence at separators

`tokens sep` is what repeated `strtok` calls give of a string: its maximal runs of elements that are no separators, in order. The
runs of a concatenation are those of its parts exactly when a run never crosses the seam: `Clean` says so for one seam,
`tokens_flatten_iff` for a sequence cut into any number of pieces.
-/

namespace NetLabs.Tokens

variable {α : Type*} (sep : α → Bool)

/-- The run read so far, if it is not empty. -/
def emit (cur : List α) : List (List α) := if cur.isEmpty then [] else [cur]

/-- The runs of a sequence that continues the run `cur`. -/
def tokensFrom : List α → List α → List (List α)
  | cur, [] => emit cur
  | cur, a :: l => if sep a then emit cur ++ tokensFrom [] l else tokensFrom (cur ++ [a]) l

/-- The maximal runs of elements that are no separators. -/
def tokens (l : List α) : List (List α) := tokensFrom sep [] l

/-- No run crosses the seam of two sequences. -/
def Clean (l l' : List α) : Prop := ∀ a ∈ l.getLast?, ∀ b ∈ l'.head?, sep a = true ∨ sep b = true

instance [DecidableEq α] (l l' : List α) : Decidable (Clean sep l l') :=
  inferInstanceAs (Decidable (∀ a ∈ l.getLast?, ∀ b ∈ l'.head?, sep a = true ∨ sep b = true))

/-- The runs of a sequence that are over, and the one it ends in. -/
def finished : List α → List α → List (List α)
  | _, [] => []
  | cur, a :: l => if sep a then emit cur ++ finished [] l else finished (cur ++ [a]) l

def unfinished : List α → List α → List α
  | cur, [] => cur
  | cur, a :: l => if sep a then unfinished [] l else unfinished (cur ++ [a]) l

variable {sep} {l l' cur : List α} {a : α}

@[simp] theorem emit_nil : emit ([] : List α) = [] := rfl

theorem emit_of_ne_nil (h : cur ≠ []) : emit cur = [cur] := by
  cases cur with
  | nil => exact absurd rfl h
  | cons => rfl

theorem tokensFrom_nil : tokensFrom sep cur [] = emit cur := rfl

theorem tokensFrom_sep (h : sep a = true) : tokensFrom sep cur (a :: l) = emit cur ++ tokensFrom sep [] l := by
  simp [tokensFrom, h]

theorem tokensFrom_nonsep (h : sep a = false) : tokensFrom sep cur (a :: l) = tokensFrom sep (cur ++ [a]) l := by
  simp [tokensFrom, h]

/-- The runs of a concatenation: those the first part has finished, then those of the second, which continues its last run. -/
theorem tokensFrom_append : tokensFrom sep cur (l ++ l') = finished sep cur l ++ tokensFrom sep (unfinished sep cur l) l' := by
  induction l generalizing cur with
  | nil => rfl
  | cons a l ih =>
    cases ha : sep a with
    | true => simp [tokensFrom, finished, unfinished, ha, ih]
    | false => simp [tokensFrom, finished, unfinished, ha, ih]

theorem tokensFrom_eq_finished : tokensFrom sep cur l = finished sep cur l ++ emit (unfinished sep cur l) := by
  have h : tokensFrom sep cur (l ++ []) = finished sep cur l ++ tokensFrom sep (unfinished sep cur l) [] := tokensFrom_append
  rwa [List.append_nil] at h

/-- A sequence ends in no run when it is empty or ends in a separator. -/
theorem unfinished_of_last (h : ∀ a ∈ l.getLast?, sep a = true) (hl : l ≠ []) : unfinished sep cur l = [] := by
  induction l generalizing cur with
  | nil => exact absurd rfl hl
  | cons a l ih =>
    cases l with
    | nil =>
      have ha : sep a = true := h a (by simp)
      simp [unfinished, ha]
    | cons b l =>
      have hlast : ∀ c ∈ (b :: l).getLast?, sep c = true := fun c hc => h c (by simpa using hc)
      cases ha : sep a with
      | true => simpa [unfinished, ha] using @ih [] hlast (by simp)
      | false => simpa [unfinished, ha] using @ih (cur ++ [a]) hlast (by simp)

/-- A sequence that ends in something other than a separator ends in a run. -/
theorem unfinished_ne_nil (h : a ∈ l.getLast?) (ha : sep a = false) : unfinished sep cur l ≠ [] := by
  induction l generalizing cur with
  | nil => simp at h
  | cons b l ih =>
    cases l with
    | nil =>
      obtain rfl : b = a := by simpa using h
      simp [unfinished, ha]
    | cons c l =>
      have hlast : a ∈ (c :: l).getLast? := by simpa using h
      cases hb : sep b with
      | true => simpa [unfinished, hb] using @ih [] hlast
      | false => simpa [unfinished, hb] using @ih (cur ++ [b]) hlast

/-- A sequence that is empty or starts with a separator ends the run before it. -/
theorem tokensFrom_of_head (h : ∀ b ∈ l.head?, sep b = true) : tokensFrom sep cur l = emit cur ++ tokens sep l := by
  cases l with
  | nil => simp [tokens, tokensFrom]
  | cons b l =>
    have hb : sep b = true := h b (by simp)
    simp [tokens, tokensFrom, hb]

/-- At a clean seam the runs of the two parts are put side by side. -/
theorem tokens_append (h : Clean sep l l') : tokens sep (l ++ l') = tokens sep l ++ tokens sep l' := by
  have hl : tokens sep l = finished sep [] l ++ emit (unfinished sep [] l) := tokensFrom_eq_finished
  rw [tokens, tokensFrom_append, hl]
  by_cases hnil : unfinished sep [] l = []
  · simp [hnil, tokens]
  · have hhead : ∀ b ∈ l'.head?, sep b = true := by
      intro b hb
      by_contra hbs
      refine hnil ?_
      cases hlast : l.getLast? with
      | none =>
        rw [List.getLast?_eq_none_iff.1 hlast]
        rfl
      | some a =>
        have ha : sep a = true := (h a hlast b hb).resolve_right hbs
        have hl : l ≠ [] := by
          rintro rfl
          cases hlast
        exact unfinished_of_last (fun c hc => by rw [hlast] at hc; cases hc; exact ha) hl
    rw [tokensFrom_of_head hhead, List.append_assoc]

/-- A run that goes on does not change the number of runs. -/
theorem length_tokensFrom {b : α} (hb : sep b = false) :
    (tokensFrom sep cur (b :: l)).length = (tokens sep (b :: l)).length := by
  have hgen : ∀ {c d : List α}, c ≠ [] → d ≠ [] → (tokensFrom sep c l).length = (tokensFrom sep d l).length := by
    induction l with
    | nil =>
      intro c d hc hd
      rw [tokensFrom_nil, tokensFrom_nil, emit_of_ne_nil hc, emit_of_ne_nil hd]
      rfl
    | cons a l ih =>
      intro c d hc hd
      cases ha : sep a with
      | true => simp [tokensFrom_sep ha, emit_of_ne_nil hc, emit_of_ne_nil hd]
      | false =>
        rw [tokensFrom_nonsep ha, tokensFrom_nonsep ha]
        exact ih (by simp) (by simp)
  rw [tokens, tokensFrom_nonsep hb, tokensFrom_nonsep hb]
  exact hgen (by simp) (by simp)

/-- At a seam that is not clean, two runs become one. -/
theorem length_tokens_append (h : ¬Clean sep l l') :
    (tokens sep (l ++ l')).length + 1 = (tokens sep l).length + (tokens sep l').length := by
  simp only [Clean, not_forall, not_or, Bool.not_eq_true] at h
  obtain ⟨a, ha, b, hb, has, hbs⟩ := h
  obtain ⟨l₁, rfl⟩ : ∃ l₁, l' = b :: l₁ := by
    cases l' with
    | nil => simp at hb
    | cons c l₁ =>
      obtain rfl : c = b := by simpa using hb
      exact ⟨l₁, rfl⟩
  have hun : unfinished sep [] l ≠ [] := unfinished_ne_nil ha has
  have hl : tokens sep l = finished sep [] l ++ [unfinished sep [] l] := by
    rw [tokens, tokensFrom_eq_finished, emit_of_ne_nil hun]
  have happ : tokens sep (l ++ b :: l₁) = finished sep [] l ++ tokensFrom sep (unfinished sep [] l) (b :: l₁) :=
    tokensFrom_append
  rw [happ, hl, List.length_append, List.length_append, length_tokensFrom hbs, List.length_singleton]
  omega

/-! ## Sequences in pieces -/

variable {pieces : List (List α)}

/-- Cutting a sequence never lowers the number of runs. -/
theorem length_tokens_flatten_le : (tokens sep pieces.flatten).length ≤ (pieces.flatMap (tokens sep)).length := by
  induction pieces with
  | nil => simp [tokens, tokensFrom]
  | cons p pieces ih =>
    rw [List.flatten_cons, List.flatMap_cons, List.length_append]
    by_cases hc : Clean sep p pieces.flatten
    · rw [tokens_append hc, List.length_append]
      omega
    · have := length_tokens_append hc
      omega

/-- The seam of a piece with the rest is the seam with the next piece. -/
theorem clean_flatten_iff {p q : List α} (hq : q ≠ []) : Clean sep p (q :: pieces).flatten ↔ Clean sep p q := by
  obtain ⟨b, q, rfl⟩ := List.exists_cons_of_ne_nil hq
  simp [Clean]

/-- The pieces of a sequence, taken one by one, have the runs of the whole exactly when every cut is clean. -/
theorem tokens_flatten_iff (hne : ∀ p ∈ pieces, p ≠ []) :
    pieces.flatMap (tokens sep) = tokens sep pieces.flatten ↔ pieces.IsChain (Clean sep) := by
  induction pieces with
  | nil => simp [tokens, tokensFrom]
  | cons p pieces ih =>
    rw [List.forall_mem_cons] at hne
    cases pieces with
    | nil => simp
    | cons q pieces =>
      rw [List.isChain_cons_cons, ← clean_flatten_iff (hne.2 q (by simp)), ← ih hne.2, List.flatten_cons, List.flatMap_cons]
      constructor
      · intro heq
        have hclean : Clean sep p (q :: pieces).flatten := by
          by_contra hc
          have hlen := length_tokens_append hc
          have hle : (tokens sep (q :: pieces).flatten).length ≤ ((q :: pieces).flatMap (tokens sep)).length :=
            length_tokens_flatten_le
          rw [← heq, List.length_append] at hlen
          omega
        rw [tokens_append hclean] at heq
        exact ⟨hclean, List.append_cancel_left heq⟩
      · rintro ⟨hclean, heq⟩
        rw [tokens_append hclean, heq]

/-! ## What the runs consist of -/

/-- A sequence without separators is one run. -/
theorem tokensFrom_of_forall (h : ∀ a ∈ l, sep a = false) : tokensFrom sep cur l = emit (cur ++ l) := by
  induction l generalizing cur with
  | nil => rw [List.append_nil]; rfl
  | cons a l ih =>
    rw [List.forall_mem_cons] at h
    rw [tokensFrom_nonsep h.1, ih h.2]
    simp

theorem tokens_of_forall (h : ∀ a ∈ l, sep a = false) : tokens sep l = emit l := tokensFrom_of_forall h

/-- Separators alone have no runs. -/
theorem tokens_of_seps (h : ∀ a ∈ l, sep a = true) : tokens sep l = [] := by
  induction l with
  | nil => rfl
  | cons a l ih =>
    rw [List.forall_mem_cons] at h
    rw [tokens, tokensFrom_sep h.1]
    exact ih h.2

/-- Separators before a sequence change nothing. -/
theorem tokens_skip (h : ∀ a ∈ l, sep a = true) : tokens sep (l ++ l') = tokens sep l' := by
  have hclean : Clean sep l l' := fun a ha b _ => Or.inl (h a (List.mem_of_getLast? ha))
  rw [tokens_append hclean, tokens_of_seps h, List.nil_append]

/-- A run that a separator ends. -/
theorem tokens_run (h : ∀ a ∈ l, sep a = false) (hl : l ≠ []) (ha : sep a = true) :
    tokens sep (l ++ a :: l') = l :: tokens sep l' := by
  have hclean : Clean sep l (a :: l') := by
    intro _ _ b hb
    obtain rfl : a = b := by simpa using hb
    exact Or.inr ha
  have htail : tokens sep (a :: l') = tokens sep l' := tokens_skip (l := [a]) (by simpa using ha)
  rw [tokens_append hclean, tokens_of_forall h, emit_of_ne_nil hl, htail]
  rfl

/-- A run is not empty, and its elements are no separators and come from the sequence. -/
theorem of_mem_tokensFrom {t : List α} (hcur : ∀ a ∈ cur, sep a = false) (ht : t ∈ tokensFrom sep cur l) :
    t ≠ [] ∧ ∀ a ∈ t, sep a = false ∧ (a ∈ cur ∨ a ∈ l) := by
  have hemit : ∀ {c : List α}, t ∈ emit c → t = c ∧ t ≠ [] := by
    intro c hc
    cases c with
    | nil => simp at hc
    | cons b c =>
      obtain rfl : t = b :: c := by simpa [emit] using hc
      exact ⟨rfl, by simp⟩
  induction l generalizing cur with
  | nil =>
    obtain ⟨rfl, hne⟩ := hemit ht
    exact ⟨hne, fun a ha => ⟨hcur a ha, Or.inl ha⟩⟩
  | cons b l ih =>
    cases hb : sep b with
    | true =>
      rw [tokensFrom_sep hb, List.mem_append] at ht
      rcases ht with ht | ht
      · obtain ⟨rfl, hne⟩ := hemit ht
        exact ⟨hne, fun a ha => ⟨hcur a ha, Or.inl ha⟩⟩
      · obtain ⟨hne, hall⟩ := ih (by simp) ht
        refine ⟨hne, fun a ha => ⟨(hall a ha).1, Or.inr (List.mem_cons_of_mem _ ?_)⟩⟩
        simpa using (hall a ha).2
    | false =>
      rw [tokensFrom_nonsep hb] at ht
      have hcur' : ∀ a ∈ cur ++ [b], sep a = false := by
        intro a ha
        rcases List.mem_append.1 ha with ha | ha
        · exact hcur a ha
        · obtain rfl := List.mem_singleton.1 ha
          exact hb
      obtain ⟨hne, hall⟩ := ih hcur' ht
      refine ⟨hne, fun a ha => ⟨(hall a ha).1, ?_⟩⟩
      rcases (hall a ha).2 with hac | hal
      · rcases List.mem_append.1 hac with hac | hab
        · exact Or.inl hac
        · exact Or.inr (List.mem_cons.2 (Or.inl (List.mem_singleton.1 hab)))
      · exact Or.inr (List.mem_cons_of_mem _ hal)

theorem of_mem_tokens {t : List α} (ht : t ∈ tokens sep l) : t ≠ [] ∧ ∀ a ∈ t, sep a = false ∧ a ∈ l := by
  obtain ⟨hne, hall⟩ := of_mem_tokensFrom (by simp) ht
  exact ⟨hne, fun a ha => ⟨(hall a ha).1, by simpa using (hall a ha).2⟩⟩

/-- A run is no longer than the sequence. -/
theorem length_le_of_mem_tokensFrom {t : List α} (ht : t ∈ tokensFrom sep cur l) : t.length ≤ cur.length + l.length := by
  have hemit : ∀ {c : List α}, t ∈ emit c → t.length ≤ c.length := by
    intro c hc
    cases c with
    | nil => simp at hc
    | cons b c =>
      obtain rfl : t = b :: c := by simpa [emit] using hc
      exact Nat.le_refl _
  induction l generalizing cur with
  | nil => exact hemit ht
  | cons b l ih =>
    rw [List.length_cons]
    cases hb : sep b with
    | true =>
      rw [tokensFrom_sep hb, List.mem_append] at ht
      rcases ht with ht | ht
      · have := hemit ht
        omega
      · have := ih ht
        rw [List.length_nil] at this
        omega
    | false =>
      rw [tokensFrom_nonsep hb] at ht
      have := ih ht
      rw [List.length_append, List.length_singleton] at this
      omega

theorem length_le_of_mem_tokens {t : List α} (ht : t ∈ tokens sep l) : t.length ≤ l.length := by
  have := length_le_of_mem_tokensFrom ht
  rwa [List.length_nil, Nat.zero_add] at this

/-- The runs, each with a separator after it, are no longer than the sequence with one. -/
theorem length_flatten_tokensFrom :
    (tokensFrom sep cur l).flatten.length + (tokensFrom sep cur l).length ≤ cur.length + l.length + 1 := by
  have hemit : ∀ c : List α, (emit c).flatten.length + (emit c).length ≤ c.length + 1 := by
    intro c
    cases c <;> simp [emit]
  induction l generalizing cur with
  | nil => exact hemit cur
  | cons b l ih =>
    rw [List.length_cons]
    cases hb : sep b with
    | true =>
      rw [tokensFrom_sep hb, List.flatten_append, List.length_append, List.length_append]
      have hcur := hemit cur
      have hrest := @ih []
      rw [List.length_nil] at hrest
      omega
    | false =>
      rw [tokensFrom_nonsep hb]
      have hrest := @ih (cur ++ [b])
      rw [List.length_append, List.length_singleton] at hrest
      omega

theorem length_flatten_tokens : (tokens sep l).flatten.length + (tokens sep l).length ≤ l.length + 1 := by
  have h : (tokensFrom sep [] l).flatten.length + (tokensFrom sep [] l).length ≤ ([] : List α).length + l.length + 1 :=
    length_flatten_tokensFrom
  rwa [List.length_nil, Nat.zero_add] at h

/-- Every element that is no separator is in a run. -/
theorem exists_mem_tokensFrom (ha : sep a = false) (hmem : a ∈ cur ∨ a ∈ l) : ∃ t ∈ tokensFrom sep cur l, a ∈ t := by
  have hemit : ∀ {c : List α}, a ∈ c → c ∈ emit c := by
    intro c hc
    rw [emit_of_ne_nil (List.ne_nil_of_mem hc)]
    exact List.mem_singleton_self c
  induction l generalizing cur with
  | nil =>
    have hcur : a ∈ cur := by simpa using hmem
    exact ⟨cur, hemit hcur, hcur⟩
  | cons b l ih =>
    cases hb : sep b with
    | true =>
      rw [tokensFrom_sep hb]
      rcases hmem with hmem | hmem
      · exact ⟨cur, List.mem_append_left _ (hemit hmem), hmem⟩
      · have hl : a ∈ l := by
          rcases List.mem_cons.1 hmem with rfl | h
          · rw [ha] at hb
            cases hb
          · exact h
        obtain ⟨t, ht, hat⟩ := @ih [] (Or.inr hl)
        exact ⟨t, List.mem_append_right _ ht, hat⟩
    | false =>
      rw [tokensFrom_nonsep hb]
      refine ih ?_
      rcases hmem with hmem | hmem
      · exact Or.inl (List.mem_append_left _ hmem)
      · rcases List.mem_cons.1 hmem with rfl | hmem
        · exact Or.inl (List.mem_append_right _ (List.mem_singleton_self a))
        · exact Or.inr hmem

theorem exists_mem_tokens (ha : sep a = false) (hmem : a ∈ l) : ∃ t ∈ tokens sep l, a ∈ t :=
  exists_mem_tokensFrom ha (Or.inr hmem)

end NetLabs.Tokens
