import Mathlib.Data.List.Infix

/-!
# An end marker in a stream

A stream that ends with a marker is read in chunks, and the marker is searched for in each chunk by itself. `find` is the first place of
a pattern in a list. Where the marker has no border, that is, where no end of it is a beginning of it, the first place of the marker
behind a text that does not contain it is the end of the text (`find_append`), and the chunks give the text back exactly when the last
one has the whole marker (`collect_iff`).
-/

namespace NetLabs.Marker

variable {α : Type*} [DecidableEq α]

/-- The first place where `p` begins. -/
def find (p : List α) : List α → Option Nat
  | [] => if p.isPrefixOf [] then some 0 else none
  | a :: s => if p.isPrefixOf (a :: s) then some 0 else (find p s).map (· + 1)

/-- No proper end of `p` is a beginning of it. -/
def Borderless (p : List α) : Prop := ∀ k < p.length, 0 < k → ¬p.drop k <+: p

instance (p : List α) : Decidable (Borderless p) := inferInstanceAs (Decidable (∀ _, _))

/-- What has been read, whether the marker has been found, and the chunks behind it. -/
structure Collected (α : Type*) where
  content : List α
  found : Bool
  rest : List (List α)

/-- The chunks up to the one in which the marker is found, which counts up to the marker. -/
def collect (p : List α) : List (List α) → Collected α
  | [] => ⟨[], false, []⟩
  | c :: cs =>
    match find p c with
    | some i => ⟨c.take i, true, cs⟩
    | none => { collect p cs with content := c ++ (collect p cs).content }

variable {p s t content : List α} {chunks : List (List α)} {i : Nat}

/-- A pattern that is found begins there. -/
theorem prefix_of_find (h : find p s = some i) : p <+: s.drop i := by
  induction s generalizing i with
  | nil =>
    unfold find at h
    split at h
    · rename_i hp
      cases h
      exact List.isPrefixOf_iff_prefix.1 hp
    · cases h
  | cons a s ih =>
    unfold find at h
    split at h
    · rename_i hp
      cases h
      exact List.isPrefixOf_iff_prefix.1 hp
    · obtain ⟨j, hj, rfl⟩ := Option.map_eq_some_iff.1 h
      exact ih hj

theorem find_eq_none_iff : find p s = none ↔ ¬p <:+: s := by
  induction s with
  | nil =>
    unfold find
    rw [List.infix_nil]
    by_cases hp : p = []
    · simp [hp]
    · have hnot : p.isPrefixOf [] = false := by
        rw [Bool.eq_false_iff, ne_eq, List.isPrefixOf_iff_prefix, List.prefix_nil]
        exact hp
      simp [hnot, hp]
  | cons a s ih =>
    unfold find
    rw [List.infix_cons_iff, not_or, ← ih]
    by_cases hp : p.isPrefixOf (a :: s) = true
    · rw [if_pos hp]
      refine iff_of_false nofun fun h => h.1 (List.isPrefixOf_iff_prefix.1 hp)
    · rw [if_neg hp, Option.map_eq_none_iff]
      exact ⟨fun h => ⟨fun hpre => hp (List.isPrefixOf_iff_prefix.2 hpre), h⟩, fun h => h.2⟩

/-- What follows a text that has the pattern does not change its first place. -/
theorem find_append_left (h : p <:+: s) (t : List α) : find p (s ++ t) = find p s := by
  induction s with
  | nil =>
    obtain rfl := List.infix_nil.1 h
    cases t <;> rfl
  | cons a s ih =>
    have hpre : p.isPrefixOf (a :: (s ++ t)) = p.isPrefixOf (a :: s) := by
      rw [Bool.eq_iff_iff, List.isPrefixOf_iff_prefix, List.isPrefixOf_iff_prefix]
      exact ⟨fun hp => List.prefix_of_prefix_length_le hp (List.prefix_append (a :: s) t) h.length_le,
        fun hp => hp.trans (List.prefix_append (a :: s) t)⟩
    rw [List.cons_append, find, find, hpre]
    by_cases hp : p.isPrefixOf (a :: s) = true
    · rw [if_pos hp, if_pos hp]
    · have hrest : p <:+: s := (List.infix_cons_iff.1 h).resolve_left fun hin => hp (List.isPrefixOf_iff_prefix.2 hin)
      rw [if_neg hp, if_neg hp, ih hrest]

/-- A pattern that begins only at the end of a text is found there. -/
theorem find_append_of_first (h : ∀ i < s.length, ¬p <+: (s ++ t).drop i) (ht : p <+: t) : find p (s ++ t) = some s.length := by
  induction s with
  | nil =>
    have hp : p.isPrefixOf t = true := List.isPrefixOf_iff_prefix.2 ht
    cases t with
    | nil => exact if_pos hp
    | cons a t => exact if_pos hp
  | cons a s ih =>
    have hnot : ¬p.isPrefixOf (a :: (s ++ t)) = true := fun hp =>
      h 0 (Nat.succ_pos _) (List.isPrefixOf_iff_prefix.1 hp)
    have hrest : find p (s ++ t) = some s.length := ih fun i hi => h (i + 1) (Nat.succ_lt_succ hi)
    rw [List.cons_append, find, if_neg hnot, hrest]
    rfl

/-- Behind a text that does not contain it, a marker without a border begins only at the end of the text. -/
theorem find_append (hb : Borderless p) (hs : ¬p <:+: s) : find p (s ++ p) = some s.length := by
  refine find_append_of_first (fun i hi hpre => ?_) (List.prefix_refl p)
  have hdrop : (s ++ p).drop i = s.drop i ++ p := List.drop_append_of_le_length (by omega)
  rw [hdrop] at hpre
  by_cases hlen : p.length ≤ (s.drop i).length
  · -- all of it is within the text
    have hin : p <+: s.drop i := List.prefix_of_prefix_length_le hpre (List.prefix_append _ _) hlen
    exact hs (hin.isInfix.trans (List.drop_suffix i s).isInfix)
  · -- it reaches into the marker, whose beginning is then an end of it
    obtain ⟨rest, hrest⟩ := List.prefix_of_prefix_length_le (List.prefix_append (s.drop i) p) hpre (by omega)
    rw [List.length_drop] at hlen
    have hk : (s.drop i).length = s.length - i := List.length_drop
    have hend : p.drop (s.length - i) = rest := by
      rw [← hrest, ← hk, List.drop_left]
    refine hb (s.length - i) (by omega) (by omega) ?_
    rw [hend]
    rw [← hrest] at hpre
    conv_rhs at hpre => rw [hrest]
    exact (List.prefix_append_right_inj _).1 hpre

/-! ## A stream in chunks -/

/-- The chunk in which the marker is found has all of it. -/
theorem last_of_collect (h : collect p chunks = ⟨content, true, []⟩) : ∃ init c, chunks = init ++ [c] ∧ p.length ≤ c.length := by
  induction chunks generalizing content with
  | nil => cases h
  | cons c cs ih =>
    unfold collect at h
    split at h
    · rename_i i hfind
      obtain ⟨-, -, rfl⟩ := Collected.mk.inj h
      have hlen := (prefix_of_find hfind).length_le
      rw [List.length_drop] at hlen
      exact ⟨[], c, rfl, by omega⟩
    · obtain ⟨-, hfound, hrest⟩ := Collected.mk.inj h
      have hcs : collect p cs = ⟨(collect p cs).content, true, []⟩ := by rw [← hfound, ← hrest]
      obtain ⟨init, d, rfl, hd⟩ := ih hcs
      exact ⟨c :: init, d, rfl, hd⟩

/-- Chunks without the marker are read whole. -/
theorem collect_append {init : List (List α)} (h : ∀ c ∈ init, ¬p <:+: c) (cs : List (List α)) :
    collect p (init ++ cs) = { collect p cs with content := init.flatten ++ (collect p cs).content } := by
  induction init with
  | nil => rfl
  | cons c init ih =>
    rw [List.forall_mem_cons] at h
    rw [List.cons_append, collect, find_eq_none_iff.2 h.1, ih h.2, List.flatten_cons, List.append_assoc]

/-- A text and a marker come out of the chunks as they are to exactly when the last chunk has all of the marker. -/
theorem collect_iff (hb : Borderless p) (hs : ¬p <:+: content) (h : chunks.flatten = content ++ p) :
    collect p chunks = ⟨content, true, []⟩ ↔ ∃ init c, chunks = init ++ [c] ∧ p.length ≤ c.length := by
  constructor
  · exact last_of_collect
  · rintro ⟨init, c, rfl, hc⟩
    rw [List.flatten_append, List.flatten_singleton] at h
    -- the last chunk is the end of the text and the marker
    obtain ⟨tail, rfl⟩ : p <:+ c :=
      List.suffix_of_suffix_length_le (h ▸ List.suffix_append _ _ : p <:+ init.flatten ++ c) (List.suffix_append _ _) hc
    have htext : init.flatten ++ tail = content := by
      rw [← List.append_assoc] at h
      exact List.append_cancel_right h
    have hinit : ∀ d ∈ init, ¬p <:+: d := fun d hd hin =>
      hs (htext ▸ (hin.trans (List.infix_of_mem_flatten hd)).trans (List.prefix_append _ _).isInfix)
    have htail : ¬p <:+: tail := fun hin => hs (htext ▸ hin.trans (List.suffix_append _ _).isInfix)
    rw [collect_append hinit, collect, find_append hb htail]
    simp [htext]

end NetLabs.Marker
