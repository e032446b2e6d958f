import NetLabs.Lib.Machine

/-!
# A FIFO channel

What a reliable channel is for: messages go in at one end, and each comes out once, in the order they went in. The state is the two
histories, what went in and what has come out; the channel may deliver only the next one that has not come out yet.
-/

namespace NetLabs.Fifo

open Machine

variable {α : Type*}

/-- What the two ends do. -/
inductive Op (α : Type*) where
  | push (m : α)
  | pop

/-- The histories of a channel. -/
structure Channel (α : Type*) where
  pushed : List α
  popped : List α

/-- One operation; there is nothing to pop when everything has come out. -/
def Channel.step (c : Channel α) : Op α → Option (Channel α)
  | .push m => some { c with pushed := c.pushed ++ [m] }
  | .pop =>
    match c.pushed[c.popped.length]? with
    | none => none
    | some m => some { c with popped := c.popped ++ [m] }

/-- What has come out is a beginning of what went in. -/
def Channel.InOrder (c : Channel α) : Prop := c.popped <+: c.pushed

/-- One more of a beginning is the element that comes next. -/
theorem concat_prefix {l l' : List α} {m : α} (h : l <+: l') (hm : l'[l.length]? = some m) : l ++ [m] <+: l' := by
  obtain ⟨rest, rfl⟩ := h
  rw [List.getElem?_append_right (Nat.le_refl _), Nat.sub_self] at hm
  cases rest with
  | nil => cases hm
  | cons m' rest =>
    obtain rfl : m' = m := by simpa using hm
    exact ⟨rest, by simp⟩

theorem Channel.InOrder.step {c c' : Channel α} {o : Op α} (h : c.InOrder) (hs : c.step o = some c') : c'.InOrder := by
  cases o with
  | push m =>
    cases hs
    exact List.IsPrefix.trans h (List.prefix_append _ _)
  | pop =>
    simp only [Channel.step] at hs
    split at hs
    · cases hs
    · rename_i m hm
      cases hs
      exact concat_prefix h hm

/-- Along every run of a channel what has come out is a beginning of what went in. -/
theorem Channel.InOrder.run {c c' : Channel α} {os : List (Op α)} (h : c.InOrder)
    (hx : exec Channel.step c os = some c') : c'.InOrder :=
  exec_invariant (g := fun _ _ => True) (fun _ _ _ hc _ hs => hc.step hs) h (meets_of_forall fun _ _ => trivial) hx

end NetLabs.Fifo
