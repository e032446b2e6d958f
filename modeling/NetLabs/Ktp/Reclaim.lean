import NetLabs.Ktp.Return

/-!
# Whether an entry becomes free again

The collector frees what dead processes leave behind, but it asks `kill` about the number in the entry, and number 0 stands for its own
process group. An entry that is in use with number 0 is therefore nobody's and stays in use for ever; so does every entry once the lock
has been left locked. Any other entry can be free again, at the latest when its owner has died.
-/

namespace NetLabs.Ktp

open Function Machine

/-- Some run from here leads to a state in which the entry is free. -/
def World.CanFree (w : World) (i : Sock) : Prop := CanReach World.step (fun w => (w.mem i).isFree = 1) w

/-- In use, and out of reach of `k_close` and of the collector. -/
def World.Lost (w : World) (i : Sock) : Prop := (w.mem i).isFree ≠ 1 ∧ (w.lock = false ∨ (w.mem i).pid = 0)

variable {w w' : World} {m : Move} {i j : Sock} {p : Nat}

/-! ## What is lost -/

/-- Without the lock nobody writes an entry. -/
theorem mem_of_locked (hlock : w.lock = false) (hs : w.step m = some w') : w'.mem = w.mem := by
  unfold World.step at hs
  cases m with
  | scan q | call q j c | copy q =>
    simp only [World.act, hlock, Bool.and_false] at hs
    cases hs
  | mainBind | collect | traffic j ev =>
    simp only [World.act, hlock, Bool.false_and] at hs
    cases hs
  | _ =>
    simp only [World.act] at hs
    split at hs
    · cases hs
      rfl
    · cases hs

/-- Only a process that can move calls the library, and its number is not 0. -/
theorem caller_ne_zero {c : EntryCall} (hs : w.step (.call p j c) = some w') : p ≠ 0 := by
  simp only [World.step, World.act] at hs
  split at hs
  · rename_i hready _
    have hp := (Bool.and_eq_true_iff.1 (Bool.and_eq_true_iff.1 hready).1).1
    exact bne_iff_ne.1 hp
  · cases hs

/-- A lost entry stays lost. -/
theorem lost_step (hi : w.Lost i) (hs : w.step m = some w') : w'.Lost i := by
  obtain ⟨hused, hlock | hpid⟩ := hi
  · rw [World.Lost, mem_of_locked hlock hs]
    exact ⟨hused, Or.inl (locked_step hlock hs)⟩
  · have hchange := World.step_entry hs i
    rw [World.Lost]
    generalize w'.mem i = e at hchange
    generalize w'.holder i = holder at hchange
    cases hchange with
    | same | traffic => exact ⟨hused, Or.inr hpid⟩
    | handedOut q e _ he => exact absurd (kSocket_some he).1 hused
    | asked q a e he =>
      obtain ⟨-, hfree, hsame, -⟩ := kBind_some he
      exact ⟨by rw [hfree]; decide, Or.inr (hsame.trans hpid)⟩
    | closed q e he => exact absurd ((kClose_some he).2.1.symm.trans hpid) (caller_ne_zero hs)
    | served hmain => exact ⟨Nat.zero_ne_one, Or.inr hpid⟩
    | collected hc =>
      rw [World.collects, World.gone, hpid] at hc
      simp at hc

/-! ## What is not lost -/

/-- One pass of the collector. -/
theorem canFree_of_dead (hlock : w.lock = true) (hpid : (w.mem i).pid ≠ 0) (hdead : w.alive (w.mem i).pid = false) : w.CanFree i := by
  obtain ⟨w', hs, hmem⟩ : ∃ w', w.step .collect = some w' ∧ w'.mem i = collect w.gone (w.mem i) := by
    simp only [World.step, World.act, hlock, if_true]
    exact ⟨_, rfl, rfl⟩
  refine .of_step hs (.here ?_)
  rw [hmem, collect]
  split
  · assumption
  · have hgone : w.gone (w.mem i).pid = true := by
      rw [World.gone, hdead, bne_iff_ne.2 hpid]
      rfl
    rw [if_pos hgone]
    rfl

/-- When an entry becomes free again. In every state, reachable or not, of the processes, the bind loop and the collector, some run
leads to a state in which the entry is free if and only if it is free now, or the lock is free and there is a number of a process in
it: an entry that is in use with number 0, or with the lock left locked, is in use for ever. -/
theorem canFree_iff (w : World) (i : Sock) : w.CanFree i ↔ (w.mem i).isFree = 1 ∨ w.lock = true ∧ (w.mem i).pid ≠ 0 := by
  constructor
  · intro hreach
    by_contra hnot
    obtain ⟨hused, hlost⟩ := not_or.1 hnot
    rw [not_and_or, Bool.not_eq_true, not_not] at hlost
    exact not_canReach (fun _ _ _ hi hs => lost_step hi hs) (fun _ hi => hi.1) ⟨hused, hlost⟩ hreach
  · rintro (hfree | ⟨hlock, hpid⟩)
    · exact .here hfree
    · cases halive : w.alive (w.mem i).pid with
      | false => exact canFree_of_dead hlock hpid halive
      | true =>
        -- the owner dies first
        have hready : World.ready { w with returned := none } (w.mem i).pid = true := Bool.and_eq_true_iff.2 ⟨bne_iff_ne.2 hpid, halive⟩
        have hs : w.step (.die (w.mem i).pid) = some { w with returned := none, alive := update w.alive (w.mem i).pid false } :=
          if_pos hready
        exact .of_step hs (canFree_of_dead hlock hpid (update_self ..))

end NetLabs.Ktp
