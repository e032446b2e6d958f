import NetLabs.Tasks.Server

/-!
# One client for a task

In every state the `current_task` of a handler that runs is in state 1, assigned to its client, and no other handler's; and only the
handler that has a task completes it.
-/

namespace NetLabs.Tasks

open CText Function Machine

variable {s s' : Server} {m : Move} {tasks tasks' : List Task} {i k c : Nat} {r : NextTask} {f : Task → Task}

/-- The handlers that run and the table: what a handler has is in state 1 and assigned to its client, and nobody else has it. -/
structure Server.Exclusive (s : Server) : Prop where
  owned : ∀ c h i, s.handlers c = some h → h.currentTask = some i → AssignedTo s.tasks i c
  alone : ∀ c d h h' i, s.handlers c = some h → s.handlers d = some h' → h.currentTask = some i → h'.currentTask = some i → c = d

/-- A task that a move takes from state 1 to state 2 is completed by the handler that has it, on a message of the client it is
assigned to. -/
def Server.completesOwn (s : Server) (m : Move) : Prop :=
  ∀ s' i t, s.step m = some s' → s.tasks[i]? = some t → t.state = .assigned → Completed s'.tasks i →
    ∃ c h b broken, m = .recv c (.message b broken) ∧ s.handlers c = some h ∧ h.currentTask = some i ∧
      t.assignedToClient = some c

theorem exclusive_of_inv (hi : s.Inv) : s.Exclusive := by
  have howned : ∀ c h i, s.handlers c = some h → h.currentTask = some i → AssignedTo s.tasks i c := by
    intro c h i hc hh
    exact hi.owned c i (by rw [ledger_current hc, hh])
  refine ⟨howned, ?_⟩
  intro c d h h' i hc hd hh hh'
  exact (howned c h i hc hh).unique (howned d h' i hd hh')

/-! ## Which operation completes a task -/

/-- A change that completes nothing leaves completed only what was. -/
theorem completed_of_modify (hf : ∀ u, (f u).state ≠ .completed) (h : Completed (tasks.modify k f) i) : Completed tasks i := by
  obtain ⟨t, ht, hs⟩ := h
  by_cases hik : k = i
  · subst hik
    rw [List.getElem?_modify_eq] at ht
    obtain ⟨u, _, rfl⟩ := Option.map_eq_some_iff.1 ht
    exact absurd hs (hf u)
  · rw [List.getElem?_modify_ne f tasks hik] at ht
    exact ⟨t, ht, hs⟩

theorem completed_of_resetTask (h : Completed (resetTask tasks k) i) : Completed tasks i :=
  completed_of_modify (fun _ => by simp [Task.cleared]) h

theorem completed_of_clearAssignedTasks (h : Completed (clearAssignedTasks tasks c) i) : Completed tasks i := by
  obtain ⟨t, ht, hs⟩ := h
  rcases getElem?_clearAssignedTasks ht with ⟨ht, _⟩ | ⟨u, _, _, rfl⟩
  · exact ⟨t, ht, hs⟩
  · cases hs

theorem completed_of_getNextTask (hr : getNextTask tasks c = (r, tasks')) (h : Completed tasks' i) : Completed tasks i := by
  cases r with
  | task j =>
    obtain ⟨_, _, rfl⟩ := getNextTask_task hr
    exact completed_of_modify (fun _ => by simp) h
  | alreadyAssigned | noTask =>
    rw [getNextTask_same hr (by simp)] at h
    exact h

/-- `complete_task` completes the task it is called with. -/
theorem completed_of_completeTask (h : Completed (completeTask tasks k) i) : k = i ∨ Completed tasks i := by
  by_cases hik : k = i
  · exact Or.inl hik
  · obtain ⟨t, ht, hs⟩ := h
    rw [completeTask, List.getElem?_modify_ne _ tasks hik] at ht
    exact Or.inr ⟨t, ht, hs⟩

/-- A message completes nothing but the handler's own task. -/
theorem completed_of_serve {currentTask : Option Nat} {buffer : List UInt8}
    (h : Completed (serve tasks c currentTask buffer).tasks i) : currentTask = some i ∨ Completed tasks i := by
  unfold serve at h
  split at h
  · exact Or.inr h
  · split at h
    · obtain ⟨r, tasks', hr⟩ : ∃ r tasks', getNextTask tasks c = (r, tasks') := ⟨_, _, rfl⟩
      have htasks : (serveGetTask tasks c currentTask).tasks = tasks' := by
        cases r <;> simp [serveGetTask, hr]
      rw [htasks] at h
      exact Or.inr (completed_of_getNextTask hr h)
    · split at h
      · cases currentTask with
        | none => exact Or.inr h
        | some k =>
          rcases completed_of_completeTask h with rfl | h
          · exact Or.inl rfl
          · exact Or.inr h
      · exact Or.inr h

/-- The top of the loop completes nothing. -/
theorem completed_of_top {h : Handler} {now : Int} (hd : Completed (s.top c h now).tasks i) : Completed s.tasks i := by
  unfold Server.top at hd
  split at hd
  · exact completed_of_resetTask hd
  · split at hd
    · exact hd
    · exact hd

/-- In every move, the task that goes from state 1 to state 2 is the one of the handler that makes the move. -/
theorem step_completesOwn (hi : s.Inv) (m : Move) : s.completesOwn m := by
  intro s' i t h ht hs hdone
  -- a task in state 1 has not been completed yet
  have hnot : ¬Completed s.tasks i := by
    rintro ⟨u, hu, hus⟩
    obtain rfl := Option.some.inj (ht.symm.trans hu)
    rw [hs] at hus
    cases hus
  cases step_stepped h with
  | accept now hm => exact absurd hdone hnot
  | allCompleted hm hall hlen => exact absurd hdone hnot
  | shutdown hm => exact absurd hdone hnot
  | selectFails hm => exact absurd hdone hnot
  | top c now h0 hc hp => exact absurd (completed_of_top hdone) hnot
  | recv c r h0 _ hc hp hr =>
    cases r with
    | message b broken =>
      obtain ⟨_, ⟨⟩⟩ := Option.ite_none_right_eq_some.1 hr
      rcases completed_of_serve hdone with hcur | hold
      · obtain ⟨u, hu, _, huc⟩ := (exclusive_of_inv hi).owned c h0 i hc hcur
        obtain rfl := Option.some.inj (ht.symm.trans hu)
        exact ⟨c, h0, b, broken, rfl, hc, hcur, huc⟩
      · exact absurd hold hnot
    | closed =>
      cases hr
      exact absurd (completed_of_clearAssignedTasks hdone) hnot
    | wouldBlock | failed =>
      cases hr
      exact absurd hdone hnot

/-- Exclusive assignment. Along every run of the server, over any tasks, clients, messages, failures and times, what a handler that
runs has is in state 1 and assigned to its client and no other handler has it, in every state, and in every move a task goes from
state 1 to state 2 by the handler of the client it is assigned to. -/
theorem exclusive_assignment (descriptions : List (List UInt8)) (moves : List Move) :
    Always Server.step Server.Exclusive (Server.begin descriptions) moves ∧
      Meets Server.step Server.completesOwn (Server.begin descriptions) moves := by
  have hbegin := begin_inv descriptions
  constructor
  · exact (always_of_kept (fun _ _ _ => step_inv) hbegin).imp fun s hi => exclusive_of_inv hi
  · exact meets_of_kept (fun _ _ _ => step_inv) (fun s m hi => step_completesOwn hi m) hbegin

end NetLabs.Tasks
