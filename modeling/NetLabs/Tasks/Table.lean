import NetLabs.Lib.CText

/-!
# The task table

The tasks of `SharedData` and the operations the handler processes run on them, each between `sem_wait(&shared_data->mutex)` and
`sem_post`: `get_next_task`, `complete_task`, `clear_assigned_tasks` and the reset of a task whose client is inactive.
`assigned_to_client` is -1 for a task that nobody has: here `none`.
-/

namespace NetLabs.Tasks

open CText

/-- `Task.state`: 0, 1 and 2. -/
inductive TaskState where
  | notAssigned
  | assigned
  | completed
  deriving DecidableEq, Repr

/-- An entry of `tasks`. -/
structure Task where
  description : List UInt8
  state : TaskState
  assignedToClient : Option Nat
  deriving DecidableEq

/-- What `get_next_task` returns: -2, -1 or an index. -/
inductive NextTask where
  | alreadyAssigned
  | noTask
  | task (i : Nat)
  deriving DecidableEq

/-- `get_next_task`: refused while any task is in state 1, else the first task in state 0. -/
def getNextTask (tasks : List Task) (clientId : Nat) : NextTask × List Task :=
  if tasks.any fun t => t.state = .assigned then (.alreadyAssigned, tasks)
  else
    match tasks.findIdx? fun t => t.state = .notAssigned with
    | some i => (.task i, tasks.modify i fun t => { t with state := .assigned, assignedToClient := some clientId })
    | none => (.noTask, tasks)

/-- `complete_task`: the task stays assigned to its client. An index out of the table changes nothing. -/
def completeTask (tasks : List Task) (taskIndex : Nat) : List Task :=
  tasks.modify taskIndex fun t => { t with state := .completed }

/-- A task put back into the queue. -/
def Task.cleared (t : Task) : Task := { t with state := .notAssigned, assignedToClient := none }

/-- `clear_assigned_tasks`: whatever their state. -/
def clearAssignedTasks (tasks : List Task) (clientId : Nat) : List Task :=
  tasks.map fun t => if t.assignedToClient = some clientId then t.cleared else t

/-- What `handle_client` does to the task of an inactive client. -/
def resetTask (tasks : List Task) (currentTask : Nat) : List Task := tasks.modify currentTask Task.cleared

/-- `all_tasks_completed`. -/
def allTasksCompleted (tasks : List Task) : Bool := tasks.all fun t => t.state = .completed

/-- The table as `load_tasks` leaves it, for the lines it has read. -/
def loaded (descriptions : List (List UInt8)) : List Task :=
  descriptions.map fun d => { description := d, state := .notAssigned, assignedToClient := none }

/-- Task `i` has been completed. -/
def Completed (tasks : List Task) (i : Nat) : Prop := ∃ t, tasks[i]? = some t ∧ t.state = .completed

/-- Task `i` is in state 1 and assigned to client `c`. -/
def AssignedTo (tasks : List Task) (i c : Nat) : Prop :=
  ∃ t, tasks[i]? = some t ∧ t.state = .assigned ∧ t.assignedToClient = some c

/-! ## What the operations do to a task -/

variable {tasks tasks' : List Task} {i j c : Nat} {r : NextTask}

/-- `get_next_task` hands out a task only when none is in state 1, and then one in state 0. -/
theorem getNextTask_task (h : getNextTask tasks c = (.task i, tasks')) :
    (∀ t ∈ tasks, t.state ≠ .assigned) ∧ (∃ t, tasks[i]? = some t ∧ t.state = .notAssigned) ∧
      tasks' = tasks.modify i fun t => { t with state := .assigned, assignedToClient := some c } := by
  unfold getNextTask at h
  split at h
  · cases h
  · rename_i hany
    split at h
    · rename_i k hk
      cases h
      refine ⟨?_, ?_, rfl⟩
      · intro t ht hs
        exact hany (List.any_eq_true.2 ⟨t, ht, by simpa using hs⟩)
      · obtain ⟨hlt, hp, _⟩ := List.findIdx?_eq_some_iff_getElem.1 hk
        exact ⟨tasks[i], List.getElem?_eq_getElem hlt, by simpa using hp⟩
    · cases h

/-- When `get_next_task` hands nothing out, the table is as it was. -/
theorem getNextTask_same (h : getNextTask tasks c = (r, tasks')) (hr : ∀ i, r ≠ .task i) : tasks' = tasks := by
  unfold getNextTask at h
  split at h
  · cases h
    rfl
  · split at h
    · cases h
      exact absurd rfl (hr _)
    · cases h
      rfl

/-- `get_next_task` hands a task out exactly when none is in state 1 and there is one in state 0. -/
theorem getNextTask_isTask_iff : (∃ i, (getNextTask tasks c).1 = .task i) ↔
    (∀ t ∈ tasks, t.state ≠ .assigned) ∧ ∃ t ∈ tasks, t.state = .notAssigned := by
  unfold getNextTask
  split
  · rename_i hany
    obtain ⟨t, ht, hs⟩ := List.any_eq_true.1 hany
    simp only [reduceCtorEq, exists_false, false_iff, not_and]
    intro h
    exact absurd (by simpa using hs) (h t ht)
  · rename_i hany
    have hnone : ∀ t ∈ tasks, t.state ≠ .assigned := fun t ht hs => hany (List.any_eq_true.2 ⟨t, ht, by simpa using hs⟩)
    split
    · rename_i k hk
      obtain ⟨hlt, hp, _⟩ := List.findIdx?_eq_some_iff_getElem.1 hk
      simp only [NextTask.task.injEq, exists_eq', true_iff]
      exact ⟨hnone, tasks[k], List.getElem_mem hlt, by simpa using hp⟩
    · rename_i hk
      simp only [reduceCtorEq, exists_false, false_iff, not_and]
      rintro - ⟨t, ht, hs⟩
      have := List.findIdx?_eq_none_iff.1 hk t ht
      simp [hs] at this

/-- After `clear_assigned_tasks`, a task is one that was not the client's, or one that was and is cleared. -/
theorem getElem?_clearAssignedTasks {t : Task} (h : (clearAssignedTasks tasks c)[i]? = some t) :
    (tasks[i]? = some t ∧ t.assignedToClient ≠ some c) ∨
      ∃ u, tasks[i]? = some u ∧ u.assignedToClient = some c ∧ t = u.cleared := by
  rw [clearAssignedTasks, List.getElem?_map] at h
  obtain ⟨u, hu, rfl⟩ := Option.map_eq_some_iff.1 h
  by_cases hc : u.assignedToClient = some c
  · rw [if_pos hc]
    exact Or.inr ⟨u, hu, hc, rfl⟩
  · rw [if_neg hc]
    exact Or.inl ⟨hu, hc⟩

/-- A task that is not the client's stays as it was. -/
theorem getElem?_clearAssignedTasks_other {t : Task} (h : tasks[i]? = some t) (hc : t.assignedToClient ≠ some c) :
    (clearAssignedTasks tasks c)[i]? = some t := by
  rw [clearAssignedTasks, List.getElem?_map, h, Option.map_some, if_neg hc]

end NetLabs.Tasks
