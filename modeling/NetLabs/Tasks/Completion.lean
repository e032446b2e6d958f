import NetLabs.Tasks.Server

/-!
# Completed tasks

`complete_task` leaves `assigned_to_client` as it was, and `clear_assigned_tasks` goes by that field alone. A task that is completed
goes back to state 0 exactly when the client that completed it closes its connection; until then it stays completed, and
`server_shutdown` is set only over a table where all tasks are.
-/

namespace NetLabs.Tasks

open CText Function Machine

variable {l l' : Ledger} {x : Effect} {c i j : Nat} {tasks : List Task} {s s' : Server} {m : Move} {f : Task → Task}

/-- A completed task that has the client's number on it is put back when the client's connection ends. -/
def Server.takesBack (s : Server) (m : Move) : Prop :=
  ∃ c t, m = .recv c .closed ∧ t ∈ s.tasks ∧ t.state = .completed ∧ t.assignedToClient = some c

/-- All tasks are completed, index by index. -/
theorem allTasksCompleted_iff : allTasksCompleted tasks = true ↔ ∀ i < tasks.length, Completed tasks i := by
  simp only [allTasksCompleted, List.all_eq_true, decide_eq_true_eq]
  constructor
  · intro h i hi
    exact ⟨tasks[i], List.getElem?_eq_getElem hi, h _ (List.getElem_mem hi)⟩
  · intro h t ht
    obtain ⟨i, hi, rfl⟩ := List.getElem_of_mem ht
    obtain ⟨u, hu, hs⟩ := h i hi
    rw [List.getElem?_eq_getElem hi] at hu
    cases hu
    exact hs

/-- A change of another task leaves a task completed. -/
theorem Completed.modify_ne (h : Completed tasks j) (hij : i ≠ j) : Completed (tasks.modify i f) j := by
  obtain ⟨t, ht, hs⟩ := h
  exact ⟨t, by rw [List.getElem?_modify_ne f tasks hij]; exact ht, hs⟩

/-- A task that somebody has is not completed. -/
theorem Completed.ne_of_assigned (h : Completed tasks j) (ha : AssignedTo tasks i c) : i ≠ j := by
  rintro rfl
  obtain ⟨t, ht, hs⟩ := h
  obtain ⟨u, hu, hs', _⟩ := ha
  rw [ht] at hu
  cases hu
  rw [hs] at hs'
  cases hs'

/-- A task that is handed out is not completed. -/
theorem Completed.ne_of_handedOut (h : Completed tasks j) (hi : ∃ t, tasks[i]? = some t ∧ t.state = .notAssigned) : i ≠ j := by
  rintro rfl
  obtain ⟨t, ht, hs⟩ := h
  obtain ⟨u, hu, hs'⟩ := hi
  rw [ht] at hu
  cases hu
  rw [hs] at hs'
  cases hs'

/-- A change that clears nobody's tasks leaves completed tasks completed. -/
theorem Change.completed (ho : l.Owned) (h : Change l x l') (hx : ∀ c, x ≠ .cleared c) (hj : Completed l.tasks j) :
    Completed l'.tasks j := by
  cases h with
  | idle | join | leave | desert => exact hj
  | reset c i hc => exact hj.modify_ne (hj.ne_of_assigned (ho c i hc))
  | take c i tasks ht | grab c i tasks ht =>
    obtain ⟨_, hfree, rfl⟩ := getNextTask_task ht
    exact hj.modify_ne (hj.ne_of_handedOut hfree)
  | complete c i hc o hoo => exact hj.modify_ne (hj.ne_of_assigned (ho c i hc))
  | clear c => exact absurd rfl (hx c)

/-- `clear_assigned_tasks` leaves completed tasks completed exactly when none of them is assigned to the client. -/
theorem clear_completed_iff : (∀ i, Completed tasks i → Completed (clearAssignedTasks tasks c) i) ↔
    ∀ t ∈ tasks, t.state = .completed → t.assignedToClient ≠ some c := by
  constructor
  · intro h t ht hs hc
    obtain ⟨i, hi, rfl⟩ := List.getElem_of_mem ht
    have hti : tasks[i]? = some tasks[i] := List.getElem?_eq_getElem hi
    obtain ⟨u, hu, hus⟩ := h i ⟨_, hti, hs⟩
    rcases getElem?_clearAssignedTasks hu with ⟨hu, hne⟩ | ⟨v, _, _, rfl⟩
    · rw [hti] at hu
      cases hu
      exact hne hc
    · cases hus
  · rintro h i ⟨t, ht, hs⟩
    exact ⟨t, getElem?_clearAssignedTasks_other ht (h t (List.mem_of_getElem? ht) hs), hs⟩

/-- A move keeps every completed task completed exactly when it takes none back. -/
theorem step_completed_iff (hi : s.Inv) (h : s.step m = some s') :
    (∀ i, Completed s.tasks i → Completed s'.tasks i) ↔ ¬s.takesBack m := by
  obtain ⟨x, hx, hof⟩ := step_change hi h
  by_cases hcl : ∃ c, x = .cleared c
  · obtain ⟨c, rfl⟩ := hcl
    obtain rfl : m = .recv c .closed := (hof.cleared c).1 rfl
    have htasks : s'.tasks = clearAssignedTasks s.tasks c := by
      generalize hl : s'.ledger = l' at hx
      cases hx
      exact congrArg Ledger.tasks hl
    rw [htasks, clear_completed_iff]
    constructor
    · rintro hall ⟨d, t, hd, ht, hs, hc⟩
      cases hd
      exact hall t ht hs hc
    · intro hnot t ht hs hc
      exact hnot ⟨c, t, rfl, ht, hs, hc⟩
  · have hnot : ¬s.takesBack m := by
      rintro ⟨c, t, rfl, _⟩
      exact hcl ⟨c, (hof.cleared c).2 rfl⟩
    exact iff_of_true (fun j hj => hx.completed hi.owned (fun c hc => hcl ⟨c, hc⟩) hj) hnot

/-- The table keeps its length. -/
theorem Change.length (h : Change l x l') : l'.tasks.length = l.tasks.length := by
  cases h with
  | idle | join | leave | desert => rfl
  | reset | complete => simp [resetTask, completeTask]
  | take c i tasks ht | grab c i tasks ht =>
    obtain ⟨_, _, rfl⟩ := getNextTask_task ht
    simp
  | clear => simp [clearAssignedTasks]

/-- `main` has found all tasks completed. -/
def Server.stopping (s : Server) : Prop := s.serverShutdown = true ∨ s.main = .shuttingDown

/-- `main` finds all tasks completed by looking at the table. -/
theorem step_stopping (h : s.step m = some s') (hs' : s'.stopping) : s.stopping ∨ allTasksCompleted s.tasks = true := by
  cases step_stepped h with
  | accept now hm => exact Or.inl hs'
  | allCompleted hm hall hlen => exact Or.inr hall
  | shutdown hm => exact Or.inl (Or.inr hm)
  | selectFails hm =>
    rcases hs' with hs' | hs'
    · exact Or.inl (Or.inl hs')
    · cases hs'
  | top c now h0 hc hp =>
    obtain ⟨_, _, hm, hd⟩ := top_frame s c h0 now
    exact Or.inl (by simpa only [Server.stopping, hm, hd] using hs')
  | recv c r h0 _ hc hp hs =>
    obtain ⟨_, _, hm, hd⟩ := recv_frame hs
    exact Or.inl (by simpa only [Server.stopping, hm, hd] using hs')

/-- Over a table where nothing is taken back, `main` stops only while all tasks are completed. -/
theorem step_allCompleted (hi : s.Inv) (hall : s.stopping → allTasksCompleted s.tasks = true) (hg : ¬s.takesBack m)
    (h : s.step m = some s') (hs' : s'.stopping) : allTasksCompleted s'.tasks = true := by
  obtain ⟨x, hx, _⟩ := step_change hi h
  have hlen : s'.tasks.length = s.tasks.length := hx.length
  have hbefore : allTasksCompleted s.tasks = true := by
    rcases step_stopping h hs' with hs | hc
    · exact hall hs
    · exact hc
  rw [allTasksCompleted_iff] at hbefore ⊢
  intro i hlt
  exact (step_completed_iff hi h).2 hg i (hbefore i (by omega))

/-- Once `server_shutdown` is set, every task is completed. -/
def Server.ShutdownComplete (s : Server) : Prop := s.serverShutdown = true → ∀ t ∈ s.tasks, t.state = .completed

/-- Completed tasks stay completed, and `server_shutdown` means that all are, along exactly those runs in which no client closes its
connection while a completed task has its number on it. -/
theorem completed_stays_iff (descriptions : List (List UInt8)) (moves : List Move)
    (hx : exec Server.step (Server.begin descriptions) moves = some s') :
    (Stays Server.step (fun i s => Completed s.tasks i) (Server.begin descriptions) moves ∧
        Always Server.step Server.ShutdownComplete (Server.begin descriptions) moves) ↔
      Meets Server.step (fun s m => ¬s.takesBack m) (Server.begin descriptions) moves := by
  have hstays : Stays Server.step (fun i s => Completed s.tasks i) (Server.begin descriptions) moves ↔
      Meets Server.step (fun s m => ¬s.takesBack m) (Server.begin descriptions) moves :=
    stays_iff_meets (fun _ _ _ => step_inv) (fun _ _ _ hi h => step_completed_iff hi h) (begin_inv descriptions) hx
  rw [hstays, and_iff_left_iff_imp]
  intro hm
  have hrun : Always Server.step (fun s => s.Inv ∧ (s.stopping → allTasksCompleted s.tasks = true)) (Server.begin descriptions)
      moves := by
    refine always_of_invariant (fun s m s' hi hg h => ⟨step_inv hi.1 h, step_allCompleted hi.1 hi.2 hg h⟩) ?_ hm
    exact ⟨begin_inv descriptions, fun hs => by simp [Server.stopping, Server.begin] at hs⟩
  refine hrun.imp fun s hs hdown t ht => ?_
  have hall := hs.2 (Or.inl hdown)
  simp only [allTasksCompleted, List.all_eq_true, decide_eq_true_eq] at hall
  exact hall t ht

/-- One client connects at time 0, takes the only task, sends its result and has not closed its connection yet when `main` finds all
tasks completed. -/
def completedRun : List Move :=
  [.accept 0, .top 0 0, .recv 0 (.message (text "GET_TASK\n") false), .top 0 1, .recv 0 (.message (text "RESULT 8\n") false),
    .allCompleted, .top 0 2, .shutdown]

/-- `completed_stays_iff` on a client that completes a task and stays connected. -/
theorem completed_stays_one : ∃ s', exec Server.step (Server.begin [text "5 + 3"]) completedRun = some s' ∧
    ((Stays Server.step (fun i s => Completed s.tasks i) (Server.begin [text "5 + 3"]) completedRun ∧
        Always Server.step Server.ShutdownComplete (Server.begin [text "5 + 3"]) completedRun) ↔
      Meets Server.step (fun s m => ¬s.takesBack m) (Server.begin [text "5 + 3"]) completedRun) :=
  ⟨_, rfl, completed_stays_iff [text "5 + 3"] completedRun rfl⟩

/-- The same client closes its connection: the task it has completed is back in state 0, with `server_shutdown` set. -/
theorem completed_undone :
    ¬Stays Server.step (fun i s => Completed s.tasks i) (Server.begin [text "5 + 3"]) (completedRun ++ [.recv 0 .closed]) ∧
      ¬Always Server.step Server.ShutdownComplete (Server.begin [text "5 + 3"]) (completedRun ++ [.recv 0 .closed]) := by
  have hbefore : ∃ t, exec Server.step (Server.begin [text "5 + 3"]) completedRun = some t ∧ Completed t.tasks 0 :=
    ⟨_, rfl, _, rfl, rfl⟩
  have hafter : ∃ u, exec Server.step (Server.begin [text "5 + 3"]) (completedRun ++ [.recv 0 .closed]) = some u ∧
      u.serverShutdown = true ∧ ∃ d, u.tasks = [⟨d, .notAssigned, none⟩] := ⟨_, rfl, rfl, _, rfl⟩
  obtain ⟨t, ht, hdone⟩ := hbefore
  obtain ⟨u, hu, hdown, d, htasks⟩ := hafter
  constructor
  · intro hstays
    rw [exec_append, ht] at hu
    obtain ⟨v, hv, hs⟩ := hstays completedRun [.recv 0 .closed] (List.prefix_refl _) t ht u hu 0 hdone
    rw [htasks] at hv
    cases hv
    cases hs
  · intro hall
    have := hall _ (List.prefix_refl _) u hu hdown ⟨d, .notAssigned, none⟩ (by simp [htasks])
    cases this

end NetLabs.Tasks
