import NetLabs.Tasks.Orphans

/-!
# Whom `get_next_task` refuses

`get_next_task` means to ask whether this client has a task, and asks whether any client has one. So at most one task is ever in state 1
(`Single`), and a call does what it is to do exactly when no other client has a task (`nextTask_right_iff`).
-/

namespace NetLabs.Tasks

open CText Function Machine

variable {l l' : Ledger} {x : Effect} {tasks : List Task} {c i : Nat} {s s' : Server} {m : Move}

/-- What `get_next_task` is to do for client `c`: -2 exactly when the client has a task; else the first task in state 0 becomes the
client's and no other task changes, or there is none and nothing changes. -/
structure NextTaskRight (tasks : List Task) (c : Nat) : Prop where
  refused : (getNextTask tasks c).1 = .alreadyAssigned ↔ ∃ i, AssignedTo tasks i c
  served : (¬∃ i, AssignedTo tasks i c) →
    (∃ i t, tasks[i]? = some t ∧ t.state = .notAssigned ∧ (∀ j < i, ∀ u, tasks[j]? = some u → u.state ≠ .notAssigned) ∧
      getNextTask tasks c = (.task i, tasks.set i { t with state := .assigned, assignedToClient := some c })) ∨
    ((∀ t ∈ tasks, t.state ≠ .notAssigned) ∧ getNextTask tasks c = (.noTask, tasks))

/-- A task in state 1 is somebody's, and there is at most one. -/
structure Single (tasks : List Task) : Prop where
  owner : ∀ (i : Nat) (t : Task), tasks[i]? = some t → t.state = .assigned → ∃ d, t.assignedToClient = some d
  unique : ∀ (i j : Nat) (t u : Task), tasks[i]? = some t → t.state = .assigned → tasks[j]? = some u → u.state = .assigned → i = j

/-! ## One task in state 1 -/

/-- Fewer tasks in state 1, none of them new. -/
theorem Single.fewer {tasks' : List Task} (h : Single tasks)
    (hold : ∀ (i : Nat) (t : Task), tasks'[i]? = some t → t.state = .assigned → tasks[i]? = some t) : Single tasks' where
  owner i t ht hs := h.owner i t (hold i t ht hs) hs
  unique i j t u ht hs hu hs' := h.unique i j t u (hold i t ht hs) hs (hold j u hu hs') hs'

/-- A task handed out when none is in state 1 is the only one. -/
theorem Single.handOut {tasks' : List Task} (h : getNextTask tasks c = (.task i, tasks')) : Single tasks' := by
  obtain ⟨hnone, -, rfl⟩ := getNextTask_task h
  have hold : ∀ (j : Nat) (t : Task), (tasks.modify i fun t => { t with state := .assigned, assignedToClient := some c })[j]? = some t →
      t.state = .assigned → i = j ∧ t.assignedToClient = some c := by
    intro j t ht hs
    by_cases hij : i = j
    · subst hij
      rw [List.getElem?_modify_eq] at ht
      obtain ⟨u, -, rfl⟩ := Option.map_eq_some_iff.1 ht
      exact ⟨rfl, rfl⟩
    · rw [List.getElem?_modify_ne _ _ hij] at ht
      exact absurd hs (hnone t (List.mem_of_getElem? ht))
  refine ⟨?_, ?_⟩
  · intro j t ht hs
    exact ⟨c, (hold j t ht hs).2⟩
  · intro j k t u ht hs hu hs'
    exact (hold j t ht hs).1.symm.trans (hold k u hu hs').1

/-- Every change of the ledger keeps it so. -/
theorem Single.change (hs : Single l.tasks) (h : Change l x l') : Single l'.tasks := by
  cases h with
  | idle | join | leave | desert => exact hs
  | reset c i hc => exact hs.fewer fun j t ht h1 => (getElem?_modify_assigned (fun _ => by simp [Task.cleared]) ht h1).2
  | take c i tasks hnext => exact Single.handOut hnext
  | grab c i tasks hnext => exact Single.handOut hnext
  | complete c i hc o ho => exact hs.fewer fun j t ht h1 => (getElem?_modify_assigned (fun _ => by simp) ht h1).2
  | clear c =>
    refine hs.fewer fun j t ht h1 => ?_
    rcases getElem?_clearAssignedTasks ht with ⟨ht, -⟩ | ⟨u, -, -, rfl⟩
    · exact ht
    · cases h1

theorem single_loaded (descriptions : List (List UInt8)) : Single (loaded descriptions) := by
  have hfree : ∀ (i : Nat) (t : Task), (loaded descriptions)[i]? = some t → t.state = .notAssigned := by
    intro i t ht
    rw [loaded, List.getElem?_map] at ht
    obtain ⟨d, -, rfl⟩ := Option.map_eq_some_iff.1 ht
    rfl
  constructor
  · intro i t ht hs
    rw [hfree i t ht] at hs
    cases hs
  · intro i j t u ht hs
    rw [hfree i t ht] at hs
    cases hs

/-- Every move of the server keeps it so. -/
theorem single_step (hi : s.Inv ∧ Single s.tasks) (h : s.step m = some s') : s'.Inv ∧ Single s'.tasks := by
  obtain ⟨x, hx, -⟩ := step_change hi.1 h
  exact ⟨step_inv hi.1 h, hi.2.change hx⟩

/-! ## What `get_next_task` does -/

/-- With no task in state 1, `get_next_task` does what it is to do. -/
theorem nextTaskRight_of_none (hnone : ∀ t ∈ tasks, t.state ≠ .assigned) : NextTaskRight tasks c := by
  have hany : ¬(tasks.any fun t => t.state = .assigned) = true := by
    rw [List.any_eq_true]
    rintro ⟨t, ht, hs⟩
    exact hnone t ht (of_decide_eq_true hs)
  have hno : ¬∃ i, AssignedTo tasks i c := by
    rintro ⟨i, t, ht, hs, -⟩
    exact hnone t (List.mem_of_getElem? ht) hs
  cases hfind : tasks.findIdx? fun t => t.state = .notAssigned with
  | none =>
    have hcall : getNextTask tasks c = (.noTask, tasks) := by simp only [getNextTask, if_neg hany, hfind]
    refine ⟨by simp [hcall, hno], fun _ => Or.inr ⟨fun t ht hs => ?_, hcall⟩⟩
    have := List.findIdx?_eq_none_iff.1 hfind t ht
    simp [hs] at this
  | some i =>
    obtain ⟨hlt, hp, hbefore⟩ := List.findIdx?_eq_some_iff_getElem.1 hfind
    have hset : (tasks.modify i fun t => { t with state := .assigned, assignedToClient := some c }) =
        tasks.set i { tasks[i] with state := .assigned, assignedToClient := some c } := by
      refine List.ext_getElem (by simp) fun j h1 h2 => ?_
      rw [List.getElem_modify, List.getElem_set]
      split
      · rename_i hij
        subst hij
        rfl
      · rfl
    have hcall : getNextTask tasks c =
        (.task i, tasks.set i { tasks[i] with state := .assigned, assignedToClient := some c }) := by
      simp only [getNextTask, if_neg hany, hfind, hset]
    refine ⟨by simp [hcall, hno], fun _ => Or.inl ⟨i, tasks[i], List.getElem?_eq_getElem hlt, of_decide_eq_true hp, ?_, hcall⟩⟩
    intro j hj u hu hs
    obtain ⟨hjlt, rfl⟩ := List.getElem?_eq_some_iff.1 hu
    exact hbefore j hj (decide_eq_true hs)

/-- With some task in state 1 it refuses. -/
theorem getNextTask_refuses (h : ∃ t ∈ tasks, t.state = .assigned) : getNextTask tasks c = (.alreadyAssigned, tasks) := by
  obtain ⟨t, ht, hs⟩ := h
  have hany : (tasks.any fun t => t.state = .assigned) = true := List.any_eq_true.2 ⟨t, ht, decide_eq_true hs⟩
  unfold getNextTask
  rw [if_pos hany]

/-- Where at most one task is in state 1, `get_next_task` does what it is to do exactly when no other client has a task. -/
theorem Single.right_iff (h : Single tasks) (c : Nat) : NextTaskRight tasks c ↔ ∀ i d, AssignedTo tasks i d → d = c := by
  by_cases hnone : ∀ t ∈ tasks, t.state ≠ .assigned
  · refine ⟨fun _ i d hd => ?_, fun _ => nextTaskRight_of_none hnone⟩
    obtain ⟨t, ht, hs, -⟩ := hd
    exact absurd hs (hnone t (List.mem_of_getElem? ht))
  · simp only [not_forall, not_not] at hnone
    obtain ⟨t, ht, hs⟩ := hnone
    have hcall : getNextTask tasks c = (.alreadyAssigned, tasks) := getNextTask_refuses ⟨t, ht, hs⟩
    obtain ⟨i, hi⟩ := List.mem_iff_getElem?.1 ht
    constructor
    · intro hright j d hd
      obtain ⟨k, hk⟩ := hright.refused.1 (congrArg Prod.fst hcall)
      obtain ⟨u, hu, hus, hud⟩ := hd
      obtain ⟨v, hv, hvs, -⟩ := id hk
      obtain rfl := h.unique j k u v hu hus hv hvs
      exact AssignedTo.unique ⟨u, hu, hus, hud⟩ hk
    · intro hall
      obtain ⟨d, hd⟩ := h.owner i t hi hs
      obtain rfl := hall i d ⟨t, hi, hs, hd⟩
      have hown : ∃ i, AssignedTo tasks i d := ⟨i, t, hi, hs, hd⟩
      exact ⟨by simp [hcall, hown], fun hno => absurd hown hno⟩

/-- Whom `get_next_task` serves. In every table the server can reach, for every client id: the call returns -2 exactly when a task in
state 1 is assigned to the client, and else hands out the first task in state 0, or returns -1 if there is none, if and only if no task
in state 1 is assigned to another client. -/
theorem nextTask_right_iff (descriptions : List (List UInt8)) (moves : List Move) (s : Server)
    (hx : exec Server.step (Server.begin descriptions) moves = some s) (c : Nat) :
    NextTaskRight s.tasks c ↔ ∀ i d, AssignedTo s.tasks i d → d = c := by
  have hinv : s.Inv ∧ Single s.tasks := exec_invariant (g := fun _ _ => True) (I := fun s : Server => s.Inv ∧ Single s.tasks)
    (fun _ _ _ hi _ hs => single_step hi hs) ⟨begin_inv descriptions, single_loaded descriptions⟩
    (meets_of_forall (q := fun _ => True) fun _ _ => trivial) hx
  exact hinv.2.right_iff c

/-- Two clients have connected, and client 0 has got the first of two tasks. -/
def firstAssigned : List Move := [.accept 0, .accept 0, .top 0 0, .recv 0 (.message (text "GET_TASK\n") false)]

/-- `nextTask_right_iff` there, for client 0: it has the only task in state 1. -/
theorem nextTask_right_own : ∃ s, exec Server.step (Server.begin [text "5 + 3", text "2 * 4"]) firstAssigned = some s ∧
    AssignedTo s.tasks 0 0 ∧ NextTaskRight s.tasks 0 := by
  have hrun : ∃ s, exec Server.step (Server.begin [text "5 + 3", text "2 * 4"]) firstAssigned = some s ∧
      (∀ t ∈ s.tasks, t.state = .assigned → t.assignedToClient = some 0) ∧
      ∃ t, s.tasks[0]? = some t ∧ t.state = .assigned ∧ t.assignedToClient = some 0 :=
    ⟨_, rfl, by decide +kernel, _, rfl, rfl, rfl⟩
  obtain ⟨s, hx, hall, hown⟩ := hrun
  refine ⟨s, hx, hown, (nextTask_right_iff [text "5 + 3", text "2 * 4"] firstAssigned s hx 0).2 ?_⟩
  rintro i d ⟨t, ht, hs, hd⟩
  exact Option.some.inj (hd.symm.trans (hall t (List.mem_of_getElem? ht) hs))

/-- Client 0 has the first of two tasks; client 1, who has none, is refused. -/
theorem second_client_refused :
    ∃ s, exec Server.step (Server.begin [text "5 + 3", text "2 * 4"]) firstAssigned = some s ∧
      (∀ i, ¬AssignedTo s.tasks i 1) ∧ (getNextTask s.tasks 1).1 = .alreadyAssigned ∧ ¬NextTaskRight s.tasks 1 := by
  have hrun : ∃ s, exec Server.step (Server.begin [text "5 + 3", text "2 * 4"]) firstAssigned = some s ∧
      (∀ t ∈ s.tasks, t.assignedToClient ≠ some 1) ∧ (getNextTask s.tasks 1).1 = .alreadyAssigned :=
    ⟨_, rfl, by decide +kernel, rfl⟩
  obtain ⟨s, hx, hnobody, hcall⟩ := hrun
  have hno : ∀ i, ¬AssignedTo s.tasks i 1 := by
    rintro i ⟨t, ht, -, hc⟩
    exact hnobody t (List.mem_of_getElem? ht) hc
  refine ⟨s, hx, hno, hcall, fun hright => ?_⟩
  obtain ⟨i, hi⟩ := hright.refused.1 hcall
  exact hno i hi

end NetLabs.Tasks
