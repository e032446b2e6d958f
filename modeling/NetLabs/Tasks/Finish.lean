import NetLabs.Tasks.Completion
import NetLabs.Tasks.Refusal

/-!
# Whether the server can finish

`main` ends the server when all tasks are completed. `get_next_task` hands nothing out while any task is in state 1, so one task that
nobody works on stops the whole queue: its client has ended, nobody else puts it back, and no other task is handed out. As long as
there is none, the handler that has a task, or a new client, can go on to the end. -/

namespace NetLabs.Tasks

open CText Function Machine

/-- Some run from here sets `server_shutdown`. -/
def Server.CanFinish (s : Server) : Prop := CanReach Server.step (fun s => s.serverShutdown = true) s

/-- How many tasks are not completed. -/
def tasksLeft (tasks : List Task) : Nat := tasks.countP fun t => t.state ≠ .completed

/-- A task in state 1 is assigned to a client whose handler has ended. -/
def Server.Orphaned (s : Server) : Prop := ∃ i c, AssignedTo s.tasks i c ∧ s.handlers c = none

/-- A client that has a task in state 1 has been given its number, and its handler, if it runs, has this task as its own. -/
structure Server.Known (s : Server) : Prop where
  issued : ∀ i c, AssignedTo s.tasks i c → c < s.clientId
  current : ∀ i c, AssignedTo s.tasks i c → s.ledger.current c = none ∨ s.ledger.current c = some (some i)

variable {l l' : Ledger} {x : Effect} {tasks tasks' : List Task} {c d i j k : Nat} {s s' : Server} {m : Move} {f : Task → Task}
  {h : Handler}

/-! ## Whose the tasks in state 1 are after an operation -/

theorem assigned_of_modify (hf : ∀ u, (f u).state ≠ .assigned) (ha : AssignedTo (tasks.modify k f) i c) :
    k ≠ i ∧ AssignedTo tasks i c := by
  obtain ⟨t, ht, hs, hc⟩ := ha
  obtain ⟨hki, ht⟩ := getElem?_modify_assigned hf ht hs
  exact ⟨hki, t, ht, hs, hc⟩

theorem assigned_of_clearAssignedTasks (ha : AssignedTo (clearAssignedTasks tasks c) i d) : d ≠ c ∧ AssignedTo tasks i d := by
  obtain ⟨t, ht, hs, hd⟩ := ha
  rcases getElem?_clearAssignedTasks ht with ⟨ht, hne⟩ | ⟨u, -, -, rfl⟩
  · refine ⟨?_, t, ht, hs, hd⟩
    rintro rfl
    exact hne hd
  · cases hs

/-- After a task has been handed out it is the only one in state 1. -/
theorem assigned_of_getNextTask (hnext : getNextTask tasks c = (.task k, tasks')) (ha : AssignedTo tasks' i d) : i = k ∧ d = c := by
  obtain ⟨hnone, -, rfl⟩ := getNextTask_task hnext
  obtain ⟨t, ht, hs, hd⟩ := ha
  by_cases hki : k = i
  · subst hki
    rw [List.getElem?_modify_eq] at ht
    obtain ⟨u, -, rfl⟩ := Option.map_eq_some_iff.1 ht
    exact ⟨rfl, (Option.some.inj hd).symm⟩
  · rw [List.getElem?_modify_ne _ tasks hki] at ht
    exact absurd hs (hnone t (List.mem_of_getElem? ht))

/-- A message gives a task to nobody but its own client. -/
theorem assigned_of_serve {currentTask : Option Nat} {buffer : List UInt8} (ha : AssignedTo (serve tasks c currentTask buffer).tasks i d) :
    d = c ∨ AssignedTo tasks i d := by
  unfold serve at ha
  split at ha
  · exact Or.inr ha
  · split at ha
    · obtain ⟨r, tasks', hr⟩ : ∃ r tasks', getNextTask tasks c = (r, tasks') := ⟨_, _, rfl⟩
      have htasks : (serveGetTask tasks c currentTask).tasks = tasks' := by
        cases r <;> simp [serveGetTask, hr]
      rw [htasks] at ha
      cases r with
      | task k => exact Or.inl (assigned_of_getNextTask hr ha).2
      | alreadyAssigned | noTask =>
        rw [getNextTask_same hr (by simp)] at ha
        exact Or.inr ha
    · split at ha
      · cases currentTask with
        | none => exact Or.inr ha
        | some k => exact Or.inr (assigned_of_modify (fun _ => by simp) ha).2
      · exact Or.inr ha

theorem assigned_of_top {now : Int} (ha : AssignedTo (s.top c h now).tasks i d) : AssignedTo s.tasks i d := by
  unfold Server.top at ha
  split at ha
  · exact (assigned_of_modify (fun _ => by simp [Task.cleared]) ha).2
  · split at ha <;> exact ha

theorem assigned_of_recv {r : Received} (hs : s.recv c h r = some s') (ha : AssignedTo s'.tasks i d) :
    d = c ∨ AssignedTo s.tasks i d := by
  cases r with
  | message b broken =>
    obtain ⟨_, ⟨⟩⟩ := Option.ite_none_right_eq_some.1 hs
    exact assigned_of_serve ha
  | closed =>
    cases hs
    exact Or.inr (assigned_of_clearAssignedTasks ha).2
  | wouldBlock | failed =>
    cases hs
    exact Or.inr ha

/-- A change in which nobody joins leaves it so that a running handler has the tasks that are its client's. -/
theorem Change.current_assigned (hk : ∀ i c, AssignedTo l.tasks i c → l.current c = none ∨ l.current c = some (some i))
    (h : Change l x l') (hjoin : ∀ c, l.current c = none → l'.current c = none) (ha : AssignedTo l'.tasks i d) :
    l'.current d = none ∨ l'.current d = some (some i) := by
  -- whoever is not the client that makes the change is as before
  have hother : ∀ {c o}, d ≠ c → AssignedTo l.tasks i d →
      update l.current c o d = none ∨ update l.current c o d = some (some i) := by
    intro c o hdc hold
    rw [update_of_ne hdc]
    exact hk i d hold
  cases h with
  | idle => exact hk i d ha
  | join c hc =>
    have hnone : update l.current c (some none) c = none := hjoin c hc
    rw [update_self] at hnone
    cases hnone
  | leave c hc | desert c j hc =>
    by_cases hdc : d = c
    · rw [hdc]
      exact Or.inl (update_self ..)
    · exact hother hdc ha
  | reset c j hc =>
    by_cases hdc : d = c
    · rw [hdc]
      exact Or.inl (update_self ..)
    · exact hother hdc (assigned_of_modify (fun _ => by simp [Task.cleared]) ha).2
  | take c j tasks hnext =>
    obtain ⟨rfl, rfl⟩ := assigned_of_getNextTask hnext ha
    exact Or.inr (update_self ..)
  | grab c j tasks hnext =>
    obtain ⟨rfl, rfl⟩ := assigned_of_getNextTask hnext ha
    exact Or.inl (update_self ..)
  | complete c j hc o hoo =>
    obtain ⟨hji, hold⟩ := assigned_of_modify (fun _ => by simp) ha
    by_cases hdc : d = c
    · subst hdc
      rcases hk i d hold with hnone | hsome
      · rw [hc] at hnone
        cases hnone
      · rw [hc] at hsome
        exact absurd (Option.some.inj (Option.some.inj hsome)) hji
    · exact hother hdc hold
  | clear c =>
    obtain ⟨hdc, hold⟩ := assigned_of_clearAssignedTasks ha
    exact hother hdc hold

/-- What the handler of one client does leaves the handlers that have ended as they are. -/
theorem ended_update {o : Option Handler} (hd : s.handlers d = some h) (hh : s'.handlers = update s.handlers d o)
    (hc : s.handlers c = none) : s'.handlers c = none := by
  rw [hh, update_of_ne (by rintro rfl; rw [hc] at hd; cases hd)]
  exact hc

/-- A handler that has ended does not come back. -/
theorem ended_step (hlt : c < s.clientId) (hc : s.handlers c = none) (h : s.step m = some s') : s'.handlers c = none := by
  cases step_stepped h with
  | accept now hm =>
    dsimp only
    rw [update_of_ne (by omega)]
    exact hc
  | allCompleted | shutdown | selectFails => exact hc
  | top d now h0 hd hp =>
    obtain ⟨⟨o, ho⟩, -⟩ := top_frame s d h0 now
    exact ended_update hd ho hc
  | recv d r h0 _ hd hp hs =>
    obtain ⟨⟨o, ho⟩, -⟩ := recv_frame hs
    exact ended_update hd ho hc

theorem current_eq_none_iff : s.ledger.current c = none ↔ s.handlers c = none := by
  rw [Server.ledger, Option.map_eq_none_iff]

/-- Every move keeps it so. -/
theorem known_step (hi : s.Inv) (hk : s.Known) (h : s.step m = some s') : s'.Known := by
  obtain ⟨x, hx, -⟩ := step_change hi h
  have hcurrent : (∀ c, s.handlers c = none → s'.handlers c = none) → ∀ i c, AssignedTo s'.tasks i c →
      s'.ledger.current c = none ∨ s'.ledger.current c = some (some i) := fun hended i c ha =>
    hx.current_assigned hk.current (fun c hc => current_eq_none_iff.2 (hended c (current_eq_none_iff.1 hc))) ha
  cases step_stepped h with
  | accept now hm =>
    refine ⟨fun i c ha => Nat.lt_succ_of_lt (hk.issued i c ha), fun i c ha => ?_⟩
    have hsame : update s.handlers s.clientId (some { currentTask := none, lastActiveTime := now, phase := .top }) c = s.handlers c :=
      update_of_ne (Nat.ne_of_lt (hk.issued i c ha)) _ _
    simp only [Server.ledger, hsame]
    exact hk.current i c ha
  | allCompleted | shutdown | selectFails => exact ⟨hk.issued, hk.current⟩
  | top d now h0 hd hp =>
    obtain ⟨⟨o, ho⟩, hid, -⟩ := top_frame s d h0 now
    refine ⟨fun i c ha => ?_, hcurrent fun c => ended_update hd ho⟩
    rw [hid]
    exact hk.issued i c (assigned_of_top ha)
  | recv d r h0 _ hd hp hs =>
    obtain ⟨⟨o, ho⟩, hid, -⟩ := recv_frame hs
    refine ⟨fun i c ha => ?_, hcurrent fun c => ended_update hd ho⟩
    rw [hid]
    rcases assigned_of_recv hs ha with rfl | hold
    · exact hi.fresh.lt hd
    · exact hk.issued i c hold

/-! ## A task that nobody works on -/

/-- With the invariants, a task is orphaned when it is in state 1 and its client has ended. -/
theorem noOrphan_iff_not_orphaned (hi : s.Inv) (hone : Single s.tasks) (hk : s.Known) : s.NoOrphan ↔ ¬s.Orphaned := by
  constructor
  · rintro hno ⟨i, c, ha, hc⟩
    exact hno.ended c hc i ha
  · intro hno
    refine (noOrphan_iff hi).2 fun i t ht hs => ?_
    obtain ⟨c, hc⟩ := hone.owner i t ht hs
    have ha : AssignedTo s.tasks i c := ⟨t, ht, hs, hc⟩
    rcases hk.current i c ha with hnone | hsome
    · exact absurd ⟨i, c, ha, current_eq_none_iff.1 hnone⟩ hno
    · exact ⟨c, hsome⟩

/-- No change takes a task from a client whose handler has ended: nobody else has it, and nobody is handed another. -/
theorem AssignedTo.change (ho : l.Owned) (ha : AssignedTo l.tasks i c) (hc : l.current c = none) (hclear : x ≠ .cleared c)
    (h : Change l x l') : AssignedTo l'.tasks i c := by
  have hne : ∀ {d j}, l.current d = some (some j) → j ≠ i := by
    rintro d j hd rfl
    rw [(ho d j hd).unique ha, hc] at hd
    cases hd
  cases h with
  | idle | join | leave | desert => exact ha
  | reset d j hd => exact ha.modify_ne (hne hd)
  | take d j tasks hnext | grab d j tasks hnext =>
    obtain ⟨hnone, -⟩ := getNextTask_task hnext
    exact (ha.not_free hnone).elim
  | complete d j hd o hoo => exact ha.modify_ne (hne hd)
  | clear d =>
    obtain ⟨t, ht, hs, htc⟩ := ha
    refine ⟨t, getElem?_clearAssignedTasks_other ht ?_, hs, htc⟩
    rintro heq
    rw [htc] at heq
    exact hclear (congrArg Effect.cleared (Option.some.inj heq).symm)

/-- Every move leaves it orphaned. -/
theorem orphaned_step (hi : s.Inv) (hk : s.Known) (ho : s.Orphaned) (h : s.step m = some s') : s'.Orphaned := by
  obtain ⟨i, c, ha, hc⟩ := ho
  obtain ⟨x, hx, hof⟩ := step_change hi h
  refine ⟨i, c, ha.change hi.owned (current_eq_none_iff.2 hc) ?_ hx, ended_step (hk.issued i c ha) hc h⟩
  rintro rfl
  obtain rfl := (hof.cleared c).1 rfl
  cases step_stepped h with
  | recv _ _ h0 _ hd hp hs =>
    rw [hc] at hd
    cases hd

/-- With an orphaned task `main` never finds all tasks completed. -/
theorem not_canFinish_of_orphaned (hi : s.Inv) (hk : s.Known) (ho : s.Orphaned) (hstop : ¬s.stopping) : ¬s.CanFinish := by
  refine not_canReach (I := fun s => s.Inv ∧ s.Known ∧ s.Orphaned ∧ ¬s.stopping) ?_ ?_ ⟨hi, hk, ho, hstop⟩
  · rintro s m s' ⟨hi, hk, ho, hstop⟩ h
    refine ⟨step_inv hi h, known_step hi hk h, orphaned_step hi hk ho h, fun hstop' => ?_⟩
    rcases step_stopping h hstop' with hbefore | hall
    · exact hstop hbefore
    · obtain ⟨i, c, ⟨t, ht, hs, -⟩, -⟩ := ho
      simp only [allTasksCompleted, List.all_eq_true, decide_eq_true_eq] at hall
      rw [hall t (List.mem_of_getElem? ht)] at hs
      cases hs
  · rintro s ⟨-, -, -, hstop⟩ hdone
    exact hstop (Or.inl hdone)

/-- Once `main` has ended without setting `server_shutdown`, nobody sets it. -/
theorem ended_without (hm : s.main = .ended) (hstop : s.serverShutdown = false) (h : s.step m = some s') :
    s'.main = .ended ∧ s'.serverShutdown = false := by
  cases step_stepped h with
  | accept now hm' | allCompleted hm' | shutdown hm' | selectFails hm' =>
    rw [hm] at hm'
    cases hm'
  | top c now h0 hc hp =>
    obtain ⟨-, -, hmain, hdown⟩ := top_frame s c h0 now
    exact ⟨hmain.trans hm, hdown.trans hstop⟩
  | recv c r h0 _ hc hp hs =>
    obtain ⟨-, -, hmain, hdown⟩ := recv_frame hs
    exact ⟨hmain.trans hm, hdown.trans hstop⟩

/-- So it cannot finish any more. -/
theorem not_canFinish_of_ended (hm : s.main = .ended) (hstop : s.serverShutdown = false) : ¬s.CanFinish := by
  refine not_canReach (I := fun s => s.main = .ended ∧ s.serverShutdown = false)
    (fun s m s' hs h => ended_without hs.1 hs.2 h) ?_ ⟨hm, hstop⟩
  rintro s ⟨-, hstop⟩ hdone
  rw [hstop] at hdone
  cases hdone

/-! ## A run to the end -/

theorem tasksLeft_cons (t : Task) (tasks : List Task) :
    tasksLeft (t :: tasks) = tasksLeft tasks + if t.state = .completed then 0 else 1 := by
  rw [tasksLeft, List.countP_cons, tasksLeft]
  by_cases hs : t.state = .completed <;> simp [hs]

/-- A change of one task changes the count by what it does to that task. -/
theorem tasksLeft_modify {t : Task} (ht : tasks[i]? = some t) (f : Task → Task) :
    tasksLeft (tasks.modify i f) + (if t.state = .completed then 0 else 1) =
      tasksLeft tasks + if (f t).state = .completed then 0 else 1 := by
  induction tasks generalizing i with
  | nil => cases ht
  | cons u tasks ih =>
    cases i with
    | zero =>
      obtain rfl : u = t := by simpa using ht
      rw [List.modify_zero_cons, tasksLeft_cons, tasksLeft_cons]
      omega
    | succ i =>
      have := ih (i := i) (by simpa using ht)
      rw [List.modify_succ_cons, tasksLeft_cons, tasksLeft_cons]
      omega

/-- `main` serves, tasks are loaded, and none is orphaned. -/
structure Server.Going (s : Server) : Prop where
  inv : s.Inv
  held : s.ledger.Held
  main : s.main = .serving
  running : s.serverShutdown = false
  loaded : 0 < s.tasks.length

/-- It goes on with every move of a handler that leaves no task behind. -/
theorem going_step (hg : s.Going) (hm : ¬s.deserts m) (h : s.step m = some s') (hmain : s'.main = s.main)
    (hdown : s'.serverShutdown = s.serverShutdown) : s'.Going := by
  obtain ⟨x, hx, hof⟩ := step_change hg.inv h
  refine ⟨step_inv hg.inv h, hg.held.change hg.inv.owned hx fun hd => hm (hof.deserted.1 hd), hmain.trans hg.main,
    hdown.trans hg.running, ?_⟩
  have hlen : s'.tasks.length = s.tasks.length := hx.length
  rw [hlen]
  exact hg.loaded

/-- A handler that is at the top of its loop gets to `recv`. -/
theorem exists_receiving (hg : s.Going) (hc : s.handlers c = some h) : ∃ es t h', exec Server.step s es = some t ∧ t.Going ∧
    t.tasks = s.tasks ∧ t.handlers c = some h' ∧ h'.currentTask = h.currentTask ∧ h'.phase = .receiving := by
  cases hp : h.phase with
  | receiving => exact ⟨[], s, h, rfl, hg, rfl, hc, rfl, hp⟩
  | top =>
    have hearly : decide (h.lastActiveTime - h.lastActiveTime > 10) = false := by simp
    have htop : s.top c h h.lastActiveTime = { s with handlers := update s.handlers c (some { h with phase := .receiving }) } := by
      unfold Server.top
      rw [hearly]
      simp only [hg.running, Bool.false_eq_true, if_false]
    have hstep : s.step (.top c h.lastActiveTime) =
        some { s with handlers := update s.handlers c (some { h with phase := .receiving }) } := by
      simp only [Server.step, hc, hp, if_true, htop]
    have hkeeps : ¬s.deserts (.top c h.lastActiveTime) := by
      rintro ⟨hdown, -⟩
      rw [hg.running] at hdown
      cases hdown
    exact ⟨[_], _, _, exec_cons_eq_some.2 ⟨_, hstep, rfl⟩, going_step hg hkeeps hstep rfl rfl, rfl, update_self .., rfl, rfl⟩

/-- What a handler that is at `recv` does with a message. -/
theorem step_message (hc : s.handlers c = some h) (hp : h.phase = .receiving) {b : List UInt8} (hb : fits b = true) :
    ∃ s', s.step (.recv c (.message b false)) = some s' ∧ s'.tasks = (serve s.tasks c h.currentTask b).tasks ∧
      s'.handlers c = h.after (serve s.tasks c h.currentTask b) false ∧ s'.main = s.main ∧ s'.serverShutdown = s.serverShutdown := by
  have hstep : s.step (.recv c (.message b false)) = some { s with
      tasks := (serve s.tasks c h.currentTask b).tasks
      handlers := update s.handlers c (h.after (serve s.tasks c h.currentTask b) false)
      sent := s.sent ++ ((serve s.tasks c h.currentTask b).reply.map fun r => (c, r)).toList } := by
    simp only [Server.step, hc, hp, if_true, Server.recv, hb]
  exact ⟨_, hstep, rfl, update_self .., rfl, rfl⟩

/-- A handler that has a task can complete it. -/
theorem exists_completion (hg : s.Going) (hc : s.handlers c = some h) (hh : h.currentTask = some i) :
    ∃ es t, exec Server.step s es = some t ∧ t.Going ∧ tasksLeft t.tasks < tasksLeft s.tasks := by
  obtain ⟨es, t, h', hes, ht, htasks, hc', hcur, hp⟩ := exists_receiving hg hc
  obtain ⟨t', hstep, htasks', -, hmain, hdown⟩ := step_message hc' hp (b := text "RESULT") (by decide)
  have hkeeps : ¬t.deserts (.recv c (.message (text "RESULT") false)) := by
    rintro (⟨hexit, -⟩ | ⟨-, hbroken, -⟩)
    · exact absurd hexit (by decide)
    · cases hbroken
  refine ⟨es ++ [_], t', by rw [exec_append, hes]; exact exec_cons_eq_some.2 ⟨t', hstep, rfl⟩,
    going_step ht hkeeps hstep hmain hdown, ?_⟩
  have hcomplete : t'.tasks = completeTask s.tasks i := by
    rw [htasks', htasks, hcur, hh]
    rfl
  obtain ⟨u, hu, hs, -⟩ := hg.inv.owned c i (by rw [ledger_current hc, hh])
  have hu : s.tasks[i]? = some u := hu
  have hcount := tasksLeft_modify hu fun t => { t with state := .completed }
  simp only [hs, reduceCtorEq, if_false, if_true] at hcount
  rw [hcomplete, completeTask]
  omega

/-- When no task is in state 1 and one is in state 0, a new client can take it. -/
theorem exists_handOut (hg : s.Going) (hnone : ∀ t ∈ s.tasks, t.state ≠ .assigned)
    (hfree : ∃ t ∈ s.tasks, t.state = .notAssigned) :
    ∃ es t c h i, exec Server.step s es = some t ∧ t.Going ∧ tasksLeft t.tasks = tasksLeft s.tasks ∧ t.handlers c = some h ∧
      h.currentTask = some i := by
  have haccept : s.step (.accept 0) = some { s with
      clientId := s.clientId + 1
      handlers := update s.handlers s.clientId (some { currentTask := none, lastActiveTime := 0, phase := .top }) } := if_pos hg.main
  have hg1 := going_step hg (m := .accept 0) (fun hd => hd) haccept rfl rfl
  obtain ⟨es, t, h', hes, ht, htasks, hc', hcur, hp⟩ := exists_receiving hg1 (c := s.clientId) (update_self ..)
  obtain ⟨i, hi⟩ := getNextTask_isTask_iff.2 ⟨hnone, hfree⟩
  obtain ⟨t', hstep, htasks', hhandler, hmain, hdown⟩ := step_message hc' hp (b := text "GET_TASK") (by decide)
  have hkeeps : ¬t.deserts (.recv s.clientId (.message (text "GET_TASK") false)) := by
    rintro (⟨hexit, -⟩ | ⟨-, hbroken, -⟩)
    · exact absurd hexit (by decide)
    · cases hbroken
  have hnext : getNextTask s.tasks s.clientId = (.task i, (getNextTask s.tasks s.clientId).2) := by rw [← hi]
  have hserve : serve t.tasks s.clientId h'.currentTask (text "GET_TASK") =
      ⟨(getNextTask s.tasks s.clientId).2, some i, false,
        some (text "Task: " ++ description (getNextTask s.tasks s.clientId).2 i)⟩ := by
    have hget : serve t.tasks s.clientId h'.currentTask (text "GET_TASK") = serveGetTask s.tasks s.clientId h'.currentTask := by
      rw [htasks]
      rfl
    rw [hget, serveGetTask, hnext]
  refine ⟨.accept 0 :: (es ++ [.recv s.clientId (.message (text "GET_TASK") false)]), t', s.clientId,
    { h' with currentTask := some i, phase := .top }, i, ?_,
    going_step ht hkeeps hstep hmain hdown, ?_, ?_, rfl⟩
  · refine exec_cons_eq_some.2 ⟨_, haccept, ?_⟩
    rw [exec_append, hes]
    exact exec_cons_eq_some.2 ⟨t', hstep, rfl⟩
  · obtain ⟨-, ⟨u, hu, hs⟩, hmodify⟩ := getNextTask_task hnext
    have hcount := tasksLeft_modify hu fun t => { t with state := .assigned, assignedToClient := some s.clientId }
    simp only [hs, reduceCtorEq, if_false] at hcount
    rw [htasks', hserve]
    change tasksLeft (getNextTask s.tasks s.clientId).2 = _
    rw [hmodify]
    omega
  · rw [hhandler, hserve]
    rfl

/-- The server can finish as long as no task is orphaned. -/
theorem canFinish_of_going (hg : s.Going) : s.CanFinish := by
  refine canReach_of_progress (I := Server.Going) (f := fun s => tasksLeft s.tasks) ?_ hg
  rintro s hg -
  by_cases hassigned : ∃ t ∈ s.tasks, t.state = .assigned
  · obtain ⟨t, ht, hs⟩ := hassigned
    obtain ⟨i, hi⟩ := List.mem_iff_getElem?.1 ht
    obtain ⟨c, hcur⟩ := hg.held i t hi hs
    obtain ⟨h, hc, hh⟩ := Option.map_eq_some_iff.1 hcur
    obtain ⟨es, u, hes, hu, hless⟩ := exists_completion hg hc hh
    exact ⟨es, u, hes, Or.inr ⟨hu, hless⟩⟩
  · have hnone : ∀ t ∈ s.tasks, t.state ≠ .assigned := fun t ht hs => hassigned ⟨t, ht, hs⟩
    by_cases hfree : ∃ t ∈ s.tasks, t.state = .notAssigned
    · obtain ⟨es, t, c, h, i, hes, ht, hsame, hc, hh⟩ := exists_handOut hg hnone hfree
      obtain ⟨fs, u, hfs, hu, hless⟩ := exists_completion ht hc hh
      exact ⟨es ++ fs, u, by rw [exec_append, hes]; exact hfs, Or.inr ⟨hu, hsame ▸ hless⟩⟩
    · have hall : allTasksCompleted s.tasks = true := by
        simp only [allTasksCompleted, List.all_eq_true, decide_eq_true_eq]
        intro t ht
        cases hs : t.state with
        | notAssigned => exact absurd ⟨t, ht, hs⟩ hfree
        | assigned => exact absurd hs (hnone t ht)
        | completed => rfl
      have htest : s.step .allCompleted = some { s with main := .shuttingDown } := if_pos ⟨hg.main, hall, hg.loaded⟩
      exact ⟨[.allCompleted, .shutdown], _, exec_cons_eq_some.2 ⟨_, htest, rfl⟩, Or.inl rfl⟩

/-! ## Every run -/

/-- What holds in every state of a run. -/
structure Server.Reached (s : Server) : Prop where
  inv : s.Inv
  single : Single s.tasks
  known : s.Known
  loaded : 0 < s.tasks.length
  serving : s.main = .serving → s.serverShutdown = false

theorem reached_step (hr : s.Reached) (h : s.step m = some s') : s'.Reached := by
  obtain ⟨x, hx, -⟩ := step_change hr.inv h
  have hlen : s'.tasks.length = s.tasks.length := hx.length
  refine ⟨step_inv hr.inv h, hr.single.change hx, known_step hr.inv hr.known h, hlen ▸ hr.loaded, ?_⟩
  cases step_stepped h with
  | accept now hm => exact hr.serving
  | allCompleted hm | shutdown hm | selectFails hm =>
    intro hserving
    cases hserving
  | top c now h0 hc hp =>
    obtain ⟨-, -, hmain, hdown⟩ := top_frame s c h0 now
    rw [hmain, hdown]
    exact hr.serving
  | recv c r h0 _ hc hp hs =>
    obtain ⟨-, -, hmain, hdown⟩ := recv_frame hs
    rw [hmain, hdown]
    exact hr.serving

theorem reached_begin {descriptions : List (List UInt8)} (hne : descriptions ≠ []) : (Server.begin descriptions).Reached := by
  have hfree : ∀ i c, ¬AssignedTo (Server.begin descriptions).tasks i c := by
    rintro i c ⟨t, ht, hs, -⟩
    simp only [Server.begin, loaded, List.getElem?_map, Option.map_eq_some_iff] at ht
    obtain ⟨d, -, rfl⟩ := ht
    cases hs
  refine ⟨begin_inv descriptions, single_loaded descriptions,
    ⟨fun i c ha => absurd ha (hfree i c), fun i c ha => absurd ha (hfree i c)⟩,
    ?_, fun _ => rfl⟩
  change 0 < (loaded descriptions).length
  rw [loaded, List.length_map]
  exact List.length_pos_iff.2 hne

/-- When the server can finish. In every state that it can reach with at least one task, whatever clients, messages, failures and
times there have been: some continuation makes `main` set `server_shutdown` exactly when it is about to or has done so, or `main`
still serves and no task is orphaned. So one orphaned task is a deadlock of the whole queue. -/
theorem canFinish_iff (descriptions : List (List UInt8)) (hne : descriptions ≠ []) (moves : List Move) (s : Server)
    (hx : exec Server.step (Server.begin descriptions) moves = some s) :
    s.CanFinish ↔ s.stopping ∨ s.main = .serving ∧ s.NoOrphan := by
  have hr : s.Reached := always_of_kept (fun _ _ _ => reached_step) (reached_begin hne) moves (List.prefix_refl moves) s hx
  rw [noOrphan_iff_not_orphaned hr.inv hr.single hr.known]
  constructor
  · intro hfinish
    by_cases hstop : s.stopping
    · exact Or.inl hstop
    · refine Or.inr ⟨?_, fun ho => not_canFinish_of_orphaned hr.inv hr.known ho hstop hfinish⟩
      rw [Server.stopping, not_or, Bool.not_eq_true] at hstop
      cases hm : s.main with
      | serving => rfl
      | shuttingDown => exact absurd hm hstop.2
      | ended => exact absurd hfinish (not_canFinish_of_ended hm hstop.1)
  · rintro ((hdown | hm) | ⟨hm, hno⟩)
    · exact .here hdown
    · exact .of_step (e := .shutdown) (if_pos hm) (.here rfl)
    · have hheld := (noOrphan_iff hr.inv).1 ((noOrphan_iff_not_orphaned hr.inv hr.single hr.known).2 hno)
      exact canFinish_of_going ⟨hr.inv, hheld, hm, hr.serving hm, hr.loaded⟩

/-- `canFinish_iff` on the client that takes the only task and says `exit`: the server never finishes. -/
theorem canFinish_iff_exit : ∃ s, exec Server.step (Server.begin [text "5 + 3"])
    [.accept 0, .top 0 0, .recv 0 (.message (text "GET_TASK\n") false), .top 0 1, .recv 0 (.message (text "exit\n") false)] = some s ∧
      ¬s.CanFinish := by
  have hrun : ∃ s, exec Server.step (Server.begin [text "5 + 3"])
      [.accept 0, .top 0 0, .recv 0 (.message (text "GET_TASK\n") false), .top 0 1,
        .recv 0 (.message (text "exit\n") false)] = some s ∧ s.handlers 0 = none ∧ AssignedTo s.tasks 0 0 ∧ s.main = .serving ∧
      s.serverShutdown = false := ⟨_, rfl, rfl, ⟨_, rfl, rfl, rfl⟩, rfl, rfl⟩
  obtain ⟨s, hx, hended, hassigned, hm, hdown⟩ := hrun
  refine ⟨s, hx, fun hfinish => ?_⟩
  rcases (canFinish_iff [text "5 + 3"] (by decide) _ s hx).1 hfinish with (hstop | hstop) | ⟨-, hno⟩
  · rw [hdown] at hstop
    cases hstop
  · rw [hm] at hstop
    cases hstop
  · exact hno.ended 0 hended 0 hassigned

end NetLabs.Tasks
