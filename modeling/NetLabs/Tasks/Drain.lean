import NetLabs.Tasks.Workers

/-!
# Whether the workers get to the end

The pool can set `server_shutdown` from any state in which `main` serves, provided that the workers can read every task: the worker
that has a task goes on to its result, and a new worker takes one when nobody has one. One task that no worker can read is never
completed. -/

namespace NetLabs.Tasks

open CText Function Lines Machine

/-- Some run of the pool from here sets `server_shutdown`. -/
def Pool.CanFinish (p : Pool) : Prop := CanReach Pool.step (fun p => p.server.serverShutdown = true) p

/-- `main` serves, and the workers can read all the tasks. -/
structure Pool.Going (p : Pool) : Prop where
  inv : p.Inv
  main : p.server.main = .serving
  running : p.server.serverShutdown = false
  loaded : 0 < p.server.tasks.length
  readable : ∀ i < p.server.tasks.length, Understood (description p.server.tasks i)
  short : ∀ i, (description p.server.tasks i).length ≤ 49

variable {p p' : Pool} {c i : Nat} {e : PoolMove} {h : Handler} {w : Worker} {message : List UInt8}

theorem pool_going (hg : p.Going) (h : p.step e = some p') (hmain : p'.server.main = p.server.main)
    (hdown : p'.server.serverShutdown = p.server.serverShutdown) : p'.Going := by
  obtain ⟨hdescription, hlength⟩ := pool_description hg.inv h
  refine ⟨pool_step hg.inv h, hmain.trans hg.main, hdown.trans hg.running, hlength ▸ hg.loaded, ?_, hdescription ▸ hg.short⟩
  rw [hlength, hdescription]
  exact hg.readable

/-! ## The worker that has a task -/

/-- Its handler gets to `recv`. -/
theorem exists_atRecv (hg : p.Going) (hc : p.server.handlers c = some h) (hw : p.workers c = some w) :
    ∃ es p' h', exec Pool.step p es = some p' ∧ p'.Going ∧ p'.server.tasks = p.server.tasks ∧ p'.server.handlers c = some h' ∧
      h'.currentTask = h.currentTask ∧ h'.phase = .receiving ∧ p'.workers c = some w := by
  cases hp : h.phase with
  | receiving => exact ⟨[], p, h, rfl, hg, rfl, hc, rfl, hp, hw⟩
  | top =>
    have hearly : decide (h.lastActiveTime - h.lastActiveTime > 10) = false := by simp
    have htop : p.server.top c h h.lastActiveTime =
        { p.server with handlers := update p.server.handlers c (some { h with phase := .receiving }) } := by
      unfold Server.top
      rw [hearly]
      simp only [hg.running, Bool.false_eq_true, if_false]
    have hmove : p.server.step (.top c h.lastActiveTime) =
        some { p.server with handlers := update p.server.handlers c (some { h with phase := .receiving }) } := by
      simp only [Server.step, hc, hp, if_true, htop]
    have hsame : update p.workers c (some { w with toServer := w.toServer.drop 0, fromServer := w.fromServer ++ [] }) = p.workers := by
      rw [List.drop_zero, List.append_nil, ← hw, update_eq_self]
    have hstep : p.step (.top c h.lastActiveTime) = some { p with
        server := { p.server with handlers := update p.server.handlers c (some { h with phase := .receiving }) } } := by
      simp only [Pool.step, Pool.handle, hw, hmove, Option.map_some, sentSince, List.drop_length, List.map_nil, hsame]
    exact ⟨[_], _, _, exec_cons_eq_some.2 ⟨_, hstep, rfl⟩, pool_going hg hstep rfl rfl, rfl, update_self .., rfl, rfl, hw⟩

/-- Its handler takes a message. -/
theorem exists_taken (hg : p.Going) (hc : p.server.handlers c = some h) (hw : p.workers c = some w) {b : List UInt8}
    (hb : w.toServer = [b]) (hfits : fits b = true) : ∃ es p', exec Pool.step p es = some p' ∧ p'.Going ∧
      p'.server.tasks = (serve p.server.tasks c h.currentTask b).tasks ∧
      ((serve p.server.tasks c h.currentTask b).leaves = false →
        ∃ h', p'.server.handlers c = some h' ∧ h'.currentTask = (serve p.server.tasks c h.currentTask b).currentTask) := by
  obtain ⟨es, q, h', hes, hq, htasks, hc', hcur, hp, hw'⟩ := exists_atRecv hg hc hw
  obtain ⟨s, hs, hstasks, hhandler, hmain, hdown⟩ := step_message hc' hp hfits
  have hflat : (w.toServer.take 1).flatten = b := by
    rw [hb]
    simp
  have hguard : 0 < 1 ∧ 1 ≤ w.toServer.length ∧ (false = true → w.phase = .closed) := ⟨by omega, by rw [hb]; rfl, by simp⟩
  have hstep : q.step (.recv c 1 false) = some { q with
      server := s
      workers := update q.workers c (some { w with
        toServer := w.toServer.drop 1
        fromServer := w.fromServer ++ sentSince q.server s }) } := by
    simp only [Pool.step, hw', if_pos hguard, Pool.handle, hflat, hs, Option.map_some]
  refine ⟨es ++ [_], _, by rw [exec_append, hes]; exact exec_cons_eq_some.2 ⟨_, hstep, rfl⟩,
    pool_going hq hstep hmain hdown, ?_, ?_⟩
  · rw [← hcur, ← htasks]
    exact hstasks
  · intro hstays
    refine ⟨{ h' with currentTask := (serve p.server.tasks c h.currentTask b).currentTask, phase := .top }, ?_, rfl⟩
    change s.handlers c = _
    rw [hhandler, hcur, htasks, Handler.after, hstays]
    rfl

/-- The worker that has computed a result completes its task. -/
theorem exists_resultTaken (hg : p.Going) (hc : p.server.handlers c = some h) (hh : h.currentTask = some i)
    (hw : p.workers c = some ⟨.awaitingAck, [message], []⟩)
    (hm : workerAnswer (text "Task: " ++ description p.server.tasks i) = .sends message) :
    ∃ es p', exec Pool.step p es = some p' ∧ p'.Going ∧ tasksLeft p'.server.tasks < tasksLeft p.server.tasks := by
  obtain ⟨es, q, hes, hq, htasks, -⟩ := exists_taken hg hc hw rfl (fits_result hm)
  refine ⟨es, q, hes, hq, ?_⟩
  have hcomplete : q.server.tasks = completeTask p.server.tasks i := by
    rw [htasks, serve_result hm, hh]
    rfl
  obtain ⟨t, ht, hs, -⟩ := hg.inv.server.owned c i (by rw [ledger_current hc, hh])
  have ht : p.server.tasks[i]? = some t := ht
  have hcount := tasksLeft_modify ht fun t => { t with state := .completed }
  simp only [hs, reduceCtorEq, if_false, if_true] at hcount
  rw [hcomplete, completeTask]
  omega

/-- The worker that has a task completes it. -/
theorem exists_poolCompletion (hg : p.Going) (hc : p.server.handlers c = some h) (hh : h.currentTask = some i) :
    ∃ es p', exec Pool.step p es = some p' ∧ p'.Going ∧ tasksLeft p'.server.tasks < tasksLeft p.server.tasks := by
  obtain ⟨w, hw, hin⟩ := hg.inv.inStep c h hc
  obtain ⟨t, ht, -⟩ := hg.inv.server.owned c i (by rw [ledger_current hc, hh])
  have hread : Understood (description p.server.tasks i) := hg.readable i (List.getElem?_eq_some_iff.1 ht).1
  rw [hh] at hin
  cases hin with
  | requesting _ hnot | asked _ hnot | refused _ hnot => exact absurd hread (hnot i rfl)
  | computed _ message hm => exact exists_resultTaken hg hc hh hw hm
  | given =>
    obtain ⟨message, hm⟩ := hread
    have hfits : fits (text "Task: " ++ description p.server.tasks i) = true := by
      have hshort := hg.short i
      have htext : (text "Task: ").length = 6 := by decide
      rw [fits, List.length_append, htext]
      simp only [Bool.and_eq_true, decide_eq_true_eq]
      omega
    have hread : Worker.step ⟨.awaitingTask, [], [text "Task: " ++ description p.server.tasks i]⟩
        (p.server.handlers c).isNone (.read 1) = some ⟨.awaitingAck, [message], []⟩ := by
      simp only [Worker.step, List.length_singleton, List.take_succ_cons, List.take_zero, List.flatten_cons, List.flatten_nil,
        List.append_nil, List.drop_succ_cons, List.drop_zero, hfits, Nat.le_refl, Nat.lt_one_iff, and_true, if_true, Worker.answered, hm,
        List.nil_append]
    have hstep : p.step (.worker c (.read 1)) = some { p with workers := update p.workers c (some ⟨.awaitingAck, [message], []⟩) } := by
      simp only [Pool.step, hw, hread, Option.map_some]
    obtain ⟨es, q, hes, hq, hless⟩ := exists_resultTaken (pool_going hg hstep rfl rfl) hc hh (update_self ..) hm
    exact ⟨_ :: es, q, exec_cons_eq_some.2 ⟨_, hstep, hes⟩, hq, hless⟩

/-! ## A task that nobody has -/

/-- When no task is in state 1 and one is in state 0, a new worker takes it. -/
theorem exists_poolHandOut (hg : p.Going) (hnone : ∀ t ∈ p.server.tasks, t.state ≠ .assigned)
    (hfree : ∃ t ∈ p.server.tasks, t.state = .notAssigned) : ∃ es p' c h i, exec Pool.step p es = some p' ∧ p'.Going ∧
      tasksLeft p'.server.tasks = tasksLeft p.server.tasks ∧ p'.server.handlers c = some h ∧ h.currentTask = some i := by
  let server := { p.server with
    clientId := p.server.clientId + 1
    handlers := update p.server.handlers p.server.clientId (some { currentTask := none, lastActiveTime := 0, phase := .top }) }
  let asking : Worker := ⟨.awaitingTask, [text "GET_TASK"], []⟩
  have haccept : p.step (.accept 0) = some ⟨server, update p.workers p.server.clientId (some ⟨.requesting, [], []⟩)⟩ := by
    simp only [Pool.step, Server.step, if_pos hg.main, Option.map_some, server]
  have hask : Pool.step ⟨server, update p.workers p.server.clientId (some ⟨.requesting, [], []⟩)⟩ (.worker p.server.clientId .ask) =
      some ⟨server, update p.workers p.server.clientId (some asking)⟩ := by
    simp only [Pool.step, update_self, Worker.step, if_true, Option.map_some, update_idem, List.nil_append, asking]
  have hg1 := pool_going hg haccept rfl rfl
  have hg2 := pool_going hg1 hask rfl rfl
  obtain ⟨es, q, hes, hq, htasks, hstays⟩ := exists_taken hg2 (c := p.server.clientId) (update_self ..) (update_self ..) rfl (by decide)
  obtain ⟨i, hi⟩ := (getNextTask_isTask_iff (c := p.server.clientId)).2 ⟨hnone, hfree⟩
  have hnext : getNextTask p.server.tasks p.server.clientId = (.task i, (getNextTask p.server.tasks p.server.clientId).2) := by
    rw [← hi]
  have hserve : serve server.tasks p.server.clientId none (text "GET_TASK") = ⟨(getNextTask p.server.tasks p.server.clientId).2, some i,
      false, some (text "Task: " ++ description (getNextTask p.server.tasks p.server.clientId).2 i)⟩ := by
    have hget : serve server.tasks p.server.clientId none (text "GET_TASK") = serveGetTask p.server.tasks p.server.clientId none := rfl
    rw [hget, serveGetTask, hnext]
  rw [hserve] at htasks hstays
  obtain ⟨h', hc', hh'⟩ := hstays rfl
  refine ⟨.accept 0 :: .worker p.server.clientId .ask :: es, q, p.server.clientId, h', i, ?_, hq, ?_, hc', hh'⟩
  · exact exec_cons_eq_some.2 ⟨_, haccept, exec_cons_eq_some.2 ⟨_, hask, hes⟩⟩
  · obtain ⟨-, ⟨t, ht, hs⟩, hmodify⟩ := getNextTask_task hnext
    have hcount := tasksLeft_modify ht fun t => { t with state := .assigned, assignedToClient := some p.server.clientId }
    simp only [hs, reduceCtorEq, if_false] at hcount
    rw [htasks]
    change tasksLeft (getNextTask p.server.tasks p.server.clientId).2 = _
    rw [hmodify]
    omega

/-- The pool gets to its end when the workers can read all the tasks. -/
theorem pool_canFinish (hg : p.Going) : p.CanFinish := by
  refine canReach_of_progress (I := Pool.Going) (f := fun p => tasksLeft p.server.tasks) ?_ hg
  rintro p hg -
  by_cases hassigned : ∃ t ∈ p.server.tasks, t.state = .assigned
  · obtain ⟨t, ht, hs⟩ := hassigned
    obtain ⟨i, hi⟩ := List.mem_iff_getElem?.1 ht
    obtain ⟨c, hcur⟩ := hg.inv.held i t hi hs
    obtain ⟨h, hc, hh⟩ := Option.map_eq_some_iff.1 hcur
    obtain ⟨es, q, hes, hq, hless⟩ := exists_poolCompletion hg hc hh
    exact ⟨es, q, hes, Or.inr ⟨hq, hless⟩⟩
  · have hnone : ∀ t ∈ p.server.tasks, t.state ≠ .assigned := fun t ht hs => hassigned ⟨t, ht, hs⟩
    by_cases hfree : ∃ t ∈ p.server.tasks, t.state = .notAssigned
    · obtain ⟨es, q, c, h, i, hes, hq, hsame, hc, hh⟩ := exists_poolHandOut hg hnone hfree
      obtain ⟨fs, r, hfs, hr, hless⟩ := exists_poolCompletion hq hc hh
      exact ⟨es ++ fs, r, by rw [exec_append, hes]; exact hfs, Or.inr ⟨hr, hsame ▸ hless⟩⟩
    · have hall : allTasksCompleted p.server.tasks = true := by
        simp only [allTasksCompleted, List.all_eq_true, decide_eq_true_eq]
        intro t ht
        cases hs : t.state with
        | notAssigned => exact absurd ⟨t, ht, hs⟩ hfree
        | assigned => exact absurd hs (hnone t ht)
        | completed => rfl
      have hguard : p.server.main = .serving ∧ allTasksCompleted p.server.tasks = true ∧ 0 < p.server.tasks.length :=
        ⟨hg.main, hall, hg.loaded⟩
      have htest : p.step .allCompleted = some { p with server := { p.server with main := .shuttingDown } } := by
        simp only [Pool.step, Server.step, if_pos hguard, Option.map_some]
      exact ⟨[.allCompleted, .shutdown], _, exec_cons_eq_some.2 ⟨_, htest, rfl⟩, Or.inl rfl⟩

/-! ## Every run -/

/-- What holds in every state of a run: besides the invariants, what `load_tasks` has made of the config file. -/
structure Pool.Reached (file : List UInt8) (p : Pool) : Prop where
  inv : p.Inv
  server : p.server.Reached
  description : description p.server.tasks = description (loadTasks file)
  length : p.server.tasks.length = (loadTasks file).length

variable {file : List UInt8}

theorem begin_tasks (file : List UInt8) : (Pool.begin file).server.tasks = loadTasks file := by
  rw [loadTasks, loadFrom_eq]
  rfl

theorem pool_reached_begin (hne : 0 < (loadTasks file).length) : (Pool.begin file).Reached file := by
  refine ⟨pool_begin file, reached_begin ?_, by rw [begin_tasks], by rw [begin_tasks]⟩
  intro hempty
  rw [← begin_tasks, Pool.begin, hempty] at hne
  exact absurd hne (by decide)

theorem pool_reached_step (hr : p.Reached file) (h : p.step e = some p') : p'.Reached file := by
  obtain ⟨hdescription, hlength⟩ := pool_description hr.inv h
  refine ⟨pool_step hr.inv h, ?_, hdescription.trans hr.description, hlength.trans hr.length⟩
  rcases pool_server hr.inv h with hs | ⟨m, hs, -, -⟩
  · rw [hs]
    exact hr.server
  · exact reached_step hr.server hs

/-- The description of a loaded task fits into `description[MAX_TASK_LEN]`. -/
theorem length_description_le (file : List UInt8) (i : Nat) : (description (loadTasks file) i).length ≤ 49 := by
  have hcstr : ∀ b : List UInt8, (cstr b).length ≤ b.length := fun b => (List.takeWhile_sublist _).length_le
  rw [description]
  cases hi : (loadTasks file)[i]? with
  | none => simp
  | some t =>
    rw [loadTasks, loadFrom_eq, loaded, List.map_map] at hi
    obtain ⟨piece, hpiece, rfl⟩ := List.mem_map.1 (List.mem_of_getElem? hi)
    have hempty : ([] : List UInt8).length < 49 := by decide
    have hlength : piece.length ≤ 49 := length_le_of_mem_fgetsFrom hempty (List.mem_of_mem_take hpiece)
    have htask : (taskLine piece).length ≤ piece.length := by
      rw [taskLine]
      split
      · rw [List.length_dropLast]
        exact (Nat.sub_le _ _).trans (hcstr piece)
      · exact hcstr piece
    exact (hcstr (taskLine piece)).trans (htask.trans hlength)

/-- The workers can read all the tasks of the file, line by line or task by task. -/
theorem readable_iff : (∀ t ∈ loadTasks file, Understood (cstr t.description)) ↔
    ∀ i < (loadTasks file).length, Understood (description (loadTasks file) i) := by
  have hline : ∀ i (hlt : i < (loadTasks file).length), description (loadTasks file) i = cstr (loadTasks file)[i].description := by
    intro i hlt
    rw [description, List.getElem?_eq_getElem hlt]
    rfl
  constructor
  · intro h i hlt
    rw [hline i hlt]
    exact h _ (List.getElem_mem hlt)
  · intro h t ht
    obtain ⟨i, hlt, rfl⟩ := List.getElem_of_mem ht
    rw [← hline i hlt]
    exact h i hlt

/-- The pool is never again to set `server_shutdown` once `main` has ended without. -/
theorem not_pool_canFinish (hi : p.Inv) (hm : p.server.main = .ended) (hstop : p.server.serverShutdown = false) : ¬p.CanFinish := by
  refine not_canReach (I := fun p => p.Inv ∧ p.server.main = .ended ∧ p.server.serverShutdown = false) ?_ ?_ ⟨hi, hm, hstop⟩
  · rintro p e p' ⟨hi, hm, hstop⟩ h
    refine ⟨pool_step hi h, ?_⟩
    rcases pool_server hi h with hs | ⟨m, hs, -, -⟩
    · rw [hs]
      exact ⟨hm, hstop⟩
    · exact ended_without hm hstop hs
  · rintro p ⟨-, -, hstop⟩ hdone
    rw [hstop] at hdone
    cases hdone

/-- When the server and its workers get to the end. For every config file with a task and in every state that the pool can reach: some
continuation makes `main` set `server_shutdown` if and only if `select` has not failed before, and the workers can read the text of
every task: three items, and a result that is an `int` or a quotient. So one line that `sscanf` does not match keeps all workers at it
for ever. -/
theorem workers_finish_iff (file : List UInt8) (hne : 0 < (loadTasks file).length) (moves : List PoolMove) (p : Pool)
    (hx : exec Pool.step (Pool.begin file) moves = some p) :
    p.CanFinish ↔ (p.server.stopping ∨ p.server.main = .serving) ∧ ∀ t ∈ loadTasks file, Understood (cstr t.description) := by
  have hr : p.Reached file := always_of_kept (fun _ _ _ => pool_reached_step) (pool_reached_begin hne) moves (List.prefix_refl moves) p hx
  rw [readable_iff]
  constructor
  · intro hfinish
    constructor
    · by_contra hnot
      rw [not_or, Server.stopping, not_or, Bool.not_eq_true] at hnot
      cases hm : p.server.main with
      | serving => exact hnot.2 hm
      | shuttingDown => exact hnot.1.2 hm
      | ended => exact not_pool_canFinish hr.inv hm hnot.1.1 hfinish
    · obtain ⟨es, q, hq, hdown⟩ := hfinish
      have hr' : q.Reached file := always_of_kept (fun _ _ _ => pool_reached_step) hr es (List.prefix_refl es) q hq
      have hall := allTasksCompleted_iff.1 (hr'.inv.allCompleted (Or.inl hdown))
      intro i hlt
      rw [← hr'.description]
      exact hr'.inv.understood i (hall i (hr'.length ▸ hlt))
  · rintro ⟨(hdown | hm) | hm, hreadable⟩
    · exact .here hdown
    · have hstep : p.step .shutdown = some { p with server := { p.server with serverShutdown := true, main := .ended } } := by
        simp only [Pool.step, Server.step, if_pos hm, Option.map_some]
      exact .of_step hstep (.here rfl)
    · refine pool_canFinish ⟨hr.inv, hm, hr.server.serving hm, hr.server.loaded, ?_, ?_⟩
      · rw [hr.length, hr.description]
        exact hreadable
      · rw [hr.description]
        exact length_description_le file

/-- `workers_finish_iff` on a file whose second line is no task: from its first state on the pool does not finish. -/
theorem workers_finish_comment : ¬(Pool.begin (text "5 + 3\nsum of 2 and 4\n")).CanFinish := by
  intro hfinish
  obtain ⟨-, hall⟩ := (workers_finish_iff (text "5 + 3\nsum of 2 and 4\n") (by decide) [] _ rfl).1 hfinish
  obtain ⟨message, hm⟩ := hall ⟨text "sum of 2 and 4", .notAssigned, none⟩ (by decide)
  have hinvalid : workerAnswer (text "Task: " ++ cstr (text "sum of 2 and 4")) = .invalidTask := by decide
  rw [hinvalid] at hm
  cases hm

end NetLabs.Tasks
