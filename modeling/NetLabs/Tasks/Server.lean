import NetLabs.Lib.Machine
import NetLabs.Tasks.Table
import Mathlib.Logic.Function.Basic

/-!
# The task server

`main` and one handler process for each client, over the shared table. What a handler does between two operations on shared memory
is one move: the test of the clock with the reset of the task (or with the read of `server_shutdown`), and one `recv` with what the
message makes the handler do. `current_task` is the handler's own variable; it is written in the move of the locked operation it
belongs to. `main` tests the table in one move and sets `server_shutdown` in a later one.

What the network does is part of the move: which message `recv` returns, that it fails, and that the peer has gone when the handler
answers, so that `SIGPIPE`, which nobody handles, kills the handler in `send`.
-/

namespace NetLabs.Tasks

open CText Function Machine

/-- Where a handler is: at the top of its loop, or at `recv`. -/
inductive HandlerPhase where
  | top
  | receiving
  deriving DecidableEq

/-- The variables of `handle_client`. `current_task` is `none` for -1. -/
structure Handler where
  currentTask : Option Nat
  lastActiveTime : Int
  phase : HandlerPhase

/-- Where `main` is. -/
inductive MainPhase where
  | serving
  | shuttingDown
  | ended
  deriving DecidableEq

/-- `SharedData`, `main` with its next `client_id`, the handlers that run, and what has been sent to which client. -/
structure Server where
  tasks : List Task
  serverShutdown : Bool
  main : MainPhase
  clientId : Nat
  handlers : Nat → Option Handler
  sent : List (Nat × List UInt8)

/-- What `recv` returns to a handler: a message (and whether the handler dies when it answers it), the end of the stream, `EAGAIN`, or
another error. -/
inductive Received where
  | message (m : List UInt8) (broken : Bool)
  | closed
  | wouldBlock
  | failed

/-- One move of `main` or of the handler of client `c`. -/
inductive Move where
  | accept (now : Int)
  | allCompleted
  | shutdown
  | selectFails
  | top (c : Nat) (now : Int)
  | recv (c : Nat) (r : Received)

/-- The beginning: `main` has loaded the tasks. -/
def Server.begin (descriptions : List (List UInt8)) : Server where
  tasks := loaded descriptions
  serverShutdown := false
  main := .serving
  clientId := 0
  handlers _ := none
  sent := []

/-- What a message makes a handler do: the table, its `current_task`, whether it leaves its loop, and its answer. -/
structure Served where
  tasks : List Task
  currentTask : Option Nat
  leaves : Bool
  reply : Option (List UInt8)

/-- The description of a task, as `%s` prints it. -/
def description (tasks : List Task) (i : Nat) : List UInt8 := ((tasks[i]?).map fun t => cstr t.description).getD []

/-- The answer to `GET_TASK`. -/
def serveGetTask (tasks : List Task) (clientId : Nat) (currentTask : Option Nat) : Served :=
  match getNextTask tasks clientId with
  | (.alreadyAssigned, tasks') =>
    ⟨tasks', currentTask, false, some (text "Error: A client already have an assigned task. Complete it first.")⟩
  | (.task i, tasks') => ⟨tasks', some i, false, some (text "Task: " ++ description tasks' i)⟩
  | (.noTask, tasks') => ⟨tasks', currentTask, false, some (text "No tasks available")⟩

/-- The answer to `RESULT`: none from a client that has no task. -/
def serveResult (tasks : List Task) (currentTask : Option Nat) : Served :=
  match currentTask with
  | some i => ⟨completeTask tasks i, none, false, some (text "Result received")⟩
  | none => ⟨tasks, none, false, none⟩

/-- The commands of `handle_client`. -/
def serve (tasks : List Task) (clientId : Nat) (currentTask : Option Nat) (buffer : List UInt8) : Served :=
  if startsWith buffer (text "exit") then ⟨tasks, currentTask, true, none⟩
  else if startsWith buffer (text "GET_TASK") then serveGetTask tasks clientId currentTask
  else if startsWith buffer (text "RESULT") then serveResult tasks currentTask
  else ⟨tasks, currentTask, false, none⟩

/-- A message the handler can take: `recv` returns 1 to 1024 bytes, and a NUL is written after them into `buffer[1024]`. -/
def fits (m : List UInt8) : Bool := 0 < m.length && m.length < 1024

/-- The handler after a message: gone when it has left its loop or has died answering, else back at the top. -/
def Handler.after (h : Handler) (r : Served) (broken : Bool) : Option Handler :=
  if r.leaves || broken && r.reply.isSome then none else some { h with currentTask := r.currentTask, phase := .top }

/-- The top of the loop of `handle_client`. -/
def Server.top (s : Server) (c : Nat) (h : Handler) (now : Int) : Server :=
  match decide (now - h.lastActiveTime > 10), h.currentTask with
  | true, some i => { s with tasks := resetTask s.tasks i, handlers := update s.handlers c none }
  | _, _ =>
    if s.serverShutdown then
      { s with handlers := update s.handlers c none, sent := s.sent ++ [(c, text "Server shutting down")] }
    else { s with handlers := update s.handlers c (some { h with phase := .receiving }) }

/-- `recv`, and what comes of it. -/
def Server.recv (s : Server) (c : Nat) (h : Handler) : Received → Option Server
  | .message m broken =>
    if fits m then
      some { s with
        tasks := (serve s.tasks c h.currentTask m).tasks
        handlers := update s.handlers c (h.after (serve s.tasks c h.currentTask m) broken)
        sent := s.sent ++ ((serve s.tasks c h.currentTask m).reply.map fun r => (c, r)).toList }
    else none
  | .closed => some { s with tasks := clearAssignedTasks s.tasks c, handlers := update s.handlers c none }
  | .wouldBlock => some { s with handlers := update s.handlers c (some { h with phase := .top }) }
  | .failed => some { s with handlers := update s.handlers c none }

/-- One move. -/
def Server.step (s : Server) : Move → Option Server
  | .accept now =>
    if s.main = .serving then
      some { s with
        clientId := s.clientId + 1
        handlers := update s.handlers s.clientId (some { currentTask := none, lastActiveTime := now, phase := .top }) }
    else none
  | .allCompleted =>
    if s.main = .serving ∧ allTasksCompleted s.tasks ∧ 0 < s.tasks.length then some { s with main := .shuttingDown } else none
  | .shutdown => if s.main = .shuttingDown then some { s with serverShutdown := true, main := .ended } else none
  | .selectFails => if s.main = .serving then some { s with main := .ended } else none
  | .top c now =>
    match s.handlers c with
    | some h => if h.phase = .top then some (s.top c h now) else none
    | none => none
  | .recv c r =>
    match s.handlers c with
    | some h => if h.phase = .receiving then s.recv c h r else none
    | none => none

/-- The moves that can be taken, and where they lead. -/
inductive Stepped (s : Server) : Move → Server → Prop where
  | accept (now : Int) (hm : s.main = .serving) :
      Stepped s (.accept now) { s with
        clientId := s.clientId + 1
        handlers := update s.handlers s.clientId (some { currentTask := none, lastActiveTime := now, phase := .top }) }
  | allCompleted (hm : s.main = .serving) (hall : allTasksCompleted s.tasks = true) (hlen : 0 < s.tasks.length) :
      Stepped s .allCompleted { s with main := .shuttingDown }
  | shutdown (hm : s.main = .shuttingDown) : Stepped s .shutdown { s with serverShutdown := true, main := .ended }
  | selectFails (hm : s.main = .serving) : Stepped s .selectFails { s with main := .ended }
  | top (c : Nat) (now : Int) (h : Handler) (hc : s.handlers c = some h) (hp : h.phase = .top) :
      Stepped s (.top c now) (s.top c h now)
  | recv (c : Nat) (r : Received) (h : Handler) (s' : Server) (hc : s.handlers c = some h) (hp : h.phase = .receiving)
      (hs : s.recv c h r = some s') : Stepped s (.recv c r) s'

theorem step_stepped {s s' : Server} {m : Move} (h : s.step m = some s') : Stepped s m s' := by
  cases m with
  | accept now =>
    obtain ⟨hm, ⟨⟩⟩ := Option.ite_none_right_eq_some.1 h
    exact .accept now hm
  | allCompleted =>
    obtain ⟨⟨hm, hall, hlen⟩, ⟨⟩⟩ := Option.ite_none_right_eq_some.1 h
    exact .allCompleted hm hall hlen
  | shutdown =>
    obtain ⟨hm, ⟨⟩⟩ := Option.ite_none_right_eq_some.1 h
    exact .shutdown hm
  | selectFails =>
    obtain ⟨hm, ⟨⟩⟩ := Option.ite_none_right_eq_some.1 h
    exact .selectFails hm
  | top c now =>
    simp only [Server.step] at h
    split at h
    · rename_i h0 hc
      obtain ⟨hp, ⟨⟩⟩ := Option.ite_none_right_eq_some.1 h
      exact .top c now h0 hc hp
    · cases h
  | recv c r =>
    simp only [Server.step] at h
    split at h
    · rename_i h0 hc
      obtain ⟨hp, hs⟩ := Option.ite_none_right_eq_some.1 h
      exact .recv c r h0 s' hc hp hs
    · cases h

/-- What `recv` changes besides the table and the handler's own state: what was sent. -/
theorem recv_frame {s s' : Server} {c : Nat} {h : Handler} {r : Received} (hs : s.recv c h r = some s') :
    (∃ o, s'.handlers = update s.handlers c o) ∧ s'.clientId = s.clientId ∧ s'.main = s.main ∧
      s'.serverShutdown = s.serverShutdown := by
  cases r with
  | message b broken =>
    obtain ⟨_, ⟨⟩⟩ := Option.ite_none_right_eq_some.1 hs
    exact ⟨⟨_, rfl⟩, rfl, rfl, rfl⟩
  | closed | failed =>
    cases hs
    exact ⟨⟨none, rfl⟩, rfl, rfl, rfl⟩
  | wouldBlock =>
    cases hs
    exact ⟨⟨some { h with phase := .top }, rfl⟩, rfl, rfl, rfl⟩

/-- What the top of the loop changes besides the table and the handler's own state: what was sent. -/
theorem top_frame (s : Server) (c : Nat) (h : Handler) (now : Int) :
    (∃ o, (s.top c h now).handlers = update s.handlers c o) ∧ (s.top c h now).clientId = s.clientId ∧
      (s.top c h now).main = s.main ∧ (s.top c h now).serverShutdown = s.serverShutdown := by
  unfold Server.top
  split
  · exact ⟨⟨none, rfl⟩, rfl, rfl, rfl⟩
  · split
    · exact ⟨⟨none, rfl⟩, rfl, rfl, rfl⟩
    · exact ⟨⟨some { h with phase := .receiving }, rfl⟩, rfl, rfl, rfl⟩

/-! ## Who has which task -/

/-- The table, and for each handler that runs its `current_task`. -/
structure Ledger where
  tasks : List Task
  current : Nat → Option (Option Nat)

/-- The ledger of a server. -/
def Server.ledger (s : Server) : Ledger := ⟨s.tasks, fun c => (s.handlers c).map Handler.currentTask⟩

/-- A task is free to be handed out: none is in state 1, and there is one in state 0. -/
def Available (tasks : List Task) : Prop := (∀ t ∈ tasks, t.state ≠ .assigned) ∧ ∃ t ∈ tasks, t.state = .notAssigned

/-- What a move can do to the tasks, besides handing one out, completing one or taking one back from its client: a handler ends
and takes a task with it, or all the tasks assigned to a client are cleared. -/
inductive Effect where
  | fine
  | deserted
  | cleared (c : Nat)
  deriving DecidableEq

/-- What a move does to the ledger. -/
inductive Change (l : Ledger) : Effect → Ledger → Prop where
  | idle : Change l .fine l
  | join (c : Nat) (h : l.current c = none) : Change l .fine { l with current := update l.current c (some none) }
  | leave (c : Nat) (h : l.current c = some none) : Change l .fine { l with current := update l.current c none }
  | desert (c i : Nat) (h : l.current c = some (some i)) : Change l .deserted { l with current := update l.current c none }
  | reset (c i : Nat) (h : l.current c = some (some i)) : Change l .fine ⟨resetTask l.tasks i, update l.current c none⟩
  | take (c i : Nat) (tasks : List Task) (h : getNextTask l.tasks c = (.task i, tasks)) :
      Change l .fine ⟨tasks, update l.current c (some (some i))⟩
  | grab (c i : Nat) (tasks : List Task) (h : getNextTask l.tasks c = (.task i, tasks)) :
      Change l .deserted ⟨tasks, update l.current c none⟩
  | complete (c i : Nat) (h : l.current c = some (some i)) (o : Option (Option Nat)) (ho : o = none ∨ o = some none) :
      Change l .fine ⟨completeTask l.tasks i, update l.current c o⟩
  | clear (c : Nat) : Change l (.cleared c) ⟨clearAssignedTasks l.tasks c, update l.current c none⟩

/-- The handler of `c` has a task. -/
def Server.holding (s : Server) (c : Nat) : Prop := ∃ h i, s.handlers c = some h ∧ h.currentTask = some i

/-- The moves in which a handler ends with a task in hand: the shutdown notice, `exit`, an error of `recv`, and an answer to
`GET_TASK` that kills it. -/
def Server.deserts (s : Server) : Move → Prop
  | .top c now => s.serverShutdown = true ∧ ∃ h i, s.handlers c = some h ∧ h.currentTask = some i ∧ now - h.lastActiveTime ≤ 10
  | .recv c (.message m broken) =>
    startsWith m (text "exit") = true ∧ s.holding c ∨
      startsWith m (text "GET_TASK") = true ∧ broken = true ∧ (s.holding c ∨ Available s.tasks)
  | .recv c .failed => s.holding c
  | _ => False

/-! ## The invariant of the ledger -/

/-- What a running handler has as its `current_task` is in state 1 and assigned to its client. -/
def Ledger.Owned (l : Ledger) : Prop := ∀ c i, l.current c = some (some i) → AssignedTo l.tasks i c

variable {l l' : Ledger} {x : Effect} {c d i j : Nat} {f : Task → Task} {tasks : List Task}

/-- A task is assigned to one client. -/
theorem AssignedTo.unique (h : AssignedTo tasks i c) (h' : AssignedTo tasks i d) : c = d := by
  obtain ⟨t, ht, _, hc⟩ := h
  obtain ⟨u, hu, _, hd⟩ := h'
  rw [ht] at hu
  cases hu
  rw [hc] at hd
  exact Option.some.inj hd

/-- A change of another task leaves a task assigned. -/
theorem AssignedTo.modify_ne (h : AssignedTo tasks j c) (hij : i ≠ j) : AssignedTo (tasks.modify i f) j c := by
  obtain ⟨t, ht, hs, hc⟩ := h
  exact ⟨t, by rw [List.getElem?_modify_ne f tasks hij]; exact ht, hs, hc⟩

/-- A task with an owner is not one that `get_next_task` would find everything free beside. -/
theorem AssignedTo.not_free (h : AssignedTo tasks i c) (hall : ∀ t ∈ tasks, t.state ≠ .assigned) : False := by
  obtain ⟨t, ht, hs, _⟩ := h
  exact hall t (List.mem_of_getElem? ht) hs

/-- Two clients whose handlers have a task have different tasks. -/
theorem Ledger.Owned.ne (ho : l.Owned) (hc : l.current c = some (some i)) (hd : l.current d = some (some j)) (hcd : d ≠ c) :
    i ≠ j := by
  rintro rfl
  exact hcd ((ho d i hd).unique (ho c i hc))

/-- The handler that has a given task after another handler's variable was written had it before. -/
theorem current_of_update {current : Nat → Option (Option Nat)} {o : Option (Option Nat)} (ho : o = none ∨ o = some none)
    (h : update current c o d = some (some j)) : d ≠ c ∧ current d = some (some j) := by
  by_cases hd : d = c
  · subst hd
    rw [update_self] at h
    rcases ho with rfl | rfl <;> simp at h
  · rw [update_of_ne hd] at h
    exact ⟨hd, h⟩

/-- Every move keeps the invariant. -/
theorem Ledger.Owned.change (ho : l.Owned) (h : Change l x l') : l'.Owned := by
  intro d j hd
  cases h with
  | idle => exact ho d j hd
  | join c hc => exact ho d j (current_of_update (Or.inr rfl) hd).2
  | leave c hc => exact ho d j (current_of_update (Or.inl rfl) hd).2
  | desert c i hc => exact ho d j (current_of_update (Or.inl rfl) hd).2
  | reset c i hc =>
    obtain ⟨hdc, hd⟩ := current_of_update (Or.inl rfl) hd
    exact (ho d j hd).modify_ne (ho.ne hc hd hdc)
  | take c i tasks ht =>
    obtain ⟨hall, ⟨t, hti, _⟩, rfl⟩ := getNextTask_task ht
    by_cases hdc : d = c
    · subst hdc
      dsimp only at hd
      rw [update_self] at hd
      cases hd
      exact ⟨{ t with state := .assigned, assignedToClient := some d }, by simp [hti], rfl, rfl⟩
    · dsimp only at hd
      rw [update_of_ne hdc] at hd
      exact ((ho d j hd).not_free hall).elim
  | grab c i tasks ht =>
    obtain ⟨hall, _, _⟩ := getNextTask_task ht
    exact ((ho d j (current_of_update (Or.inl rfl) hd).2).not_free hall).elim
  | complete c i hc o hoo =>
    obtain ⟨hdc, hd⟩ := current_of_update hoo hd
    exact (ho d j hd).modify_ne (ho.ne hc hd hdc)
  | clear c =>
    obtain ⟨hdc, hd⟩ := current_of_update (Or.inl rfl) hd
    obtain ⟨t, ht, hs, htd⟩ := ho d j hd
    refine ⟨t, getElem?_clearAssignedTasks_other ht ?_, hs, htd⟩
    rw [htd]
    exact fun e => hdc (Option.some.inj e)

/-! ## The moves and the ledger -/

variable {s s' : Server} {m : Move}

/-- Client ids are handed out once. -/
def Server.Fresh (s : Server) : Prop := ∀ c, s.clientId ≤ c → s.handlers c = none

/-- The invariant of the server. -/
structure Server.Inv (s : Server) : Prop where
  fresh : s.Fresh
  owned : s.ledger.Owned

/-- The ledger after the table and the state of one handler were written. -/
theorem ledger_update {o : Option Handler} (ht : s'.tasks = tasks) (hh : s'.handlers = update s.handlers c o) :
    s'.ledger = ⟨tasks, update s.ledger.current c (o.map Handler.currentTask)⟩ := by
  simp only [Server.ledger, ht, hh, Ledger.mk.injEq, true_and]
  funext d
  by_cases hd : d = c
  · subst hd
    rw [update_self, update_self]
  · rw [update_of_ne hd, update_of_ne hd]

/-- A change of the ledger, of a server where the table and the state of one handler were written. -/
theorem Change.of_update {o : Option Handler} (h : Change s.ledger x ⟨tasks, update s.ledger.current c (o.map Handler.currentTask)⟩)
    (ht : s'.tasks = tasks) (hh : s'.handlers = update s.handlers c o) : Change s.ledger x s'.ledger := by
  rw [ledger_update ht hh]
  exact h

/-- A handler whose `current_task` is written again as it was. -/
theorem update_current_same {h : Handler} (hc : s.handlers c = some h) :
    update s.ledger.current c (some h.currentTask) = s.ledger.current := by
  have : s.ledger.current c = some h.currentTask := by
    simp only [Server.ledger, hc, Option.map_some]
  rw [← this, update_eq_self]

/-- The effect of a move is what its label and the state before it say. -/
structure Effect.Of (x : Effect) (s : Server) (m : Move) : Prop where
  deserted : x = .deserted ↔ s.deserts m
  cleared : ∀ c, x = .cleared c ↔ m = .recv c .closed

theorem holding_iff {h : Handler} (hc : s.handlers c = some h) : s.holding c ↔ ∃ i, h.currentTask = some i := by
  simp [Server.holding, hc]

theorem ledger_current {h : Handler} (hc : s.handlers c = some h) : s.ledger.current c = some h.currentTask := by
  simp only [Server.ledger, hc, Option.map_some]

/-- A handler that ends and leaves the table alone deserts the task it has, if it has one. -/
theorem leave_change {h : Handler} (hc : s.handlers c = some h) :
    ∃ x, Change s.ledger x ⟨s.tasks, update s.ledger.current c none⟩ ∧ (x = .deserted ↔ s.holding c) ∧
      ∀ d, x ≠ .cleared d := by
  rw [holding_iff hc]
  have hcur := ledger_current hc
  cases hh : h.currentTask with
  | none => exact ⟨.fine, .leave c (by rw [hcur, hh]), by simp, by simp⟩
  | some i => exact ⟨.deserted, .desert c i (by rw [hcur, hh]), by simp, by simp⟩

/-- A handler that goes on with the task it had. -/
theorem stay_change {h : Handler} (hc : s.handlers c = some h) :
    Change s.ledger .fine ⟨s.tasks, update s.ledger.current c (some h.currentTask)⟩ := by
  rw [update_current_same hc]
  exact .idle

/-- What `GET_TASK` does to the ledger. -/
theorem getTask_change {h : Handler} (hc : s.handlers c = some h) (broken : Bool) :
    ∃ x, Change s.ledger x ⟨(serveGetTask s.tasks c h.currentTask).tasks,
        update s.ledger.current c ((h.after (serveGetTask s.tasks c h.currentTask) broken).map Handler.currentTask)⟩ ∧
      (x = .deserted ↔ broken = true ∧ (s.holding c ∨ Available s.tasks)) ∧ ∀ d, x ≠ .cleared d := by
  have havail : Available s.tasks ↔ ∃ i, (getNextTask s.tasks c).1 = .task i := getNextTask_isTask_iff.symm
  obtain ⟨r, tasks', hr⟩ : ∃ r tasks', getNextTask s.tasks c = (r, tasks') := ⟨_, _, rfl⟩
  rw [hr] at havail
  cases r with
  | task i =>
    cases broken with
    | true => exact ⟨.deserted, by simpa [serveGetTask, hr, Handler.after] using Change.grab c i tasks' hr, by simp [havail],
        by simp⟩
    | false => exact ⟨.fine, by simpa [serveGetTask, hr, Handler.after] using Change.take c i tasks' hr, by simp, by simp⟩
  | alreadyAssigned | noTask =>
    have hsame : tasks' = s.tasks := getNextTask_same hr (by simp)
    cases broken with
    | true =>
      obtain ⟨x, hx, hd, hcl⟩ := leave_change hc
      exact ⟨x, by simpa [serveGetTask, hr, hsame, Handler.after] using hx, by simp [havail, hd], hcl⟩
    | false => exact ⟨.fine, by simpa [serveGetTask, hr, hsame, Handler.after] using stay_change hc, by simp, by simp⟩

/-- What `RESULT` does to the ledger. -/
theorem result_change {h : Handler} (hc : s.handlers c = some h) (broken : Bool) :
    Change s.ledger .fine ⟨(serveResult s.tasks h.currentTask).tasks,
      update s.ledger.current c ((h.after (serveResult s.tasks h.currentTask) broken).map Handler.currentTask)⟩ := by
  have hcur := ledger_current hc
  cases hh : h.currentTask with
  | none =>
    have hstay := stay_change hc
    rw [hh] at hstay
    simpa [serveResult, Handler.after] using hstay
  | some i =>
    rw [hh] at hcur
    refine Change.complete c i hcur _ ?_
    cases broken with
    | true => exact Or.inl (by simp [serveResult, Handler.after])
    | false => exact Or.inr (by simp [serveResult, Handler.after])

/-- What a message does to the ledger. -/
theorem message_change {h : Handler} (hc : s.handlers c = some h) (b : List UInt8) (broken : Bool) :
    ∃ x, Change s.ledger x ⟨(serve s.tasks c h.currentTask b).tasks,
        update s.ledger.current c ((h.after (serve s.tasks c h.currentTask b) broken).map Handler.currentTask)⟩ ∧
      (x = .deserted ↔ s.deserts (.recv c (.message b broken))) ∧ ∀ d, x ≠ .cleared d := by
  unfold serve
  by_cases hexit : startsWith b (text "exit") = true
  · have hget : startsWith b (text "GET_TASK") = false := 
      not_startsWith_both hexit (by decide) (by decide) (by decide)
    obtain ⟨x, hx, hd, hcl⟩ := leave_change hc
    rw [if_pos hexit]
    exact ⟨x, by simpa [Handler.after] using hx, by simp [Server.deserts, hexit, hget, hd], hcl⟩
  · rw [if_neg hexit]
    by_cases hget : startsWith b (text "GET_TASK") = true
    · obtain ⟨x, hx, hd, hcl⟩ := getTask_change hc broken
      rw [if_pos hget]
      exact ⟨x, hx, by simp [Server.deserts, hexit, hget, hd], hcl⟩
    · rw [if_neg hget]
      have hnot : ¬s.deserts (.recv c (.message b broken)) := by simp [Server.deserts, hexit, hget]
      by_cases hres : startsWith b (text "RESULT") = true
      · rw [if_pos hres]
        exact ⟨.fine, result_change hc broken, by simp [hnot], by simp⟩
      · rw [if_neg hres]
        exact ⟨.fine, by simpa [Handler.after] using stay_change hc, by simp [hnot], by simp⟩

/-- What the top of the loop does to the ledger. -/
theorem top_change {h : Handler} (hc : s.handlers c = some h) (now : Int) :
    ∃ x, Change s.ledger x (s.top c h now).ledger ∧ (x = .deserted ↔ s.deserts (.top c now)) ∧ ∀ d, x ≠ .cleared d := by
  have hcur := ledger_current hc
  have hdeserts : s.deserts (.top c now) ↔ s.serverShutdown = true ∧ s.holding c ∧ now - h.lastActiveTime ≤ 10 := by
    simp [Server.deserts, holding_iff hc, hc]
  rw [hdeserts]
  unfold Server.top
  split
  · rename_i i hlate hh
    rw [hh] at hcur
    have hnot : ¬now - h.lastActiveTime ≤ 10 := Int.not_le.2 (of_decide_eq_true hlate)
    exact ⟨.fine, (Change.reset c i hcur).of_update (o := none) rfl rfl, by simp [hnot], by simp⟩
  · rename_i hearly
    by_cases hsd : s.serverShutdown = true
    · rw [if_pos hsd]
      obtain ⟨x, hx, hd, hcl⟩ := leave_change hc
      have htime : s.holding c → now - h.lastActiveTime ≤ 10 := by
        intro hhold
        obtain ⟨i, hh⟩ := (holding_iff hc).1 hhold
        by_contra hlate
        exact hearly i (decide_eq_true (Int.not_le.1 hlate)) hh
      refine ⟨x, hx.of_update (o := none) rfl rfl, ?_, hcl⟩
      rw [hd]
      exact ⟨fun hhold => ⟨hsd, hhold, htime hhold⟩, fun hall => hall.2.1⟩
    · rw [if_neg hsd]
      exact ⟨.fine, (stay_change hc).of_update (o := some { h with phase := .receiving }) rfl rfl, by simp [hsd], by simp⟩

/-- What `recv` does to the ledger. -/
theorem recv_change {h : Handler} {r : Received} (hc : s.handlers c = some h) (hs : s.recv c h r = some s') :
    ∃ x, Change s.ledger x s'.ledger ∧ x.Of s (.recv c r) := by
  cases r with
  | message b broken =>
    obtain ⟨_, ⟨⟩⟩ := Option.ite_none_right_eq_some.1 hs
    obtain ⟨x, hx, hd, hcl⟩ := message_change hc b broken
    exact ⟨x, hx.of_update rfl rfl, hd, by simpa using hcl⟩
  | closed =>
    cases hs
    exact ⟨.cleared c, (Change.clear c).of_update (o := none) rfl rfl, by simp [Server.deserts], by simp⟩
  | wouldBlock =>
    cases hs
    exact ⟨.fine, (stay_change hc).of_update (o := some { h with phase := .top }) rfl rfl, by simp [Server.deserts], by simp⟩
  | failed =>
    cases hs
    obtain ⟨x, hx, hd, hcl⟩ := leave_change hc
    exact ⟨x, hx.of_update (o := none) rfl rfl, hd, by simpa using hcl⟩

/-- What a move does to the ledger. -/
theorem step_change (hi : s.Inv) (h : s.step m = some s') : ∃ x, Change s.ledger x s'.ledger ∧ x.Of s m := by
  cases step_stepped h with
  | accept now hm =>
    have hnone : s.ledger.current s.clientId = none := by simp [Server.ledger, hi.fresh s.clientId (Nat.le_refl _)]
    have hjoin : Change s.ledger .fine ⟨s.tasks, update s.ledger.current s.clientId (some none)⟩ := .join s.clientId hnone
    exact ⟨.fine, hjoin.of_update (o := some { currentTask := none, lastActiveTime := now, phase := .top }) rfl rfl,
      by simp [Server.deserts], by simp⟩
  | allCompleted | shutdown | selectFails => exact ⟨.fine, .idle, by simp [Server.deserts], by simp⟩
  | top c now h0 hc hp =>
    obtain ⟨x, hx, hd, hcl⟩ := top_change hc now
    exact ⟨x, hx, hd, by simpa using hcl⟩
  | recv c r h0 _ hc hp hs => exact recv_change hc hs

/-- A client whose handler runs has an id that was handed out. -/
theorem Server.Fresh.lt {h : Handler} (hf : s.Fresh) (hc : s.handlers c = some h) : c < s.clientId := by
  by_contra hle
  rw [hf c (by omega)] at hc
  cases hc

/-- What the handler of a client does leaves the ids not handed out yet alone. -/
theorem Server.Fresh.update {h : Handler} {o : Option Handler} (hf : s.Fresh) (hc : s.handlers c = some h)
    (hh : s'.handlers = update s.handlers c o) (hid : s'.clientId = s.clientId) : s'.Fresh := by
  intro d hd
  have hlt := hf.lt hc
  rw [hh, update_of_ne (by omega)]
  exact hf d (by omega)

/-- Every move keeps client ids unique. -/
theorem step_fresh (hf : s.Fresh) (h : s.step m = some s') : s'.Fresh := by
  cases step_stepped h with
  | accept now hm =>
    intro d hd
    dsimp only at hd ⊢
    rw [update_of_ne (by omega)]
    exact hf d (by omega)
  | allCompleted | shutdown | selectFails => exact hf
  | top c now h0 hc hp =>
    obtain ⟨⟨o, ho⟩, hid, _⟩ := top_frame s c h0 now
    exact hf.update hc ho hid
  | recv c r h0 _ hc hp hs =>
    obtain ⟨⟨o, ho⟩, hid, _⟩ := recv_frame hs
    exact hf.update hc ho hid

/-- Every move keeps the invariant of the server. -/
theorem step_inv (hi : s.Inv) (h : s.step m = some s') : s'.Inv := by
  obtain ⟨x, hx, _⟩ := step_change hi h
  exact ⟨step_fresh hi.fresh h, hi.owned.change hx⟩

/-- The invariant holds at the beginning. -/
theorem begin_inv (descriptions : List (List UInt8)) : (Server.begin descriptions).Inv :=
  ⟨fun _ _ => rfl, fun _ _ h => by simp [Server.ledger, Server.begin] at h⟩

end NetLabs.Tasks
