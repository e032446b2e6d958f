import NetLabs.Tasks.Exclusive
import NetLabs.Tasks.Finish
import NetLabs.Tasks.Loading
import NetLabs.Tasks.Results

/-!
# The server and its workers

`worker_client` asks for a task, sends its result, waits for the acknowledgement, and says `exit` when no task is left. The pool is
the server whose clients are all such workers: the server's moves are those of `Server.step`, with the messages that the workers send,
and a worker reads what its handler has sent. A message arrives whole, perhaps together with the next ones, and no call fails but for
a peer that has gone. A worker never has a task when it says `exit`, so none is orphaned, and the pool gets to its end if the workers
can read the tasks. -/

namespace NetLabs.Tasks

open CText Doubles Function Lines Machine

/-- Where the worker's `main` is: about to ask for a task, at the first or at the second `read`, out of its loop, or gone. -/
inductive WorkerPhase where
  | requesting
  | awaitingTask
  | awaitingAck
  | leaving
  | closed
  deriving DecidableEq

/-- A worker and its connection: what has been sent and not received, in both directions. -/
structure Worker where
  phase : WorkerPhase
  toServer : List (List UInt8)
  fromServer : List (List UInt8)

/-- One move of a worker: it sends `GET_TASK`, `read` returns the next `n` messages or finds the handler gone, it says `exit` and
closes its socket, or `SIGPIPE` kills it as it sends to a handler that has gone. -/
inductive WorkerMove where
  | ask
  | read (n : Nat)
  | disconnected
  | leave
  | killed

/-- The server, and for each client id that has been given out its worker. -/
structure Pool where
  server : Server
  workers : Nat → Option Worker

/-- One move of `main`, of the handler of client `c` (where `recv` returns the next `n` messages, finds nothing, or finds the end of the
stream), or of the worker of client `c`. -/
inductive PoolMove where
  | accept (now : Int)
  | allCompleted
  | shutdown
  | selectFails
  | top (c : Nat) (now : Int)
  | recv (c n : Nat) (broken : Bool)
  | wouldBlock (c : Nat)
  | hangUp (c : Nat)
  | worker (c : Nat) (e : WorkerMove)

/-- The pool at its beginning: `load_tasks` has read the config file. -/
def Pool.begin (file : List UInt8) : Pool where
  server := Server.begin (((fgets 49 file).take 100).map taskLine)
  workers _ := none

/-- The worker after the first `read`. -/
def Worker.answered (w : Worker) (buffer : List UInt8) : Option Worker :=
  match workerAnswer buffer with
  | .ends => some { w with phase := .leaving }
  | .retries | .ignores | .invalidTask => some { w with phase := .requesting }
  | .sends message => some { w with phase := .awaitingAck, toServer := w.toServer ++ [message] }
  | .undefined => none

/-- One move of a worker; `gone` says that its handler has ended. -/
def Worker.step (w : Worker) (gone : Bool) : WorkerMove → Option Worker
  | .ask => if w.phase = .requesting then some { w with phase := .awaitingTask, toServer := w.toServer ++ [text "GET_TASK"] } else none
  | .read n =>
    if 0 < n ∧ n ≤ w.fromServer.length ∧ fits (w.fromServer.take n).flatten then
      match w.phase with
      | .awaitingTask => { w with fromServer := w.fromServer.drop n }.answered (w.fromServer.take n).flatten
      | .awaitingAck => some { w with phase := .requesting, fromServer := w.fromServer.drop n }
      | _ => none
    else none
  | .disconnected => if gone ∧ (w.phase = .awaitingTask ∨ w.phase = .awaitingAck) then some { w with phase := .leaving } else none
  | .leave => if w.phase = .leaving then some { w with phase := .closed, toServer := w.toServer ++ [text "exit"] } else none
  | .killed => if gone then some { w with phase := .closed } else none

/-- What the server has sent in the move from `s` to `s'`. -/
def sentSince (s s' : Server) : List (List UInt8) := (s'.sent.drop s.sent.length).map Prod.snd

/-- A move of the handler of `c` in which it takes `n` messages. -/
def Pool.handle (p : Pool) (c n : Nat) (m : Move) : Option Pool :=
  match p.workers c with
  | none => none
  | some w => (p.server.step m).map fun s => {
      server := s
      workers := update p.workers c (some { w with
        toServer := w.toServer.drop n
        fromServer := w.fromServer ++ sentSince p.server s }) }

/-- One move of the pool. -/
def Pool.step (p : Pool) : PoolMove → Option Pool
  | .accept now => (p.server.step (.accept now)).map fun s => {
      server := s
      workers := update p.workers p.server.clientId (some ⟨.requesting, [], []⟩) }
  | .allCompleted => (p.server.step .allCompleted).map fun s => { p with server := s }
  | .shutdown => (p.server.step .shutdown).map fun s => { p with server := s }
  | .selectFails => (p.server.step .selectFails).map fun s => { p with server := s }
  | .top c now => p.handle c 0 (.top c now)
  | .recv c n broken =>
    match p.workers c with
    | none => none
    | some w =>
      if 0 < n ∧ n ≤ w.toServer.length ∧ (broken → w.phase = .closed) then
        p.handle c n (.recv c (.message (w.toServer.take n).flatten broken))
      else none
  | .wouldBlock c => p.handle c 0 (.recv c .wouldBlock)
  | .hangUp c =>
    match p.workers c with
    | none => none
    | some w => if w.phase = .closed ∧ w.toServer = [] then p.handle c 0 (.recv c .closed) else none
  | .worker c e =>
    match p.workers c with
    | none => none
    | some w => (w.step (p.server.handlers c).isNone e).map fun w' => { p with workers := update p.workers c (some w') }

/-- The worker reads the task and C defines its result. -/
def Understood (line : List UInt8) : Prop := ∃ message, workerAnswer (text "Task: " ++ line) = .sends message

/-- Where a worker can be while its handler runs and has the given `current_task`, and what is under way between them. -/
inductive InStep (line : Nat → List UInt8) : Worker → Option Nat → Prop
  | requesting (cur : Option Nat) (h : ∀ i ∈ cur, ¬Understood (line i)) : InStep line ⟨.requesting, [], []⟩ cur
  | asked (cur : Option Nat) (h : ∀ i ∈ cur, ¬Understood (line i)) : InStep line ⟨.awaitingTask, [text "GET_TASK"], []⟩ cur
  | refused (cur : Option Nat) (h : ∀ i ∈ cur, ¬Understood (line i)) :
      InStep line ⟨.awaitingTask, [], [text "Error: A client already have an assigned task. Complete it first."]⟩ cur
  | noTask : InStep line ⟨.awaitingTask, [], [text "No tasks available"]⟩ none
  | given (i : Nat) : InStep line ⟨.awaitingTask, [], [text "Task: " ++ line i]⟩ (some i)
  | computed (i : Nat) (message : List UInt8) (h : workerAnswer (text "Task: " ++ line i) = .sends message) :
      InStep line ⟨.awaitingAck, [message], []⟩ (some i)
  | acknowledged : InStep line ⟨.awaitingAck, [], [text "Result received"]⟩ none
  | leaving : InStep line ⟨.leaving, [], []⟩ none
  | closed : InStep line ⟨.closed, [text "exit"], []⟩ none

variable {w w' : Worker} {p p' : Pool} {cur : Option Nat} {line : Nat → List UInt8} {c n i : Nat} {e : PoolMove} {s s' : Server}
  {m : Move} {h : Handler} {buffer message l : List UInt8} {tasks tasks' : List Task}

/-! ## The worker's messages -/

/-- What a worker sends for a task is a result. -/
theorem workerAnswer_sends (h : workerAnswer buffer = .sends message) :
    ∃ a op b result, inInt a = true ∧ inInt b = true ∧ performOperation a op b = some result ∧
      message = text "RESULT " ++ fixed2 result := by
  unfold workerAnswer at h
  split at h
  · cases h
  · split at h
    · cases h
    · split at h
      · cases h
      · split at h
        · split at h
          · rename_i a op b hscan
            unfold resultMessage at h
            split at h
            · rename_i hrange
              rw [Bool.and_eq_true] at hrange
              split at h
              · rename_i result hresult
                exact ⟨a, op, b, result, hrange.1, hrange.2, hresult, (Answer.sends.inj h).symm⟩
              · cases h
            · cases h
          · cases h
        · cases h

/-- A worker that has been given a task does not take it for the end. -/
theorem workerAnswer_given_ne_ends : workerAnswer (text "Task: " ++ l) ≠ .ends := by
  have hnone : ¬text "Task: " ++ l = text "No tasks available" := by
    intro heq
    have := congrArg List.head? heq
    rw [List.head?_append_of_ne_nil _ (by decide)] at this
    exact absurd this (by decide)
  unfold workerAnswer
  rw [if_neg hnone]
  split
  · simp
  · split
    · simp
    · split
      · split
        · unfold resultMessage
          split
          · split <;> simp
          · simp
        · simp
      · simp

theorem startsWith_result (h : workerAnswer buffer = .sends message) : startsWith message (text "RESULT") = true := by
  obtain ⟨a, op, b, result, -, -, -, rfl⟩ := workerAnswer_sends h
  exact startsWith_iff.2 ⟨32 :: fixed2 result, rfl⟩

/-- Nothing else is. -/
theorem result_only (h : workerAnswer buffer = .sends message) :
    startsWith message (text "exit") = false ∧ startsWith message (text "GET_TASK") = false :=
  ⟨not_startsWith_both (startsWith_result h) (by decide) (by decide) (by decide),
    not_startsWith_both (startsWith_result h) (by decide) (by decide) (by decide)⟩

/-- The handler takes it for a result. -/
theorem serve_result (h : workerAnswer buffer = .sends message) (tasks : List Task) (c : Nat) (cur : Option Nat) :
    serve tasks c cur message = serveResult tasks cur := by
  rw [serve, (result_only h).1, (result_only h).2, startsWith_result h]
  rfl

/-- A result of two `int`s is at most twice 2^32. -/
theorem performOperation_le {a b : Int} {op : UInt8} {result : Double} (ha : inInt a = true)
    (h : performOperation a op b = some result) : result.magnitude ≤ 2 ^ 33 := by
  have hint : ∀ z : Int, inInt z = true → (ofInt z).magnitude ≤ 2 ^ 33 := by
    intro z hz
    simp only [inInt, Bool.and_eq_true, decide_eq_true_eq] at hz
    have habs : z.natAbs ≤ 2 ^ 32 := by omega
    have hcast : (z.natAbs : ℚ) ≤ 2 ^ 32 := by exact_mod_cast habs
    exact (nearest_le (Nat.cast_nonneg _)).trans (by linarith)
  have hchecked : ∀ z result, checked z = some result → result.magnitude ≤ 2 ^ 33 := by
    intro z result hz
    unfold checked at hz
    split at hz
    · rename_i hrange
      cases hz
      exact hint z hrange
    · cases hz
  unfold performOperation at h
  split at h
  · exact hchecked _ _ h
  · split at h
    · exact hchecked _ _ h
    · split at h
      · exact hchecked _ _ h
      · split at h
        · split at h
          · cases h
            exact hint _ (by decide)
          · cases h
            simp only [inInt, Bool.and_eq_true, decide_eq_true_eq] at ha
            have habs : a.natAbs ≤ 2 ^ 32 := by omega
            have hcast : (a.natAbs : ℚ) ≤ 2 ^ 32 := by exact_mod_cast habs
            have hquotient : (a.natAbs : ℚ) / b.natAbs ≤ a.natAbs := by
              rcases Nat.eq_zero_or_pos b.natAbs with hzero | hpos
              · rw [hzero, Nat.cast_zero, div_zero]
                exact Nat.cast_nonneg _
              · exact div_le_self (Nat.cast_nonneg _) (by exact_mod_cast hpos)
            have hpos : (0 : ℚ) ≤ (a.natAbs : ℚ) / b.natAbs := div_nonneg (Nat.cast_nonneg _) (Nat.cast_nonneg _)
            exact (nearest_le hpos).trans (by linarith)
        · cases h
          exact hint 0 (by decide)

/-- A result fits into the handler's buffer. -/
theorem fits_result (h : workerAnswer buffer = .sends message) : fits message = true := by
  obtain ⟨a, op, b, result, ha, -, hresult, rfl⟩ := workerAnswer_sends h
  have hsize := performOperation_le ha hresult
  have hlength := length_fixed2_le (d := result) (k := 10) (by omega) (by linarith)
  have htext : (text "RESULT ").length = 7 := by decide
  rw [fits, List.length_append, htext]
  simp only [Bool.and_eq_true, decide_eq_true_eq]
  omega

/-! ## One move -/

/-- What a task says never changes. -/
theorem description_modify {f : Task → Task} (hf : ∀ t, (f t).description = t.description) (k : Nat) :
    description (tasks.modify k f) = description tasks := by
  funext i
  unfold description
  by_cases hki : k = i
  · subst hki
    rw [List.getElem?_modify_eq]
    cases tasks[k]? with
    | none => rfl
    | some t => simp [hf]
  · rw [List.getElem?_modify_ne f tasks hki]

theorem Change.description {l l' : Ledger} {x : Effect} (h : Change l x l') : description l'.tasks = description l.tasks := by
  cases h with
  | idle | join | leave | desert => rfl
  | reset c i => exact description_modify (f := Task.cleared) (fun _ => rfl) i
  | complete c i => exact description_modify (f := fun t => { t with state := .completed }) (fun _ => rfl) i
  | take c i tasks hnext | grab c i tasks hnext =>
    obtain ⟨-, -, rfl⟩ := getNextTask_task hnext
    exact description_modify (f := fun t => { t with state := .assigned, assignedToClient := some c }) (fun _ => rfl) i
  | clear c =>
    funext i
    simp only [NetLabs.Tasks.description, clearAssignedTasks, List.getElem?_map, Option.map_map]
    congr 2
    funext t
    rw [Function.comp_apply]
    split <;> rfl

theorem step_description (hi : s.Inv) (h : s.step m = some s') : description s'.tasks = description s.tasks := by
  obtain ⟨x, hx, -⟩ := step_change hi h
  exact hx.description

/-- The answer to `GET_TASK` leaves the two in step. -/
theorem inStep_getTask (hi : s.Inv) (hc : s.handlers c = some h) (hcur : ∀ i ∈ h.currentTask, ¬Understood (description s.tasks i)) :
    ∃ reply, (serveGetTask s.tasks c h.currentTask).reply = some reply ∧ (serveGetTask s.tasks c h.currentTask).leaves = false ∧
      InStep (description (serveGetTask s.tasks c h.currentTask).tasks) ⟨.awaitingTask, [], [reply]⟩
        (serveGetTask s.tasks c h.currentTask).currentTask := by
  obtain ⟨r, tasks', hr⟩ : ∃ r tasks', getNextTask s.tasks c = (r, tasks') := ⟨_, _, rfl⟩
  cases r with
  | alreadyAssigned =>
    obtain rfl := getNextTask_same hr (by simp)
    simp only [serveGetTask, hr]
    exact ⟨_, rfl, trivial, .refused _ hcur⟩
  | task i =>
    simp only [serveGetTask, hr]
    exact ⟨_, rfl, trivial, .given i⟩
  | noTask =>
    -- a client that has a task would have been refused
    have hnone : h.currentTask = none := by
      cases hh : h.currentTask with
      | none => rfl
      | some i =>
        obtain ⟨t, ht, hs, -⟩ := hi.owned c i (by rw [ledger_current hc, hh])
        have hrefused : getNextTask s.tasks c = (.alreadyAssigned, s.tasks) := getNextTask_refuses ⟨t, List.mem_of_getElem? ht, hs⟩
        rw [hrefused] at hr
        cases hr
    simp only [serveGetTask, hr, hnone]
    exact ⟨_, rfl, trivial, .noTask⟩

/-- What the messages that are under way to a handler can be, all of them at once. -/
theorem inStep_message (hw : InStep line w cur) (hn : 0 < n) (hle : n ≤ w.toServer.length) :
    ∃ b, w.toServer = [b] ∧ n = 1 ∧ (w.toServer.take n).flatten = b ∧ w.fromServer = [] ∧
      (w.phase = .awaitingTask ∧ b = text "GET_TASK" ∧ (∀ i ∈ cur, ¬Understood (line i)) ∨
        (∃ i, w.phase = .awaitingAck ∧ cur = some i ∧ workerAnswer (text "Task: " ++ line i) = .sends b) ∨
        w.phase = .closed ∧ b = text "exit" ∧ cur = none) := by
  have hone : ∀ b : List UInt8, n ≤ [b].length → n = 1 := by
    intro b hb
    rw [List.length_singleton] at hb
    omega
  cases hw with
  | requesting | refused | noTask | given | acknowledged | leaving =>
    rw [List.length_nil] at hle
    omega
  | asked _ hcur =>
    obtain rfl := hone _ hle
    exact ⟨_, rfl, rfl, by simp, rfl, Or.inl ⟨rfl, rfl, hcur⟩⟩
  | computed i message hm =>
    obtain rfl := hone _ hle
    exact ⟨_, rfl, rfl, by simp, rfl, Or.inr (Or.inl ⟨i, rfl, rfl, hm⟩)⟩
  | closed =>
    obtain rfl := hone _ hle
    exact ⟨_, rfl, rfl, by simp, rfl, Or.inr (Or.inr ⟨rfl, rfl, rfl⟩)⟩

/-- A worker that has closed its socket has said `exit`. -/
theorem InStep.exit_sent (hw : InStep line w cur) (hp : w.phase = .closed) : w.toServer ≠ [] := by
  cases hw with
  | closed => simp
  | requesting | asked | refused | noTask | given | computed | acknowledged | leaving => cases hp

/-- A `read` when one message is there. -/
theorem read_one {b : List UInt8} {gone : Bool} (hb : w.fromServer = [b]) (h : w.step gone (.read n) = some w') :
    w.phase = .awaitingTask ∧ { w with fromServer := [] }.answered b = some w' ∨
      w.phase = .awaitingAck ∧ w' = { w with phase := .requesting, fromServer := [] } := by
  obtain ⟨⟨hn, hle, -⟩, h⟩ := Option.ite_none_right_eq_some.1 h
  obtain rfl : n = 1 := by
    rw [hb, List.length_singleton] at hle
    omega
  rw [hb] at h
  simp only [List.take_succ_cons, List.take_zero, List.flatten_cons, List.flatten_nil, List.append_nil, List.drop_succ_cons,
    List.drop_zero] at h
  split at h
  · rename_i hp
    exact Or.inl ⟨hp, h⟩
  · rename_i hp
    exact Or.inr ⟨hp, (Option.some.inj h).symm⟩
  · cases h

/-- There is nothing to read. -/
theorem read_none {gone : Bool} (hb : w.fromServer = []) : w.step gone (.read n) = none := by
  refine if_neg ?_
  rintro ⟨hn, hle, -⟩
  rw [hb, List.length_nil] at hle
  omega

/-- What a worker reads leaves the two in step. -/
theorem inStep_read {gone : Bool} (hw : InStep line w cur) (h : w.step gone (.read n) = some w') : InStep line w' cur := by
  cases hw with
  | requesting | asked | computed | leaving | closed =>
    rw [read_none rfl] at h
    cases h
  | refused _ hcur =>
    have hanswer : workerAnswer (text "Error: A client already have an assigned task. Complete it first.") = .retries := by
      decide +kernel
    rcases read_one rfl h with ⟨-, h⟩ | ⟨hp, -⟩
    · rw [Worker.answered, hanswer] at h
      cases h
      exact .requesting _ hcur
    · cases hp
  | noTask =>
    have hanswer : workerAnswer (text "No tasks available") = .ends := by decide +kernel
    rcases read_one rfl h with ⟨-, h⟩ | ⟨hp, -⟩
    · rw [Worker.answered, hanswer] at h
      cases h
      exact .leaving
    · cases hp
  | given i =>
    have hnot : ∀ a, workerAnswer (text "Task: " ++ line i) = a → (∀ m, a ≠ .sends m) →
        ∀ j ∈ some i, ¬Understood (line j) := by
      rintro a ha hsends j hj ⟨message, hm⟩
      obtain rfl : i = j := by simpa using hj
      exact hsends message (ha.symm.trans hm)
    rcases read_one rfl h with ⟨-, h⟩ | ⟨hp, -⟩
    · rw [Worker.answered] at h
      cases ha : workerAnswer (text "Task: " ++ line i) with
      | ends => exact absurd ha workerAnswer_given_ne_ends
      | retries | ignores | invalidTask =>
        rw [ha] at h
        cases h
        exact .requesting _ (hnot _ ha (by simp))
      | sends message =>
        rw [ha] at h
        cases h
        exact .computed i message ha
      | undefined =>
        rw [ha] at h
        cases h
    · cases hp
  | acknowledged =>
    rcases read_one rfl h with ⟨hp, -⟩ | ⟨-, rfl⟩
    · cases hp
    · exact .requesting none (by simp)

/-- What a worker does leaves the two in step. -/
theorem inStep_worker {e : WorkerMove} (hw : InStep line w cur) (h : w.step false e = some w') : InStep line w' cur := by
  cases e with
  | ask =>
    obtain ⟨hp, ⟨⟩⟩ := Option.ite_none_right_eq_some.1 h
    cases hw with
    | requesting _ hcur => exact .asked _ hcur
    | asked | refused | noTask | given | computed | acknowledged | leaving | closed => cases hp
  | read n => exact inStep_read hw h
  | leave =>
    obtain ⟨hp, ⟨⟩⟩ := Option.ite_none_right_eq_some.1 h
    cases hw with
    | leaving => exact .closed
    | requesting | asked | refused | noTask | given | computed | acknowledged | closed => cases hp
  | disconnected | killed => simp [Worker.step] at h

/-- What a handler does at the top of its loop. -/
theorem step_top {now : Int} (h : s.step (.top c now) = some s') : ∃ h, s.handlers c = some h ∧ s' = s.top c h now := by
  cases step_stepped h with
  | top _ _ h0 hc hp => exact ⟨h0, hc, rfl⟩

/-- What it does at `recv`. -/
theorem step_recv {r : Received} (h : s.step (.recv c r) = some s') : ∃ h, s.handlers c = some h ∧ s.recv c h r = some s' := by
  cases step_stepped h with
  | recv _ _ h0 _ hc hp hs => exact ⟨h0, hc, hs⟩

/-! ## The invariant -/

/-- The invariant of the pool. -/
structure Pool.Inv (p : Pool) : Prop where
  server : p.server.Inv
  held : p.server.ledger.Held
  allCompleted : p.server.stopping → allTasksCompleted p.server.tasks = true
  inStep : ∀ c h, p.server.handlers c = some h → ∃ w, p.workers c = some w ∧ InStep (description p.server.tasks) w h.currentTask
  understood : ∀ i, Completed p.server.tasks i → Understood (description p.server.tasks i)

/-- What a move of a handler is in the pool. -/
theorem handle_eq_some (h : p.handle c n m = some p') : ∃ w, p.workers c = some w ∧ p.server.step m = some p'.server ∧
    p'.workers = update p.workers c (some { w with
      toServer := w.toServer.drop n
      fromServer := w.fromServer ++ sentSince p.server p'.server }) := by
  unfold Pool.handle at h
  split at h
  · cases h
  · rename_i w hw
    obtain ⟨s, hs, rfl⟩ := Option.map_eq_some_iff.1 h
    exact ⟨w, hw, hs, rfl⟩

/-- What `recv` of the next messages is. -/
theorem recv_eq_some {broken : Bool} (h : p.step (.recv c n broken) = some p') :
    ∃ w, p.workers c = some w ∧ 0 < n ∧ n ≤ w.toServer.length ∧ (broken = true → w.phase = .closed) ∧
      p.handle c n (.recv c (.message (w.toServer.take n).flatten broken)) = some p' := by
  simp only [Pool.step] at h
  split at h
  · cases h
  · rename_i w hw
    obtain ⟨⟨hn, hle, hb⟩, h⟩ := Option.ite_none_right_eq_some.1 h
    exact ⟨w, hw, hn, hle, hb, h⟩

/-- No message that a worker sends makes its handler desert a task. -/
theorem not_deserts_message {broken : Bool} (hc : s.handlers c = some h) (hw : InStep line w h.currentTask) (hn : 0 < n)
    (hle : n ≤ w.toServer.length) (hb : broken = true → w.phase = .closed) :
    ¬s.deserts (.recv c (.message (w.toServer.take n).flatten broken)) := by
  obtain ⟨b, -, -, hflat, -, hkind⟩ := inStep_message hw hn hle
  rw [hflat]
  rintro (⟨hexit, hholding⟩ | ⟨hget, rfl, -⟩)
  · rcases hkind with ⟨-, rfl, -⟩ | ⟨i, -, -, hm⟩ | ⟨-, -, hcur⟩
    · exact absurd hexit (by decide)
    · rw [(result_only hm).1] at hexit
      cases hexit
    · obtain ⟨i, hi⟩ := (holding_iff hc).1 hholding
      rw [hcur] at hi
      cases hi
  · have hp := hb rfl
    rcases hkind with ⟨hp', -⟩ | ⟨i, hp', -⟩ | ⟨-, rfl, -⟩
    · rw [hp] at hp'
      cases hp'
    · rw [hp] at hp'
      cases hp'
    · exact absurd hget (by decide)

/-- At the top of its loop a handler deserts no task: `server_shutdown` is set when all are completed. -/
theorem not_deserts_top (hi : s.Inv) (hall : s.stopping → allTasksCompleted s.tasks = true) (now : Int) : ¬s.deserts (.top c now) := by
  rintro ⟨hdown, h, i, hc, hh, -⟩
  obtain ⟨t, ht, hs, -⟩ := hi.owned c i (by rw [ledger_current hc, hh])
  have hdone := hall (Or.inl hdown)
  simp only [allTasksCompleted, List.all_eq_true, decide_eq_true_eq] at hdone
  rw [hdone t (List.mem_of_getElem? ht)] at hs
  cases hs

/-- The server's part of a move: none, or a move that neither deserts a task nor takes one back. -/
theorem pool_server (hi : p.Inv) (h : p.step e = some p') : p'.server = p.server ∨
    ∃ m, p.server.step m = some p'.server ∧ ¬p.server.deserts m ∧ ¬p.server.takesBack m := by
  -- `clear_assigned_tasks` is not called
  have hback : ∀ m, (∀ c, m ≠ .recv c .closed) → ¬p.server.takesBack m := by
    rintro m hm ⟨c, t, rfl, -⟩
    exact hm c rfl
  cases e with
  | accept now | allCompleted | shutdown | selectFails =>
    obtain ⟨s, hs, rfl⟩ := Option.map_eq_some_iff.1 h
    exact Or.inr ⟨_, hs, fun hd => hd, hback _ (by simp)⟩
  | top c now =>
    obtain ⟨w, -, hs, -⟩ := handle_eq_some h
    exact Or.inr ⟨_, hs, not_deserts_top hi.server hi.allCompleted now, hback _ (by simp)⟩
  | recv c n broken =>
    obtain ⟨w, hw, hn, hle, hb, h⟩ := recv_eq_some h
    obtain ⟨-, -, hs, -⟩ := handle_eq_some h
    refine Or.inr ⟨_, hs, ?_, hback _ (by simp)⟩
    obtain ⟨h0, hc, -⟩ := step_recv hs
    obtain ⟨w', hw', hin⟩ := hi.inStep c h0 hc
    obtain rfl := Option.some.inj (hw.symm.trans hw')
    exact not_deserts_message hc hin hn hle hb
  | wouldBlock c =>
    obtain ⟨w, -, hs, -⟩ := handle_eq_some h
    exact Or.inr ⟨_, hs, fun hd => hd, hback _ (by simp)⟩
  | hangUp c =>
    simp only [Pool.step] at h
    split at h
    · cases h
    · rename_i w hw
      obtain ⟨⟨hp, hempty⟩, h⟩ := Option.ite_none_right_eq_some.1 h
      obtain ⟨-, -, hs, -⟩ := handle_eq_some h
      obtain ⟨h0, hc, -⟩ := step_recv hs
      obtain ⟨w', hw', hin⟩ := hi.inStep c h0 hc
      obtain rfl := Option.some.inj (hw.symm.trans hw')
      exact absurd hempty (hin.exit_sent hp)
  | worker c e =>
    simp only [Pool.step] at h
    split at h
    · cases h
    · obtain ⟨w', -, rfl⟩ := Option.map_eq_some_iff.1 h
      exact Or.inl rfl

/-- What is sent with a message is the answer to it. -/
theorem sentSince_message {broken : Bool} {b : List UInt8} (hs : s.recv c h (.message b broken) = some s') :
    sentSince s s' = (serve s.tasks c h.currentTask b).reply.toList := by
  obtain ⟨_, ⟨⟩⟩ := Option.ite_none_right_eq_some.1 hs
  simp only [sentSince, List.drop_left]
  cases (serve s.tasks c h.currentTask b).reply <;> rfl

/-- A handler that goes on after a message has the `current_task` that the message leaves it. -/
theorem handler_message {broken : Bool} {b : List UInt8} {h' : Handler} (hs : s.recv c h (.message b broken) = some s')
    (hc : s'.handlers c = some h') : s'.tasks = (serve s.tasks c h.currentTask b).tasks ∧
      h'.currentTask = (serve s.tasks c h.currentTask b).currentTask ∧ (serve s.tasks c h.currentTask b).leaves = false := by
  obtain ⟨_, ⟨⟩⟩ := Option.ite_none_right_eq_some.1 hs
  have hafter : update s.handlers c (h.after (serve s.tasks c h.currentTask b) broken) c = some h' := hc
  rw [update_self] at hafter
  obtain ⟨hstays, ⟨⟩⟩ := Option.ite_none_left_eq_some.1 hafter
  rw [Bool.or_eq_true, not_or, Bool.not_eq_true] at hstays
  exact ⟨rfl, rfl, hstays.1⟩

/-- A message leaves the two in step. -/
theorem inStep_recv {broken : Bool} (hi : s.Inv) (hc : s.handlers c = some h) (hw : InStep (description s.tasks) w h.currentTask)
    (hn : 0 < n) (hle : n ≤ w.toServer.length) (hs : s.recv c h (.message (w.toServer.take n).flatten broken) = some s') {h' : Handler}
    (hc' : s'.handlers c = some h') : InStep (description s'.tasks) { w with
      toServer := w.toServer.drop n
      fromServer := w.fromServer ++ sentSince s s' } h'.currentTask := by
  obtain ⟨b, hb, rfl, hflat, hfrom, hkind⟩ := inStep_message hw hn hle
  rw [hflat] at hs
  obtain ⟨htasks, hcur, hleaves⟩ := handler_message hs hc'
  rw [sentSince_message hs, htasks, hcur, hb, hfrom]
  rcases hkind with ⟨hp, rfl, hnot⟩ | ⟨i, hp, hh, hm⟩ | ⟨-, rfl, -⟩
  · have hserve : serve s.tasks c h.currentTask (text "GET_TASK") = serveGetTask s.tasks c h.currentTask := rfl
    obtain ⟨reply, hreply, -, hin⟩ := inStep_getTask hi hc hnot
    rw [hserve, hreply, hp]
    exact hin
  · rw [serve_result hm, hh, hp]
    exact .acknowledged
  · cases hleaves

/-- A handler that goes on from the top of its loop has sent nothing and changed nothing. -/
theorem top_goesOn {now : Int} {h' : Handler} (hc : (s.top c h now).handlers c = some h') :
    (s.top c h now).tasks = s.tasks ∧ (s.top c h now).sent = s.sent ∧ h'.currentTask = h.currentTask := by
  unfold Server.top at hc ⊢
  split at hc
  · have hnone : update s.handlers c none c = some h' := hc
    rw [update_self] at hnone
    cases hnone
  · split at hc
    · have hnone : update s.handlers c none c = some h' := hc
      rw [update_self] at hnone
      cases hnone
    · rename_i hrunning
      rw [if_neg hrunning]
      have hsome : update s.handlers c (some { h with phase := .receiving }) c = some h' := hc
      rw [update_self] at hsome
      cases hsome
      exact ⟨rfl, rfl, rfl⟩

/-- The handlers that a move of the handler of `c` leaves alone. -/
theorem handlers_ne {d : Nat} (hm : (∃ now, m = .top c now) ∨ ∃ r, m = .recv c r) (h : s.step m = some s') (hd : d ≠ c) :
    s'.handlers d = s.handlers d := by
  have hupdate : ∃ o, s'.handlers = update s.handlers c o := by
    rcases hm with ⟨now, rfl⟩ | ⟨r, rfl⟩
    · obtain ⟨h0, -, rfl⟩ := step_top h
      exact (top_frame s c h0 now).1
    · obtain ⟨h0, -, hs⟩ := step_recv h
      exact (recv_frame hs).1
  obtain ⟨o, ho⟩ := hupdate
  rw [ho, update_of_ne hd]

/-- A move of a handler leaves every worker in step if it leaves its own so. -/
theorem inStep_handle (hi : p.Inv) (hm : (∃ now, m = .top c now) ∨ ∃ r, m = .recv c r) (h : p.handle c n m = some p')
    (hown : ∀ w h h', p.workers c = some w → p.server.handlers c = some h → InStep (description p.server.tasks) w h.currentTask →
      p'.server.handlers c = some h' → InStep (description p'.server.tasks) { w with
        toServer := w.toServer.drop n
        fromServer := w.fromServer ++ sentSince p.server p'.server } h'.currentTask) :
    ∀ d h, p'.server.handlers d = some h → ∃ w, p'.workers d = some w ∧ InStep (description p'.server.tasks) w h.currentTask := by
  obtain ⟨w, hw, hs, hworkers⟩ := handle_eq_some h
  intro d h' hd
  by_cases hdc : d = c
  · subst hdc
    obtain ⟨h0, hc0⟩ : ∃ h0, p.server.handlers d = some h0 := by
      rcases hm with ⟨now, rfl⟩ | ⟨r, rfl⟩
      · obtain ⟨h0, hc, -⟩ := step_top hs
        exact ⟨h0, hc⟩
      · obtain ⟨h0, hc, -⟩ := step_recv hs
        exact ⟨h0, hc⟩
    obtain ⟨w', hw', hin⟩ := hi.inStep d h0 hc0
    obtain rfl := Option.some.inj (hw.symm.trans hw')
    exact ⟨_, by rw [hworkers, update_self], hown w h0 h' hw hc0 hin hd⟩
  · rw [handlers_ne hm hs hdc] at hd
    obtain ⟨w', hw', hin⟩ := hi.inStep d h' hd
    refine ⟨w', by rw [hworkers, update_of_ne hdc, hw'], ?_⟩
    rw [step_description hi.server hs]
    exact hin

/-- In the pool every move leaves every worker in step. -/
theorem pool_inStep (hi : p.Inv) (h : p.step e = some p') :
    ∀ c h, p'.server.handlers c = some h → ∃ w, p'.workers c = some w ∧ InStep (description p'.server.tasks) w h.currentTask := by
  -- a handler that goes on from a move in which it sends and takes nothing
  have hidle : ∀ {w : Worker} {h h' : Handler} {s : Server}, InStep (description p.server.tasks) w h.currentTask →
      s.tasks = p.server.tasks → s.sent = p.server.sent → h'.currentTask = h.currentTask →
      InStep (description s.tasks) { w with toServer := w.toServer.drop 0, fromServer := w.fromServer ++ sentSince p.server s }
        h'.currentTask := by
    intro w h h' s hin htasks hsent hcur
    have hnothing : sentSince p.server s = [] := by
      rw [sentSince, hsent, List.drop_length]
      rfl
    rw [hnothing, List.append_nil, List.drop_zero, htasks, hcur]
    exact hin
  cases e with
  | accept now =>
    obtain ⟨s, hs, rfl⟩ := Option.map_eq_some_iff.1 h
    obtain ⟨hm, ⟨⟩⟩ := Option.ite_none_right_eq_some.1 hs
    intro d h' hd
    dsimp only at hd ⊢
    by_cases hdc : d = p.server.clientId
    · subst hdc
      rw [update_self] at hd
      cases hd
      exact ⟨_, update_self .., .requesting none (by simp)⟩
    · rw [update_of_ne hdc] at hd ⊢
      exact hi.inStep d h' hd
  | allCompleted | shutdown | selectFails =>
    obtain ⟨s, hs, rfl⟩ := Option.map_eq_some_iff.1 h
    obtain ⟨-, ⟨⟩⟩ := Option.ite_none_right_eq_some.1 hs
    exact hi.inStep
  | top c now =>
    refine inStep_handle hi (Or.inl ⟨now, rfl⟩) h fun w h0 h' _ hc hin hd => ?_
    obtain ⟨-, -, hs, -⟩ := handle_eq_some h
    obtain ⟨h1, hc1, htop⟩ := step_top hs
    obtain rfl := Option.some.inj (hc.symm.trans hc1)
    rw [htop] at hd
    obtain ⟨htasks, hsent, hcur⟩ := top_goesOn hd
    exact hidle hin (htop ▸ htasks) (htop ▸ hsent) hcur
  | recv c n broken =>
    obtain ⟨w0, hw0, hn, hle, -, h⟩ := recv_eq_some h
    refine inStep_handle hi (Or.inr ⟨_, rfl⟩) h fun w h0 h' hw hc hin hd => ?_
    obtain rfl := Option.some.inj (hw0.symm.trans hw)
    obtain ⟨-, -, hs, -⟩ := handle_eq_some h
    obtain ⟨h1, hc1, hr⟩ := step_recv hs
    obtain rfl := Option.some.inj (hc.symm.trans hc1)
    exact inStep_recv hi.server hc hin hn hle hr hd
  | wouldBlock c =>
    refine inStep_handle hi (Or.inr ⟨_, rfl⟩) h fun w h0 h' _ hc hin hd => ?_
    obtain ⟨-, -, hs, -⟩ := handle_eq_some h
    obtain ⟨h1, hc1, hr⟩ := step_recv hs
    obtain rfl := Option.some.inj (hc.symm.trans hc1)
    have hr := Option.some.inj hr
    rw [← hr] at hd
    have hsome : update p.server.handlers c (some { h0 with phase := .top }) c = some h' := hd
    rw [update_self] at hsome
    cases hsome
    exact hidle hin (by rw [← hr]) (by rw [← hr]) rfl
  | hangUp c =>
    simp only [Pool.step] at h
    split at h
    · cases h
    · rename_i w0 hw0
      obtain ⟨⟨hp, hempty⟩, h⟩ := Option.ite_none_right_eq_some.1 h
      refine inStep_handle hi (Or.inr ⟨_, rfl⟩) h fun w h0 h' hw hc hin hd => ?_
      obtain rfl := Option.some.inj (hw0.symm.trans hw)
      exact absurd hempty (hin.exit_sent hp)
  | worker c e =>
    simp only [Pool.step] at h
    split at h
    · cases h
    · rename_i w hw
      obtain ⟨w', hw', rfl⟩ := Option.map_eq_some_iff.1 h
      intro d h' hd
      dsimp only at hd ⊢
      by_cases hdc : d = c
      · subst hdc
        obtain ⟨w1, hw1, hin⟩ := hi.inStep d h' hd
        obtain rfl := Option.some.inj (hw.symm.trans hw1)
        have hrunning : (p.server.handlers d).isNone = false := by rw [hd]; rfl
        rw [hrunning] at hw'
        exact ⟨w', update_self .., inStep_worker hin hw'⟩
      · rw [update_of_ne hdc]
        exact hi.inStep d h' hd

/-- A task is completed by a worker that has read it. -/
theorem pool_completed (hi : p.Inv) (h : p.step e = some p') (hdone : Completed p'.server.tasks i) :
    Completed p.server.tasks i ∨ Understood (description p.server.tasks i) := by
  cases e with
  | accept now | allCompleted | shutdown | selectFails =>
    obtain ⟨s, hs, rfl⟩ := Option.map_eq_some_iff.1 h
    obtain ⟨-, ⟨⟩⟩ := Option.ite_none_right_eq_some.1 hs
    exact Or.inl hdone
  | top c now =>
    obtain ⟨-, -, hs, -⟩ := handle_eq_some h
    obtain ⟨h0, -, htop⟩ := step_top hs
    rw [htop] at hdone
    exact Or.inl (completed_of_top hdone)
  | recv c n broken =>
    obtain ⟨w, hw, hn, hle, -, h⟩ := recv_eq_some h
    obtain ⟨-, -, hs, -⟩ := handle_eq_some h
    obtain ⟨h0, hc, hr⟩ := step_recv hs
    obtain ⟨w', hw', hin⟩ := hi.inStep c h0 hc
    obtain rfl := Option.some.inj (hw.symm.trans hw')
    obtain ⟨b, -, -, hflat, -, hkind⟩ := inStep_message hin hn hle
    rw [hflat] at hr
    obtain ⟨_, hr⟩ := Option.ite_none_right_eq_some.1 hr
    rw [← Option.some.inj hr] at hdone
    have hdone : Completed (serve p.server.tasks c h0.currentTask b).tasks i := hdone
    rcases completed_of_serve hdone with hcur | hold
    · rcases hkind with ⟨-, rfl, -⟩ | ⟨j, -, hj, hm⟩ | ⟨-, -, hnone⟩
      · obtain ⟨r, tasks', hnext⟩ : ∃ r tasks', getNextTask p.server.tasks c = (r, tasks') := ⟨_, _, rfl⟩
        have htasks : (serve p.server.tasks c h0.currentTask (text "GET_TASK")).tasks = tasks' := by
          change (serveGetTask p.server.tasks c h0.currentTask).tasks = tasks'
          cases r <;> simp [serveGetTask, hnext]
        rw [htasks] at hdone
        exact Or.inl (completed_of_getNextTask hnext hdone)
      · obtain rfl : j = i := Option.some.inj (hj.symm.trans hcur)
        exact Or.inr ⟨b, hm⟩
      · rw [hnone] at hcur
        cases hcur
    · exact Or.inl hold
  | wouldBlock c =>
    obtain ⟨-, -, hs, -⟩ := handle_eq_some h
    obtain ⟨h0, -, hr⟩ := step_recv hs
    rw [← Option.some.inj hr] at hdone
    exact Or.inl hdone
  | hangUp c =>
    simp only [Pool.step] at h
    split at h
    · cases h
    · obtain ⟨-, h⟩ := Option.ite_none_right_eq_some.1 h
      obtain ⟨-, -, hs, -⟩ := handle_eq_some h
      obtain ⟨h0, -, hr⟩ := step_recv hs
      rw [← Option.some.inj hr] at hdone
      exact Or.inl (completed_of_clearAssignedTasks hdone)
  | worker c e =>
    simp only [Pool.step] at h
    split at h
    · cases h
    · obtain ⟨w', -, rfl⟩ := Option.map_eq_some_iff.1 h
      exact Or.inl hdone

/-- What the tasks say never changes, nor how many there are. -/
theorem pool_description (hi : p.Inv) (h : p.step e = some p') :
    description p'.server.tasks = description p.server.tasks ∧ p'.server.tasks.length = p.server.tasks.length := by
  rcases pool_server hi h with hs | ⟨m, hs, -, -⟩
  · rw [hs]
    exact ⟨rfl, rfl⟩
  · obtain ⟨x, hx, -⟩ := step_change hi.server hs
    exact ⟨hx.description, hx.length⟩

/-- Completed tasks stay completed. -/
theorem pool_keeps (hi : p.Inv) (h : p.step e = some p') (hdone : Completed p.server.tasks i) : Completed p'.server.tasks i := by
  rcases pool_server hi h with hs | ⟨m, hs, -, hback⟩
  · rw [hs]
    exact hdone
  · exact (step_completed_iff hi.server hs).2 hback i hdone

/-- Every move keeps the invariant of the pool. -/
theorem pool_step (hi : p.Inv) (h : p.step e = some p') : p'.Inv := by
  have hunderstood : ∀ i, Completed p'.server.tasks i → Understood (description p'.server.tasks i) := by
    intro i hdone
    rw [(pool_description hi h).1]
    rcases pool_completed hi h hdone with hold | hnew
    · exact hi.understood i hold
    · exact hnew
  have hinStep := pool_inStep hi h
  rcases pool_server hi h with hs | ⟨m, hs, hdeserts, hback⟩
  · rw [hs] at hinStep hunderstood
    exact ⟨hs ▸ hi.server, hs ▸ hi.held, hs ▸ hi.allCompleted, hs ▸ hinStep, hs ▸ hunderstood⟩
  · obtain ⟨x, hx, hof⟩ := step_change hi.server hs
    exact ⟨step_inv hi.server hs, hi.held.change hi.server.owned hx fun hd => hdeserts (hof.deserted.1 hd),
      step_allCompleted hi.server hi.allCompleted hback hs, hinStep, hunderstood⟩

/-- The invariant holds at the beginning. -/
theorem pool_begin (file : List UInt8) : (Pool.begin file).Inv := by
  have hfree : ∀ (i : Nat) (t : Task), (Pool.begin file).server.tasks[i]? = some t → t.state = .notAssigned := by
    intro i t ht
    simp only [Pool.begin, Server.begin, loaded, List.getElem?_map, Option.map_eq_some_iff] at ht
    obtain ⟨d, -, rfl⟩ := ht
    rfl
  refine ⟨begin_inv _, ?_, ?_, ?_, ?_⟩
  · intro i t ht hs
    rw [hfree i t ht] at hs
    cases hs
  · rintro (hstop | hstop) <;> cases hstop
  · intro c h hc
    cases hc
  · rintro i ⟨t, ht, hs⟩
    rw [hfree i t ht] at hs
    cases hs

/-! ## What the workers do to the server -/

/-- What the server prints when a handler takes the next `n` messages of its worker as a result. -/
def Pool.prints (p : Pool) : PoolMove → Option (List UInt8)
  | .recv c n _ =>
    match p.workers c, p.server.handlers c with
    | some w, some h =>
      if startsWith (w.toServer.take n).flatten (text "RESULT") then
        printsResult p.server.tasks c h.currentTask (w.toServer.take n).flatten
      else none
    | _, _ => none
  | _ => none

/-- What is printed is the worker's own answer to the task that its handler has in hand, which is assigned to it before the move and
completed by it. -/
def Pool.PrintsAnswer (p : Pool) (e : PoolMove) : Prop :=
  ∀ p' out, p.step e = some p' → p.prints e = some out → ∃ c n broken h i message, e = .recv c n broken ∧
    p.server.handlers c = some h ∧ h.currentTask = some i ∧
      workerAnswer (text "Task: " ++ description p.server.tasks i) = .sends message ∧ AssignedTo p.server.tasks i c ∧
        Completed p'.server.tasks i ∧ printsResult p.server.tasks c (some i) message = some out

/-- A result that is taken is the answer to the task that it completes. -/
theorem printsAnswer_of_inv (hi : p.Inv) (e : PoolMove) : p.PrintsAnswer e := by
  intro p' out h hout
  cases e with
  | recv c n broken =>
    obtain ⟨w, hw, hn, hle, -, h⟩ := recv_eq_some h
    obtain ⟨-, -, hs, -⟩ := handle_eq_some h
    obtain ⟨h0, hc, hr⟩ := step_recv hs
    obtain ⟨w', hw', hin⟩ := hi.inStep c h0 hc
    obtain rfl := Option.some.inj (hw.symm.trans hw')
    obtain ⟨b, -, -, hflat, -, hkind⟩ := inStep_message hin hn hle
    simp only [Pool.prints, hw, hc, hflat] at hout
    rw [hflat] at hr
    obtain ⟨hresult, hout⟩ := Option.ite_none_right_eq_some.1 hout
    rcases hkind with ⟨-, rfl, -⟩ | ⟨i, -, hcur, hm⟩ | ⟨-, rfl, -⟩
    · exact absurd hresult (by decide)
    · have hassigned : AssignedTo p.server.tasks i c := hi.server.owned c i (by rw [ledger_current hc, hcur])
      refine ⟨c, n, broken, h0, i, b, rfl, hc, hcur, hm, hassigned, ?_, by rw [← hcur]; exact hout⟩
      obtain ⟨t, ht, -, -⟩ := hassigned
      obtain ⟨_, hr⟩ := Option.ite_none_right_eq_some.1 hr
      have htasks : p'.server.tasks = completeTask p.server.tasks i := by
        rw [← Option.some.inj hr]
        change (serve p.server.tasks c h0.currentTask b).tasks = _
        rw [serve_result hm, hcur]
        rfl
      rw [htasks]
      exact ⟨{ t with state := .completed }, by rw [completeTask, List.getElem?_modify_eq, ht]; rfl, rfl⟩
    · exact absurd hresult (by decide)
  | accept | allCompleted | shutdown | selectFails | top | wouldBlock | hangUp | worker => cases hout

/-- The server and the workers of this repository. For every config file and along every run, whatever the order of their moves and
the times: no task is orphaned in any state, what is completed stays completed, `server_shutdown` means that all tasks are, and every
result that the server prints is the worker's answer to the text of the task that it completes. -/
theorem workers_safe (file : List UInt8) (moves : List PoolMove) :
    Always Pool.step (fun p => p.server.NoOrphan ∧ p.server.ShutdownComplete) (Pool.begin file) moves ∧
      Stays Pool.step (fun i p => Completed p.server.tasks i) (Pool.begin file) moves ∧
      Meets Pool.step Pool.PrintsAnswer (Pool.begin file) moves := by
  refine ⟨?_, ?_, ?_⟩
  · refine (always_of_kept (fun _ _ _ => pool_step) (pool_begin file)).imp fun p hi => ⟨(noOrphan_iff hi.server).2 hi.held, ?_⟩
    intro hdown t ht
    have hall := hi.allCompleted (Or.inl hdown)
    simp only [allTasksCompleted, List.all_eq_true, decide_eq_true_eq] at hall
    exact hall t ht
  · exact stays_of_kept (fun _ _ _ => pool_step) (fun _ _ _ hi h _ => pool_keeps hi h) (pool_begin file)
  · exact meets_of_kept (fun _ _ _ => pool_step) (fun _ e hi => printsAnswer_of_inv hi e) (pool_begin file)

end NetLabs.Tasks
