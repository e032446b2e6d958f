import NetLabs.Tasks.Server

/-!
# Inactive clients

`handle_client` takes the task of a client back and drops the client when more than `timeout` seconds have gone by since
`last_active_time`. That variable is written once, before the loop. Here the server runs beside a record of what it does not keep: when
each client connected, and when the last message of each was received.
-/

namespace NetLabs.Tasks

open CText Function Machine

/-- A move and the time at which it is made. -/
structure Tick where
  now : Int
  move : Move

/-- What `time(NULL)` returns in a move that reads the clock. -/
def Move.clock : Move → Option Int
  | .accept now => some now
  | .top _ now => some now
  | _ => none

/-- The server, when each client connected, and when its last message was received: its connection, as long as there was none. -/
structure Watch where
  server : Server
  connected : Nat → Int
  heard : Nat → Int

/-- The beginning. -/
def Watch.begin (descriptions : List (List UInt8)) : Watch where
  server := .begin descriptions
  connected _ := 0
  heard _ := 0

/-- When each client connected, after a move. -/
def Watch.nextConnected (w : Watch) (e : Tick) : Nat → Int :=
  match e.move with
  | .accept _ => update w.connected w.server.clientId e.now
  | _ => w.connected

/-- When each client was last heard, after a move. -/
def Watch.nextHeard (w : Watch) (e : Tick) : Nat → Int :=
  match e.move with
  | .accept _ => update w.heard w.server.clientId e.now
  | .recv c (.message _ _) => update w.heard c e.now
  | _ => w.heard

/-- One move at its time. -/
def Watch.step (w : Watch) (e : Tick) : Option Watch :=
  if ∀ t ∈ e.move.clock, t = e.now then
    (w.server.step e.move).map fun s => { server := s, connected := w.nextConnected e, heard := w.nextHeard e }
  else none

/-- The move is the one in which the handler of client `c` takes the client's task back and drops the client. -/
def Watch.drops (w : Watch) (e : Tick) (c : Nat) : Prop :=
  e.move = .top c e.now ∧ ∃ h i w' t, w.server.handlers c = some h ∧ h.currentTask = some i ∧ w.step e = some w' ∧
    w'.server.handlers c = none ∧ w'.server.tasks[i]? = some t ∧ t.state = .notAssigned

/-- Client `c`, if it is connected, was heard in the last ten seconds. -/
def Watch.active (c : Nat) (w : Watch) (e : Tick) : Prop := (w.server.handlers c).isSome = true → e.now - w.heard c ≤ 10

/-- Inactivity is measured from the last message: a client is dropped only when more than ten seconds have gone by since its last message,
and one that is heard at least every ten seconds is never dropped. -/
structure MeasuredFromLastMessage (w : Watch) (es : List Tick) : Prop where
  late : Meets Watch.step (fun w e => ∀ c, w.drops e c → 10 < e.now - w.heard c) w es
  kept : ∀ c, Meets Watch.step (Watch.active c) w es → Meets Watch.step (fun w e => ¬w.drops e c) w es

/-- A handler that has a task and looks at the clock more than ten seconds after its client connected does so more than ten seconds after
the client's last message, too. -/
def Watch.silentWhenOld (w : Watch) (e : Tick) : Prop :=
  ∀ c h, e.move = .top c e.now → w.server.handlers c = some h → h.phase = .top → h.currentTask.isSome = true →
    10 < e.now - w.connected c → 10 < e.now - w.heard c

variable {w w' : Watch} {e : Tick} {es : List Tick} {c : Nat} {s s' : Server}

/-! ## The time that a handler keeps -/

/-- `last_active_time` of every handler is when its client connected. -/
structure Watch.Inv (w : Watch) : Prop where
  server : w.server.Inv
  connected : ∀ c h, w.server.handlers c = some h → h.lastActiveTime = w.connected c

/-- A move made at its time is a move of the server. -/
theorem watch_step_eq_some (h : w.step e = some w') :
    (∀ t ∈ e.move.clock, t = e.now) ∧
      ∃ s, w.server.step e.move = some s ∧ w' = { server := s, connected := w.nextConnected e, heard := w.nextHeard e } := by
  obtain ⟨hclock, hs⟩ := Option.ite_none_right_eq_some.1 h
  obtain ⟨s, hserver, rfl⟩ := Option.map_eq_some_iff.1 hs
  exact ⟨hclock, s, hserver, rfl⟩

/-- What a handler does to itself keeps `last_active_time`. -/
theorem lastActiveTime_of_update {h h' : Handler} {o : Option Handler} (hc : s.handlers c = some h)
    (hh : s'.handlers = update s.handlers c o) (ho : ∀ x ∈ o, x.lastActiveTime = h.lastActiveTime) {d : Nat}
    (hd : s'.handlers d = some h') : ∃ h0, s.handlers d = some h0 ∧ h'.lastActiveTime = h0.lastActiveTime := by
  rw [hh] at hd
  by_cases hdc : d = c
  · subst hdc
    rw [update_self] at hd
    exact ⟨h, hc, ho h' hd⟩
  · rw [update_of_ne hdc] at hd
    exact ⟨h', hd, rfl⟩

/-- The top of the loop writes the handler with its `last_active_time`. -/
theorem top_handlers (s : Server) (c : Nat) (h : Handler) (now : Int) :
    ∃ o, (s.top c h now).handlers = update s.handlers c o ∧ ∀ x ∈ o, x.lastActiveTime = h.lastActiveTime := by
  unfold Server.top
  split
  · exact ⟨none, rfl, by simp⟩
  · split
    · exact ⟨none, rfl, by simp⟩
    · exact ⟨_, rfl, by simp⟩

/-- And so does what comes of `recv`. -/
theorem recv_handlers {h : Handler} {r : Received} (hs : s.recv c h r = some s') :
    ∃ o, s'.handlers = update s.handlers c o ∧ ∀ x ∈ o, x.lastActiveTime = h.lastActiveTime := by
  cases r with
  | message m broken =>
    obtain ⟨-, ⟨⟩⟩ := Option.ite_none_right_eq_some.1 hs
    refine ⟨_, rfl, ?_⟩
    intro x hx
    unfold Handler.after at hx
    split at hx
    · cases hx
    · cases hx
      rfl
  | closed | failed =>
    cases hs
    exact ⟨none, rfl, by simp⟩
  | wouldBlock =>
    cases hs
    exact ⟨_, rfl, by simp⟩

/-- Every handler that runs after a move has the `last_active_time` it had before, or has just been started. -/
theorem step_lastActiveTime {m : Move} {h : Handler} (hs : s.step m = some s') (hc : s'.handlers c = some h) :
    (∃ h0, s.handlers c = some h0 ∧ h.lastActiveTime = h0.lastActiveTime ∧ ∀ now, m = .accept now → c ≠ s.clientId) ∨
      (m = .accept h.lastActiveTime ∧ c = s.clientId) := by
  cases step_stepped hs with
  | accept now hm =>
    dsimp only at hc
    by_cases hcc : c = s.clientId
    · subst hcc
      rw [update_self] at hc
      cases hc
      exact Or.inr ⟨rfl, rfl⟩
    · rw [update_of_ne hcc] at hc
      exact Or.inl ⟨h, hc, rfl, fun _ _ => hcc⟩
  | allCompleted | shutdown | selectFails => exact Or.inl ⟨h, hc, rfl, by simp⟩
  | top d now h0 hd hp =>
    obtain ⟨o, hh, ho⟩ := top_handlers s d h0 now
    obtain ⟨h1, hc1, hl⟩ := lastActiveTime_of_update hd hh ho hc
    exact Or.inl ⟨h1, hc1, hl, by simp⟩
  | recv d r h0 s' hd hp hr =>
    obtain ⟨o, hh, ho⟩ := recv_handlers hr
    obtain ⟨h1, hc1, hl⟩ := lastActiveTime_of_update hd hh ho hc
    exact Or.inl ⟨h1, hc1, hl, by simp⟩

/-- A move that does not start the handler of a client keeps when the client connected. -/
theorem nextConnected_of_ne (h : ∀ now, e.move = .accept now → c ≠ w.server.clientId) : w.nextConnected e c = w.connected c := by
  obtain ⟨now, m⟩ := e
  cases m with
  | accept t => exact update_of_ne (h t rfl) _ _
  | _ => rfl

/-- Every move keeps the invariant. -/
theorem watch_step_inv (hi : w.Inv) (h : w.step e = some w') : w'.Inv := by
  obtain ⟨hclock, s, hs, rfl⟩ := watch_step_eq_some h
  refine ⟨step_inv hi.server hs, ?_⟩
  intro c h hc
  rcases step_lastActiveTime hs hc with ⟨h0, hc0, hl, hne⟩ | ⟨hm, rfl⟩
  · rw [hl, hi.connected c h0 hc0]
    exact (nextConnected_of_ne hne).symm
  · rw [hclock h.lastActiveTime (by simp [hm, Move.clock])]
    simp only [Watch.nextConnected, hm, update_self]

theorem watch_begin_inv (descriptions : List (List UInt8)) : (Watch.begin descriptions).Inv :=
  ⟨begin_inv descriptions, fun _ _ h => by simp [Watch.begin, Server.begin] at h⟩

/-! ## When a client is dropped -/

/-- A task is taken back when its handler looks at the clock more than ten seconds after `last_active_time`. -/
theorem drops_iff (hi : w.Inv) : w.drops e c ↔ e.move = .top c e.now ∧
    ∃ h, w.server.handlers c = some h ∧ h.phase = .top ∧ h.currentTask.isSome = true ∧ 10 < e.now - w.connected c := by
  constructor
  · rintro ⟨hm, h, i, w', t, hc, hh, hs, hgone, ht, hfree⟩
    obtain ⟨-, s, hserver, rfl⟩ := watch_step_eq_some hs
    rw [hm] at hserver
    cases step_stepped hserver with
    | top _ _ h0 hc0 hp =>
      obtain rfl : h = h0 := Option.some.inj (hc.symm.trans hc0)
      refine ⟨hm, h, hc, hp, by rw [hh]; rfl, ?_⟩
      rw [← hi.connected c h hc]
      by_contra hearly
      obtain ⟨u, hu, hassigned, -⟩ : AssignedTo w.server.tasks i c := hi.server.owned c i (by rw [ledger_current hc, hh])
      dsimp only at hgone ht
      unfold Server.top at hgone ht
      rw [decide_eq_false hearly] at hgone ht
      -- the handler goes away at the shutdown, too, but then its task stays assigned
      by_cases hsd : w.server.serverShutdown = true
      · simp only [hsd, if_true] at ht
        obtain rfl : u = t := Option.some.inj (hu.symm.trans ht)
        rw [hfree] at hassigned
        cases hassigned
      · simp only [hsd, Bool.false_eq_true, if_false, update_self] at hgone
        cases hgone
  · rintro ⟨hm, h, hc, hp, hsome, hlate⟩
    obtain ⟨i, hh⟩ := Option.isSome_iff_exists.1 hsome
    obtain ⟨u, hu, -, -⟩ : AssignedTo w.server.tasks i c := hi.server.owned c i (by rw [ledger_current hc, hh])
    rw [← hi.connected c h hc] at hlate
    have htop : w.server.top c h e.now =
        { w.server with tasks := resetTask w.server.tasks i, handlers := update w.server.handlers c none } := by
      unfold Server.top
      rw [decide_eq_true hlate, hh]
    have hstep : w.server.step e.move = some (w.server.top c h e.now) := by
      simp only [hm, Server.step, hc, hp, if_true]
    have hwatch : w.step e = some ⟨w.server.top c h e.now, w.nextConnected e, w.nextHeard e⟩ := by
      rw [Watch.step, if_pos (by simp [hm, Move.clock]), hstep, Option.map_some]
    refine ⟨hm, h, i, _, u.cleared, hc, hh, hwatch, ?_, ?_, rfl⟩
    · simp only [htop, update_self]
    · simp [htop, resetTask, hu]

/-- A client is dropped only when more than ten seconds have gone by since its last message, exactly when the handlers are silent when
old. -/
theorem late_iff_silentWhenOld (hi : w.Inv) : (∀ c, w.drops e c → 10 < e.now - w.heard c) ↔ w.silentWhenOld e := by
  constructor
  · intro hlate c h hm hc hp hsome hold
    exact hlate c ((drops_iff hi).2 ⟨hm, h, hc, hp, hsome, hold⟩)
  · intro hsilent c hdrops
    obtain ⟨hm, h, hc, hp, hsome, hold⟩ := (drops_iff hi).1 hdrops
    exact hsilent c h hm hc hp hsome hold

/-- Where drops come late only, an active client is not dropped. -/
theorem kept_of_late (hlate : Meets Watch.step (fun w e => ∀ c, w.drops e c → 10 < e.now - w.heard c) w es)
    (hactive : Meets Watch.step (Watch.active c) w es) : Meets Watch.step (fun w e => ¬w.drops e c) w es := by
  induction es generalizing w with
  | nil => trivial
  | cons e es ih =>
    refine ⟨?_, fun t ht => ih (hlate.2 t ht) (hactive.2 t ht)⟩
    intro hdrops
    have h10 := hlate.1 c hdrops
    obtain ⟨-, h, -, -, -, hc, -⟩ := hdrops
    have := hactive.1 (by rw [hc]; rfl)
    omega

/-- When inactivity is measured from the last message. In every run of the server, over any tasks, clients, messages and times: clients are
dropped only when more than ten seconds have gone by since their last message, and clients heard every ten seconds never, if and only if
no handler with a task looks at the clock more than ten seconds after its client connected and at most ten seconds after its client's
last message. -/
theorem measuredFromLastMessage_iff (descriptions : List (List UInt8)) (es : List Tick) :
    MeasuredFromLastMessage (Watch.begin descriptions) es ↔ Meets Watch.step Watch.silentWhenOld (Watch.begin descriptions) es := by
  have hlate : Meets Watch.step (fun w e => ∀ c, w.drops e c → 10 < e.now - w.heard c) (Watch.begin descriptions) es ↔
      Meets Watch.step Watch.silentWhenOld (Watch.begin descriptions) es := meets_iff_meets_while (I := Watch.Inv) (q := fun _ _ => True)
    (fun _ _ _ hi _ _ hs => watch_step_inv hi hs) (fun _ _ hi _ => late_iff_silentWhenOld hi)
    (watch_begin_inv descriptions) (meets_of_forall (q := fun _ => True) fun _ _ => trivial)
  constructor
  · intro h
    exact hlate.1 h.late
  · intro h
    exact ⟨hlate.2 h, fun c => kept_of_late (hlate.2 h)⟩

/-- A client asks for a task as it connects and sends something again nine seconds later. -/
def talkative : List Tick :=
  [⟨0, .accept 0⟩, ⟨0, .top 0 0⟩, ⟨0, .recv 0 (.message (text "GET_TASK") false)⟩, ⟨9, .top 0 9⟩,
    ⟨9, .recv 0 (.message (text "working") false)⟩, ⟨11, .top 0 11⟩]

/-- Two seconds after its last message it is dropped. -/
theorem talkative_dropped : ¬MeasuredFromLastMessage (Watch.begin [text "5 + 3"]) talkative := by
  intro h
  have hrun : ∃ w, exec Watch.step (Watch.begin [text "5 + 3"]) (talkative.take 5) = some w ∧ w.heard 0 = 9 ∧
      w.connected 0 = 0 ∧ ∃ h, w.server.handlers 0 = some h ∧ h.phase = .top ∧ h.currentTask.isSome = true :=
    ⟨_, rfl, rfl, rfl, _, rfl, rfl, rfl⟩
  obtain ⟨w, hx, hheard, hconn, h0, hc, hp, hsome⟩ := hrun
  have hi : w.Inv := always_of_kept (fun _ _ _ => watch_step_inv) (watch_begin_inv _) _ (List.prefix_refl _) w hx
  have hlate : Meets Watch.step _ _ (talkative.take 5 ++ talkative.drop 5) := h.late
  have hlast := (hlate.after hx).1 0
    ((drops_iff hi).2 ⟨rfl, h0, hc, hp, hsome, by rw [hconn]; decide⟩)
  rw [hheard] at hlast
  exact absurd hlast (by decide)

end NetLabs.Tasks
