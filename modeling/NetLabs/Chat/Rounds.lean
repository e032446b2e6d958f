import NetLabs.Chat.Server
import NetLabs.Lib.Machine

/-!
# The rounds of the chat server

Clients connect, disconnect and send in any order. Next to the variables of `main` the state remembers which numbers of a connection
have been taken in the round, and, for every announcement and every refusal, what they were then. A client that is taken in where
an earlier one has left its flag set counts as having sent that one's number; as long as no client is, the results are right.
-/

namespace NetLabs.Chat

open Function Machine

/-- What happens to the server. -/
inductive Action where
  | connect (newSocket : Nat)
  | disconnect (i : Nat)
  | message (i : Nat) (message : List UInt8)

/-- A refusal with the numbers taken from the client before it, or an announced maximum with the numbers taken from each client. -/
inductive Event where
  | refused (before : List Int)
  | announced (maxNum : Int) (numbers : List (List Int))

/-- The server, the numbers taken in this round from the connection that has a descriptor, and what has been refused and announced. -/
structure Game where
  server : Server
  accepted : Nat → List Int
  log : List Event

/-- The beginning. -/
def Game.begin (serverfd : Nat) : Game := ⟨.begin serverfd, fun _ => [], []⟩

/-- What a message of the client with descriptor `fd` adds to the history; a new round starts with no numbers. -/
def Game.after (x : Game) (fd : Nat) : Outcome × Server → Game
  | (.dropped, s) => { x with server := s }
  | (.duplicate, s) => { x with server := s, log := x.log ++ [.refused (x.accepted fd)] }
  | (.stored number, s) => { x with server := s, accepted := update x.accepted fd (x.accepted fd ++ [number]) }
  | (.announced number maxNum, s) =>
    { server := s
      accepted := fun _ => []
      log := x.log ++ [.announced maxNum (s.roster.map fun c => update x.accepted fd (x.accepted fd ++ [number]) c.fd)] }

/-- One action; `accept` gives a descriptor that is not open, and `read` at most 1024 bytes. -/
def Game.step (x : Game) : Action → Option Game
  | .connect newSocket =>
    if x.server.Opens newSocket then
      some { x with server := x.server.accept newSocket, accepted := update x.accepted newSocket [] }
    else none
  | .disconnect i => if i < x.server.numclient then some { x with server := x.server.disconnect i } else none
  | .message i message =>
    if i < x.server.numclient ∧ 0 < message.length ∧ message.length ≤ 1024 then
      (x.server.message i message).map (x.after (x.server.clientsockfd i))
    else none

/-- A client is refused only after a number of its own, and an announced maximum is the maximum of one number of each client. -/
def Event.Right : Event → Prop
  | .refused before => before ≠ []
  | .announced maxNum numbers => ∃ ns : List Int, numbers = ns.map (fun n => [n]) ∧ maxNum ∈ ns ∧ ∀ n ∈ ns, n ≤ maxNum

/-- The flag of a client is set exactly when that client has had a number accepted in the round, which is then its entry; and what has
been announced and refused was right. -/
structure Game.Right (x : Game) : Prop where
  flags : ∀ c ∈ x.server.roster, x.accepted c.fd = if c.sent then [c.number] else []
  log : ∀ e ∈ x.log, e.Right

/-- A client is taken in only where no flag is left set. -/
def Game.joinsClear (x : Game) : Action → Prop
  | .connect _ => x.server.numclient < 5 → x.server.clientSent x.server.numclient = false
  | _ => True

instance (x : Game) (a : Action) : Decidable (x.joinsClear a) :=
  match a with
  | .connect _ => inferInstanceAs (Decidable (_ → _))
  | .disconnect _ | .message _ _ => isTrue trivial

/-- Descriptors are distinct, and the numbers taken are in the range of an `int`. -/
structure Game.Inv (x : Game) : Prop where
  nodup : (x.server.roster.map Client.fd).Nodup
  range : ∀ fd, ∀ n ∈ x.accepted fd, -2147483648 ≤ n

variable {x x' : Game} {a : Action} {s : Server} {i : Nat} {number : Int} {message : List UInt8}

/-! ## One action -/

/-- What `accept` does to the records. -/
theorem roster_accept (s : Server) (newSocket : Nat) : (s.accept newSocket).roster =
    if s.numclient < 5 then s.roster ++ [⟨newSocket, s.clientSent s.numclient, s.clientNumbers s.numclient⟩] else s.roster := by
  unfold Server.accept
  split
  · exact roster_join s newSocket
  · rfl

/-- A descriptor that is not open is no client's. -/
theorem Server.Opens.ne {newSocket : Nat} {c : Client} (h : s.Opens newSocket) (hc : c ∈ s.roster) : c.fd ≠ newSocket := by
  obtain ⟨j, hj, rfl⟩ := mem_roster.1 hc
  exact h.2 j hj

/-- A number is in the range of an `int`. -/
theorem number?_range (h : number? message = some number) : -2147483648 ≤ number := by
  unfold number? at h
  obtain ⟨_, h⟩ := Option.ite_none_right_eq_some.1 h
  unfold CText.atoi at h
  obtain ⟨hrange, h⟩ := Option.ite_none_right_eq_some.1 h
  cases h
  exact hrange.1

/-- What a message can come to. -/
inductive Answered (s : Server) (i : Nat) : Outcome × Server → Prop where
  | dropped (h : s.numclient < 2) : Answered s i (.dropped, s)
  | duplicate (h : 2 ≤ s.numclient) (hsent : s.clientSent i = true) :
      Answered s i (.duplicate, { s with sent := s.sent ++ [(s.clientsockfd i, .duplicate s.round)] })
  | stored (number : Int) (h : 2 ≤ s.numclient) (hsent : s.clientSent i = false) (hrange : -2147483648 ≤ number)
      (hall : (s.store i number).allSent = false) : Answered s i (.stored number, s.store i number)
  | announced (number : Int) (h : 2 ≤ s.numclient) (hsent : s.clientSent i = false) (hrange : -2147483648 ≤ number)
      (hall : (s.store i number).allSent = true) :
      Answered s i (.announced number (findMax (s.store i number).clientNumbers s.numclient).1, (s.store i number).announce)

theorem hear_answered (i : Nat) (hrange : -2147483648 ≤ number) : Answered s i (s.hear i number) := by
  unfold Server.hear
  split
  · rename_i hfew
    exact .dropped hfew
  · rename_i hmany
    split
    · rename_i hsent
      exact .duplicate (by omega) hsent
    · rename_i hsent
      have hclear : s.clientSent i = false := Bool.eq_false_iff.2 hsent
      split
      · rename_i hall
        exact .announced number (by omega) hclear hrange hall
      · rename_i hall
        exact .stored number (by omega) hclear hrange (Bool.eq_false_iff.2 hall)

/-- A message is heard with some number. -/
theorem message_heard {r : Outcome × Server} (h : s.message i message = some r) :
    ∃ number, -2147483648 ≤ number ∧ s.hear i number = r := by
  have hzero : (-2147483648 : Int) ≤ 0 := by decide
  unfold Server.message at h
  split at h
  · obtain ⟨_, h⟩ := Option.ite_none_right_eq_some.1 h
    exact ⟨0, hzero, Option.some.inj h⟩
  · split at h
    · exact ⟨0, hzero, Option.some.inj h⟩
    · obtain ⟨number, hnumber, hr⟩ := Option.map_eq_some_iff.1 h
      exact ⟨number, number?_range hnumber, hr⟩

theorem message_answered {r : Outcome × Server} (h : s.message i message = some r) : Answered s i r := by
  obtain ⟨number, hrange, rfl⟩ := message_heard h
  exact hear_answered i hrange

/-- An announcement does not move the clients. -/
theorem fds_announce (s : Server) : s.announce.roster.map Client.fd = s.roster.map Client.fd := by
  rw [roster_announce, List.map_map]
  rfl

theorem fds_store (s : Server) (i : Nat) (number : Int) : (s.store i number).roster.map Client.fd = s.roster.map Client.fd := by
  simp [Server.roster, Server.client, Server.store, Function.comp_def]

/-- A message does not move the clients. -/
theorem Answered.fds {r : Outcome × Server} (h : Answered s i r) : r.2.roster.map Client.fd = s.roster.map Client.fd := by
  cases h with
  | dropped | duplicate => rfl
  | stored number => exact fds_store s i number
  | announced number => exact (fds_announce _).trans (fds_store s i number)

/-- Numbers in range stay in range when those of one descriptor are written. -/
theorem range_update {accepted : Nat → List Int} {ns : List Int} (h : ∀ fd, ∀ n ∈ accepted fd, -2147483648 ≤ n)
    (hns : ∀ n ∈ ns, -2147483648 ≤ n) (fd₀ : Nat) : ∀ fd, ∀ n ∈ update accepted fd₀ ns fd, -2147483648 ≤ n := by
  intro fd n hn
  by_cases hfd : fd = fd₀
  · subst hfd
    rw [update_self] at hn
    exact hns n hn
  · rw [update_of_ne hfd] at hn
    exact h fd n hn

theorem Game.Inv.range_add (hi : x.Inv) (hrange : -2147483648 ≤ number) (fd₀ : Nat) :
    ∀ fd, ∀ n ∈ update x.accepted fd₀ (x.accepted fd₀ ++ [number]) fd, -2147483648 ≤ n := by
  refine range_update hi.range (fun n hn => ?_) fd₀
  rcases List.mem_append.1 hn with hn | hn
  · exact hi.range fd₀ n hn
  · rw [List.mem_singleton.1 hn]
    exact hrange

/-- Every action keeps descriptors distinct and numbers in range. -/
theorem game_step_inv (hi : x.Inv) (h : x.step a = some x') : x'.Inv := by
  cases a with
  | connect newSocket =>
    obtain ⟨hopens, ⟨⟩⟩ := Option.ite_none_right_eq_some.1 h
    refine ⟨?_, range_update hi.range (fun n hn => by cases hn) newSocket⟩
    change ((x.server.accept newSocket).roster.map Client.fd).Nodup
    rw [roster_accept]
    split
    · rw [List.map_append, List.map_singleton, List.nodup_append]
      refine ⟨hi.nodup, List.nodup_singleton _, ?_⟩
      intro fd hfd fd' hfd'
      obtain ⟨c, hc, rfl⟩ := List.mem_map.1 hfd
      rw [List.mem_singleton.1 hfd']
      exact hopens.ne hc
    · exact hi.nodup
  | disconnect i =>
    obtain ⟨hlt, ⟨⟩⟩ := Option.ite_none_right_eq_some.1 h
    refine ⟨?_, hi.range⟩
    change ((x.server.disconnect i).roster.map Client.fd).Nodup
    rw [roster_disconnect hlt]
    exact hi.nodup.sublist ((List.eraseIdx_sublist _ _).map _)
  | message i message =>
    obtain ⟨_, h⟩ := Option.ite_none_right_eq_some.1 h
    obtain ⟨r, hr, rfl⟩ := Option.map_eq_some_iff.1 h
    have hans := message_answered hr
    have hfds := hans.fds
    have hnodup : (r.2.roster.map Client.fd).Nodup := by
      rw [hfds]
      exact hi.nodup
    cases hans with
    | dropped | duplicate => exact ⟨hnodup, hi.range⟩
    | stored number _ _ hrange => exact ⟨hnodup, hi.range_add hrange _⟩
    | announced number => exact ⟨hnodup, fun fd n hn => by cases hn⟩

/-- A number that is stored goes with the record of its client. -/
theorem flags_store (hi : x.Inv) (hp : x.Right) (hlt : i < x.server.numclient) (hsent : x.server.clientSent i = false) (number : Int) :
    ∀ c ∈ (x.server.store i number).roster, update x.accepted (x.server.clientsockfd i)
      (x.accepted (x.server.clientsockfd i) ++ [number]) c.fd = if c.sent then [c.number] else [] := by
  intro c hc
  obtain ⟨j, hj, rfl⟩ := mem_roster.1 hc
  have hj : j < x.server.numclient := hj
  have hmem : ∀ k < x.server.numclient, x.server.client k ∈ x.server.roster := fun k hk => mem_roster.2 ⟨k, hk, rfl⟩
  by_cases hij : j = i
  · subst hij
    have hbefore := hp.flags _ (hmem j hj)
    simp only [Server.client, hsent, Bool.false_eq_true, if_false] at hbefore
    simp [Server.client, Server.store, hbefore]
  · have hne : x.server.clientsockfd j ≠ x.server.clientsockfd i := fun heq => hij (clientsockfd_inj hi.nodup hj hlt heq)
    have hbefore := hp.flags _ (hmem j hj)
    simp only [Server.client, Server.store, update_of_ne hij] at hbefore ⊢
    rw [update_of_ne hne]
    exact hbefore

/-- What is announced is the maximum of the numbers stored, one of each client. -/
theorem announced_right {accepted : Nat → List Int} (hn : 0 < s.numclient) (hall : s.allSent = true)
    (hflags : ∀ c ∈ s.roster, accepted c.fd = if c.sent then [c.number] else [])
    (hrange : ∀ fd, ∀ n ∈ accepted fd, -2147483648 ≤ n) :
    (Event.announced (findMax s.clientNumbers s.numclient).1 (s.announce.roster.map fun c => accepted c.fd)).Right := by
  have hone : ∀ c ∈ s.roster, accepted c.fd = [c.number] := by
    intro c hc
    rw [hflags c hc, if_pos (allSent_iff.1 hall c hc)]
  have hnumbers : ∀ j < s.numclient, -2147483648 ≤ s.clientNumbers j := by
    intro j hj
    have hc := hone (s.client j) (mem_roster.2 ⟨j, hj, rfl⟩)
    exact hrange _ _ (by rw [hc]; exact List.mem_singleton_self _)
  obtain ⟨hle, k, hk, hmax⟩ := findMax_maximum hn hnumbers
  refine ⟨s.roster.map Client.number, ?_, ?_, ?_⟩
  · rw [roster_announce, List.map_map, List.map_map]
    exact List.map_congr_left hone
  · exact List.mem_map.2 ⟨s.client k, mem_roster.2 ⟨k, hk, rfl⟩, hmax⟩
  · intro n hn
    obtain ⟨c, hc, rfl⟩ := List.mem_map.1 hn
    obtain ⟨j, hj, rfl⟩ := mem_roster.1 hc
    exact hle j hj

/-- Taking a client in where the flag is clear. -/
theorem flags_accept {newSocket : Nat} (hp : x.Right) (hopens : x.server.Opens newSocket) (hg : x.joinsClear (.connect newSocket)) :
    ∀ c ∈ (x.server.accept newSocket).roster, update x.accepted newSocket [] c.fd = if c.sent then [c.number] else [] := by
  intro c hc
  have hold : ∀ c ∈ x.server.roster, update x.accepted newSocket [] c.fd = if c.sent then [c.number] else [] := by
    intro c hc
    rw [update_of_ne (hopens.ne hc)]
    exact hp.flags c hc
  rw [roster_accept] at hc
  split at hc
  · rename_i hlt
    rw [List.mem_append, List.mem_singleton] at hc
    rcases hc with hc | rfl
    · exact hold c hc
    · change update x.accepted newSocket [] newSocket = _
      rw [update_self, hg hlt]
      rfl
  · exact hold c hc

/-- A client that is refused as a duplicate has sent a number before. -/
theorem refused_right (hp : x.Right) (hlt : i < x.server.numclient) (hsent : x.server.clientSent i = true) :
    (Event.refused (x.accepted (x.server.clientsockfd i))).Right := by
  have hown := hp.flags (x.server.client i) (mem_roster.2 ⟨i, hlt, rfl⟩)
  have hset : (x.server.client i).sent = true := hsent
  rw [if_pos hset] at hown
  exact ne_of_eq_of_ne hown (List.cons_ne_nil _ _)

/-- No flag is set after an announcement. -/
theorem flags_announce {c : Client} (hc : c ∈ s.announce.roster) : [] = if c.sent then [c.number] else [] := by
  rw [roster_announce] at hc
  obtain ⟨_, _, rfl⟩ := List.mem_map.1 hc
  rfl

/-- An action that takes a client in only where the flag is clear keeps everything right. -/
theorem game_right_keep (hi : x.Inv) (hp : x.Right) (hg : x.joinsClear a) (h : x.step a = some x') : x'.Right := by
  have hlog : ∀ e : Event, e.Right → ∀ e' ∈ x.log ++ [e], e'.Right := by
    intro e he e' he'
    rcases List.mem_append.1 he' with he' | he'
    · exact hp.log e' he'
    · rw [List.mem_singleton.1 he']
      exact he
  cases a with
  | connect newSocket =>
    obtain ⟨hopens, ⟨⟩⟩ := Option.ite_none_right_eq_some.1 h
    exact ⟨flags_accept hp hopens hg, hp.log⟩
  | disconnect i =>
    obtain ⟨hlt, ⟨⟩⟩ := Option.ite_none_right_eq_some.1 h
    refine ⟨fun c hc => ?_, hp.log⟩
    change c ∈ (x.server.disconnect i).roster at hc
    rw [roster_disconnect hlt] at hc
    exact hp.flags c (List.mem_of_mem_eraseIdx hc)
  | message i message =>
    obtain ⟨⟨hlt, _⟩, h⟩ := Option.ite_none_right_eq_some.1 h
    obtain ⟨r, hr, rfl⟩ := Option.map_eq_some_iff.1 h
    cases message_answered hr with
    | dropped => exact ⟨hp.flags, hp.log⟩
    | duplicate _ hsent => exact ⟨hp.flags, hlog _ (refused_right hp hlt hsent)⟩
    | stored number _ hsent => exact ⟨flags_store hi hp hlt hsent number, hp.log⟩
    | announced number hmany hsent hrange hall =>
      have hpos : 0 < (x.server.store i number).numclient := Nat.zero_lt_of_lt hlt
      exact ⟨fun c hc => flags_announce hc,
        hlog _ (announced_right hpos hall (flags_store hi hp hlt hsent number) (hi.range_add hrange _))⟩

/-- A client taken in where a flag is set has sent nothing yet. -/
theorem game_right_break (hg : ¬x.joinsClear a) (h : x.step a = some x') : ¬x'.Right := by
  intro hp
  cases a with
  | connect newSocket =>
    obtain ⟨_, ⟨⟩⟩ := Option.ite_none_right_eq_some.1 h
    simp only [Game.joinsClear, Classical.not_imp, Bool.not_eq_false] at hg
    obtain ⟨hlt, hset⟩ := hg
    have hnew : (⟨newSocket, x.server.clientSent x.server.numclient, x.server.clientNumbers x.server.numclient⟩ : Client) ∈
        (x.server.accept newSocket).roster := by
      rw [roster_accept, if_pos hlt]
      exact List.mem_append_right _ (List.mem_singleton_self _)
    have hflag := hp.flags _ hnew
    simp [hset] at hflag
  | disconnect i => exact hg trivial
  | message i message => exact hg trivial

/-! ## Every run -/

theorem game_begin_right (serverfd : Nat) : (Game.begin serverfd).Inv ∧ (Game.begin serverfd).Right := by
  refine ⟨⟨List.nodup_nil, ?_⟩, ⟨?_, ?_⟩⟩
  · intro fd n hn
    cases hn
  · intro c hc
    cases hc
  · intro e he
    cases he

/-- The results of the rounds. Along every run of connects, disconnects and messages, the flag of each client says whether that very
client has had a number accepted in the round and its entry which, every announced maximum is the maximum of one number of each
client, and no client is refused before a number of its own, exactly when no client is taken in where a flag is left set. -/
theorem results_right_iff (serverfd : Nat) (actions : List Action) (hx : exec Game.step (.begin serverfd) actions = some x') :
    Always Game.step Game.Right (.begin serverfd) actions ↔ Meets Game.step Game.joinsClear (.begin serverfd) actions :=
  always_iff_meets (I := Game.Inv) (fun _ _ _ => game_step_inv) (fun _ _ _ => game_right_keep)
    (fun _ _ _ _ _ => game_right_break) (game_begin_right serverfd).1 (game_begin_right serverfd).2 hx

/-- Two clients play a round. -/
def roundRun : List Action :=
  [.connect 4, .connect 5, .message 0 (CText.text "7"), .message 1 (CText.text "12")]

/-- `results_right_iff` on it. -/
theorem results_right_two : ∃ x', exec Game.step (.begin 3) roundRun = some x' ∧
    (Always Game.step Game.Right (.begin 3) roundRun ↔ Meets Game.step Game.joinsClear (.begin 3) roundRun) := by
  have hrun : (exec Game.step (.begin 3) roundRun).isSome = true := by decide +kernel
  obtain ⟨x', hx⟩ := Option.isSome_iff_exists.1 hrun
  exact ⟨x', hx, results_right_iff 3 roundRun hx⟩

/-- The second of two clients sends 12 and leaves, a third one comes in its place, and the first sends 7: the third, which has sent
nothing, counts as having sent 12, and 12 is announced. -/
def staleRun : List Action :=
  [.connect 4, .connect 5, .message 1 (CText.text "12"), .disconnect 1, .connect 5, .message 0 (CText.text "7")]

theorem flag_left_set : ¬Always Game.step Game.Right (.begin 3) staleRun := by
  intro hall
  have hrun : (exec Game.step (.begin 3) staleRun).any (fun x => x.server.sent.contains (5, .result 1 12 5) &&
      x.log.any fun e => match e with
        | .announced maxNum numbers => maxNum == 12 && numbers == [[7], []]
        | .refused _ => false) = true := by decide +kernel
  obtain ⟨x, hx, heq⟩ := (Option.any_eq_true _ _).1 hrun
  obtain ⟨e, he, hnumbers⟩ := List.any_eq_true.1 (Bool.and_eq_true_iff.1 heq).2
  have hright := (hall _ (List.prefix_refl _) x hx).log e he
  cases e with
  | refused before => cases hnumbers
  | announced maxNum numbers =>
    simp only [Bool.and_eq_true, beq_iff_eq] at hnumbers
    obtain ⟨ns, hns, _⟩ := hright
    rw [hnumbers.2] at hns
    cases ns with
    | nil => cases hns
    | cons n ns =>
      cases ns with
      | nil => cases hns
      | cons n' ns => cases hns

end NetLabs.Chat
