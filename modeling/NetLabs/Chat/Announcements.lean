import NetLabs.Chat.Reach

/-!
# What the clients are told

Descriptors are used again, so what a client has been told is counted from its connection on: next to the game the state remembers,
for a descriptor, the round and the length of `sent` when the present client was taken in, and the results so far. Every client hears
the results of all rounds from the one that it was taken in to, in order and each once, and the same as everyone; and among two or
more clients everyone has been asked for a number of the open round. -/

namespace NetLabs.Chat

open Function Machine

/-- A result. -/
def Reply.isResult : Reply → Bool
  | .sendNumber _ | .duplicate _ => false
  | .result _ _ _ => true

/-- The round for which a message asks for a number. -/
def Reply.asksFor : Reply → Option Nat
  | .sendNumber round => some round
  | .result round _ _ => some (round + 1)
  | .duplicate _ => none

/-- The game, for each descriptor the round and the length of `sent` when its client was taken in, and the results. -/
structure Audience where
  game : Game
  joined : Nat → Nat
  since : Nat → Nat
  results : List Reply

/-- The beginning. -/
def Audience.begin (serverfd : Nat) : Audience := ⟨.begin serverfd, fun _ => 0, fun _ => 0, []⟩

/-- The result among what has been sent since: what the first client is told. -/
def newResult (s s' : Server) : List Reply := (((s'.sent.drop s.sent.length).map Prod.snd).filter Reply.isResult).take 1

/-- An action of the game, and its mark in the history. -/
def Audience.after (x : Audience) (a : Action) (game : Game) : Audience :=
  match a with
  | .connect newSocket =>
    if x.game.server.numclient < 5 then
      { game := game
        joined := update x.joined newSocket x.game.server.round
        since := update x.since newSocket x.game.server.sent.length
        results := x.results ++ newResult x.game.server game.server }
    else { x with game := game, results := x.results ++ newResult x.game.server game.server }
  | _ => { x with game := game, results := x.results ++ newResult x.game.server game.server }

/-- One action. -/
def Audience.step (x : Audience) (a : Action) : Option Audience := (x.game.step a).map (x.after a)

/-- What of `sent` is for `fd`. -/
def toldIn (sent : List (Nat × Reply)) (fd : Nat) : List Reply := (sent.filter fun m => m.1 = fd).map Prod.snd

/-- What the client with descriptor `fd` has been told. -/
def Audience.told (x : Audience) (fd : Nat) : List Reply := toldIn (x.game.server.sent.drop (x.since fd)) fd

/-- The results are those of the rounds before the open one, each client has heard all of those since it was taken in and no other,
and among two or more clients each was last asked for a number of the open round. -/
structure Audience.Informed (x : Audience) : Prop where
  rounds : x.results.length + 1 = x.game.server.round
  numbered : ∀ k < x.results.length, ∃ maxNum winner, x.results[k]? = some (.result (k + 1) maxNum winner)
  heard : ∀ fd ∈ x.game.server.fds, (x.told fd).filter Reply.isResult = x.results.drop (x.joined fd - 1)
  asked : 2 ≤ x.game.server.numclient → ∀ fd ∈ x.game.server.fds,
    ((x.told fd).filterMap Reply.asksFor).getLast? = some x.game.server.round

/-- What the induction needs besides: where in `sent` and in which round a client was taken in. -/
structure Audience.Inv (x : Audience) : Prop where
  game : x.game.Inv
  since : ∀ fd ∈ x.game.server.fds, x.since fd ≤ x.game.server.sent.length
  joined : ∀ fd ∈ x.game.server.fds, 1 ≤ x.joined fd ∧ x.joined fd ≤ x.game.server.round
  informed : x.Informed

variable {x x' : Audience} {g g' : Game} {a : Action} {s s' : Server} {i fd : Nat} {number : Int}
variable {sent sent' : List (Nat × Reply)} {r : Reply}
  {l : List Nat}

/-! ## What is sent -/

theorem toldIn_append : toldIn (sent ++ sent') fd = toldIn sent fd ++ toldIn sent' fd := by
  rw [toldIn, List.filter_append, List.map_append]
  rfl

/-- Whoever a message is not for is told nothing. -/
theorem toldIn_of_ne (h : ∀ m ∈ sent, m.1 ≠ fd) : toldIn sent fd = [] := by
  rw [toldIn, List.filter_eq_nil_iff.2 (by simpa using h)]
  rfl

/-- A message to everyone is told once to each. -/
theorem toldIn_each (hn : l.Nodup) (hfd : fd ∈ l) (r : Reply) : toldIn (l.map fun y => (y, r)) fd = [r] := by
  induction l with
  | nil => cases hfd
  | cons y l ih =>
    obtain ⟨hy, hn⟩ := List.nodup_cons.1 hn
    rw [List.map_cons, ← List.singleton_append, toldIn_append]
    by_cases hyfd : y = fd
    · subst hyfd
      have hrest : toldIn (l.map fun z => (z, r)) y = [] := by
        refine toldIn_of_ne fun m hm => ?_
        obtain ⟨z, hz, rfl⟩ := List.mem_map.1 hm
        rintro rfl
        exact hy hz
      rw [hrest]
      simp [toldIn]
    · have hfirst : toldIn [(y, r)] fd = [] := toldIn_of_ne (by simpa using hyfd)
      rw [hfirst, List.nil_append]
      exact ih hn ((List.mem_cons.1 hfd).resolve_left fun e => hyfd e.symm)

/-- What an action does to the clients and the round, and what it sends. -/
inductive Said (s : Server) : Action → Server → List (Nat × Reply) → Prop where
  | joined (newSocket : Nat) (s' : Server) (new : List (Nat × Reply)) (hlt : s.numclient < 5) (hopens : newSocket ∉ s.fds)
      (hfds : s'.fds = s.fds ++ [newSocket]) (hround : s'.round = s.round)
      (hnew : new = if 2 ≤ s'.numclient then
        if s'.numclient = 2 then s'.fds.map fun y => (y, .sendNumber s.round) else [(newSocket, .sendNumber s.round)]
        else []) : Said s (.connect newSocket) s' new
  | quiet (a : Action) (s' : Server) (hnew : ∀ newSocket, a = .connect newSocket → ¬s.numclient < 5)
      (hfds : ∀ fd ∈ s'.fds, fd ∈ s.fds) (hnum : s'.numclient ≤ s.numclient) (hround : s'.round = s.round) : Said s a s' []
  | refused (i : Nat) (message : List UInt8) (s' : Server) (hfds : s'.fds = s.fds) (hround : s'.round = s.round) :
      Said s (.message i message) s' [(s.clientsockfd i, .duplicate s.round)]
  | announced (i : Nat) (message : List UInt8) (s' : Server) (maxNum : Int) (winner : Nat) (hmany : 2 ≤ s.numclient)
      (hfds : s'.fds = s.fds) (hround : s'.round = s.round + 1) :
      Said s (.message i message) s' (s.fds.map fun y => (y, .result s.round maxNum winner))

/-- The descriptors, by index. -/
theorem fds_eq (s : Server) : s.fds = (List.range s.numclient).map s.clientsockfd := by
  rw [Server.fds, Server.roster, List.map_map]
  rfl

theorem step_said (h : g.step a = some g') : ∃ new, g'.server.sent = g.server.sent ++ new ∧ Said g.server a g'.server new := by
  cases a with
  | connect newSocket =>
    obtain ⟨hopens, ⟨⟩⟩ := Option.ite_none_right_eq_some.1 h
    change ∃ new, (g.server.accept newSocket).sent = g.server.sent ++ new ∧
      Said g.server (.connect newSocket) (g.server.accept newSocket) new
    unfold Server.accept
    split
    · rename_i hlt
      refine ⟨_, rfl, ?_⟩
      have hfds : (g.server.join newSocket).fds = g.server.fds ++ [newSocket] := by
        rw [Server.fds, roster_join, List.map_append]
        rfl
      have hnum : (g.server.join newSocket).numclient = g.server.numclient + 1 := rfl
      refine .joined newSocket _ _ hlt ?_ hfds rfl ?_
      · intro hmem
        rw [fds_eq, List.mem_map] at hmem
        obtain ⟨j, hj, heq⟩ := hmem
        exact hopens.2 j (List.mem_range.1 hj) heq
      · have hlast : (g.server.join newSocket).clientsockfd ((g.server.join newSocket).numclient - 1) = newSocket := by
          rw [hnum, Nat.add_sub_cancel]
          exact update_self ..
        have hround : (g.server.join newSocket).round = g.server.round := rfl
        have hfds' : (g.server.join newSocket).fds =
            (List.range (g.server.join newSocket).numclient).map (g.server.join newSocket).clientsockfd :=
          fds_eq _
        change (g.server.join newSocket).requests = if 2 ≤ (g.server.join newSocket).numclient then
            if (g.server.join newSocket).numclient = 2 then (g.server.join newSocket).fds.map fun y => (y, .sendNumber g.server.round)
            else [(newSocket, .sendNumber g.server.round)]
          else []
        rw [Server.requests, hlast, hround, hfds', List.map_map]
        rfl
    · rename_i hge
      exact ⟨[], by rw [List.append_nil], .quiet _ _ (fun _ _ => hge) (fun _ hfd => hfd) (Nat.le_refl _) rfl⟩
  | disconnect i =>
    obtain ⟨hlt, ⟨⟩⟩ := Option.ite_none_right_eq_some.1 h
    refine ⟨[], by rw [List.append_nil]; rfl, .quiet _ _ (by simp) ?_ (Nat.sub_le _ _) rfl⟩
    intro fd hfd
    change fd ∈ (g.server.disconnect i).fds at hfd
    rw [Server.fds, roster_disconnect hlt] at hfd
    exact ((List.eraseIdx_sublist _ _).map Client.fd).subset hfd
  | message i message =>
    obtain ⟨-, h⟩ := Option.ite_none_right_eq_some.1 h
    obtain ⟨o, ho, rfl⟩ := Option.map_eq_some_iff.1 h
    have hans := message_answered ho
    have hfds : o.2.fds = g.server.fds := hans.fds
    rw [after_server]
    cases hans with
    | dropped => exact ⟨[], by rw [List.append_nil], .quiet _ _ (by simp) (fun _ hfd => hfd) (Nat.le_refl _) rfl⟩
    | duplicate => exact ⟨_, rfl, .refused i message _ hfds rfl⟩
    | stored => exact ⟨[], by rw [List.append_nil]; rfl, .quiet _ _ (by simp) (fun fd hfd => hfds ▸ hfd) (Nat.le_refl _) rfl⟩
    | announced number hmany =>
      obtain ⟨m, hm⟩ : ∃ m, findMax (g.server.store i number).clientNumbers g.server.numclient = m := ⟨_, rfl⟩
      refine ⟨g.server.fds.map fun y => (y, .result g.server.round m.1 ((g.server.store i number).clientsockfd m.2)), ?_,
        .announced i message _ _ _ hmany hfds rfl⟩
      rw [fds_eq, List.map_map, ← hm]
      rfl

/-! ## One action -/

theorem newResult_eq {new : List (Nat × Reply)} (hs : s'.sent = s.sent ++ new) :
    newResult s s' = ((new.map Prod.snd).filter Reply.isResult).take 1 := by
  rw [newResult, hs, List.drop_left]

/-- A client that was there before is told what is new for it. -/
theorem told_append {new : List (Nat × Reply)} (hs : x'.game.server.sent = x.game.server.sent ++ new) (hsince : x'.since fd = x.since fd)
    (hle : x.since fd ≤ x.game.server.sent.length) : x'.told fd = x.told fd ++ toldIn new fd := by
  rw [Audience.told, hsince, hs, List.drop_append_of_le_length hle, toldIn_append]
  rfl

/-- A new client is told what is sent to it from now on. -/
theorem told_new {new : List (Nat × Reply)} (hs : x'.game.server.sent = x.game.server.sent ++ new)
    (hsince : x'.since fd = x.game.server.sent.length) : x'.told fd = toldIn new fd := by
  rw [Audience.told, hsince, hs, List.drop_left]

/-- What is new for a client when one is taken in: a request or nothing, and a request if it is the new one or one of the first two. -/
theorem toldIn_requests {newSocket : Nat} {new : List (Nat × Reply)} {round : Nat} (hn : s'.fds.Nodup)
    (hnew : new = if 2 ≤ s'.numclient then
      if s'.numclient = 2 then s'.fds.map fun y => (y, .sendNumber round) else [(newSocket, .sendNumber round)]
      else []) (hfd : fd ∈ s'.fds) :
    toldIn new fd = if s'.numclient = 2 ∨ 2 < s'.numclient ∧ fd = newSocket then [.sendNumber round] else [] := by
  by_cases htwo : s'.numclient = 2
  · rw [hnew, if_pos (by omega), if_pos htwo, if_pos (Or.inl htwo)]
    exact toldIn_each hn hfd _
  · by_cases hmany : 2 ≤ s'.numclient
    · rw [hnew, if_pos hmany, if_neg htwo]
      by_cases hself : fd = newSocket
      · rw [if_pos (Or.inr ⟨by omega, hself⟩)]
        simp [toldIn, hself]
      · rw [if_neg (by omega)]
        exact toldIn_of_ne (by simpa using Ne.symm hself)
    · rw [hnew, if_neg hmany, if_neg (by omega)]
      rfl

/-- No request is a result. -/
theorem filter_requests {newSocket : Nat} {new : List (Nat × Reply)} {round : Nat}
    (hnew : new = if 2 ≤ s'.numclient then
      if s'.numclient = 2 then s'.fds.map fun y => (y, .sendNumber round) else [(newSocket, .sendNumber round)]
      else []) : (new.map Prod.snd).filter Reply.isResult = [] := by
  rw [List.filter_eq_nil_iff]
  intro r hr
  have hrequest : r = .sendNumber round := by
    rw [hnew] at hr
    split at hr
    · split at hr
      · simp only [List.map_map, List.mem_map, Function.comp_apply] at hr
        obtain ⟨-, -, rfl⟩ := hr
        rfl
      · simpa using hr
    · cases hr
  rw [hrequest]
  simp [Reply.isResult]

/-- A client is taken in. -/
theorem inv_joined {newSocket : Nat} {new : List (Nat × Reply)} (hi : x.Inv) (hg : g.Inv) (hlt : x.game.server.numclient < 5)
    (hopens : newSocket ∉ x.game.server.fds) (hfds : g.server.fds = x.game.server.fds ++ [newSocket])
    (hround : g.server.round = x.game.server.round) (hs : g.server.sent = x.game.server.sent ++ new)
    (hnew : new = if 2 ≤ g.server.numclient then
      if g.server.numclient = 2 then g.server.fds.map fun y => (y, .sendNumber x.game.server.round)
      else [(newSocket, .sendNumber x.game.server.round)]
      else []) : (x.after (.connect newSocket) g).Inv := by
  obtain ⟨hrounds, hnumbered, hheard, hasked⟩ := hi.informed
  have hnoResult : newResult x.game.server g.server = [] := by
    rw [newResult_eq hs, filter_requests hnew]
    rfl
  have hafter : x.after (.connect newSocket) g = ⟨g, update x.joined newSocket x.game.server.round,
      update x.since newSocket x.game.server.sent.length, x.results⟩ := by
    rw [Audience.after, if_pos hlt, hnoResult, List.append_nil]
  have hnum : g.server.numclient = x.game.server.numclient + 1 := by
    rw [← length_fds, hfds, List.length_append, length_fds]
    rfl
  rw [hafter]
  -- whoever was there before, and the new client
  have hcases : ∀ fd ∈ g.server.fds, (fd ≠ newSocket ∧ fd ∈ x.game.server.fds) ∨ fd = newSocket := by
    intro fd hfd
    rw [hfds, List.mem_append, List.mem_singleton] at hfd
    rcases hfd with hold | rfl
    · exact Or.inl ⟨fun e => hopens (e ▸ hold), hold⟩
    · exact Or.inr rfl
  have htold : ∀ fd ∈ g.server.fds, ∀ y : Audience, y = ⟨g, update x.joined newSocket x.game.server.round,
      update x.since newSocket x.game.server.sent.length, x.results⟩ →
      y.told fd = (if fd = newSocket then [] else x.told fd) ++
        if g.server.numclient = 2 ∨ 2 < g.server.numclient ∧ fd = newSocket then [.sendNumber x.game.server.round] else [] := by
    rintro fd hfd y rfl
    rw [← toldIn_requests hg.nodup hnew hfd]
    rcases hcases fd hfd with ⟨hne, hold⟩ | rfl
    · rw [if_neg hne]
      exact told_append hs (update_of_ne hne _ _) (hi.since fd hold)
    · rw [if_pos rfl, List.nil_append]
      exact told_new hs (update_self ..)
  refine ⟨hg, ?_, ?_, ⟨hrounds.trans hround.symm, hnumbered, ?_, ?_⟩⟩
  · intro fd hfd
    dsimp only
    rw [hs, List.length_append]
    rcases hcases fd hfd with ⟨hne, hold⟩ | rfl
    · rw [update_of_ne hne]
      exact (hi.since fd hold).trans (Nat.le_add_right _ _)
    · rw [update_self]
      exact Nat.le_add_right _ _
  · intro fd hfd
    dsimp only
    rw [hround]
    rcases hcases fd hfd with ⟨hne, hold⟩ | rfl
    · rw [update_of_ne hne]
      exact hi.joined fd hold
    · rw [update_self]
      omega
  · intro fd hfd
    rw [htold fd hfd _ rfl, List.filter_append]
    have hrequest : (if g.server.numclient = 2 ∨ 2 < g.server.numclient ∧ fd = newSocket then [Reply.sendNumber x.game.server.round]
        else []).filter Reply.isResult = [] := by
      split <;> rfl
    rw [hrequest, List.append_nil]
    dsimp only
    rcases hcases fd hfd with ⟨hne, hold⟩ | rfl
    · rw [if_neg hne, update_of_ne hne]
      exact hheard fd hold
    · rw [if_pos rfl, update_self, List.drop_eq_nil_of_le (by omega)]
      rfl
  · intro hmany fd hfd
    have hmany : 2 ≤ g.server.numclient := hmany
    rw [htold fd hfd _ rfl, List.filterMap_append]
    dsimp only
    rw [hround]
    by_cases hask : g.server.numclient = 2 ∨ 2 < g.server.numclient ∧ fd = newSocket
    · rw [if_pos hask]
      simp [Reply.asksFor]
    · have hne : fd ≠ newSocket := fun e => hask (by omega)
      have hold : fd ∈ x.game.server.fds := ((hcases fd hfd).resolve_right hne).2
      rw [if_neg hask, if_neg hne, List.filterMap_nil, List.append_nil]
      exact hasked (by omega) fd hold

/-- Where nobody is taken in, only the results can grow. -/
theorem after_eq (h : ∀ newSocket, a = .connect newSocket → ¬x.game.server.numclient < 5) :
    x.after a g = { x with game := g, results := x.results ++ newResult x.game.server g.server } := by
  cases a with
  | connect newSocket => exact if_neg (h newSocket rfl)
  | disconnect | message => rfl

/-- Nobody is taken in, and no result is sent. -/
theorem inv_same {new : List (Nat × Reply)} (hi : x.Inv) (hg : g.Inv)
    (ha : ∀ newSocket, a = .connect newSocket → ¬x.game.server.numclient < 5)
    (hfds : ∀ fd ∈ g.server.fds, fd ∈ x.game.server.fds) (hnum : g.server.numclient ≤ x.game.server.numclient)
    (hround : g.server.round = x.game.server.round) (hs : g.server.sent = x.game.server.sent ++ new)
    (hnew : ∀ m ∈ new, m.2 = .duplicate x.game.server.round) : (x.after a g).Inv := by
  obtain ⟨hrounds, hnumbered, hheard, hasked⟩ := hi.informed
  have hnone : ∀ sent' : List (Nat × Reply), (∀ m ∈ sent', m.2 = .duplicate x.game.server.round) →
      (sent'.map Prod.snd).filter Reply.isResult = [] ∧ (sent'.map Prod.snd).filterMap Reply.asksFor = [] := by
    intro sent' hall
    rw [List.filter_eq_nil_iff, List.filterMap_eq_nil_iff]
    constructor <;> intro r hr <;> obtain ⟨m, hm, rfl⟩ := List.mem_map.1 hr <;> rw [hall m hm]
    · simp [Reply.isResult]
    · rfl
  have htoldIn : ∀ fd, (toldIn new fd).filter Reply.isResult = [] ∧ (toldIn new fd).filterMap Reply.asksFor = [] :=
    fun fd => hnone _ fun m hm => hnew m (List.mem_of_mem_filter hm)
  have hnoResult : newResult x.game.server g.server = [] := by
    rw [newResult_eq hs, (hnone new hnew).1]
    rfl
  rw [after_eq ha, hnoResult, List.append_nil]
  have htold : ∀ fd ∈ g.server.fds, ∀ y : Audience, y = { x with game := g } → y.told fd = x.told fd ++ toldIn new fd := by
    rintro fd hfd y rfl
    exact told_append hs rfl (hi.since fd (hfds fd hfd))
  refine ⟨hg, ?_, ?_, ⟨hrounds.trans hround.symm, hnumbered, ?_, ?_⟩⟩
  · intro fd hfd
    dsimp only
    rw [hs, List.length_append]
    exact (hi.since fd (hfds fd hfd)).trans (Nat.le_add_right _ _)
  · intro fd hfd
    dsimp only
    rw [hround]
    exact hi.joined fd (hfds fd hfd)
  · intro fd hfd
    rw [htold fd hfd _ rfl, List.filter_append, (htoldIn fd).1, List.append_nil]
    exact hheard fd (hfds fd hfd)
  · intro hmany fd hfd
    have hmany : 2 ≤ g.server.numclient := hmany
    rw [htold fd hfd _ rfl, List.filterMap_append, (htoldIn fd).2, List.append_nil]
    dsimp only
    rw [hround]
    exact hasked (hmany.trans hnum) fd (hfds fd hfd)

/-- A round ends. -/
theorem inv_announced {message : List UInt8} {maxNum : Int} {winner : Nat} (hi : x.Inv) (hg : g.Inv) (hmany : 2 ≤ x.game.server.numclient)
    (hfds : g.server.fds = x.game.server.fds) (hround : g.server.round = x.game.server.round + 1)
    (hs : g.server.sent = x.game.server.sent ++ x.game.server.fds.map fun y => (y, .result x.game.server.round maxNum winner)) :
    (x.after (.message i message) g).Inv := by
  obtain ⟨hrounds, hnumbered, hheard, hasked⟩ := hi.informed
  have hresult : newResult x.game.server g.server = [.result x.game.server.round maxNum winner] := by
    rw [newResult_eq hs, List.map_map]
    cases hl : x.game.server.fds with
    | nil =>
      rw [← length_fds, hl] at hmany
      exact absurd hmany (by decide)
    | cons y l => rfl
  rw [after_eq (by simp), hresult]
  have htold : ∀ fd ∈ g.server.fds, ∀ y : Audience, y = { x with
      game := g
      results := x.results ++ [.result x.game.server.round maxNum winner] } →
      y.told fd = x.told fd ++ [.result x.game.server.round maxNum winner] := by
    rintro fd hfd y rfl
    rw [hfds] at hfd
    rw [← toldIn_each hi.game.nodup hfd (.result x.game.server.round maxNum winner)]
    exact told_append hs rfl (hi.since fd hfd)
  refine ⟨hg, ?_, ?_, ⟨?_, ?_, ?_, ?_⟩⟩
  · intro fd hfd
    dsimp only at hfd ⊢
    rw [hfds] at hfd
    rw [hs, List.length_append]
    exact (hi.since fd hfd).trans (Nat.le_add_right _ _)
  · intro fd hfd
    dsimp only at hfd ⊢
    rw [hfds] at hfd
    have := hi.joined fd hfd
    omega
  · dsimp only
    rw [hround, List.length_append, List.length_singleton, hrounds]
  · intro k hk
    dsimp only at hk ⊢
    rw [List.length_append, List.length_singleton] at hk
    by_cases hlast : k < x.results.length
    · rw [List.getElem?_append_left hlast]
      exact hnumbered k hlast
    · obtain rfl : k = x.results.length := by omega
      exact ⟨maxNum, winner, by rw [List.getElem?_concat_length, hrounds]⟩
  · intro fd hfd
    rw [htold fd hfd _ rfl, List.filter_append]
    dsimp only at hfd ⊢
    rw [hfds] at hfd
    have := hi.joined fd hfd
    rw [List.drop_append_of_le_length (by omega), hheard fd hfd]
    rfl
  · rintro - fd hfd
    rw [htold fd hfd _ rfl, List.filterMap_append]
    dsimp only
    rw [hround]
    simp [Reply.asksFor]

/-- Every action keeps everybody informed. -/
theorem audience_step (hi : x.Inv) (h : x.step a = some x') : x'.Inv := by
  obtain ⟨g, hg, rfl⟩ := Option.map_eq_some_iff.1 h
  have hinv := game_step_inv hi.game hg
  obtain ⟨new, hs, hsaid⟩ := step_said hg
  generalize hserver : g.server = s' at hsaid
  cases hsaid with
  | joined newSocket _ _ hlt hopens hfds hround hnew =>
    subst hserver
    exact inv_joined hi hinv hlt hopens hfds hround hs hnew
  | quiet _ _ ha hfds hnum hround =>
    subst hserver
    exact inv_same hi hinv ha hfds hnum hround hs (by simp)
  | refused i message _ hfds hround =>
    subst hserver
    exact inv_same hi hinv (by simp) (fun fd hfd => hfds ▸ hfd) (by rw [← length_fds, hfds, length_fds]) hround hs (by simp)
  | announced i message _ maxNum winner hmany hfds hround =>
    subst hserver
    exact inv_announced hi hinv hmany hfds hround hs

theorem audience_begin (serverfd : Nat) : (Audience.begin serverfd).Inv := by
  have hempty : ∀ fd ∈ (Audience.begin serverfd).game.server.fds, False := fun fd hfd => List.not_mem_nil hfd
  refine ⟨(game_begin_right serverfd).1, fun fd hfd => (hempty fd hfd).elim, fun fd hfd => (hempty fd hfd).elim, rfl, ?_, ?_, ?_⟩
  · intro k hk
    exact absurd hk (Nat.not_lt_zero k)
  · exact fun fd hfd => (hempty fd hfd).elim
  · exact fun _ fd hfd => (hempty fd hfd).elim

/-- What the clients hear. In every state of every run, whatever clients connect, disconnect and send: each client has been told,
since it was taken in, the results of all rounds from that one to the last that has ended, in order, each once and as everyone else
was told it; and if there are two or more, the last number that each was asked for is that of the open round. -/
theorem clients_informed (serverfd : Nat) (actions : List Action) :
    Always Audience.step Audience.Informed (.begin serverfd) actions :=
  (always_of_kept (fun _ _ _ => audience_step) (audience_begin serverfd)).imp fun _ hi => hi.informed

end NetLabs.Chat
