import NetLabs.Chat.Select
import NetLabs.Chat.Reach

/-!
# The rounds and the actions

`Game.step` takes connects, disconnects and messages one at a time, in any order. `main` takes whatever a `select` has found ready in one
round, the new client first, with an index that stands still where a client is taken out of the arrays. A round is a run of actions, and an
action is a round in which one descriptor is ready; so the two have the same states, and what has been sent is part of the state.
-/

namespace NetLabs.Chat

open Function Machine Loop

/-! ## The code -/

/-- The client the loop has come to has sent a message for which the code has no defined behaviour. -/
def Calls.undefined (e : Calls) (p : Pass) : Bool :=
  decide (p.server.clientsockfd p.i ∈ e.tempfds) &&
    (e.read (p.server.clientsockfd p.i)).any fun message => (p.server.message p.i message).isNone

/-- The body of the loop, which stops at such a message. -/
def Calls.body? (e : Calls) (p : Pass) : Except Unit Pass := if e.undefined p then .error () else .ok (e.body p)

/-- The loop over the clients. -/
def Calls.clients? (e : Calls) (s : Server) : Except Unit Pass :=
  loopWhile () (fun p => decide (p.i < p.server.numclient)) e.body? (s.numclient + 1) ⟨s, 0, []⟩

/-- One round; `none` where the system calls cannot return this, and where the code has no defined behaviour. -/
def Server.select? (s : Server) (e : Calls) : Option Server :=
  if e.Possible s then
    match e.clients? (e.connect s) with
    | .ok p => some p.server
    | .error () => none
  else none

/-- One descriptor is ready. -/
def Calls.one (fd newSocket : Nat) (r : Option (List UInt8)) : Calls where
  tempfds := {fd}
  newSocket := newSocket
  read _ := r
  unread _ := 0

variable {x x' : Game} {a : Action} {s s' t : Server} {e : Calls} {p : Pass} {i k fd newSocket : Nat} {message : List UInt8}

/-! ## A round is a run of actions -/

/-- A message that has a defined behaviour is heard with the number the round has for it. -/
theorem hear_number {r : Outcome × Server} (h : s.message i message = some r) : s.hear i (e.number message) = r := by
  unfold Server.message at h
  unfold Server.hear at h ⊢
  by_cases hfew : s.numclient < 2
  · rw [if_pos hfew] at h ⊢
    obtain ⟨-, h⟩ := Option.ite_none_right_eq_some.1 h
    rw [if_pos hfew] at h
    exact Option.some.inj h
  · by_cases hsent : s.clientSent i = true
    · rw [if_neg hfew, if_pos hsent, if_neg hfew, if_pos hsent] at h
      rw [if_neg hfew, if_pos hsent]
      exact Option.some.inj h
    · rw [if_neg hfew, if_neg hsent] at h
      obtain ⟨number, hnumber, rfl⟩ := Option.map_eq_some_iff.1 h
      have hsame : e.number message = number := by rw [Calls.number, hnumber, Option.getD_some]
      rw [hsame]

/-- What `read` gives in a round that is possible. -/
theorem Calls.Possible.read (h : e.Possible s) : ∀ fd ∈ e.tempfds, ∀ message ∈ e.read fd, 0 < message.length ∧ message.length ≤ 1024 :=
  h.2.2

/-- The new connection of a round is an action, if there is one. -/
theorem exec_connect (hp : e.Possible s) (hx : x.server = s) :
    ∃ actions, ∃ x' ∈ exec Game.step x actions, x'.server = e.connect s := by
  unfold Calls.connect
  split
  · rename_i hready
    have hopens : x.server.Opens e.newSocket := hx ▸ hp.2.1 hready
    exact ⟨[.connect e.newSocket], _, exec_cons_eq_some.2 ⟨_, if_pos hopens, rfl⟩, by rw [← hx]⟩
  · exact ⟨[], x, rfl, hx⟩

/-- The body of the loop is an action of the client it has come to, or none. -/
theorem exec_body (hread : ∀ fd ∈ e.tempfds, ∀ message ∈ e.read fd, 0 < message.length ∧ message.length ≤ 1024)
    (hi : p.i < p.server.numclient) (hdef : e.undefined p = false) (hx : x.server = p.server) :
    ∃ actions, ∃ x' ∈ exec Game.step x actions, x'.server = (e.body p).server := by
  have hlt : p.i < x.server.numclient := hx ▸ hi
  unfold Calls.body
  split
  · rename_i hready
    unfold Calls.undefined at hdef
    rw [decide_eq_true hready, Bool.true_and] at hdef
    have hlength := hread _ hready
    cases hr : e.read (p.server.clientsockfd p.i) with
    | none => exact ⟨[.disconnect p.i], _, exec_cons_eq_some.2 ⟨_, if_pos hlt, rfl⟩, by rw [← hx]⟩
    | some message =>
      rw [hr, Option.any_some] at hdef
      obtain ⟨r, hmessage⟩ : ∃ r, p.server.message p.i message = some r := by
        rw [Option.isNone_eq_false_iff] at hdef
        exact Option.isSome_iff_exists.1 hdef
      have hstep : x.step (.message p.i message) = some (x.after (x.server.clientsockfd p.i) r) := by
        have hsome : x.step (.message p.i message) = (x.server.message p.i message).map (x.after (x.server.clientsockfd p.i)) :=
          if_pos ⟨hlt, hlength message hr⟩
        rw [hsome, hx, hmessage, Option.map_some]
      refine ⟨[.message p.i message], _, exec_cons_eq_some.2 ⟨_, hstep, rfl⟩, ?_⟩
      rw [after_server]
      dsimp only
      rw [hear_number hmessage]
  · exact ⟨[], x, rfl, hx⟩

/-- A round is a run of actions. -/
theorem exec_select (hs : s.select? e = some s') (hx : x.server = s) :
    ∃ actions, ∃ x' ∈ exec Game.step x actions, x'.server = s' := by
  unfold Server.select? at hs
  split at hs
  · rename_i hp
    cases hloop : e.clients? (e.connect s) with
    | error =>
      rw [hloop] at hs
      cases hs
    | ok p =>
      rw [hloop] at hs
      obtain rfl : p.server = s' := Option.some.inj hs
      refine (loopWhile_keeps (fun p => ∃ actions, ∃ x' ∈ exec Game.step x actions, x'.server = p.server) ?_
        (exec_connect hp hx) hloop).1
      rintro p p' ⟨actions, y, hy, hserver⟩ htest hbody
      unfold Calls.body? at hbody
      split at hbody
      · cases hbody
      · rename_i hdef
        obtain rfl : e.body p = p' := Except.ok.inj hbody
        obtain ⟨more, z, hz, hlast⟩ := exec_body hp.read (of_decide_eq_true htest) (Bool.eq_false_iff.2 hdef) hserver
        exact ⟨actions ++ more, z, by rw [exec_append, hy]; exact hz, hlast⟩
  · cases hs

/-! ## An action is a round -/

/-- Nothing is undefined of a client that is not ready. -/
theorem undefined_of_not_ready (h : p.server.clientsockfd p.i ∉ e.tempfds) : e.undefined p = false := by
  rw [Calls.undefined, decide_eq_false h, Bool.false_and]

/-- The loop goes by a client that is not ready. -/
theorem body_of_not_ready (h : p.server.clientsockfd p.i ∉ e.tempfds) : e.body p = { p with i := p.i + 1 } := if_neg h

/-- The rule for the loop: an invariant of the passes, and fewer clients left to go through with each. -/
theorem clients_total (I : Pass → Prop)
    (hbody : ∀ p, I p → p.i < p.server.numclient → ∃ p', e.undefined p = false ∧ e.body p = p' ∧ I p' ∧
      p'.server.numclient - p'.i < p.server.numclient - p.i)
    (h0 : I ⟨s, 0, []⟩) : ∃ p, e.clients? s = .ok p ∧ I p ∧ p.server.numclient ≤ p.i := by
  obtain ⟨p, hp, hinv, hend⟩ := loopWhile_total (o := ()) I (fun p => p.server.numclient - p.i)
    (fun p hi ht => by
      obtain ⟨p', hdef, rfl, hi', hless⟩ := hbody p hi (of_decide_eq_true ht)
      have hok : e.body? p = .ok (e.body p) := if_neg (Bool.eq_false_iff.1 hdef)
      exact ⟨e.body p, hok, hi', hless⟩) h0 (Nat.lt_succ_self _)
  exact ⟨p, hp, hinv, Nat.not_lt.1 (of_decide_eq_false hend)⟩

/-- With no client ready the loop does nothing. -/
theorem clients_idle (h : ∀ j < s.numclient, s.clientsockfd j ∉ e.tempfds) : ∃ p, e.clients? s = .ok p ∧ p.server = s := by
  have hpass : ∃ p, e.clients? s = .ok p ∧ p.server = s ∧ p.server.numclient ≤ p.i := by
    refine clients_total (fun p => p.server = s) ?_ rfl
    rintro p rfl hlt
    have hnot := h p.i hlt
    refine ⟨_, undefined_of_not_ready hnot, body_of_not_ready hnot, rfl, ?_⟩
    dsimp only
    omega
  obtain ⟨p, hp, hsame, -⟩ := hpass
  exact ⟨p, hp, hsame⟩

/-- With one client ready the loop does what its body does for that client, and goes by the others. -/
theorem clients_one (hready : s.clientsockfd i ∈ e.tempfds) (hi : i < s.numclient)
    (hothers : ∀ j < s.numclient, j ≠ i → s.clientsockfd j ∉ e.tempfds)
    (hdef : ∀ reads, e.undefined ⟨s, i, reads⟩ = false) (hbody : ∀ reads, ∃ reads', e.body ⟨s, i, reads⟩ = ⟨t, k, reads'⟩)
    (hless : t.numclient - k < s.numclient - i) (hrest : ∀ j, k ≤ j → j < t.numclient → t.clientsockfd j ∉ e.tempfds) :
    ∃ p, e.clients? s = .ok p ∧ p.server = t := by
  have hpass : ∃ p, e.clients? s = .ok p ∧ (p.server = s ∧ p.i ≤ i ∨ p.server = t ∧ k ≤ p.i) ∧ p.server.numclient ≤ p.i := by
    refine clients_total (fun p => p.server = s ∧ p.i ≤ i ∨ p.server = t ∧ k ≤ p.i) ?_ (Or.inl ⟨rfl, Nat.zero_le i⟩)
    rintro ⟨server, j, reads⟩ hinv hlt
    by_cases hj : server.clientsockfd j ∈ e.tempfds
    · -- only the one client is ready, and only before it has been served
      rcases hinv with ⟨rfl, -⟩ | ⟨rfl, hle⟩
      · obtain rfl : j = i := by_contra fun hne => hothers j hlt hne hj
        obtain ⟨reads', hnext⟩ := hbody reads
        exact ⟨⟨t, k, reads'⟩, hdef reads, hnext, Or.inr ⟨rfl, Nat.le_refl k⟩, hless⟩
      · exact absurd hj (hrest j hle hlt)
    · refine ⟨⟨server, j + 1, reads⟩, undefined_of_not_ready hj, body_of_not_ready hj, ?_, ?_⟩
      · rcases hinv with ⟨rfl, hle⟩ | ⟨hdone, hle⟩
        · have hne : j ≠ i := fun heq => hj (heq ▸ hready)
          exact Or.inl ⟨rfl, Nat.lt_of_le_of_ne hle hne⟩
        · exact Or.inr ⟨hdone, Nat.le_succ_of_le hle⟩
      · dsimp only at hlt ⊢
        omega
  obtain ⟨p, hp, ⟨hsame, hle⟩ | ⟨hdone, -⟩, hend⟩ := hpass
  · rw [hsame] at hend
    omega
  · exact ⟨p, hp, hdone⟩

/-- A client with another index has another descriptor. -/
theorem not_mem_one (h : s.TableOk) (hi : i < s.numclient) {r : Option (List UInt8)} : ∀ j < s.numclient, j ≠ i →
    s.clientsockfd j ∉ (Calls.one (s.clientsockfd i) newSocket r).tempfds := by
  intro j hj hne hin
  exact hne (clientsockfd_inj h.nodup hj hi (Finset.mem_singleton.1 hin))

/-- A round in which one client is ready. -/
theorem select_one {r : Option (List UInt8)} (h : s.TableOk) (hi : i < s.numclient)
    (hlength : ∀ message ∈ r, 0 < message.length ∧ message.length ≤ 1024)
    (hloop : ∃ p, (Calls.one (s.clientsockfd i) 0 r).clients? s = .ok p ∧ p.server = t) :
    s.select? (Calls.one (s.clientsockfd i) 0 r) = some t := by
  have hmem : s.clientsockfd i ∈ s.fds := List.mem_of_getElem? (getElem?_fds hi)
  have hopen : s.clientsockfd i ∈ s.readfds := by
    rw [h.readfds]
    exact Finset.mem_insert_of_mem (List.mem_toFinset.2 hmem)
  have hnew : s.serverfd ∉ (Calls.one (s.clientsockfd i) 0 r).tempfds := by
    intro hin
    exact h.serverfd ((Finset.mem_singleton.1 hin) ▸ hmem)
  have hp : (Calls.one (s.clientsockfd i) 0 r).Possible s := by
    refine ⟨?_, fun hin => absurd hin hnew, fun _ _ => hlength⟩
    intro fd hfd
    rw [Finset.mem_singleton.1 hfd]
    exact ⟨hopen, h.maxfd _ hopen⟩
  have hconnect : (Calls.one (s.clientsockfd i) 0 r).connect s = s := if_neg hnew
  obtain ⟨p, hp', rfl⟩ := hloop
  rw [Server.select?, if_pos hp, hconnect, hp']

/-- A client that connects. -/
theorem select_connect (h : s.TableOk) (ho : s.Opens newSocket) :
    s.select? (.one s.serverfd newSocket none) = some (s.accept newSocket) := by
  have hopen : s.serverfd ∈ s.readfds := by
    rw [h.readfds]
    exact Finset.mem_insert_self _ _
  have hp : (Calls.one s.serverfd newSocket none).Possible s := by
    refine ⟨?_, fun _ => ho, fun _ _ message hnone => by cases hnone⟩
    intro fd hfd
    rw [Finset.mem_singleton.1 hfd]
    exact ⟨hopen, h.maxfd _ hopen⟩
  have hconnect : (Calls.one s.serverfd newSocket none).connect s = s.accept newSocket := if_pos (Finset.mem_singleton_self _)
  have htable := tableOk_connect h hp
  rw [hconnect] at htable
  have hserver : (s.accept newSocket).serverfd = s.serverfd := by
    unfold Server.accept
    split <;> rfl
  obtain ⟨p, hp', hsame⟩ := clients_idle (e := .one s.serverfd newSocket none) (s := s.accept newSocket) fun j hj hin => by
    refine htable.serverfd ?_
    rw [hserver, ← Finset.mem_singleton.1 hin]
    exact List.mem_of_getElem? (getElem?_fds hj)
  rw [Server.select?, if_pos hp, hconnect, hp']
  exact congrArg some hsame

/-- A client that disconnects. -/
theorem select_disconnect (h : s.TableOk) (hi : i < s.numclient) :
    s.select? (.one (s.clientsockfd i) 0 none) = some (s.disconnect i) := by
  refine select_one h hi (fun message hnone => by cases hnone) ?_
  have hnum : (s.disconnect i).numclient = s.numclient - 1 := rfl
  refine clients_one (k := i) (Finset.mem_singleton_self _) hi (not_mem_one h hi) ?_ ?_ (by omega) ?_
  · intro reads
    exact Bool.and_false _
  · intro reads
    exact ⟨_, if_pos (Finset.mem_singleton_self _)⟩
  · intro j _ hj hin
    have hmem : (s.disconnect i).clientsockfd j ∈ (s.disconnect i).fds := List.mem_of_getElem? (getElem?_fds hj)
    rw [fds_disconnect h hi, Finset.mem_singleton.1 hin] at hmem
    simp at hmem

/-- A message leaves the descriptors in place. -/
theorem clientsockfd_hear (s : Server) (i : Nat) (number : Int) : (s.hear i number).2.clientsockfd = s.clientsockfd := by
  unfold Server.hear
  split
  · rfl
  · split
    · rfl
    · split <;> rfl

/-- A client that sends a message. -/
theorem select_message {r : Outcome × Server} (h : s.TableOk) (hi : i < s.numclient)
    (hlength : 0 < message.length ∧ message.length ≤ 1024) (hr : s.message i message = some r) :
    s.select? (.one (s.clientsockfd i) 0 (some message)) = some r.2 := by
  refine select_one h hi (fun m hm => Option.some.inj hm ▸ hlength) ?_
  have hheard := hear_number (e := .one (s.clientsockfd i) 0 (some message)) hr
  have hnum : r.2.numclient = s.numclient := by
    rw [← hheard]
    exact (hear_frame _ _ _).1
  have hfds : r.2.clientsockfd = s.clientsockfd := by
    rw [← hheard]
    exact clientsockfd_hear _ _ _
  refine clients_one (k := i + 1) (Finset.mem_singleton_self _) hi (not_mem_one h hi) ?_ ?_ (by omega) ?_
  · intro reads
    change (_ && (s.message i message).isNone) = false
    rw [hr]
    exact Bool.and_false _
  · intro reads
    refine ⟨reads ++ [s.clientsockfd i], ?_⟩
    rw [← hheard]
    exact if_pos (Finset.mem_singleton_self _)
  · intro j hle hj
    rw [hfds]
    exact not_mem_one h hi j (hnum ▸ hj) (by omega)

/-- An action is a round. -/
theorem select_of_step (h : x.server.TableOk) (hx : x.step a = some x') :
    x'.server.TableOk ∧ ∃ e, x.server.select? e = some x'.server := by
  cases a with
  | connect newSocket =>
    obtain ⟨hopens, ⟨⟩⟩ := Option.ite_none_right_eq_some.1 hx
    exact ⟨tableOk_accept h hopens, _, select_connect h hopens⟩
  | disconnect i =>
    obtain ⟨hlt, ⟨⟩⟩ := Option.ite_none_right_eq_some.1 hx
    exact ⟨tableOk_disconnect h hlt, _, select_disconnect h hlt⟩
  | message i message =>
    obtain ⟨⟨hlt, hlength⟩, hx⟩ := Option.ite_none_right_eq_some.1 hx
    obtain ⟨r, hr, rfl⟩ := Option.map_eq_some_iff.1 hx
    obtain ⟨number, -, rfl⟩ := message_heard hr
    rw [after_server]
    exact ⟨tableOk_hear h hlt, _, select_message h hlt hlength hr⟩

/-! ## Every run -/

/-- Rounds and actions are the same. The states of the server that its `select` rounds reach, whatever is ready in each of them and in
whatever order the loop comes to it, are those that connects, disconnects and messages reach one at a time. -/
theorem select_reaches_iff (serverfd : Nat) (s : Server) : (∃ rounds, exec Server.select? (.begin serverfd) rounds = some s) ↔
    ∃ actions x, exec Game.step (.begin serverfd) actions = some x ∧ x.server = s := by
  constructor
  · rintro ⟨rounds, hrounds⟩
    exact exec_matched (R := fun s (x : Game) => x.server = s) (fun s x e s' hserver hs => exec_select hs hserver) rfl hrounds
  · rintro ⟨actions, x, hx, rfl⟩
    have hmatch : ∃ rounds, ∃ s ∈ exec Server.select? (.begin serverfd) rounds, x.server.TableOk ∧ x.server = s := by
      refine exec_matched (R := fun (x : Game) s => x.server.TableOk ∧ x.server = s) ?_ ⟨tableOk_begin serverfd, rfl⟩ hx
      rintro x _ a x' ⟨htable, rfl⟩ hx
      obtain ⟨htable', e, he⟩ := select_of_step htable hx
      exact ⟨[e], x'.server, exec_cons_eq_some.2 ⟨_, he, rfl⟩, htable', rfl⟩
    obtain ⟨rounds, s, hs, -, rfl⟩ := hmatch
    exact ⟨rounds, hs⟩

end NetLabs.Chat
