import NetLabs.Chat.Rounds
import NetLabs.Lib.Loop
import Mathlib.Data.Finset.Image
import Mathlib.Data.Finset.Dedup

/-!
# The select rounds of the chat server

After each `select`, `main` takes in a new client and then goes through the clients with an index, reading those that are ready. A client
that has disconnected is taken out of the arrays while the loop goes on, with its index one less. What the loop comes to is said by
`serve`, which goes through the descriptors instead and never moves a record.
-/

namespace NetLabs.Chat

open CText Function Machine Loop

/-! ## The code -/

/-- What the system calls of one round return: `tempfds` after `select`, the new socket, and what `read` gives for a descriptor, `none`
for an end of file or an error. `unread` stands for what `atoi` makes of a text that it is not defined for. -/
structure Calls where
  tempfds : Finset Nat
  newSocket : Nat
  read : Nat → Option (List UInt8)
  unread : List UInt8 → Int

/-- The number in a message. -/
def Calls.number (e : Calls) (message : List UInt8) : Int := (number? message).getD (e.unread message)

/-- The variables of the loop over the clients, and the descriptors read. -/
structure Pass where
  server : Server
  i : Nat
  reads : List Nat

/-- The body of the loop; `i--` before the `i++` of the loop leaves the index as it is. -/
def Calls.body (e : Calls) (p : Pass) : Pass :=
  if p.server.clientsockfd p.i ∈ e.tempfds then
    match e.read (p.server.clientsockfd p.i) with
    | none => { server := p.server.disconnect p.i, i := p.i, reads := p.reads ++ [p.server.clientsockfd p.i] }
    | some message =>
      { server := (p.server.hear p.i (e.number message)).2, i := p.i + 1, reads := p.reads ++ [p.server.clientsockfd p.i] }
  else { p with i := p.i + 1 }

/-- The loop over the clients; an error if it has not ended after testing its condition once more than there are clients. -/
def Calls.clients (e : Calls) (s : Server) : Except Unit Pass :=
  loopWhile () (fun p => decide (p.i < p.server.numclient)) (fun p => .ok (e.body p)) (s.numclient + 1) ⟨s, 0, []⟩

/-- The new connection, if there is one. -/
def Calls.connect (e : Calls) (s : Server) : Server := if s.serverfd ∈ e.tempfds then s.accept e.newSocket else s

/-- What the system calls can return: `select` leaves some of the descriptors of `readfds` it has looked at, `accept` returns one that is
not open, `read` at most 1024 bytes. -/
def Calls.Possible (e : Calls) (s : Server) : Prop :=
  (∀ fd ∈ e.tempfds, fd ∈ s.readfds ∧ fd ≤ s.maxfd) ∧ (s.serverfd ∈ e.tempfds → s.Opens e.newSocket) ∧
    ∀ fd ∈ e.tempfds, ∀ message ∈ e.read fd, 0 < message.length ∧ message.length ≤ 1024

instance (e : Calls) (s : Server) : Decidable (e.Possible s) := inferInstanceAs (Decidable (_ ∧ _ ∧ _))

/-- One round. -/
def Server.select (s : Server) (e : Calls) : Option Server :=
  if e.Possible s then
    match e.clients (e.connect s) with
    | .ok p => some p.server
    | .error () => none
  else none

/-! ## What a round is to do -/

/-- A message of the client with descriptor `fd`: dropped with fewer than two clients, refused to one that has sent its number, else the
number is recorded, and the last one of a round makes all of them start afresh. -/
def answer (l : List Client) (fd : Nat) (number : Int) : List Client :=
  if l.length < 2 ∨ ⟨fd, true⟩ ∈ l.map fun c => (c.fd, c.sent) then l
  else
    let l' := l.map fun c => if c.fd = fd then { c with sent := true, number := number } else c
    if l'.all Client.sent then l'.map fun c => { c with sent := false } else l'

/-- What is read from descriptor `fd`: the record of a client that has disconnected goes. -/
def Calls.serve (e : Calls) (l : List Client) (fd : Nat) : List Client :=
  match e.read fd with
  | none => l.filter fun c => c.fd ≠ fd
  | some message => answer l fd (e.number message)

/-- A descriptor of the snapshot that `select` has left. -/
def Calls.ready (e : Calls) (fd : Nat) : Bool := decide (fd ∈ e.tempfds)

/-- A descriptor that is still a client's after the round. -/
def Calls.survives (e : Calls) (fd : Nat) : Bool := !(e.ready fd && (e.read fd).isNone)

/-- The table of clients: at most five, with distinct descriptors, and `readfds` is the listening socket and these, all within what
`select` looks at. -/
structure Server.TableOk (s : Server) : Prop where
  le : s.numclient ≤ 5
  nodup : s.fds.Nodup
  serverfd : s.serverfd ∉ s.fds
  readfds : s.readfds = insert s.serverfd s.fds.toFinset
  maxfd : ∀ fd ∈ s.readfds, fd ≤ s.maxfd

/-- A round reads every client that was ready, once and in the order of the table, and nobody else; its records are what that makes
of those before, and the clients that are left are in the order they were in. -/
structure Calls.RoundOk (e : Calls) (s : Server) (p : Pass) : Prop where
  reads : p.reads = s.fds.filter e.ready
  records : p.server.roster = p.reads.foldl e.serve (e.connect s).roster
  order : p.server.fds = (e.connect s).fds.filter e.survives

/-- The loop of a round ends, and the round is as it is to be. -/
def Server.roundsOk (s : Server) (e : Calls) : Prop :=
  e.Possible s → ∃ p, e.clients (e.connect s) = .ok p ∧ e.RoundOk s p

/-! ## Records by index and by descriptor -/

variable {s s' : Server} {e : Calls} {p : Pass} {i fd newSocket : Nat} {number : Int} {l : List Client} {c : Client}

/-- Around an index of a list without repetitions, every other element is another one. -/
theorem split_at (hn : (l.map Client.fd).Nodup) (hc : l[i]? = some c) : ∃ a b, l = a ++ c :: b ∧ a.length = i ∧
    (∀ x ∈ a, x.fd ≠ c.fd) ∧ ∀ x ∈ b, x.fd ≠ c.fd := by
  obtain ⟨hlt, rfl⟩ := List.getElem?_eq_some_iff.1 hc
  have hsplit : l = l.take i ++ l[i] :: l.drop (i + 1) := by simp
  refine ⟨l.take i, l.drop (i + 1), hsplit, by rw [List.length_take]; omega, ?_, ?_⟩
  · intro x hx heq
    rw [hsplit, List.map_append, List.map_cons, List.nodup_append] at hn
    exact hn.2.2 x.fd (List.mem_map_of_mem hx) l[i].fd List.mem_cons_self heq
  · intro x hx heq
    rw [hsplit, List.map_append, List.map_cons, List.nodup_append, List.nodup_cons] at hn
    exact hn.2.1.1 (heq ▸ List.mem_map_of_mem hx)

/-- Taking out the record at an index is taking out the record with its descriptor. -/
theorem eraseIdx_eq_filter (hn : (l.map Client.fd).Nodup) (hc : l[i]? = some c) :
    l.eraseIdx i = l.filter fun x => x.fd ≠ c.fd := by
  obtain ⟨a, b, rfl, rfl, ha, hb⟩ := split_at hn hc
  have hfa : a.filter (fun x => decide (x.fd ≠ c.fd)) = a := List.filter_eq_self.2 fun x hx => by simpa using ha x hx
  have hfb : b.filter (fun x => decide (x.fd ≠ c.fd)) = b := List.filter_eq_self.2 fun x hx => by simpa using hb x hx
  rw [List.filter_append, List.filter_cons_of_neg (by simp), hfa, hfb]
  simp [List.eraseIdx_append_of_length_le]

/-- Changing the record at an index is changing the record with its descriptor. -/
theorem modify_eq_map (hn : (l.map Client.fd).Nodup) (hc : l[i]? = some c) (f : Client → Client) :
    l.modify i f = l.map fun x => if x.fd = c.fd then f x else x := by
  apply List.ext_getElem?
  intro j
  rw [List.getElem?_modify, List.getElem?_map]
  by_cases hij : i = j
  · subst hij
    simp [hc]
  · cases hx : l[j]? with
    | none => rfl
    | some x =>
      have hne : x.fd ≠ c.fd := by
        intro heq
        have hj : (l.map Client.fd)[j]? = (l.map Client.fd)[i]? := by
          rw [List.getElem?_map, List.getElem?_map, hx, hc]
          exact congrArg some heq
        have hlt : j < (l.map Client.fd).length := by
          rw [List.length_map]
          exact (List.getElem?_eq_some_iff.1 hx).1
        exact hij ((List.getElem?_inj hlt hn).1 hj).symm
      simp [hij, hne]

/-- Whoever has sent its number already is known by the descriptor. -/
theorem sent_iff (hn : s.fds.Nodup) (hi : i < s.numclient) :
    (s.clientsockfd i, true) ∈ s.roster.map (fun c => (c.fd, c.sent)) ↔ s.clientSent i = true := by
  constructor
  · intro h
    obtain ⟨c, hc, heq⟩ := List.mem_map.1 h
    obtain ⟨j, hj, rfl⟩ := mem_roster.1 hc
    obtain ⟨hfd, hsent⟩ := Prod.mk.inj heq
    obtain rfl : j = i := clientsockfd_inj hn hj hi hfd
    exact hsent
  · intro h
    exact List.mem_map.2 ⟨s.client i, mem_roster.2 ⟨i, hi, rfl⟩, by rw [← h]; rfl⟩

/-- A message changes the records as `answer` says. -/
theorem roster_hear (hn : s.fds.Nodup) (hi : i < s.numclient) :
    (s.hear i number).2.roster = answer s.roster (s.clientsockfd i) number := by
  have hstore : (s.store i number).roster =
      s.roster.map fun c => if c.fd = s.clientsockfd i then { c with sent := true, number := number } else c := by
    rw [roster_store]
    exact modify_eq_map hn (getElem?_roster hi) _
  have hall : (s.store i number).allSent = (s.store i number).roster.all Client.sent := by
    rw [Bool.eq_iff_iff, allSent_iff, List.all_eq_true]
  unfold Server.hear answer
  rw [length_roster, ← hstore]
  by_cases hfew : s.numclient < 2
  · rw [if_pos hfew, if_pos (Or.inl hfew)]
  · by_cases hsent : s.clientSent i = true
    · rw [if_neg hfew, if_pos hsent, if_pos (Or.inr ((sent_iff hn hi).2 hsent))]
      rfl
    · have hnot : ¬(s.numclient < 2 ∨ (s.clientsockfd i, true) ∈ s.roster.map fun c => (c.fd, c.sent)) := by
        rw [sent_iff hn hi]
        exact not_or.2 ⟨hfew, hsent⟩
      rw [if_neg hfew, if_neg hsent, if_neg hnot, hall]
      by_cases hlast : (s.store i number).roster.all Client.sent = true
      · rw [if_pos hlast, if_pos hlast]
        exact roster_announce _
      · rw [if_neg hlast, if_neg hlast]

/-- A number that is recorded does not move a descriptor. -/
theorem fds_record (l : List Client) (fd : Nat) (number : Int) :
    (l.map fun c => if c.fd = fd then { c with sent := true, number := number } else c).map Client.fd = l.map Client.fd := by
  rw [List.map_map]
  refine List.map_congr_left fun c _ => ?_
  simp only [Function.comp_apply]
  split <;> rfl

/-- Nor does a message. -/
theorem fds_answer (l : List Client) (fd : Nat) (number : Int) : (answer l fd number).map Client.fd = l.map Client.fd := by
  have hset := fds_record l fd number
  unfold answer
  split
  · rfl
  · dsimp only
    split
    · rw [List.map_map]
      exact hset
    · exact hset

/-! ## The table -/

/-- What a message leaves as it is. -/
theorem hear_frame (s : Server) (i : Nat) (number : Int) : (s.hear i number).2.numclient = s.numclient ∧
    (s.hear i number).2.serverfd = s.serverfd ∧ (s.hear i number).2.readfds = s.readfds ∧ (s.hear i number).2.maxfd = s.maxfd := by
  unfold Server.hear
  split
  · exact ⟨rfl, rfl, rfl, rfl⟩
  · split
    · exact ⟨rfl, rfl, rfl, rfl⟩
    · split <;> exact ⟨rfl, rfl, rfl, rfl⟩

theorem tableOk_hear (h : s.TableOk) (hi : i < s.numclient) : (s.hear i number).2.TableOk := by
  obtain ⟨hnum, hserver, hread, hmax⟩ := hear_frame s i number
  have hfds : (s.hear i number).2.fds = s.fds := by
    rw [Server.fds, roster_hear h.nodup hi]
    exact fds_answer _ _ _
  constructor
  · rw [hnum]
    exact h.le
  · rw [hfds]
    exact h.nodup
  · rw [hfds, hserver]
    exact h.serverfd
  · rw [hfds, hserver, hread]
    exact h.readfds
  · rw [hread, hmax]
    exact h.maxfd

theorem fds_disconnect (h : s.TableOk) (hi : i < s.numclient) :
    (s.disconnect i).fds = s.fds.filter fun fd => fd ≠ s.clientsockfd i := by
  have herase := eraseIdx_eq_filter h.nodup (getElem?_roster hi)
  rw [Server.fds, roster_disconnect hi, herase, Server.fds, List.filter_map]
  rfl

theorem tableOk_disconnect (h : s.TableOk) (hi : i < s.numclient) : (s.disconnect i).TableOk := by
  have hfds := fds_disconnect h hi
  have hserver : (s.disconnect i).serverfd = s.serverfd := rfl
  have hmem : s.clientsockfd i ∈ s.fds := List.mem_of_getElem? (getElem?_fds hi)
  constructor
  · have hle := h.le
    change s.numclient - 1 ≤ 5
    omega
  · rw [hfds]
    exact h.nodup.filter _
  · intro hin
    rw [hfds, hserver] at hin
    exact h.serverfd (List.mem_of_mem_filter hin)
  · change s.readfds.erase (s.clientsockfd i) = _
    rw [h.readfds, hfds, hserver]
    ext fd
    have hne : s.serverfd ≠ s.clientsockfd i := fun heq => h.serverfd (heq ▸ hmem)
    simp only [Finset.mem_erase, Finset.mem_insert, List.mem_toFinset, List.mem_filter, decide_eq_true_eq]
    constructor
    · rintro ⟨hfd, rfl | hin⟩
      · exact Or.inl rfl
      · exact Or.inr ⟨hin, hfd⟩
    · rintro (rfl | ⟨hin, hfd⟩)
      · exact ⟨hne, Or.inl rfl⟩
      · exact ⟨hfd, Or.inr hin⟩
  · intro fd hfd
    exact h.maxfd fd (Finset.mem_of_mem_erase hfd)

theorem fds_accept (s : Server) (newSocket : Nat) :
    (s.accept newSocket).fds = if s.numclient < 5 then s.fds ++ [newSocket] else s.fds := by
  rw [Server.fds, roster_accept]
  split
  · rw [List.map_append]
    rfl
  · rfl

theorem tableOk_accept (h : s.TableOk) (ho : s.Opens newSocket) : (s.accept newSocket).TableOk := by
  have hfds := fds_accept s newSocket
  by_cases hfull : s.numclient < 5
  · have hnew : newSocket ∉ s.fds := by
      intro hin
      obtain ⟨c, hc, rfl⟩ := List.mem_map.1 hin
      exact ho.ne hc rfl
    have hjoin : s.accept newSocket = { s.join newSocket with sent := s.sent ++ (s.join newSocket).requests } := if_pos hfull
    rw [if_pos hfull] at hfds
    have hserver : (s.accept newSocket).serverfd = s.serverfd := by rw [hjoin]; rfl
    have hread : (s.accept newSocket).readfds = insert newSocket s.readfds := by rw [hjoin]; rfl
    constructor
    · rw [hjoin]
      exact hfull
    · rw [hfds, List.nodup_append]
      exact ⟨h.nodup, List.nodup_singleton _, fun a ha b hb heq => hnew (by rw [List.mem_singleton] at hb; rw [← hb, ← heq]; exact ha)⟩
    · rw [hfds, hserver, List.mem_append, List.mem_singleton]
      rintro (hin | heq)
      · exact h.serverfd hin
      · exact ho.1 heq.symm
    · rw [hfds, hserver, hread, h.readfds, List.toFinset_append]
      ext fd
      simp only [Finset.mem_insert, Finset.mem_union, List.mem_toFinset, List.mem_singleton]
      tauto
    · intro fd hfd
      rw [hread, Finset.mem_insert] at hfd
      have hmax : (s.accept newSocket).maxfd = if s.maxfd < newSocket then newSocket else s.maxfd := by rw [hjoin]; rfl
      rw [hmax]
      rcases hfd with rfl | hfd
      · split <;> omega
      · have hle := h.maxfd fd hfd
        split <;> omega
  · have hsame : s.accept newSocket = s := if_neg hfull
    rw [hsame]
    exact h

theorem tableOk_connect (h : s.TableOk) (hp : e.Possible s) : (e.connect s).TableOk := by
  unfold Calls.connect
  split
  · rename_i hready
    exact tableOk_accept h (hp.2.1 hready)
  · exact h

/-! ## The loop -/

/-- Where the loop stands in a round that began with the table `s`: it has been through the clients `done`, and those of them that are
left come before those it has yet to go through. -/
structure Calls.PassInv (e : Calls) (s : Server) (p : Pass) : Prop where
  table : p.server.TableOk
  split : ∃ done todo, s.fds = done ++ todo ∧ p.server.fds = done.filter e.survives ++ todo ∧
    p.i = (done.filter e.survives).length ∧ p.reads = done.filter e.ready
  records : p.server.roster = p.reads.foldl e.serve s.roster

/-- The client the loop has come to. -/
theorem Calls.PassInv.here {s₀ : Server} (h : e.PassInv s₀ p) (hi : p.i < p.server.numclient) : ∃ done rest,
    s₀.fds = (done ++ [p.server.clientsockfd p.i]) ++ rest ∧
      p.server.fds = done.filter e.survives ++ p.server.clientsockfd p.i :: rest ∧ p.i = (done.filter e.survives).length ∧
      p.reads = done.filter e.ready := by
  obtain ⟨done, todo, hall, hnow, hidx, hreads⟩ := h.split
  obtain ⟨fd, rest, rfl⟩ : ∃ fd rest, todo = fd :: rest := by
    refine List.exists_cons_of_ne_nil ?_
    rintro rfl
    have hlen := length_fds p.server
    rw [hnow, List.append_nil] at hlen
    omega
  have hfd : p.server.clientsockfd p.i = fd := by
    have hget := getElem?_fds hi
    rw [hnow, List.getElem?_append_right (by omega), hidx, Nat.sub_self] at hget
    rw [hidx]
    exact (Option.some.inj hget).symm
  rw [hfd]
  exact ⟨done, rest, by rw [List.append_assoc]; exact hall, hnow, hidx, hreads⟩

theorem filter_concat {q : Nat → Bool} (done : List Nat) (fd : Nat) :
    (done ++ [fd]).filter q = done.filter q ++ if q fd then [fd] else [] := by
  rw [List.filter_append, List.filter_singleton, cond_eq_ite]

/-- A client that has disconnected. -/
theorem passInv_disconnect {s₀ : Server} (h : e.PassInv s₀ p) (hi : p.i < p.server.numclient)
    (hready : e.ready (p.server.clientsockfd p.i) = true) (hread : e.read (p.server.clientsockfd p.i) = none) :
    e.PassInv s₀ ⟨p.server.disconnect p.i, p.i, p.reads ++ [p.server.clientsockfd p.i]⟩ := by
  obtain ⟨done, rest, hall, hnow, hidx, hreads⟩ := h.here hi
  have hserve : ∀ l, e.serve l (p.server.clientsockfd p.i) = l.filter fun c => c.fd ≠ p.server.clientsockfd p.i := by
    intro l
    rw [Calls.serve, hread]
  have hgone : (done ++ [p.server.clientsockfd p.i]).filter e.survives = done.filter e.survives := by
    rw [filter_concat, if_neg (by simp [Calls.survives, hready, hread])]
    exact List.append_nil _
  refine ⟨tableOk_disconnect h.table hi, ⟨_, rest, hall, ?_, ?_, ?_⟩, ?_⟩
  · -- the descriptor is in the table once, so that nothing else goes with it
    have hnodup := h.table.nodup
    rw [hnow, List.nodup_append, List.nodup_cons] at hnodup
    have hbefore : ∀ a ∈ done.filter e.survives, decide (a ≠ p.server.clientsockfd p.i) = true := by
      intro a ha
      exact decide_eq_true (hnodup.2.2 a ha _ List.mem_cons_self)
    have hafter : ∀ a ∈ rest, decide (a ≠ p.server.clientsockfd p.i) = true := by
      intro a ha
      exact decide_eq_true fun heq => hnodup.2.1.1 (heq ▸ ha)
    change (p.server.disconnect p.i).fds = _
    rw [fds_disconnect h.table hi, hnow, hgone, List.filter_append, List.filter_cons_of_neg (by simp),
      List.filter_eq_self.2 hbefore, List.filter_eq_self.2 hafter]
  · rw [hgone]
    exact hidx
  · rw [filter_concat, if_pos hready, ← hreads]
  · change (p.server.disconnect p.i).roster = (p.reads ++ [p.server.clientsockfd p.i]).foldl e.serve s₀.roster
    rw [List.foldl_append, ← h.records, roster_disconnect hi, eraseIdx_eq_filter h.table.nodup (getElem?_roster hi)]
    exact (hserve _).symm

/-- A client that has sent a message. -/
theorem passInv_hear {s₀ : Server} {message : List UInt8} (h : e.PassInv s₀ p) (hi : p.i < p.server.numclient)
    (hready : e.ready (p.server.clientsockfd p.i) = true) (hread : e.read (p.server.clientsockfd p.i) = some message) :
    e.PassInv s₀ ⟨(p.server.hear p.i (e.number message)).2, p.i + 1, p.reads ++ [p.server.clientsockfd p.i]⟩ := by
  obtain ⟨done, rest, hall, hnow, hidx, hreads⟩ := h.here hi
  have hserve : ∀ l, e.serve l (p.server.clientsockfd p.i) = answer l (p.server.clientsockfd p.i) (e.number message) := by
    intro l
    rw [Calls.serve, hread]
  have hstays : (done ++ [p.server.clientsockfd p.i]).filter e.survives = done.filter e.survives ++ [p.server.clientsockfd p.i] := by
    rw [filter_concat, if_pos (by simp [Calls.survives, hread])]
  have hroster : (p.server.hear p.i (e.number message)).2.roster = _ := roster_hear h.table.nodup hi
  refine ⟨tableOk_hear h.table hi, ⟨_, rest, hall, ?_, ?_, ?_⟩, ?_⟩
  · rw [hstays, List.append_assoc]
    change (p.server.hear p.i (e.number message)).2.roster.map Client.fd = _
    rw [hroster, fds_answer]
    exact hnow
  · rw [hstays, List.length_append, ← hidx]
    rfl
  · rw [filter_concat, if_pos hready, ← hreads]
  · change (p.server.hear p.i (e.number message)).2.roster = (p.reads ++ [p.server.clientsockfd p.i]).foldl e.serve s₀.roster
    rw [hroster, List.foldl_append, ← h.records, ← hserve]
    rfl

/-- A client that is not ready. -/
theorem passInv_skip {s₀ : Server} (h : e.PassInv s₀ p) (hi : p.i < p.server.numclient)
    (hready : e.ready (p.server.clientsockfd p.i) = false) : e.PassInv s₀ { p with i := p.i + 1 } := by
  obtain ⟨done, rest, hall, hnow, hidx, hreads⟩ := h.here hi
  have hstays : (done ++ [p.server.clientsockfd p.i]).filter e.survives = done.filter e.survives ++ [p.server.clientsockfd p.i] := by
    rw [filter_concat, if_pos (by simp [Calls.survives, hready])]
  refine ⟨h.table, ⟨_, rest, hall, ?_, ?_, ?_⟩, h.records⟩
  · rw [hstays, List.append_assoc]
    exact hnow
  · rw [hstays, List.length_append, ← hidx]
    rfl
  · rw [filter_concat, if_neg (by simp [hready]), List.append_nil]
    exact hreads

/-- The step of the loop: it keeps the invariant, and fewer clients are left to go through. -/
theorem passInv_body {s₀ : Server} (h : e.PassInv s₀ p) (hi : p.i < p.server.numclient) :
    e.PassInv s₀ (e.body p) ∧ (e.body p).server.numclient - (e.body p).i < p.server.numclient - p.i := by
  unfold Calls.body
  by_cases hready : p.server.clientsockfd p.i ∈ e.tempfds
  · rw [if_pos hready]
    cases hread : e.read (p.server.clientsockfd p.i) with
    | none =>
      refine ⟨passInv_disconnect h hi (decide_eq_true hready) hread, ?_⟩
      change p.server.numclient - 1 - p.i < p.server.numclient - p.i
      omega
    | some message =>
      refine ⟨passInv_hear h hi (decide_eq_true hready) hread, ?_⟩
      change (p.server.hear p.i (e.number message)).2.numclient - (p.i + 1) < p.server.numclient - p.i
      rw [(hear_frame p.server p.i (e.number message)).1]
      omega
  · rw [if_neg hready]
    refine ⟨passInv_skip h hi (decide_eq_false hready), ?_⟩
    change p.server.numclient - (p.i + 1) < p.server.numclient - p.i
    omega

/-- The loop ends, having been through all the clients. -/
theorem clients_pass (h : s.TableOk) : ∃ p, e.clients s = .ok p ∧ p.server.TableOk ∧ p.reads = s.fds.filter e.ready ∧
    p.server.roster = p.reads.foldl e.serve s.roster ∧ p.server.fds = s.fds.filter e.survives := by
  have hstart : e.PassInv s ⟨s, 0, []⟩ := ⟨h, ⟨[], s.fds, rfl, rfl, rfl, rfl⟩, rfl⟩
  obtain ⟨p, hp, hinv, hend⟩ := loopWhile_total (o := ()) (e.PassInv s) (fun p => p.server.numclient - p.i)
    (fun p hp ht => ⟨e.body p, rfl, passInv_body hp (of_decide_eq_true ht)⟩) hstart (Nat.lt_succ_self _)
  obtain ⟨hok, ⟨done, todo, hall, hnow, hidx, hreads⟩, hrec⟩ := hinv
  have hnil : todo = [] := by
    have hlen := length_fds p.server
    have hge : ¬p.i < p.server.numclient := of_decide_eq_false hend
    rw [hnow, List.length_append] at hlen
    exact List.length_eq_zero_iff.1 (by omega)
  rw [hnil, List.append_nil] at hall hnow
  rw [← hall] at hnow hreads
  exact ⟨p, hp, hok, hreads, hrec, hnow⟩

/-! ## The rounds -/

/-- A new client was not open when `select` returned, so that it is not in the snapshot. -/
theorem newSocket_not_ready (h : s.TableOk) (hp : e.Possible s) (hready : s.serverfd ∈ e.tempfds) : e.ready e.newSocket = false := by
  have ho := hp.2.1 hready
  refine decide_eq_false fun hin => ?_
  have hmem := (hp.1 _ hin).1
  rw [h.readfds, Finset.mem_insert, List.mem_toFinset] at hmem
  rcases hmem with heq | hmem
  · exact ho.1 heq
  · obtain ⟨c, hc, heq⟩ := List.mem_map.1 hmem
    exact ho.ne hc heq

theorem filter_ready_connect (h : s.TableOk) (hp : e.Possible s) : (e.connect s).fds.filter e.ready = s.fds.filter e.ready := by
  unfold Calls.connect
  split
  · rename_i hready
    have hnew := newSocket_not_ready h hp hready
    rw [fds_accept]
    split
    · rw [List.filter_append, List.filter_cons_of_neg (by simp [hnew])]
      exact List.append_nil _
    · rfl
  · rfl

theorem roundsOk_of_tableOk (h : s.TableOk) : s.roundsOk e := by
  intro hp
  obtain ⟨p, hp', _, hreads, hrec, hfds⟩ := clients_pass (e := e) (tableOk_connect h hp)
  rw [filter_ready_connect h hp] at hreads
  exact ⟨p, hp', hreads, hrec, hfds⟩

theorem tableOk_select (h : s.TableOk) (hs : s.select e = some s') : s'.TableOk := by
  unfold Server.select at hs
  split at hs
  · rename_i hp
    obtain ⟨p, hp', hok, _⟩ := clients_pass (e := e) (tableOk_connect h hp)
    rw [hp'] at hs
    exact Option.some.inj hs ▸ hok
  · cases hs

theorem tableOk_begin (serverfd : Nat) : (Server.begin serverfd).TableOk := by
  constructor
  · exact Nat.zero_le 5
  · exact List.nodup_nil
  · exact List.not_mem_nil
  · rfl
  · intro fd hfd
    rw [Finset.mem_singleton.1 hfd]
    exact Nat.le_refl _

/-- The table of clients and the rounds. After any rounds the table is in order; in each of them every ready client is read once and no
other is, however many disconnect, and the clients that stay keep their order and their records. -/
theorem rounds_keep_table (serverfd : Nat) (es : List Calls) : Always Server.select Server.TableOk (.begin serverfd) es ∧
    Meets Server.select Server.roundsOk (.begin serverfd) es :=
  ⟨always_of_kept (fun _ _ _ h hs => tableOk_select h hs) (tableOk_begin serverfd),
    meets_of_kept (fun _ _ _ h hs => tableOk_select h hs) (fun _ _ h => roundsOk_of_tableOk h) (tableOk_begin serverfd)⟩

end NetLabs.Chat
