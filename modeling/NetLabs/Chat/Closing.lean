import NetLabs.Chat.Select

/-!
# When a round of the chat server is closed

A round of the game is over when every client has sent its number. `main` looks whether it is after it has stored a number, and only then:
when the clients whose numbers are missing have sent them or gone, and the last of them to be read has gone, nobody is left to send
anything, and nothing is announced. The flags stay set, and each further number is refused as a duplicate.
-/

namespace NetLabs.Chat

open Function Machine

/-- There are fewer than two clients, or the number of one of them is missing. -/
def Server.RoundOpen (s : Server) : Prop := ¬(2 ≤ s.numclient ∧ s.allSent = true)

instance (s : Server) : Decidable s.RoundOpen := inferInstanceAs (Decidable (¬_))

/-- The clients whose number is missing, in the order of the table. -/
def missing (l : List Client) : List Nat := (l.filter fun c => !c.sent).map Client.fd

/-- A client is taken in. -/
def Calls.joins (e : Calls) (s : Server) : Prop := s.serverfd ∈ e.tempfds ∧ s.numclient < 5

instance (e : Calls) (s : Server) : Decidable (e.joins s) := inferInstanceAs (Decidable (_ ∧ _))

/-- In the coming `select` round: fewer than two clients are left, or one is taken in where no flag is left set, or one whose number is
missing has nothing to be read, or the last of these clients in the table has not disconnected. -/
def Server.closesRound (s : Server) (e : Calls) : Prop :=
  (s.fds.filter e.survives).length + (if e.joins s then 1 else 0) < 2 ∨ (e.joins s ∧ s.clientSent s.numclient = false) ∨
    (∃ fd ∈ missing s.roster, e.ready fd = false) ∨ ∃ fd ∈ (missing s.roster).getLast?, e.read fd ≠ none

/-- All of `m` are among those to be read, and the last of them that is read has disconnected. -/
def Calls.LastLeaves (e : Calls) (m todo : List Nat) : Prop :=
  (∀ fd ∈ m, fd ∈ todo) ∧ ∀ fd ∈ (todo.filter (· ∈ m)).getLast?, e.read fd = none

variable {s s' : Server} {e : Calls} {l : List Client} {fd : Nat} {m todo rest : List Nat} {number : Int} {c : Client}

/-! ## The numbers that are missing -/

theorem mem_missing : fd ∈ missing l ↔ ∃ c ∈ l, c.sent = false ∧ c.fd = fd := by
  simp [missing, and_assoc]

theorem missing_eq_nil_iff : missing l = [] ↔ ∀ c ∈ l, c.sent = true := by
  simp [missing]

theorem roundOpen_iff : s.RoundOpen ↔ ¬(2 ≤ s.roster.length ∧ missing s.roster = []) := by
  rw [Server.RoundOpen, length_roster, allSent_iff, missing_eq_nil_iff]

/-- A client with a number is not missing by its descriptor either. -/
theorem fd_mem_missing (hn : (l.map Client.fd).Nodup) (hc : c ∈ l) : c.fd ∈ missing l ↔ c.sent = false := by
  rw [mem_missing]
  constructor
  · rintro ⟨c', hc', hsent, heq⟩
    rw [← List.inj_on_of_nodup_map hn hc' hc heq]
    exact hsent
  · intro hsent
    exact ⟨c, hc, hsent, rfl⟩

/-- A client that has disconnected is no longer missing. -/
theorem missing_filter (l : List Client) (fd : Nat) :
    missing (l.filter fun c => c.fd ≠ fd) = (missing l).filter fun x => x ≠ fd := by
  rw [missing, missing, List.filter_map, List.filter_filter, List.filter_filter]
  congr 1
  exact List.filter_congr fun c _ => Bool.and_comm _ _

/-- Nor is one whose number has been stored. -/
theorem missing_store (l : List Client) (fd : Nat) (number : Int) :
    missing (l.map fun c => if c.fd = fd then { c with sent := true, number := number } else c) =
      (missing l).filter fun x => x ≠ fd := by
  induction l with
  | nil => rfl
  | cons c l ih =>
    unfold missing at ih ⊢
    rw [List.map_cons]
    by_cases hfd : c.fd = fd
    · rw [if_pos hfd, List.filter_cons_of_neg (by simp), ih]
      by_cases hsent : c.sent = true
      · rw [List.filter_cons_of_neg (by simp [hsent])]
      · rw [List.filter_cons_of_pos (by simp [hsent]), List.map_cons, List.filter_cons_of_neg (by simp [hfd])]
    · rw [if_neg hfd]
      by_cases hsent : c.sent = true
      · rw [List.filter_cons_of_neg (by simp [hsent]), ih, List.filter_cons_of_neg (by simp [hsent])]
      · rw [List.filter_cons_of_pos (by simp [hsent]), List.map_cons, ih, List.filter_cons_of_pos (by simp [hsent]), List.map_cons,
          List.filter_cons_of_pos (by simp [hfd])]

/-- After an announcement everybody is. -/
theorem missing_cleared (l : List Client) : missing (l.map fun c => { c with sent := false }) = l.map Client.fd := by
  have hcleared : ∀ c ∈ l.map fun c => { c with sent := false }, (!c.sent) = true := by
    intro c hc
    obtain ⟨c', -, rfl⟩ := List.mem_map.1 hc
    rfl
  rw [missing, List.filter_eq_self.2 hcleared, List.map_map]
  rfl

/-- What a message of a client leaves missing: as before, when it has sent already; the others; and everybody when there are none. -/
theorem missing_answer (hn : (l.map Client.fd).Nodup) (hmem : fd ∈ l.map Client.fd) (hmany : 2 ≤ l.length) (number : Int) :
    (fd ∉ missing l ∧ answer l fd number = l) ∨
      ((missing l).filter (fun x => x ≠ fd) ≠ [] ∧ missing (answer l fd number) = (missing l).filter fun x => x ≠ fd) ∨
      (fd ∈ missing l ∧ (missing l).filter (fun x => x ≠ fd) = [] ∧ missing (answer l fd number) = l.map Client.fd) := by
  obtain ⟨c, hc, rfl⟩ := List.mem_map.1 hmem
  have hstore := missing_store l c.fd number
  have hfew : ¬l.length < 2 := by omega
  unfold answer
  by_cases hsent : (c.fd, true) ∈ l.map fun c => (c.fd, c.sent)
  · left
    obtain ⟨c', hc', heq⟩ := List.mem_map.1 hsent
    obtain ⟨hfd, hset⟩ := Prod.mk.inj heq
    obtain rfl : c' = c := List.inj_on_of_nodup_map hn hc' hc hfd
    refine ⟨fun h => ?_, if_pos (Or.inr hsent)⟩
    rw [(fd_mem_missing hn hc).1 h] at hset
    cases hset
  · right
    have hmissing : c.fd ∈ missing l := by
      rw [fd_mem_missing hn hc, Bool.eq_false_iff]
      intro hset
      exact hsent (List.mem_map.2 ⟨c, hc, by rw [hset]⟩)
    rw [if_neg (not_or.2 ⟨hfew, hsent⟩)]
    dsimp only
    by_cases hall : (l.map fun x => if x.fd = c.fd then { x with sent := true, number := number } else x).all Client.sent = true
    · right
      rw [if_pos hall]
      rw [List.all_eq_true, ← missing_eq_nil_iff, hstore] at hall
      exact ⟨hmissing, hall, (missing_cleared _).trans (fds_record l c.fd number)⟩
    · left
      rw [if_neg hall, hstore]
      rw [List.all_eq_true, ← missing_eq_nil_iff, hstore] at hall
      exact ⟨hall, rfl⟩

/-! ## Going through the clients -/

theorem filter_mem_cons (fd : Nat) (m rest : List Nat) :
    (fd :: rest).filter (· ∈ m) = if fd ∈ m then fd :: rest.filter (· ∈ m) else rest.filter (· ∈ m) := by
  rw [List.filter_cons]
  simp only [decide_eq_true_eq]

/-- A client is read that is not among those the rest depends on, or one that disconnects, or one that is not the last. -/
theorem lastLeaves_cons (hnew : fd ∉ rest) (h : fd ∈ m → e.read fd = none ∨ m.filter (fun x => x ≠ fd) ≠ []) :
    e.LastLeaves (m.filter fun x => x ≠ fd) rest ↔ e.LastLeaves m (fd :: rest) := by
  have hsame : (rest.filter fun x => x ∈ m.filter fun x => x ≠ fd) = rest.filter (· ∈ m) := by
    refine List.filter_congr fun x hx => ?_
    have hne : x ≠ fd := fun heq => hnew (heq ▸ hx)
    simp [hne]
  have hall : (∀ x ∈ m.filter fun x => x ≠ fd, x ∈ rest) ↔ ∀ x ∈ m, x ∈ fd :: rest := by
    constructor
    · intro hsub x hx
      by_cases hne : x = fd
      · exact hne ▸ List.mem_cons_self
      · exact List.mem_cons_of_mem _ (hsub x (List.mem_filter.2 ⟨hx, decide_eq_true hne⟩))
    · intro hsub x hx
      obtain ⟨hx, hne⟩ := List.mem_filter.1 hx
      exact (List.mem_cons.1 (hsub x hx)).resolve_left (of_decide_eq_true hne)
  unfold Calls.LastLeaves
  rw [hsame, hall]
  refine and_congr_right fun hsub => ?_
  by_cases hrest : rest.filter (· ∈ m) = []
  · -- nobody is left, so that it is this client that counts
    have hothers : m.filter (fun x => x ≠ fd) = [] := by
      rw [List.eq_nil_iff_forall_not_mem]
      intro x hx
      have hin : x ∈ rest.filter (· ∈ m) := List.mem_filter.2 ⟨hall.2 hsub x hx, decide_eq_true (List.mem_filter.1 hx).1⟩
      rw [hrest] at hin
      cases hin
    by_cases hfd : fd ∈ m
    · have hgone : e.read fd = none := (h hfd).resolve_right fun hne => hne hothers
      rw [filter_mem_cons, if_pos hfd, hrest]
      simp [hgone]
    · rw [filter_mem_cons, if_neg hfd]
  · by_cases hfd : fd ∈ m
    · rw [filter_mem_cons, if_pos hfd, List.getLast?_cons_of_ne_nil hrest]
    · rw [filter_mem_cons, if_neg hfd]

/-- A client whose number completes the set has not left. -/
theorem not_lastLeaves_cons (hnew : fd ∉ rest) (hfd : fd ∈ m) (hothers : m.filter (fun x => x ≠ fd) = []) (hread : e.read fd ≠ none) :
    ¬e.LastLeaves m (fd :: rest) := by
  rintro ⟨-, hlast⟩
  have hnobody : rest.filter (· ∈ m) = [] := by
    rw [List.eq_nil_iff_forall_not_mem]
    intro x hx
    obtain ⟨hx, hm⟩ := List.mem_filter.1 hx
    have hin : x ∈ m.filter fun x => x ≠ fd :=
      List.mem_filter.2 ⟨of_decide_eq_true hm, decide_eq_true fun heq => hnew (heq ▸ hx)⟩
    rw [hothers] at hin
    cases hin
  rw [filter_mem_cons, if_pos hfd, hnobody] at hlast
  exact hread (hlast fd rfl)

theorem fds_serve (e : Calls) (l : List Client) (fd : Nat) : (e.serve l fd).map Client.fd =
    if e.read fd = none then (l.map Client.fd).filter (fun x => x ≠ fd) else l.map Client.fd := by
  unfold Calls.serve
  cases e.read fd with
  | none =>
    rw [if_pos rfl, List.filter_map]
    rfl
  | some message =>
    rw [if_neg (Option.some_ne_none _)]
    exact fds_answer _ _ _

theorem nodup_serve (hn : (l.map Client.fd).Nodup) : ((e.serve l fd).map Client.fd).Nodup := by
  rw [fds_serve]
  split
  · exact hn.filter _
  · exact hn

/-- Whoever else is a client stays one. -/
theorem mem_fds_serve {x : Nat} (hne : x ≠ fd) (hx : x ∈ l.map Client.fd) : x ∈ (e.serve l fd).map Client.fd := by
  rw [fds_serve]
  split
  · exact List.mem_filter.2 ⟨hx, decide_eq_true hne⟩
  · exact hx

/-- Clients only become fewer. -/
theorem length_foldl_serve (e : Calls) (todo : List Nat) (l : List Client) : (todo.foldl e.serve l).length ≤ l.length := by
  induction todo generalizing l with
  | nil => exact Nat.le_refl _
  | cons fd rest ih =>
    have hone : (e.serve l fd).length ≤ l.length := by
      have hfds := congrArg List.length (fds_serve e l fd)
      rw [List.length_map] at hfds
      rw [hfds]
      split
      · exact (List.length_filter_le _ _).trans_eq (List.length_map _)
      · exact (List.length_map _).le
    exact (ih (e.serve l fd)).trans hone

/-- When at least two clients are left, no number is missing exactly when all clients whose number was have been read, and the last of
them has disconnected. -/
theorem missing_foldl_serve (hn : (l.map Client.fd).Nodup) (htodo : todo.Nodup) (hsub : ∀ fd ∈ todo, fd ∈ l.map Client.fd)
    (hmany : 2 ≤ (todo.foldl e.serve l).length) : missing (todo.foldl e.serve l) = [] ↔ e.LastLeaves (missing l) todo := by
  induction todo generalizing l with
  | nil =>
    rw [List.foldl_nil, List.eq_nil_iff_forall_not_mem]
    exact ⟨fun h => ⟨fun fd hfd => absurd hfd (h fd), nofun⟩, fun h fd hfd => nomatch h.1 fd hfd⟩
  | cons fd rest ih =>
    obtain ⟨hnew, hrest⟩ := List.nodup_cons.1 htodo
    have hmem : fd ∈ l.map Client.fd := hsub fd List.mem_cons_self
    have hlen := length_foldl_serve e (fd :: rest) l
    have hsub' : ∀ x ∈ rest, x ∈ (e.serve l fd).map Client.fd := by
      intro x hx
      have hne : x ≠ fd := fun heq => hnew (heq ▸ hx)
      exact mem_fds_serve hne (hsub x (List.mem_cons_of_mem _ hx))
    rw [List.foldl_cons] at hmany hlen ⊢
    rw [ih (nodup_serve hn) hrest hsub' hmany]
    cases hread : e.read fd with
    | none =>
      have hserve : e.serve l fd = l.filter fun c => c.fd ≠ fd := by rw [Calls.serve, hread]
      rw [hserve, missing_filter]
      exact lastLeaves_cons hnew fun _ => Or.inl hread
    | some message =>
      have hserve : e.serve l fd = answer l fd (e.number message) := by rw [Calls.serve, hread]
      rw [hserve]
      rcases missing_answer hn hmem (by omega) (e.number message) with ⟨hsent, heq⟩ | ⟨hothers, heq⟩ | ⟨hlast, hothers, heq⟩
      · have hkept : (missing l).filter (fun x => x ≠ fd) = missing l :=
          List.filter_eq_self.2 fun x hx => decide_eq_true fun hx' => hsent (hx' ▸ hx)
        rw [heq, ← lastLeaves_cons hnew fun h => absurd h hsent, hkept]
      · rw [heq]
        exact lastLeaves_cons hnew fun _ => Or.inr hothers
      · -- the number completes the set: everybody starts afresh, and this client has been read already
        have hstays : e.read fd ≠ none := by
          rw [hread]
          exact Option.some_ne_none _
        rw [heq]
        exact iff_of_false (fun h => hnew (h.1 fd hmem)) (not_lastLeaves_cons hnew hlast hothers hstays)

/-! ## The rounds -/

/-- Those who are missing, of the clients that are ready. -/
theorem lastLeaves_ready (hn : (l.map Client.fd).Nodup) : e.LastLeaves (missing l) ((l.map Client.fd).filter e.ready) ↔
    (∀ fd ∈ missing l, e.ready fd = true) ∧ ∀ fd ∈ (missing l).getLast?, e.read fd = none := by
  have hfds : ∀ fd ∈ missing l, fd ∈ l.map Client.fd := by
    intro fd hfd
    obtain ⟨c, hc, -, rfl⟩ := mem_missing.1 hfd
    exact List.mem_map_of_mem hc
  have hall : (∀ fd ∈ missing l, fd ∈ (l.map Client.fd).filter e.ready) ↔ ∀ fd ∈ missing l, e.ready fd = true :=
    forall₂_congr fun fd hfd => by rw [List.mem_filter, and_iff_right (hfds fd hfd)]
  rw [Calls.LastLeaves, hall]
  refine and_congr_right fun hready => ?_
  have hsame : ((l.map Client.fd).filter e.ready).filter (· ∈ missing l) = missing l := by
    rw [List.filter_filter, List.filter_map]
    refine congrArg (List.map Client.fd) (List.filter_congr fun c hc => ?_)
    have hmem := fd_mem_missing hn hc
    cases hsent : c.sent with
    | true => simp [Function.comp_apply, hmem, hsent]
    | false => simp [Function.comp_apply, hmem, hsent, hready c.fd (hmem.2 hsent)]
  rw [hsame]

/-- The records after the new connection. -/
theorem roster_connect (e : Calls) (s : Server) : (e.connect s).roster =
    if e.joins s then s.roster ++ [⟨e.newSocket, s.clientSent s.numclient, s.clientNumbers s.numclient⟩] else s.roster := by
  unfold Calls.connect
  by_cases hready : s.serverfd ∈ e.tempfds
  · have hj : e.joins s ↔ s.numclient < 5 := and_iff_right hready
    rw [if_pos hready, roster_accept]
    simp only [hj]
  · have hj : ¬e.joins s := fun h => hready h.1
    rw [if_neg hready, if_neg hj]

/-- What the condition says of the table after the new connection. -/
theorem closesRound_iff (h : s.TableOk) (hp : e.Possible s) : s.closesRound e ↔
    ¬(2 ≤ ((e.connect s).fds.filter e.survives).length ∧ (∀ fd ∈ missing (e.connect s).roster, e.ready fd = true) ∧
      ∀ fd ∈ (missing (e.connect s).roster).getLast?, e.read fd = none) := by
  have hsame : ∀ n, (n < 2 ∨ (∃ fd ∈ missing s.roster, e.ready fd = false) ∨ ∃ fd ∈ (missing s.roster).getLast?, e.read fd ≠ none) ↔
      ¬(2 ≤ n ∧ (∀ fd ∈ missing s.roster, e.ready fd = true) ∧ ∀ fd ∈ (missing s.roster).getLast?, e.read fd = none) := by
    intro n
    simp only [not_and_or, not_forall, exists_prop, Nat.not_le, Bool.not_eq_true, ne_eq]
  have hfds : (e.connect s).fds = (e.connect s).roster.map Client.fd := rfl
  rw [Server.closesRound, hfds, roster_connect]
  by_cases hj : e.joins s
  · have hnew := newSocket_not_ready h hp hj.1
    have hstays : e.survives e.newSocket = true := by simp [Calls.survives, hnew]
    have hlen : ∀ c : Client, c.fd = e.newSocket →
        (((s.roster ++ [c]).map Client.fd).filter e.survives).length = (s.fds.filter e.survives).length + 1 := by
      intro c hc
      rw [List.map_append, List.filter_append, List.length_append, List.map_singleton, hc, List.filter_cons_of_pos hstays]
      rfl
    simp only [hj, if_true, true_and]
    cases hflag : s.clientSent s.numclient with
    | true =>
      have hmissing : missing (s.roster ++ [⟨e.newSocket, true, s.clientNumbers s.numclient⟩]) = missing s.roster := by
        simp [missing]
      rw [hmissing, hlen _ rfl, ← hsame]
      simp
    | false =>
      -- the new client has yet to send, and nothing of it is read in this round
      have hwaits : e.newSocket ∈ missing (s.roster ++ [⟨e.newSocket, false, s.clientNumbers s.numclient⟩]) := by
        simp [missing]
      refine iff_of_true (Or.inr (Or.inl rfl)) ?_
      rintro ⟨-, hall, -⟩
      exact Bool.false_ne_true (hnew.symm.trans (hall _ hwaits))
  · simp only [hj, if_false, Nat.add_zero, false_and, false_or]
    exact hsame _

/-- One round. -/
theorem roundOpen_select (h : s.TableOk) (hs : s.select e = some s') : s'.RoundOpen ↔ s.closesRound e := by
  unfold Server.select at hs
  split at hs
  · rename_i hp
    obtain ⟨p, hp', hok⟩ := roundsOk_of_tableOk h hp
    rw [hp'] at hs
    obtain rfl := Option.some.inj hs
    have hnodup : ((e.connect s).roster.map Client.fd).Nodup := (tableOk_connect h hp).nodup
    have hlen : p.server.roster.length = ((e.connect s).fds.filter e.survives).length := by
      rw [← hok.order, length_fds, length_roster]
    have hreads : p.reads = ((e.connect s).roster.map Client.fd).filter e.ready := by
      rw [hok.reads, ← filter_ready_connect h hp]
      rfl
    rw [roundOpen_iff, closesRound_iff h hp, hlen, ← lastLeaves_ready hnodup]
    refine not_congr (and_congr_right fun hmany => ?_)
    rw [← hlen, hok.records, hreads] at hmany
    rw [hok.records, hreads]
    exact missing_foldl_serve hnodup (hnodup.filter _) (fun fd hfd => (List.mem_filter.1 hfd).1) hmany
  · cases hs

/-- In every state between the rounds there are fewer than two clients, or the number of one is missing, exactly when no round ends the
set of missing numbers by a departure, or by taking in a client where a flag is left set. -/
theorem rounds_closed_iff (serverfd : Nat) (es : List Calls) (hx : exec Server.select (.begin serverfd) es = some s') :
    Always Server.select Server.RoundOpen (.begin serverfd) es ↔ Meets Server.select Server.closesRound (.begin serverfd) es :=
  always_iff_meets (I := Server.TableOk) (fun _ _ _ h hs => tableOk_select h hs)
    (fun _ _ _ h _ hg hs => (roundOpen_select h hs).2 hg) (fun _ _ _ h _ hg hs ho => hg ((roundOpen_select h hs).1 ho))
    (tableOk_begin serverfd) (fun h => Nat.not_succ_le_zero 1 h.1) hx

/-- Two clients play a round: one number and then the other. -/
def playedRounds : List Calls :=
  [⟨{3}, 4, fun _ => none, fun _ => 0⟩, ⟨{3}, 5, fun _ => none, fun _ => 0⟩,
    ⟨{4}, 0, fun _ => some (CText.text "7"), fun _ => 0⟩, ⟨{5}, 0, fun _ => some (CText.text "12"), fun _ => 0⟩]

/-- `rounds_closed_iff` on it. -/
theorem rounds_closed_two : ∃ s', exec Server.select (.begin 3) playedRounds = some s' ∧
    (Always Server.select Server.RoundOpen (.begin 3) playedRounds ↔
      Meets Server.select Server.closesRound (.begin 3) playedRounds) := by
  have hrun : (exec Server.select (.begin 3) playedRounds).isSome = true := by decide +kernel
  obtain ⟨s', hx⟩ := Option.isSome_iff_exists.1 hrun
  exact ⟨s', hx, rounds_closed_iff 3 playedRounds hx⟩

/-- Three clients connect, the first two send their numbers, and the third disconnects. -/
def leftRounds : List Calls :=
  [⟨{3}, 4, fun _ => none, fun _ => 0⟩, ⟨{3}, 5, fun _ => none, fun _ => 0⟩, ⟨{3}, 6, fun _ => none, fun _ => 0⟩,
    ⟨{4, 5}, 0, fun _ => some (CText.text "7"), fun _ => 0⟩, ⟨{6}, 0, fun _ => none, fun _ => 0⟩]

/-- Both that are left have sent their numbers, and nothing has been announced. -/
theorem last_missing_leaves : ¬Always Server.select Server.RoundOpen (.begin 3) leftRounds := by
  intro hall
  have hrun : (exec Server.select (.begin 3) leftRounds).any
      (fun s => decide (¬s.RoundOpen) && s.sent.all fun r => match r.2 with
        | .result _ _ _ => false
        | .sendNumber _ | .duplicate _ => true) = true := by decide +kernel
  obtain ⟨s, hs, hbad⟩ := (Option.any_eq_true _ _).1 hrun
  exact of_decide_eq_true (Bool.and_eq_true_iff.1 hbad).1 (hall _ (List.prefix_refl _) s hs)

end NetLabs.Chat
