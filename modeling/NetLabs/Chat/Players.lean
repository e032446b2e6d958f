import NetLabs.Chat.Announcements

/-!
# The server and its own clients

`chatclient.c` sends the lines its user types that are digits, and shows what comes from the server. Here the clients of the server are
these, over connections that keep bytes in order and no boundaries, and each user answers a round once, after being asked for it. Then no
client is ever refused, and every result is the maximum of the numbers that the clients have been asked for in that very round, as long as
no client is taken in where a flag is left set.
-/

namespace NetLabs.Chat

open CText Function Machine

/-! ## The code -/

/-- What the client sends for a line that `fgets` has read: the line as far as its newline or a NUL, if that is digits. -/
def typedNumber (line : List UInt8) : List UInt8 :=
  if (line.takeWhile fun b => b != 10 && b != 0).all isDigit then line.takeWhile fun b => b != 10 && b != 0 else []

/-- What a client has sent last, and the round its user has answered with it. -/
structure Answer where
  round : Nat
  number : List UInt8
  deriving DecidableEq

/-- A round that has ended, the maximum announced, and the last answer of every client that was there. -/
structure Finale where
  round : Nat
  maxNum : Int
  answers : List (Option Answer)

/-- The server and what its clients have been told; for each descriptor, what its client has sent that is not read and its last answer;
and the rounds that have ended. -/
structure Party where
  audience : Audience
  toServer : Nat → List UInt8
  answer : Nat → Option Answer
  finales : List Finale

/-- What happens: a client comes or goes, its user types a line as the answer to a round, the server reads from it. -/
inductive Play where
  | connect (newSocket : Nat)
  | disconnect (i : Nat)
  | type (fd round : Nat) (line : List UInt8)
  | read (i n : Nat)

/-- The beginning. -/
def Party.begin (serverfd : Nat) : Party := ⟨.begin serverfd, fun _ => [], fun _ => none, []⟩

/-- The round that a message ends, if it does. -/
def Party.finale (x : Party) (i : Nat) (message : List UInt8) : List Finale :=
  match x.audience.game.server.message i message with
  | some (.announced _ maxNum, _) => [⟨x.audience.game.server.round, maxNum, x.audience.game.server.fds.map x.answer⟩]
  | _ => []

/-- The bytes of a client that the server reads. -/
def Party.chunk (x : Party) (i n : Nat) : List UInt8 := (x.toServer (x.audience.game.server.clientsockfd i)).take n

/-- One step; `fgets` reads at most 1023 bytes. -/
def Party.step (x : Party) : Play → Option Party
  | .connect newSocket => (x.audience.step (.connect newSocket)).map fun audience =>
    { x with audience := audience, toServer := update x.toServer newSocket [], answer := update x.answer newSocket none }
  | .disconnect i => (x.audience.step (.disconnect i)).map fun audience => { x with audience := audience }
  | .type fd round line =>
    if fd ∈ x.audience.game.server.fds ∧ line.length ≤ 1023 then
      if typedNumber line = [] then some x
      else some { x with
        toServer := update x.toServer fd (x.toServer fd ++ typedNumber line)
        answer := update x.answer fd (some ⟨round, typedNumber line⟩) }
    else none
  | .read i n =>
    if n ≤ (x.toServer (x.audience.game.server.clientsockfd i)).length then
      (x.audience.step (.message i (x.chunk i n))).map fun audience =>
        { x with
          audience := audience
          toServer := update x.toServer (x.audience.game.server.clientsockfd i)
            ((x.toServer (x.audience.game.server.clientsockfd i)).drop n)
          finales := x.finales ++ x.finale i (x.chunk i n) }
    else none

/-- The client has been asked for a number of the round since it was taken in. -/
def Party.asked (x : Party) (fd round : Nat) : Prop := ∃ r ∈ x.audience.told fd, r.asksFor = some round

/-- The last round its user has answered. -/
def Party.answered (x : Party) (fd : Nat) : Nat := ((x.answer fd).map Answer.round).getD 0

/-- A user answers a round it has been asked for and has not answered, with a number that an `int` can hold; and a `read` returns all
that there is. -/
def Party.byRules (x : Party) : Play → Prop
  | .type fd round line => x.asked fd round ∧ x.answered fd < round ∧ (number? (typedNumber line)).isSome = true
  | .read i n => n = (x.toServer (x.audience.game.server.clientsockfd i)).length
  | _ => True

instance (x : Party) (fd round : Nat) : Decidable (x.asked fd round) := inferInstanceAs (Decidable (∃ _ ∈ _, _))

instance (x : Party) (a : Play) : Decidable (x.byRules a) :=
  match a with
  | .type _ _ _ => inferInstanceAs (Decidable (_ ∧ _ ∧ _))
  | .read _ _ => inferInstanceAs (Decidable (_ = _))
  | .connect _ | .disconnect _ => isTrue trivial

/-- A client is taken in only where no flag is left set. -/
def Party.joinsClear (x : Party) : Play → Prop
  | .connect newSocket => x.audience.game.joinsClear (.connect newSocket)
  | _ => True

instance (x : Party) (a : Play) : Decidable (x.joinsClear a) :=
  match a with
  | .connect newSocket => inferInstanceAs (Decidable (x.audience.game.joinsClear (.connect newSocket)))
  | .type _ _ _ | .read _ _ | .disconnect _ => isTrue trivial

/-! ## What the game is to be -/

/-- Every client has answered this round, and the maximum is that of the answers. -/
def Finale.Right (f : Finale) : Prop := ∃ numbers : List Int,
  List.Forall₂ (fun answer n => ∃ text, answer = some ⟨f.round, text⟩ ∧ number? text = some n) f.answers numbers ∧
    f.maxNum ∈ numbers ∧ ∀ n ∈ numbers, n ≤ f.maxNum

/-- A flag says that the client has answered the open round, with the number that is its entry; what a client has under way is its answer
to the open round, whole, and the server can read it; nobody has been refused; and the rounds that have ended were right. -/
structure Party.Right (x : Party) : Prop where
  game : x.audience.game.Right
  recorded : ∀ c ∈ x.audience.game.server.roster, c.sent = true →
    ∃ text, x.answer c.fd = some ⟨x.audience.game.server.round, text⟩ ∧ number? text = some c.number
  under_way : ∀ c ∈ x.audience.game.server.roster, x.toServer c.fd ≠ [] → c.sent = false ∧
    x.answer c.fd = some ⟨x.audience.game.server.round, x.toServer c.fd⟩ ∧ (x.toServer c.fd).length ≤ 1023 ∧
      (number? (x.toServer c.fd)).isSome = true
  unrefused : ∀ before, Event.refused before ∉ x.audience.game.log
  finales : ∀ f ∈ x.finales, f.Right

/-- Nobody has answered a round that is not open yet, and whoever has been asked for one before the open one has answered it. -/
structure Party.Inv (x : Party) : Prop where
  audience : x.audience.Inv
  answered_le : ∀ fd ∈ x.audience.game.server.fds, x.answered fd ≤ x.audience.game.server.round
  asked : ∀ fd ∈ x.audience.game.server.fds, ∀ round, x.asked fd round → round = x.audience.game.server.round ∨ round ≤ x.answered fd

variable {x x' : Party} {y y' : Audience} {a : Action} {s s' : Server} {i n fd round : Nat} {number : Int} {line message : List UInt8}
  {new : List (Nat × Reply)} {reply : Reply}

/-! ## What the clients are asked -/

/-- What is sent asks for a number of the round that is open then. -/
theorem Said.asks (h : Said s a s' new) : s.round ≤ s'.round ∧ ∀ m ∈ new, ∀ r ∈ m.2.asksFor, r = s'.round := by
  cases h with
  | joined newSocket _ _ _ _ _ hround hnew =>
    refine ⟨hround.ge, fun m hm r hr => ?_⟩
    have hrequest : m.2 = .sendNumber s.round := by
      rw [hnew] at hm
      split at hm
      · split at hm
        · obtain ⟨fd, -, rfl⟩ := List.mem_map.1 hm
          rfl
        · rw [List.mem_singleton.1 hm]
      · cases hm
    rw [hrequest] at hr
    rw [hround]
    exact (Option.some.inj hr).symm
  | quiet _ _ _ _ _ hround => exact ⟨hround.ge, fun m hm => by cases hm⟩
  | refused i message _ _ hround =>
    refine ⟨hround.ge, fun m hm r hr => ?_⟩
    rw [List.mem_singleton.1 hm] at hr
    cases hr
  | announced i message _ maxNum winner _ _ hround =>
    refine ⟨by omega, fun m hm r hr => ?_⟩
    obtain ⟨fd, -, rfl⟩ := List.mem_map.1 hm
    rw [hround]
    exact (Option.some.inj hr).symm

/-- Whoever is a client after an action was one before, or has been taken in. -/
theorem Said.mem_fds (h : Said s a s' new) (hfd : fd ∈ s'.fds) : fd ∈ s.fds ∨ a = .connect fd ∧ s.numclient < 5 := by
  cases h with
  | joined newSocket _ _ hlt _ hfds =>
    rw [hfds, List.mem_append, List.mem_singleton] at hfd
    rcases hfd with hold | rfl
    · exact Or.inl hold
    · exact Or.inr ⟨rfl, hlt⟩
  | quiet _ _ _ hfds => exact Or.inl (hfds fd hfd)
  | refused i message _ hfds | announced i message _ _ _ _ hfds => exact Or.inl (hfds ▸ hfd)

theorem after_game (y : Audience) (a : Action) (g : Game) : (y.after a g).game = g := by
  cases a with
  | connect newSocket =>
    unfold Audience.after
    dsimp only
    split <;> rfl
  | disconnect | message => rfl

/-- The round does not go back. -/
theorem round_le (h : y.step a = some y') : y.game.server.round ≤ y'.game.server.round := by
  obtain ⟨g, hg, rfl⟩ := Option.map_eq_some_iff.1 h
  obtain ⟨new, -, hsaid⟩ := step_said hg
  rw [after_game]
  exact hsaid.asks.1

/-- Whoever is a client after an action was one before, or has been taken in. -/
theorem mem_fds_step (h : y.step a = some y') (hfd : fd ∈ y'.game.server.fds) :
    fd ∈ y.game.server.fds ∨ a = .connect fd ∧ y.game.server.numclient < 5 := by
  obtain ⟨g, hg, rfl⟩ := Option.map_eq_some_iff.1 h
  obtain ⟨new, -, hsaid⟩ := step_said hg
  rw [after_game] at hfd
  exact hsaid.mem_fds hfd

/-- What a client has been asked after an action is about the open round, or was asked before. -/
theorem asks_step (hi : y.Inv) (h : y.step a = some y') (hfd : fd ∈ y'.game.server.fds) (hr : reply ∈ y'.told fd)
    (hask : reply.asksFor = some round) : round = y'.game.server.round ∨ fd ∈ y.game.server.fds ∧ reply ∈ y.told fd := by
  obtain ⟨g, hg, rfl⟩ := Option.map_eq_some_iff.1 h
  obtain ⟨new, hs, hsaid⟩ := step_said hg
  have hasks : reply ∈ toldIn new fd → round = g.server.round := by
    intro hin
    obtain ⟨m, hm, rfl⟩ := List.mem_map.1 hin
    exact hsaid.asks.2 m (List.mem_of_mem_filter hm) round hask
  have hsent : (y.after a g).game.server.sent = y.game.server.sent ++ new := by
    rw [after_game]
    exact hs
  rw [after_game] at hfd ⊢
  by_cases hjoin : a = .connect fd ∧ y.game.server.numclient < 5
  · have hsince : (y.after a g).since fd = y.game.server.sent.length := by
      rw [hjoin.1, Audience.after, if_pos hjoin.2]
      exact update_self ..
    rw [told_new hsent hsince] at hr
    exact Or.inl (hasks hr)
  · have hold : fd ∈ y.game.server.fds := (hsaid.mem_fds hfd).resolve_right hjoin
    have hsince : (y.after a g).since fd = y.since fd := by
      cases a with
      | connect newSocket =>
        unfold Audience.after
        dsimp only
        split
        · rename_i hlt
          refine update_of_ne (fun heq => hjoin ⟨?_, hlt⟩) ..
          rw [heq]
        · rfl
      | disconnect | message => rfl
    rw [told_append hsent hsince (hi.since fd hold), List.mem_append] at hr
    rcases hr with hr | hr
    · exact Or.inr ⟨hold, hr⟩
    · exact Or.inl (hasks hr)

/-- The invariant after an action of the game. A round ends only when every client has answered it. -/
theorem inv_next (hi : x.Inv) (h : x.audience.step a = some x'.audience)
    (hold : ∀ fd ∈ x'.audience.game.server.fds, fd ∈ x.audience.game.server.fds → x'.answered fd = x.answered fd)
    (hnew : ∀ fd ∈ x'.audience.game.server.fds, fd ∉ x.audience.game.server.fds → x'.answered fd = 0)
    (hround : x'.audience.game.server.round = x.audience.game.server.round ∨
      ∀ fd ∈ x.audience.game.server.fds, x.answered fd = x.audience.game.server.round) : x'.Inv := by
  have hle := round_le h
  refine ⟨audience_step hi.audience h, fun fd hfd => ?_, fun fd hfd round hasked => ?_⟩
  · by_cases hin : fd ∈ x.audience.game.server.fds
    · rw [hold fd hfd hin]
      exact (hi.answered_le fd hin).trans hle
    · rw [hnew fd hfd hin]
      exact Nat.zero_le _
  · obtain ⟨reply, hr, hask⟩ := hasked
    rcases asks_step hi.audience h hfd hr hask with hopen | ⟨hin, hr⟩
    · exact Or.inl hopen
    · rw [hold fd hfd hin]
      have hbefore := hi.asked fd hin round ⟨reply, hr, hask⟩
      rcases hround with hsame | hall
      · rw [hsame]
        exact hbefore
      · have hdone := hall fd hin
        exact Or.inr (by omega)

/-! ## A line is typed -/

theorem length_typedNumber (line : List UInt8) : (typedNumber line).length ≤ line.length := by
  unfold typedNumber
  split
  · exact (List.takeWhile_prefix _).length_le
  · exact Nat.zero_le _

theorem answered_of_answer {text : List UInt8} (h : x.answer fd = some ⟨round, text⟩) : x.answered fd = round := by
  rw [Party.answered, h]
  rfl

/-- Where a user may answer, the round is open, and nothing of its client is under way or recorded. -/
theorem round_open (hi : x.Inv) (hp : x.Right) (hfd : fd ∈ x.audience.game.server.fds) (hasked : x.asked fd round)
    (hlater : x.answered fd < round) : round = x.audience.game.server.round ∧
      ∀ c ∈ x.audience.game.server.roster, c.fd = fd → c.sent = false ∧ x.toServer fd = [] := by
  have hround : round = x.audience.game.server.round := (hi.asked fd hfd round hasked).resolve_right (Nat.not_le.2 hlater)
  refine ⟨hround, ?_⟩
  rintro c hc rfl
  constructor
  · by_contra hsent
    obtain ⟨text, hanswer, -⟩ := hp.recorded c hc (Bool.eq_true_of_not_eq_false hsent)
    have := answered_of_answer hanswer
    omega
  · by_contra hfull
    have := answered_of_answer (hp.under_way c hc hfull).2.1
    omega

theorem type_keep (hi : x.Inv) (hp : x.Right) (hg : x.byRules (.type fd round line)) (h : x.step (.type fd round line) = some x') :
    x'.Inv ∧ x'.Right := by
  obtain ⟨hasked, hlater, hnumber⟩ := hg
  obtain ⟨⟨hfd, hlen⟩, h⟩ := Option.ite_none_right_eq_some.1 h
  obtain ⟨hround, hidle⟩ := round_open hi hp hfd hasked hlater
  split at h
  · cases h
    exact ⟨hi, hp⟩
  · cases h
    constructor
    · have hanswered : ∀ fd', Party.answered { x with
          toServer := update x.toServer fd (x.toServer fd ++ typedNumber line)
          answer := update x.answer fd (some ⟨round, typedNumber line⟩) } fd' = if fd' = fd then round else x.answered fd' := by
        intro fd'
        by_cases heq : fd' = fd
        · rw [if_pos heq, heq]
          exact answered_of_answer (update_self ..)
        · rw [if_neg heq, Party.answered, Party.answered]
          dsimp only
          rw [update_of_ne heq]
      refine ⟨hi.audience, fun fd' hfd' => ?_, fun fd' hfd' round' hasked' => ?_⟩
      · rw [hanswered]
        split
        · exact hround.le
        · exact hi.answered_le fd' hfd'
      · have hbefore := hi.asked fd' hfd' round' hasked'
        rw [hanswered]
        split
        · rename_i heq
          rw [heq] at hbefore
          exact hbefore.imp_right fun hle => by omega
        · exact hbefore
    · refine ⟨hp.game, fun c hc hsent => ?_, fun c hc hfull => ?_, hp.unrefused, hp.finales⟩
      · dsimp only
        have hne : c.fd ≠ fd := fun heq => by
          have hclear := (hidle c hc heq).1
          rw [hsent] at hclear
          cases hclear
        rw [update_of_ne hne]
        exact hp.recorded c hc hsent
      · dsimp only at hfull ⊢
        by_cases heq : c.fd = fd
        · obtain ⟨hclear, hnil⟩ := hidle c hc heq
          rw [heq, update_self, update_self, hnil, List.nil_append, ← hround]
          exact ⟨hclear, rfl, (length_typedNumber line).trans hlen, hnumber⟩
        · rw [update_of_ne heq] at hfull ⊢
          rw [update_of_ne heq]
          exact hp.under_way c hc hfull

/-! ## A client comes or goes -/

theorem connect_keep {newSocket : Nat} (hi : x.Inv) (hp : x.Right) (hg : x.joinsClear (.connect newSocket))
    (h : x.step (.connect newSocket) = some x') : x'.Inv ∧ x'.Right := by
  obtain ⟨audience, hstep, rfl⟩ := Option.map_eq_some_iff.1 h
  obtain ⟨g, hgame, rfl⟩ := Option.map_eq_some_iff.1 hstep
  have hright := game_right_keep (a := .connect newSocket) hi.audience.game hp.game hg hgame
  obtain ⟨hopens, hg'⟩ := Option.ite_none_right_eq_some.1 hgame
  cases hg'
  have hround : (x.audience.game.server.accept newSocket).round = x.audience.game.server.round := by
    unfold Server.accept
    split <;> rfl
  have hother : ∀ fd ∈ x.audience.game.server.fds, fd ≠ newSocket := by
    intro fd hfd
    obtain ⟨c, hc, rfl⟩ := List.mem_map.1 hfd
    exact hopens.ne hc
  -- a client was there before, or is the new one, whose flag is clear
  have hcases : ∀ c ∈ (x.audience.game.server.accept newSocket).roster,
      c ∈ x.audience.game.server.roster ∧ c.fd ≠ newSocket ∨ c.fd = newSocket ∧ c.sent = false := by
    intro c hc
    rw [roster_accept] at hc
    split at hc
    · rename_i hlt
      rw [List.mem_append, List.mem_singleton] at hc
      rcases hc with hc | rfl
      · exact Or.inl ⟨hc, hopens.ne hc⟩
      · exact Or.inr ⟨rfl, hg hlt⟩
    · exact Or.inl ⟨hc, hopens.ne hc⟩
  constructor
  · refine inv_next hi hstep (fun fd _ hin => ?_) (fun fd hfd hout => ?_) (Or.inl ?_)
    · rw [Party.answered, Party.answered]
      dsimp only
      rw [update_of_ne (hother fd hin)]
    · obtain ⟨heq, -⟩ := (mem_fds_step hstep hfd).resolve_left hout
      obtain rfl : newSocket = fd := Action.connect.inj heq
      rw [Party.answered]
      dsimp only
      rw [update_self]
      rfl
    · dsimp only
      rw [after_game]
      exact hround
  · refine ⟨?_, fun c hc hsent => ?_, fun c hc hfull => ?_, ?_, hp.finales⟩
    · dsimp only
      rw [after_game]
      exact hright
    · dsimp only at hc ⊢
      rw [after_game] at hc ⊢
      dsimp only
      rw [hround]
      rcases hcases c hc with ⟨hold, hne⟩ | ⟨-, hclear⟩
      · rw [update_of_ne hne]
        exact hp.recorded c hold hsent
      · rw [hsent] at hclear
        cases hclear
    · dsimp only at hc hfull ⊢
      rw [after_game] at hc ⊢
      dsimp only
      rw [hround]
      rcases hcases c hc with ⟨hold, hne⟩ | ⟨heq, -⟩
      · rw [update_of_ne hne] at hfull ⊢
        rw [update_of_ne hne]
        exact hp.under_way c hold hfull
      · rw [heq, update_self] at hfull
        exact absurd rfl hfull
    · dsimp only
      rw [after_game]
      exact hp.unrefused

theorem disconnect_keep (hi : x.Inv) (hp : x.Right) (h : x.step (.disconnect i) = some x') : x'.Inv ∧ x'.Right := by
  obtain ⟨audience, hstep, rfl⟩ := Option.map_eq_some_iff.1 h
  obtain ⟨g, hgame, rfl⟩ := Option.map_eq_some_iff.1 hstep
  have hright := game_right_keep (a := .disconnect i) hi.audience.game hp.game trivial hgame
  obtain ⟨hlt, hg'⟩ := Option.ite_none_right_eq_some.1 hgame
  cases hg'
  have hold : ∀ c ∈ (x.audience.game.server.disconnect i).roster, c ∈ x.audience.game.server.roster := by
    intro c hc
    rw [roster_disconnect hlt] at hc
    exact List.mem_of_mem_eraseIdx hc
  constructor
  · refine inv_next hi hstep (fun _ _ _ => rfl) (fun fd hfd hout => ?_) (Or.inl rfl)
    obtain ⟨heq, -⟩ := (mem_fds_step hstep hfd).resolve_left hout
    cases heq
  · exact ⟨hright, fun c hc hsent => hp.recorded c (hold c hc) hsent, fun c hc hfull => hp.under_way c (hold c hc) hfull,
      hp.unrefused, hp.finales⟩

/-! ## The server reads -/

/-- What a message of a client whose flag is clear can come to. -/
theorem message_unsent {r : Outcome × Server} (hsent : s.clientSent i = false) (h : s.message i message = some r) :
    r = (.dropped, s) ∨ 2 ≤ s.numclient ∧ ∃ number, number? message = some number ∧
      ((s.store i number).allSent = false ∧ r = (.stored number, s.store i number) ∨ (s.store i number).allSent = true ∧
        r = (.announced number (findMax (s.store i number).clientNumbers s.numclient).1, (s.store i number).announce)) := by
  unfold Server.message at h
  by_cases hfew : s.numclient < 2
  · rw [if_pos hfew] at h
    obtain ⟨-, h⟩ := Option.ite_none_right_eq_some.1 h
    rw [Server.hear, if_pos hfew] at h
    exact Or.inl (Option.some.inj h).symm
  · rw [if_neg hfew, hsent, if_neg Bool.false_ne_true] at h
    obtain ⟨number, hnumber, rfl⟩ := Option.map_eq_some_iff.1 h
    refine Or.inr ⟨Nat.not_lt.1 hfew, number, hnumber, ?_⟩
    rw [Server.hear, if_neg hfew, hsent, if_neg Bool.false_ne_true]
    by_cases hall : (s.store i number).allSent = true
    · rw [if_pos hall]
      exact Or.inr ⟨hall, rfl⟩
    · rw [if_neg hall]
      exact Or.inl ⟨Bool.eq_false_iff.2 hall, rfl⟩

/-- Every flag that is set after a number is stored has its answer. -/
theorem recorded_store (hp : x.Right) (hanswer : x.answer (x.audience.game.server.clientsockfd i) =
      some ⟨x.audience.game.server.round, message⟩) (hnumber : number? message = some number) :
    ∀ c ∈ (x.audience.game.server.store i number).roster, c.sent = true →
      ∃ text, x.answer c.fd = some ⟨x.audience.game.server.round, text⟩ ∧ number? text = some c.number := by
  intro c hc hsent
  obtain ⟨j, hj, rfl⟩ := mem_roster.1 hc
  by_cases hij : j = i
  · subst hij
    refine ⟨message, hanswer, ?_⟩
    rw [hnumber]
    simp [Server.client, Server.store]
  · have hsame : (x.audience.game.server.store i number).client j = x.audience.game.server.client j := by
      simp [Server.client, Server.store, update_of_ne hij]
    rw [hsame] at hsent ⊢
    exact hp.recorded _ (mem_roster.2 ⟨j, hj, rfl⟩) hsent

/-- When all have sent, the maximum is that of the answers to the round. -/
theorem finale_right (hmany : 2 ≤ x.audience.game.server.numclient)
    (hrecorded : ∀ c ∈ (x.audience.game.server.store i number).roster, c.sent = true →
      ∃ text, x.answer c.fd = some ⟨x.audience.game.server.round, text⟩ ∧ number? text = some c.number)
    (hall : (x.audience.game.server.store i number).allSent = true) :
    Finale.Right ⟨x.audience.game.server.round,
      (findMax (x.audience.game.server.store i number).clientNumbers x.audience.game.server.numclient).1,
      x.audience.game.server.fds.map x.answer⟩ := by
  have hanswered : ∀ c ∈ (x.audience.game.server.store i number).roster,
      ∃ text, x.answer c.fd = some ⟨x.audience.game.server.round, text⟩ ∧ number? text = some c.number :=
    fun c hc => hrecorded c hc (allSent_iff.1 hall c hc)
  have hfds : x.audience.game.server.fds = (x.audience.game.server.store i number).roster.map Client.fd := (fds_store _ i number).symm
  have hrange : ∀ j < x.audience.game.server.numclient, -2147483648 ≤ (x.audience.game.server.store i number).clientNumbers j := by
    intro j hj
    obtain ⟨text, -, hnumber⟩ := hanswered _ (mem_roster.2 ⟨j, hj, rfl⟩)
    exact number?_range hnumber
  obtain ⟨hmax, k, hk, hmem⟩ := findMax_maximum (by omega) hrange
  refine ⟨(x.audience.game.server.store i number).roster.map Client.number, ?_, ?_, ?_⟩
  · dsimp only
    rw [hfds, List.map_map, List.forall₂_map_left_iff, List.forall₂_map_right_iff, List.forall₂_same]
    exact hanswered
  · exact List.mem_map.2 ⟨_, mem_roster.2 ⟨k, hk, rfl⟩, hmem⟩
  · intro n hn
    obtain ⟨c, hc, rfl⟩ := List.mem_map.1 hn
    obtain ⟨j, hj, rfl⟩ := mem_roster.1 hc
    exact hmax j hj

/-- The game is right after a read, if the server is and the rounds that have ended were. -/
theorem right_read {r : Outcome × Server} {finales : List Finale} (hgame : (x.audience.game.after fd r).Right)
    (hrecorded : ∀ c ∈ r.2.roster, c.sent = true → ∃ text, x.answer c.fd = some ⟨r.2.round, text⟩ ∧ number? text = some c.number)
    (hway : ∀ c ∈ r.2.roster, c.fd ≠ fd → x.toServer c.fd ≠ [] → c.sent = false ∧
      x.answer c.fd = some ⟨r.2.round, x.toServer c.fd⟩ ∧ (x.toServer c.fd).length ≤ 1023 ∧ (number? (x.toServer c.fd)).isSome = true)
    (hlog : ∀ before, Event.refused before ∉ (x.audience.game.after fd r).log) (hfinales : ∀ f ∈ finales, f.Right) :
    Party.Right { x with
      audience := x.audience.after a (x.audience.game.after fd r)
      toServer := update x.toServer fd []
      finales := finales } := by
  refine ⟨?_, fun c hc hsent => ?_, fun c hc hfull => ?_, ?_, hfinales⟩
  · dsimp only
    rw [after_game]
    exact hgame
  · dsimp only at hc ⊢
    rw [after_game, after_server] at hc ⊢
    exact hrecorded c hc hsent
  · dsimp only at hc hfull ⊢
    rw [after_game, after_server] at hc ⊢
    by_cases heq : c.fd = fd
    · rw [heq, update_self] at hfull
      exact absurd rfl hfull
    · rw [update_of_ne heq] at hfull ⊢
      exact hway c hc heq hfull
  · dsimp only
    rw [after_game]
    exact hlog

theorem read_keep (hi : x.Inv) (hp : x.Right) (hg : x.byRules (.read i n)) (h : x.step (.read i n) = some x') :
    x'.Inv ∧ x'.Right := by
  obtain ⟨-, h⟩ := Option.ite_none_right_eq_some.1 h
  obtain ⟨audience, hstep, rfl⟩ := Option.map_eq_some_iff.1 h
  have hg : n = (x.toServer (x.audience.game.server.clientsockfd i)).length := hg
  have hchunk : x.chunk i n = x.toServer (x.audience.game.server.clientsockfd i) := by rw [Party.chunk, hg, List.take_length]
  have hrest : (x.toServer (x.audience.game.server.clientsockfd i)).drop n = [] := by rw [hg, List.drop_length]
  rw [hrest]
  rw [hchunk] at hstep ⊢
  generalize hmessage : x.toServer (x.audience.game.server.clientsockfd i) = message at hstep ⊢
  obtain ⟨g, hgame, rfl⟩ := Option.map_eq_some_iff.1 hstep
  have hright := game_right_keep (a := .message i message) hi.audience.game hp.game trivial hgame
  obtain ⟨⟨hlt, hpos, -⟩, hgame'⟩ := Option.ite_none_right_eq_some.1 hgame
  obtain ⟨r, hr, rfl⟩ := Option.map_eq_some_iff.1 hgame'
  obtain ⟨hclear, hanswer, -, -⟩ := hp.under_way _ (mem_roster.2 ⟨i, hlt, rfl⟩) (by
    change x.toServer (x.audience.game.server.clientsockfd i) ≠ []
    rw [hmessage]
    exact List.length_pos_iff.1 hpos)
  have hanswer : x.answer (x.audience.game.server.clientsockfd i) = some ⟨x.audience.game.server.round, message⟩ := hmessage ▸ hanswer
  have hnobody : ∀ fd, ¬(Action.message i message = .connect fd ∧ x.audience.game.server.numclient < 5) := by simp
  rcases message_unsent hclear hr with rfl | ⟨hmany, number, hnumber, hstored⟩
  · have hfinale : x.finale i message = [] := by rw [Party.finale, hr]
    rw [hfinale, List.append_nil]
    refine ⟨?_, right_read hright hp.recorded (fun c hc _ hfull => hp.under_way c hc hfull) hp.unrefused hp.finales⟩
    refine inv_next hi hstep (fun _ _ _ => rfl) (fun fd hfd hout => absurd (mem_fds_step hstep hfd) ?_) (Or.inl rfl)
    exact not_or.2 ⟨hout, hnobody fd⟩
  · have hrecorded := recorded_store hp hanswer hnumber
    -- the flag of another client is what it was
    have hother : ∀ c ∈ (x.audience.game.server.store i number).roster, c.fd ≠ x.audience.game.server.clientsockfd i →
        c ∈ x.audience.game.server.roster := by
      intro c hc hne
      obtain ⟨j, hj, rfl⟩ := mem_roster.1 hc
      refine mem_roster.2 ⟨j, hj, ?_⟩
      have hij : j ≠ i := fun heq => hne (heq ▸ rfl)
      simp [Server.client, Server.store, update_of_ne hij]
    rcases hstored with ⟨-, rfl⟩ | ⟨hall, rfl⟩
    · have hfinale : x.finale i message = [] := by rw [Party.finale, hr]
      rw [hfinale, List.append_nil]
      refine ⟨?_, right_read hright hrecorded (fun c hc hne hfull => hp.under_way c (hother c hc hne) hfull) hp.unrefused hp.finales⟩
      refine inv_next hi hstep (fun _ _ _ => rfl) (fun fd hfd hout => absurd (mem_fds_step hstep hfd) ?_) (Or.inl rfl)
      exact not_or.2 ⟨hout, hnobody fd⟩
    · have hfinale : x.finale i message = [⟨x.audience.game.server.round,
          (findMax (x.audience.game.server.store i number).clientNumbers x.audience.game.server.numclient).1,
          x.audience.game.server.fds.map x.answer⟩] := by
        rw [Party.finale, hr]
      have hclears : ∀ c ∈ (x.audience.game.server.store i number).announce.roster, c.sent = false := by
        intro c hc
        rw [roster_announce] at hc
        obtain ⟨_, -, rfl⟩ := List.mem_map.1 hc
        rfl
      rw [hfinale]
      constructor
      · refine inv_next hi hstep (fun _ _ _ => rfl) (fun fd hfd hout => absurd (mem_fds_step hstep hfd) ?_) (Or.inr fun fd hfd => ?_)
        · exact not_or.2 ⟨hout, hnobody fd⟩
        · have hfds : (x.audience.game.server.store i number).roster.map Client.fd = x.audience.game.server.fds := fds_store _ i number
          rw [← hfds] at hfd
          obtain ⟨c, hc, rfl⟩ := List.mem_map.1 hfd
          obtain ⟨text, htext, -⟩ := hrecorded c hc (allSent_iff.1 hall c hc)
          exact answered_of_answer htext
      · refine right_read hright (fun c hc hsent => ?_) (fun c hc hne hfull => ?_) (fun before hin => ?_) (fun f hf => ?_)
        · rw [hclears c hc] at hsent
          cases hsent
        · -- nobody else has anything under way, having sent
          rw [roster_announce] at hc
          obtain ⟨c, hin, rfl⟩ := List.mem_map.1 hc
          have hidle := (hp.under_way c (hother c hin hne) hfull).1
          rw [allSent_iff.1 hall c hin] at hidle
          cases hidle
        · rcases List.mem_append.1 hin with hin | hin
          · exact hp.unrefused before hin
          · cases List.mem_singleton.1 hin
        · rcases List.mem_append.1 hf with hf | hf
          · exact hp.finales f hf
          · rw [List.mem_singleton.1 hf]
            exact finale_right hmany hrecorded hall

/-! ## Every run -/

theorem play_keep {a : Play} (hi : x.Inv) (hp : x.Right) (hr : x.byRules a) (hg : x.joinsClear a) (h : x.step a = some x') :
    x'.Inv ∧ x'.Right := by
  cases a with
  | connect newSocket => exact connect_keep hi hp hg h
  | disconnect i => exact disconnect_keep hi hp h
  | type fd round line => exact type_keep hi hp hr h
  | read i n => exact read_keep hi hp hr h

/-- A client that is taken in where a flag is set has not answered. -/
theorem play_break {a : Play} (hg : ¬x.joinsClear a) (h : x.step a = some x') : ¬x'.Right := by
  cases a with
  | connect newSocket =>
    obtain ⟨audience, hstep, rfl⟩ := Option.map_eq_some_iff.1 h
    obtain ⟨g, hgame, rfl⟩ := Option.map_eq_some_iff.1 hstep
    intro hp
    refine game_right_break (a := .connect newSocket) hg hgame ?_
    have hgame' := hp.game
    dsimp only at hgame'
    rw [after_game] at hgame'
    exact hgame'
  | disconnect | type | read => exact absurd trivial hg

theorem party_begin (serverfd : Nat) : (Party.begin serverfd).Inv ∧ (Party.begin serverfd).Right := by
  have hnobody : ∀ fd ∈ (Party.begin serverfd).audience.game.server.fds, False := fun fd hfd => List.not_mem_nil hfd
  refine ⟨⟨audience_begin serverfd, fun fd hfd => (hnobody fd hfd).elim, fun fd hfd => (hnobody fd hfd).elim⟩,
    (game_begin_right serverfd).2, fun c hc => ?_, fun c hc => ?_, fun before hin => ?_, fun f hf => ?_⟩
  · exact (List.not_mem_nil hc).elim
  · exact (List.not_mem_nil hc).elim
  · exact List.not_mem_nil hin
  · exact (List.not_mem_nil hf).elim

/-- The server and its own clients. Along every run in which each user answers a round once, after being asked for it, and a `read` returns
all there is, every flag, every number under way and every result is that of an answer to the very round it is taken for, and no client is
refused, exactly when no client is taken in where a flag is left set. -/
theorem players_right_iff (serverfd : Nat) (plays : List Play) (hx : exec Party.step (.begin serverfd) plays = some x')
    (hrules : Meets Party.step Party.byRules (.begin serverfd) plays) :
    Always Party.step Party.Right (.begin serverfd) plays ↔ Meets Party.step Party.joinsClear (.begin serverfd) plays :=
  always_iff_meets_given (fun _ _ _ => play_keep) (fun _ _ _ _ _ _ => play_break) (party_begin serverfd).1 (party_begin serverfd).2
    hrules hx

/-- Two users play a round. -/
def playersRun : List Play :=
  [.connect 4, .connect 5, .type 4 1 (text "7\n"), .type 5 1 (text "12\n"), .read 1 2, .read 0 1, .type 5 2 (text "3\n")]

/-- `players_right_iff` on it. -/
theorem players_right_two : Always Party.step Party.Right (.begin 3) playersRun := by
  have hrun : (exec Party.step (.begin 3) playersRun).isSome = true := by decide +kernel
  obtain ⟨x', hx⟩ := Option.isSome_iff_exists.1 hrun
  exact (players_right_iff 3 playersRun hx (by decide +kernel)).2 (by decide +kernel)

end NetLabs.Chat
