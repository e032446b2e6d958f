import NetLabs.Chat.Rounds
import Mathlib.Data.Finset.Card
import Mathlib.Data.Finset.Range
import Mathlib.Order.Interval.Finset.Nat
import Mathlib.Data.Fintype.EquivFin

/-!
# Whether another result can come

`client_sent` has five entries. Only a client whose flag is clear is asked to do anything, only an announcement clears flags, and the
entries behind the clients that are connected keep what they held. So a result can still come as long as one of the five flags is
clear, whoever is connected; and when the last clear one is moved out of the table with the client that has it, no result comes any
more. -/

namespace NetLabs.Chat

open Function Machine

/-- Some run from here announces a result: nothing else raises the number of the round. -/
def Game.CanAnnounce (x : Game) : Prop := CanReach Game.step (fun y => x.server.round < y.server.round) x

/-- One of the five entries of `client_sent` is clear. -/
def Server.SomeClear (s : Server) : Prop := ∃ i < 5, s.clientSent i = false

instance (s : Server) : Decidable s.SomeClear := inferInstanceAs (Decidable (∃ _, _))

/-- A client leaves that is not the last in the table, and all flags but its own are set. -/
def Game.strands (x : Game) : Action → Prop
  | .disconnect i => i + 1 < x.server.numclient ∧ ∀ j < 5, j ≠ i → x.server.clientSent j = true
  | _ => False

instance (x : Game) (a : Action) : Decidable (x.strands a) :=
  match a with
  | .disconnect _ => inferInstanceAs (Decidable (_ ∧ _))
  | .connect _ | .message _ _ => isFalse not_false

/-- The clear entries. -/
def Server.clearFlags (s : Server) : Finset Nat := (Finset.range 5).filter fun i => s.clientSent i = false

/-- There are no more clients than entries. -/
def Game.Seated (x : Game) : Prop := x.server.numclient ≤ 5

variable {x x' : Game} {a : Action} {s : Server} {i : Nat} {number : Int}

theorem mem_clearFlags : i ∈ s.clearFlags ↔ i < 5 ∧ s.clientSent i = false := by
  rw [Server.clearFlags, Finset.mem_filter, Finset.mem_range]

/-! ## One action -/

/-- What an action does to the flags, the number of clients and the round. -/
inductive Played (s : Server) : Action → Server → Prop where
  | joined (newSocket : Nat) (hlt : s.numclient < 5) (s' : Server) (hsent : s'.clientSent = s.clientSent)
      (hnum : s'.numclient = s.numclient + 1) (hround : s'.round = s.round) : Played s (.connect newSocket) s'
  | full (newSocket : Nat) (hge : 5 ≤ s.numclient) : Played s (.connect newSocket) s
  | left (i : Nat) (hlt : i < s.numclient) : Played s (.disconnect i) (s.disconnect i)
  | heard (i : Nat) (message : List UInt8) (hlt : i < s.numclient) (r : Outcome × Server) (hr : Answered s i r) :
      Played s (.message i message) r.2

theorem after_server (x : Game) (fd : Nat) (r : Outcome × Server) : (x.after fd r).server = r.2 := by
  obtain ⟨o, s⟩ := r
  cases o <;> rfl

theorem step_played (h : x.step a = some x') : Played x.server a x'.server := by
  cases a with
  | connect newSocket =>
    obtain ⟨-, ⟨⟩⟩ := Option.ite_none_right_eq_some.1 h
    change Played x.server (.connect newSocket) (x.server.accept newSocket)
    unfold Server.accept
    split
    · rename_i hlt
      exact .joined newSocket hlt _ rfl rfl rfl
    · rename_i hge
      exact .full newSocket (Nat.not_lt.1 hge)
  | disconnect i =>
    obtain ⟨hlt, ⟨⟩⟩ := Option.ite_none_right_eq_some.1 h
    exact .left i hlt
  | message i message =>
    obtain ⟨⟨hlt, -⟩, h⟩ := Option.ite_none_right_eq_some.1 h
    obtain ⟨r, hr, rfl⟩ := Option.map_eq_some_iff.1 h
    rw [after_server]
    exact .heard i message hlt r (message_answered hr)

/-- A message does not change how many clients there are. -/
theorem Answered.numclient {r : Outcome × Server} (h : Answered s i r) : r.2.numclient = s.numclient := by
  cases h <;> rfl

/-- Every action leaves at most five clients. -/
theorem seated_step (hi : x.Seated) (h : x.step a = some x') : x'.Seated := by
  have hplayed := step_played h
  rw [Game.Seated] at hi ⊢
  generalize x'.server = s' at hplayed
  cases hplayed with
  | joined newSocket hlt _ _ hnum => omega
  | full newSocket hge => exact hi
  | left i hlt =>
    have hnum : (x.server.disconnect i).numclient = x.server.numclient - 1 := rfl
    omega
  | heard i message hlt r hr => exact hr.numclient.le.trans hi

/-- The flags after a client has left. -/
theorem clientSent_disconnect (s : Server) (i j : Nat) :
    (s.disconnect i).clientSent j = if i ≤ j ∧ j < s.numclient - 1 then s.clientSent (j + 1) else s.clientSent j := rfl

/-- A flag is clear after a client has left, unless it was the only one and was moved out of the table. -/
theorem someClear_disconnect (hle : s.numclient ≤ 5) (hclear : s.SomeClear) (hlt : i < s.numclient) :
    (s.disconnect i).SomeClear ↔ ¬(i + 1 < s.numclient ∧ ∀ j < 5, j ≠ i → s.clientSent j = true) := by
  constructor
  · rintro ⟨j, hj, hflag⟩ ⟨hmore, hall⟩
    rw [clientSent_disconnect] at hflag
    split at hflag
    · rw [hall (j + 1) (by omega) (by omega)] at hflag
      cases hflag
    · rw [hall j hj (by omega)] at hflag
      cases hflag
  · intro hnot
    -- the flag that is clear and is still in the table: the one of another client, or the leaver's in the last place
    have hkept : ∃ j < 5, s.clientSent j = false ∧ (j ≠ i ∨ s.numclient ≤ i + 1) := by
      by_cases hmore : i + 1 < s.numclient
      · by_contra hnone
        refine hnot ⟨hmore, fun j hj hne => ?_⟩
        by_contra hflag
        exact hnone ⟨j, hj, Bool.eq_false_iff.2 hflag, Or.inl hne⟩
      · obtain ⟨j, hj, hflag⟩ := hclear
        exact ⟨j, hj, hflag, Or.inr (Nat.not_lt.1 hmore)⟩
    obtain ⟨j, hj, hflag, hplace⟩ := hkept
    by_cases hmoved : i < j ∧ j < s.numclient
    · refine ⟨j - 1, by omega, ?_⟩
      have hj1 : j - 1 + 1 = j := by omega
      rw [clientSent_disconnect, if_pos (by omega), hj1]
      exact hflag
    · refine ⟨j, hj, ?_⟩
      rw [clientSent_disconnect, if_neg (by omega)]
      exact hflag

/-- A message that is heard leaves a flag clear: of a client still asked, or of all that are connected. -/
theorem someClear_heard {r : Outcome × Server} (hclear : s.SomeClear) (hle : s.numclient ≤ 5) (h : Answered s i r) : r.2.SomeClear := by
  cases h with
  | dropped | duplicate => exact hclear
  | stored number hmany hsent hrange hall =>
    rw [Bool.eq_false_iff, Ne, allSent_iff] at hall
    simp only [not_forall, Bool.not_eq_true] at hall
    obtain ⟨c, hc, hflag⟩ := hall
    obtain ⟨j, hj, rfl⟩ := mem_roster.1 hc
    have hj : j < s.numclient := hj
    exact ⟨j, by omega, hflag⟩
  | announced number hmany hsent hrange hall =>
    have hzero : ((s.store i number).announce).clientSent 0 = false := if_pos (by change 0 < s.numclient; omega)
    exact ⟨0, by decide, hzero⟩

/-- A flag stays clear unless the client that has the last clear one leaves. -/
theorem someClear_step (hi : x.Seated) (hclear : x.server.SomeClear) (h : x.step a = some x') :
    x'.server.SomeClear ↔ ¬x.strands a := by
  have hplayed := step_played h
  generalize x'.server = s' at hplayed
  cases hplayed with
  | joined newSocket hlt _ hsent hnum hround =>
    rw [Server.SomeClear, hsent]
    exact iff_of_true hclear not_false
  | full newSocket hge => exact iff_of_true hclear not_false
  | left i hlt => exact someClear_disconnect hi hclear hlt
  | heard i message hlt r hr => exact iff_of_true (someClear_heard hclear hi hr) not_false

/-! ## No result without a clear flag -/

/-- With all flags set an action leaves them set, and announces nothing. -/
theorem stranded_step (hi : x.Seated ∧ ¬x.server.SomeClear) (h : x.step a = some x') :
    (x'.Seated ∧ ¬x'.server.SomeClear) ∧ x'.server.round = x.server.round := by
  have hseated := seated_step hi.1 h
  obtain ⟨hle, hset⟩ := hi
  rw [Game.Seated] at hle
  have hall : ∀ j < 5, x.server.clientSent j = true := by
    intro j hj
    by_contra hflag
    exact hset ⟨j, hj, Bool.eq_false_iff.2 hflag⟩
  have hplayed := step_played h
  suffices hrest : ¬x'.server.SomeClear ∧ x'.server.round = x.server.round from ⟨⟨hseated, hrest.1⟩, hrest.2⟩
  generalize x'.server = s' at hplayed ⊢
  cases hplayed with
  | joined newSocket hlt _ hsent hnum hround =>
    rw [Server.SomeClear, hsent]
    exact ⟨hset, hround⟩
  | full newSocket hge => exact ⟨hset, rfl⟩
  | left i hlt =>
    refine ⟨?_, rfl⟩
    rintro ⟨j, hj, hflag⟩
    rw [clientSent_disconnect] at hflag
    split at hflag
    · rw [hall (j + 1) (by omega)] at hflag
      cases hflag
    · rw [hall j hj] at hflag
      cases hflag
  | heard i message hlt r hr =>
    have hsent := hall i (by omega)
    cases hr with
    | dropped | duplicate => exact ⟨hset, rfl⟩
    | stored number hmany hclear | announced number hmany hclear =>
      rw [hsent] at hclear
      cases hclear

/-! ## A result with one -/

/-- There is a descriptor that is not open. -/
theorem exists_opens (s : Server) : ∃ newSocket, s.Opens newSocket := by
  obtain ⟨fd, hfd⟩ := Infinite.exists_notMem_finset (insert s.serverfd ((Finset.range s.numclient).image s.clientsockfd))
  rw [Finset.mem_insert, not_or, Finset.mem_image] at hfd
  exact ⟨fd, hfd.1, fun j hj heq => hfd.2 ⟨j, Finset.mem_range.2 hj, heq⟩⟩

/-- While there is room, a client can connect. -/
theorem exists_join (h : x.server.numclient < 5) : ∃ newSocket x', x.step (.connect newSocket) = some x' ∧
    x'.server.numclient = x.server.numclient + 1 ∧ x'.server.clientSent = x.server.clientSent ∧ x'.server.round = x.server.round := by
  obtain ⟨newSocket, hopens⟩ := exists_opens x.server
  have hjoin : x.server.accept newSocket =
      { x.server.join newSocket with sent := x.server.sent ++ (x.server.join newSocket).requests } := if_pos h
  refine ⟨newSocket, _, if_pos hopens, ?_⟩
  dsimp only
  rw [hjoin]
  exact ⟨rfl, rfl, rfl⟩

/-- A client whose flag is clear can send a number. -/
theorem exists_number (hmany : 2 ≤ x.server.numclient) (hlt : i < x.server.numclient) (hflag : x.server.clientSent i = false) :
    ∃ x', x.step (.message i [49]) = some x' ∧ x'.server = (x.server.hear i 1).2 := by
  have hone : number? [49] = some 1 := by decide
  have hmessage : x.server.message i [49] = some (x.server.hear i 1) := by
    rw [Server.message, if_neg (by omega), hflag, if_neg Bool.false_ne_true, hone, Option.map_some]
  refine ⟨x.after (x.server.clientsockfd i) (x.server.hear i 1), ?_, after_server _ _ _⟩
  have hstep : x.step (.message i [49]) = (x.server.message i [49]).map (x.after (x.server.clientsockfd i)) :=
    if_pos ⟨hlt, by decide, by decide⟩
  rw [hstep, hmessage, Option.map_some]

/-- A number that is stored is one flag less. -/
theorem card_clearFlags_store (hle : s.numclient ≤ 5) (hlt : i < s.numclient) (hflag : s.clientSent i = false) (number : Int) :
    (s.store i number).clearFlags.card < s.clearFlags.card := by
  refine Finset.card_lt_card ((Finset.ssubset_iff_of_subset ?_).2 ⟨i, mem_clearFlags.2 ⟨by omega, hflag⟩, ?_⟩)
  · intro j hj
    obtain ⟨hj5, hj⟩ := mem_clearFlags.1 hj
    refine mem_clearFlags.2 ⟨hj5, ?_⟩
    have hold : update s.clientSent i true j = false := hj
    by_cases hij : j = i
    · rw [hij]
      exact hflag
    · rwa [update_of_ne hij] at hold
  · intro hi
    have hset : update s.clientSent i true i = false := (mem_clearFlags.1 hi).2
    rw [update_self] at hset
    cases hset

/-- From a state with a clear flag, one action announces a result or leads closer to it: a client whose flag is clear sends its
number, and if there is none, another client connects. -/
theorem someClear_progress (hle : x.Seated) (hclear : x.server.SomeClear) : ∃ a x', x.step a = some x' ∧ ¬x.strands a ∧
    (x.server.round < x'.server.round ∨ x'.server.round = x.server.round ∧
      x'.server.clearFlags.card + (5 - x'.server.numclient) < x.server.clearFlags.card + (5 - x.server.numclient)) := by
  rw [Game.Seated] at hle
  by_cases hasked : 2 ≤ x.server.numclient ∧ ∃ i < x.server.numclient, x.server.clientSent i = false
  · obtain ⟨hmany, i, hlt, hflag⟩ := hasked
    obtain ⟨x', hstep, hserver⟩ := exists_number hmany hlt hflag
    refine ⟨_, x', hstep, not_false, ?_⟩
    rw [hserver]
    generalize hr : x.server.hear i 1 = r
    have hans : Answered x.server i r := hr ▸ hear_answered i (by decide)
    cases hans with
    | dropped hfew => omega
    | duplicate _ hsent =>
      rw [hflag] at hsent
      cases hsent
    | stored number => exact Or.inr ⟨rfl, Nat.add_lt_add_right (card_clearFlags_store hle hlt hflag number) _⟩
    | announced number => exact Or.inl (Nat.lt_succ_self _)
  · have hroom : x.server.numclient < 5 := by
      by_contra hfull
      obtain ⟨i, hi, hflag⟩ := hclear
      exact hasked ⟨by omega, i, by omega, hflag⟩
    obtain ⟨newSocket, x', hstep, hnum, hsent, hround⟩ := exists_join hroom
    have hflags : x'.server.clearFlags = x.server.clearFlags := by rw [Server.clearFlags, hsent, Server.clearFlags]
    refine ⟨_, x', hstep, not_false, Or.inr ⟨hround, ?_⟩⟩
    rw [hflags, hnum]
    omega

/-- Where the table is not overfull, a result can come exactly when a flag is clear. -/
theorem canAnnounce_iff_someClear (hi : x.Seated) : x.CanAnnounce ↔ x.server.SomeClear := by
  constructor
  · intro hreach
    by_contra hset
    refine not_canReach (I := fun y => (y.Seated ∧ ¬y.server.SomeClear) ∧ y.server.round = x.server.round) ?_ ?_
      ⟨⟨hi, hset⟩, rfl⟩ hreach
    · intro y a y' hy h
      obtain ⟨hy', hround⟩ := stranded_step hy.1 h
      exact ⟨hy', hround.trans hy.2⟩
    · intro y hy hlater
      have := hy.2
      omega
  · intro hclear
    refine canReach_of_progress (I := fun y => y.Seated ∧ y.server.SomeClear ∧ x.server.round ≤ y.server.round)
      (f := fun y => y.server.clearFlags.card + (5 - y.server.numclient)) ?_ ⟨hi, hclear, Nat.le_refl _⟩
    rintro y ⟨hseated, hy, hround⟩ -
    obtain ⟨a, y', hstep, hkept, hnext⟩ := someClear_progress hseated hy
    have hclear' : y'.server.SomeClear := (someClear_step hseated hy hstep).2 hkept
    refine ⟨[a], y', exec_cons_eq_some.2 ⟨y', hstep, rfl⟩, ?_⟩
    rcases hnext with hlater | ⟨hsame, hless⟩
    · exact Or.inl (by omega)
    · exact Or.inr ⟨⟨seated_step hseated hstep, hclear', by omega⟩, hless⟩

/-! ## Every run -/

theorem seated_begin (serverfd : Nat) : (Game.begin serverfd).Seated := Nat.zero_le 5

/-- When the game is over for good. After every run of connects, disconnects and messages, some continuation announces another result
exactly when one of the five flags is clear, whoever is connected; from then on no client can bring one about. -/
theorem canAnnounce_iff (serverfd : Nat) (actions : List Action) (x : Game) (hx : exec Game.step (.begin serverfd) actions = some x) :
    x.CanAnnounce ↔ ∃ i < 5, x.server.clientSent i = false :=
  canAnnounce_iff_someClear
    (always_of_kept (fun _ _ _ => seated_step) (seated_begin serverfd) actions (List.prefix_refl actions) x hx)

/-- Five clients are connected, all but the first send a number, and the first leaves. -/
def strandedRun : List Action :=
  [.connect 4, .connect 5, .connect 6, .connect 7, .connect 8, .message 1 [49], .message 2 [50], .message 3 [51], .message 4 [52],
    .disconnect 0]

/-- `canAnnounce_iff` on it: no result can come any more. -/
theorem canAnnounce_iff_stranded : ∃ x, exec Game.step (.begin 3) strandedRun = some x ∧ ¬x.CanAnnounce := by
  have hrun : (exec Game.step (.begin 3) strandedRun).any (fun x => !decide x.server.SomeClear) = true := by decide +kernel
  obtain ⟨x, hx, hset⟩ := (Option.any_eq_true _ _).1 hrun
  refine ⟨x, hx, fun hreach => ?_⟩
  have hclear : x.server.SomeClear := (canAnnounce_iff 3 strandedRun x hx).1 hreach
  rw [decide_eq_true hclear] at hset
  cases hset

/-- When the game goes on. Along every run of connects, disconnects and messages a result can still come in every state passed through,
exactly when no client leaves with the last clear flag from a place other than the last of the table. -/
theorem game_goes_on_iff (serverfd : Nat) (actions : List Action) (hx : exec Game.step (.begin serverfd) actions = some x') :
    Always Game.step Game.CanAnnounce (.begin serverfd) actions ↔
      Meets Game.step (fun x a => ¬x.strands a) (.begin serverfd) actions := by
  refine always_iff_meets (I := Game.Seated) (fun _ _ _ => seated_step) ?_ ?_ (seated_begin serverfd) ?_ hx
  · intro x a x' hi hp hg h
    rw [canAnnounce_iff_someClear hi] at hp
    rw [canAnnounce_iff_someClear (seated_step hi h)]
    exact (someClear_step hi hp h).2 hg
  · intro x a x' hi hp hg h
    rw [canAnnounce_iff_someClear hi] at hp
    rw [canAnnounce_iff_someClear (seated_step hi h)]
    exact fun hclear => hg ((someClear_step hi hp h).1 hclear)
  · rw [canAnnounce_iff_someClear (seated_begin serverfd)]
    exact ⟨0, by decide, rfl⟩

/-- `game_goes_on_iff` on two clients that play a round. -/
theorem game_goes_on_round : Always Game.step Game.CanAnnounce (.begin 3) roundRun := by
  have hrun : (exec Game.step (.begin 3) roundRun).isSome = true := by decide +kernel
  obtain ⟨x', hx⟩ := Option.isSome_iff_exists.1 hrun
  exact (game_goes_on_iff 3 roundRun hx).2 (by decide +kernel)

end NetLabs.Chat
