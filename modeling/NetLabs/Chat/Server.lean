import NetLabs.Lib.CText
import Mathlib.Data.Finset.Insert
import Mathlib.Data.Finset.Basic
import Mathlib.Data.List.Range
import Mathlib.Logic.Function.Basic

/-!
# The chat server

The variables of `chatserver.c` and what `main` does to them when a client connects, disconnects or sends a message. The clients are
the first `numclient` entries of three parallel arrays; what lies behind them is left from earlier clients. `Server.roster` is what the
arrays stand for, a list of records, and each operation is shown as what it does to the records.
-/

namespace NetLabs.Chat

open CText Function

/-! ## The code -/

/-- What the server sends: the request for a number, the refusal of a second one, and the result of a round with the client that has
won it. -/
inductive Reply where
  | sendNumber (round : Nat)
  | duplicate (round : Nat)
  | result (round : Nat) (maxNum : Int) (winner : Nat)
  deriving DecidableEq

/-- The variables of `main`, and what has been sent to which descriptor. -/
structure Server where
  clientsockfd : Nat → Nat
  clientSent : Nat → Bool
  clientNumbers : Nat → Int
  numclient : Nat
  round : Nat
  serverfd : Nat
  readfds : Finset Nat
  maxfd : Nat
  sent : List (Nat × Reply)

/-- Before the first `select`. -/
def Server.begin (serverfd : Nat) : Server where
  clientsockfd _ := 0
  clientSent _ := false
  clientNumbers _ := 0
  numclient := 0
  round := 1
  serverfd := serverfd
  readfds := {serverfd}
  maxfd := serverfd
  sent := []

/-- The requests for a number after a client has been taken in: to both at the second, then to each new one. -/
def Server.requests (s : Server) : List (Nat × Reply) :=
  if 2 ≤ s.numclient then
    if s.numclient = 2 then (List.range s.numclient).map fun j => (s.clientsockfd j, .sendNumber s.round)
    else [(s.clientsockfd (s.numclient - 1), .sendNumber s.round)]
  else []

/-- The new connection in the arrays. `client_sent` and `client_numbers` are not written. -/
def Server.join (s : Server) (newSocket : Nat) : Server :=
  { s with
    clientsockfd := update s.clientsockfd s.numclient newSocket
    readfds := insert newSocket s.readfds
    maxfd := if s.maxfd < newSocket then newSocket else s.maxfd
    numclient := s.numclient + 1 }

/-- A new connection: closed at once when there are `MAX_CLIENTS`. -/
def Server.accept (s : Server) (newSocket : Nat) : Server :=
  if s.numclient < 5 then
    { s.join newSocket with sent := s.sent ++ (s.join newSocket).requests }
  else s

/-- `for (j = i; j < n - 1; j++) a[j] = a[j + 1];` -/
def shift {α : Type} (a : Nat → α) (i n : Nat) : Nat → α := fun j => if i ≤ j ∧ j < n - 1 then a (j + 1) else a j

/-- Client `i` has disconnected. -/
def Server.disconnect (s : Server) (i : Nat) : Server :=
  { s with
    readfds := s.readfds.erase (s.clientsockfd i)
    clientsockfd := shift s.clientsockfd i s.numclient
    clientSent := shift s.clientSent i s.numclient
    clientNumbers := shift s.clientNumbers i s.numclient
    numclient := s.numclient - 1 }

/-- The search for the maximum, from `INT_MIN` and index 0. -/
def findMax (numbers : Nat → Int) (n : Nat) : Int × Nat :=
  (List.range n).foldl (fun m j => if m.1 < numbers j then (numbers j, j) else m) (-2147483648, 0)

/-- The result goes to every client, and the next round begins. -/
def Server.announce (s : Server) : Server :=
  { s with
    clientSent := fun j => if j < s.numclient then false else s.clientSent j
    round := s.round + 1
    sent := s.sent ++ (List.range s.numclient).map fun j => (s.clientsockfd j,
      .result s.round (findMax s.clientNumbers s.numclient).1 (s.clientsockfd (findMax s.clientNumbers s.numclient).2)) }

/-- A number is stored. -/
def Server.store (s : Server) (i : Nat) (number : Int) : Server :=
  { s with
    clientNumbers := update s.clientNumbers i number
    clientSent := update s.clientSent i true }

/-- `all_sent`. -/
def Server.allSent (s : Server) : Bool := (List.range s.numclient).all s.clientSent

/-- What becomes of a message. -/
inductive Outcome where
  | dropped
  | duplicate
  | stored (number : Int)
  | announced (number maxNum : Int)
  deriving DecidableEq

/-- A NUL ends the text in `buffer`: one of its own, or one of those that `memset` has put behind it. -/
def Terminated (message : List UInt8) : Prop := message.length < 1024 ∨ (0 : UInt8) ∈ message

instance (message : List UInt8) : Decidable (Terminated message) := inferInstanceAs (Decidable (_ ∨ _))

/-- The number in a message; `none` where the text has no end in the buffer, and where `atoi` is not defined. -/
def number? (message : List UInt8) : Option Int := if Terminated message then atoi (cstr message) else none

/-- A message of client `i`, from which `atoi` reads `number`. -/
def Server.hear (s : Server) (i : Nat) (number : Int) : Outcome × Server :=
  if s.numclient < 2 then (.dropped, s)
  else if s.clientSent i then
    (.duplicate, { s with sent := s.sent ++ [(s.clientsockfd i, .duplicate s.round)] })
  else if (s.store i number).allSent then
    (.announced number (findMax (s.store i number).clientNumbers s.numclient).1, (s.store i number).announce)
  else (.stored number, s.store i number)

/-- The same for the bytes of a message; `none` where the code has no defined behaviour. The text is read when it is dropped and when
its number is stored. -/
def Server.message (s : Server) (i : Nat) (message : List UInt8) : Option (Outcome × Server) :=
  if s.numclient < 2 then
    if Terminated message then some (s.hear i 0) else none
  else if s.clientSent i then some (s.hear i 0)
  else (number? message).map (s.hear i)

/-- A descriptor that the process does not have open. -/
def Server.Opens (s : Server) (newSocket : Nat) : Prop := newSocket ≠ s.serverfd ∧ ∀ j < s.numclient, s.clientsockfd j ≠ newSocket

instance (s : Server) (newSocket : Nat) : Decidable (s.Opens newSocket) := inferInstanceAs (Decidable (_ ∧ ∀ _, _))

/-! ## The records -/

/-- What the arrays have of a client. -/
structure Client where
  fd : Nat
  sent : Bool
  number : Int
  deriving DecidableEq

/-- The record at index `j`. -/
def Server.client (s : Server) (j : Nat) : Client := ⟨s.clientsockfd j, s.clientSent j, s.clientNumbers j⟩

/-- The clients. -/
def Server.roster (s : Server) : List Client := (List.range s.numclient).map s.client

/-- The descriptors of the clients, in the order of the table. -/
def Server.fds (s : Server) : List Nat := s.roster.map Client.fd

variable {s : Server} {i j n : Nat}

theorem length_roster (s : Server) : s.roster.length = s.numclient := by
  rw [Server.roster, List.length_map, List.length_range]

theorem getElem?_roster (h : i < s.numclient) : s.roster[i]? = some (s.client i) := by
  rw [Server.roster, List.getElem?_map, List.getElem?_range h]
  rfl

theorem mem_roster {c : Client} : c ∈ s.roster ↔ ∃ j < s.numclient, s.client j = c := by
  simp [Server.roster]

theorem length_fds (s : Server) : s.fds.length = s.numclient := by
  rw [Server.fds, List.length_map, length_roster]

theorem getElem?_fds (hi : i < s.numclient) : s.fds[i]? = some (s.clientsockfd i) := by
  rw [Server.fds, List.getElem?_map, getElem?_roster hi]
  rfl

/-- Where descriptors are distinct, a descriptor tells the index. -/
theorem clientsockfd_inj (hn : s.fds.Nodup) (hi : i < s.numclient) (hj : j < s.numclient)
    (heq : s.clientsockfd i = s.clientsockfd j) : i = j := by
  have hsame : s.fds[i]? = s.fds[j]? := by
    rw [getElem?_fds hi, getElem?_fds hj, heq]
  exact (List.getElem?_inj (by rw [length_fds]; exact hi) hn).1 hsame

/-- The loop that moves the entries behind `i` forward takes entry `i` out. -/
theorem map_shift {α : Type} (a : Nat → α) (h : i < n) :
    (List.range (n - 1)).map (shift a i n) = ((List.range n).map a).eraseIdx i := by
  apply List.ext_getElem?
  intro j
  rw [List.getElem?_eraseIdx, List.getElem?_map, List.getElem?_map, List.getElem?_map]
  by_cases hj : j < n - 1
  · rw [List.getElem?_range hj, List.getElem?_range (by omega), List.getElem?_range (by omega)]
    by_cases hij : j < i
    · have hnot : ¬(i ≤ j ∧ j < n - 1) := by omega
      rw [if_pos hij]
      simp [shift, hnot]
    · have hin : i ≤ j ∧ j < n - 1 := by omega
      rw [if_neg hij]
      simp [shift, hin]
  · have hij : ¬j < i := by omega
    have hleft : (List.range (n - 1))[j]? = none := List.getElem?_eq_none (by rw [List.length_range]; omega)
    have hright : (List.range n)[j + 1]? = none := List.getElem?_eq_none (by rw [List.length_range]; omega)
    rw [if_neg hij, hleft, hright, Option.map_none, Option.map_none]

/-- A client that disconnects is taken out, and the others are as they were. -/
theorem roster_disconnect (h : i < s.numclient) : (s.disconnect i).roster = s.roster.eraseIdx i := by
  have hclient : (s.disconnect i).client = shift s.client i s.numclient := by
    funext j
    simp only [Server.client, Server.disconnect, shift]
    split <;> rfl
  rw [Server.roster, hclient]
  exact map_shift s.client h

/-- A client that is taken in comes last, with what the arrays held there. -/
theorem roster_join (s : Server) (newSocket : Nat) :
    (s.join newSocket).roster = s.roster ++ [⟨newSocket, s.clientSent s.numclient, s.clientNumbers s.numclient⟩] := by
  have hbefore : ∀ j < s.numclient, (s.join newSocket).client j = s.client j := by
    intro j hj
    simp only [Server.client, Server.join]
    rw [update_of_ne (by omega)]
  have hlast : (s.join newSocket).client s.numclient = ⟨newSocket, s.clientSent s.numclient, s.clientNumbers s.numclient⟩ := by
    simp only [Server.client, Server.join]
    rw [update_self]
  have hnum : (s.join newSocket).numclient = s.numclient + 1 := rfl
  rw [Server.roster, hnum, List.range_succ, List.map_append, List.map_singleton, hlast]
  congr 1
  exact List.map_congr_left fun j hj => hbefore j (List.mem_range.1 hj)

/-- A number that is stored changes the record of its client. -/
theorem roster_store (s : Server) (i : Nat) (number : Int) :
    (s.store i number).roster = s.roster.modify i fun c => { c with sent := true, number := number } := by
  apply List.ext_getElem?
  intro j
  rw [List.getElem?_modify]
  by_cases hj : j < s.numclient
  · rw [getElem?_roster (s := s.store i number) hj, getElem?_roster hj]
    by_cases hij : i = j
    · subst hij
      simp [Server.client, Server.store]
    · have hji : j ≠ i := fun e => hij e.symm
      simp [Server.client, Server.store, hij, update_of_ne hji]
  · have hleft : (s.store i number).roster[j]? = none :=
      List.getElem?_eq_none (by rw [length_roster]; exact Nat.not_lt.1 hj)
    have hright : s.roster[j]? = none := List.getElem?_eq_none (by rw [length_roster]; exact Nat.not_lt.1 hj)
    rw [hleft, hright]
    rfl

/-- The announcement clears every client's flag. -/
theorem roster_announce (s : Server) : s.announce.roster = s.roster.map fun c => { c with sent := false } := by
  rw [Server.roster, Server.roster, List.map_map]
  refine List.map_congr_left fun j hj => ?_
  have hlt : j < s.numclient := List.mem_range.1 hj
  simp [Server.client, Server.announce, hlt]

theorem allSent_iff : s.allSent = true ↔ ∀ c ∈ s.roster, c.sent = true := by
  rw [Server.allSent, List.all_eq_true]
  constructor
  · intro h c hc
    obtain ⟨j, hj, rfl⟩ := mem_roster.1 hc
    exact h j (List.mem_range.2 hj)
  · intro h j hj
    exact h (s.client j) (mem_roster.2 ⟨j, List.mem_range.1 hj, rfl⟩)

/-! ## The maximum -/

/-- The search finds the largest of `INT_MIN` and the numbers, and it is one of them. -/
theorem findMax_spec (a : Nat → Int) (n : Nat) :
    (∀ j < n, a j ≤ (findMax a n).1) ∧ ((findMax a n).1 = -2147483648 ∨ ∃ j < n, a j = (findMax a n).1) ∧
      -2147483648 ≤ (findMax a n).1 := by
  induction n with
  | zero => exact ⟨fun j hj => absurd hj (Nat.not_lt_zero j), Or.inl rfl, Int.le_refl _⟩
  | succ n ih =>
    obtain ⟨hle, hmem, hmin⟩ := ih
    have hstep : findMax a (n + 1) = if (findMax a n).1 < a n then (a n, n) else findMax a n := by
      rw [findMax, List.range_succ, List.foldl_append]
      rfl
    rw [hstep]
    split
    · rename_i hlt
      refine ⟨fun j hj => ?_, Or.inr ⟨n, Nat.lt_succ_self n, rfl⟩, by omega⟩
      by_cases hjn : j = n
      · rw [hjn]
      · have := hle j (by omega)
        omega
    · rename_i hge
      refine ⟨fun j hj => ?_, ?_, hmin⟩
      · by_cases hjn : j = n
        · rw [hjn]
          omega
        · exact hle j (by omega)
      · rcases hmem with hmem | ⟨j, hj, hmem⟩
        · exact Or.inl hmem
        · exact Or.inr ⟨j, by omega, hmem⟩

/-- Of numbers in the range of an `int` it is the maximum. -/
theorem findMax_maximum {a : Nat → Int} (hn : 0 < n) (hrange : ∀ j < n, -2147483648 ≤ a j) :
    (∀ j < n, a j ≤ (findMax a n).1) ∧ ∃ j < n, a j = (findMax a n).1 := by
  obtain ⟨hle, hmem, _⟩ := findMax_spec a n
  refine ⟨hle, ?_⟩
  rcases hmem with hmem | hmem
  · have hlow := hle 0 hn
    have := hrange 0 hn
    exact ⟨0, hn, by omega⟩
  · exact hmem

end NetLabs.Chat
