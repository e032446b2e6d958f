import NetLabs.Crypt.Session
import Mathlib.Data.Finset.Insert
import Mathlib.Logic.Function.Basic

/-!
# The encryption server and its clients

`main` of the server takes one connection at a time and serves it to its end; the clients that connect meanwhile wait. The array `key` is
that of `main`: what one connection leaves in it is still there for the next. Every client is a session of its own, and the server goes
from one to the other.
-/

namespace NetLabs.Crypt

open CText Function Marker Machine

/-! ## The code -/

/-- The connections in the order in which they were made, those that wait to be accepted, the one that is served, the array `key`, the
clients that have ended, and whether the server has been ended by SIGPIPE. -/
structure Service where
  sessions : Nat → Session
  count : Nat
  waiting : List Nat
  serving : Option Nat
  key : List UInt8
  gone : Finset Nat
  down : Bool

/-- The server has called `listen`. -/
def Service.begin (key : List UInt8) : Service where
  sessions _ := .begin [] []
  count := 0
  waiting := []
  serving := none
  key := key
  gone := ∅
  down := false

/-- A client connects, with the exchanges its user wants; a client ends, and so many of its bytes still arrive; a client moves; the
server accepts a connection, goes on with it, has no more bytes to expect from it, or is ended at a `send`. -/
inductive Event where
  | connect (todo : List Exchange)
  | leave (i arriving : Nat)
  | client (i : Nat) (m : Move)
  | accept
  | serve (m : Move)
  | serveEnd
  | sigpipe

/-- The moves of the server. -/
def Move.isServer : Move → Bool
  | .serverKey _ | .serverRecv _ | .serverSend => true
  | _ => false

/-- `recv` of the server has returned no bytes: the key is what the array holds, or the file is complete. -/
def Session.lost (s : Session) : Option Session :=
  match s.server with
  | .key old => some { s with server := .upload (receiveKey old []) [] }
  | .upload key file => some { s with server := .reply (encryptFile key file) }
  | _ => none

/-- What the array `key` holds in a phase of the server. -/
def Server.keyAfter (key : List UInt8) : Server → List UInt8
  | .upload key' _ => key'
  | _ => key

/-- The server has gone on with connection `i`; once it is closed, `main` is back at `accept`. -/
def Service.served (w : Service) (i : Nat) (s : Session) : Service :=
  { w with
    sessions := update w.sessions i s
    key := s.server.keyAfter w.key
    serving := match s.server with
      | .closed => none
      | _ => some i }

/-- A connection that the server has, accepted or not. -/
def Service.Holds (w : Service) (i : Nat) : Prop := w.serving = some i ∨ i ∈ w.waiting

instance (w : Service) (i : Nat) : Decidable (w.Holds i) := inferInstanceAs (Decidable (_ ∨ _))

/-- One event. `listen` has a backlog of 5. -/
def Service.step (w : Service) : Event → Option Service
  | .connect todo =>
    if w.down = false ∧ w.waiting.length ≤ 5 then
      some { w with sessions := update w.sessions w.count (.begin [] todo), count := w.count + 1, waiting := w.waiting ++ [w.count] }
    else none
  | .leave i arriving =>
    if i < w.count ∧ i ∉ w.gone then
      some { w with
        gone := insert i w.gone
        sessions := update w.sessions i { w.sessions i with toServer := (w.sessions i).toServer.take arriving } }
    else none
  | .client i m =>
    if i < w.count ∧ i ∉ w.gone ∧ m.isServer = false then
      ((w.sessions i).step m).map fun s => { w with sessions := update w.sessions i s }
    else none
  | .accept =>
    match w.serving, w.waiting with
    | none, i :: rest => some { w with
        serving := some i
        waiting := rest
        sessions := update w.sessions i { w.sessions i with server := .key w.key } }
    | _, _ => none
  | .serve m =>
    match w.serving with
    | some i => if m.isServer then ((w.sessions i).step m).map (w.served i) else none
    | none => none
  | .serveEnd =>
    match w.serving with
    | some i => if i ∈ w.gone ∧ (w.sessions i).toServer = [] then (w.sessions i).lost.map (w.served i) else none
    | none => none
  | .sigpipe =>
    match w.serving with
    | some i =>
      match (w.sessions i).server with
      | .reply (_ :: _) =>
        -- only a client that has ended answers with a reset; every connection ends with the process
        if i ∈ w.gone then
          some { w with
            sessions := fun k => if w.Holds k then { w.sessions k with server := .closed, reset := true } else w.sessions k
            waiting := []
            serving := none
            down := true }
        else none
      | _ => none
    | none => none

variable {s s' : Session} {e : Exchange} {m : Move} {w w' : Service} {i j n : Nat} {key body : List UInt8} {there : Prop}

/-! ## A connection that the server has -/

/-- As long as the server has taken nothing, what the client has sent and has yet to send is its key, its file and the marker. -/
structure Session.Untaken (s : Session) : Prop where
  idle : s.client = .ready → s.toServer = []
  asks : s.client ≠ .ready → ∃ e, s.client.current = [e] ∧ s.client.written = [] ∧
    s.toServer ++ s.client.pending = e.key ++ (e.file ++ eofMarker)
  toClient : s.toClient = []
  encs : s.encs = []

/-- A connection that is not closed; if its client is there, it has sent nothing that is not its exchange, and is in it once the server
has begun to read. -/
structure Session.Open (there : Prop) (s : Session) : Prop where
  notClosed : s.server ≠ .closed
  reset : s.reset = false
  untaken : there → ∀ old, s.server = .key old → s.Untaken
  under_way : there → (∀ old, s.server ≠ .key old) → s.client.current ≠ []

theorem open_begin (there : Prop) (old : List UInt8) (todo : List Exchange) : (Session.begin old todo).Open there :=
  ⟨by simp [Session.begin], rfl, fun _ _ _ => ⟨fun _ => rfl, fun h => absurd rfl h, rfl, rfl⟩, fun _ h => absurd rfl (h old)⟩

/-- The server has accepted it. -/
theorem Session.Open.accepted {old : List UInt8} (ho : s.Open there) (hs : s.server = .key old) (old' : List UInt8) :
    Session.Open there { s with server := .key old' } := by
  refine ⟨by simp, ho.reset, fun ht _ _ => ?_, fun _ h => absurd rfl (h old')⟩
  obtain ⟨idle, asks, toClient, encs⟩ := ho.untaken ht old hs
  exact ⟨idle, asks, toClient, encs⟩

theorem open_start (ho : s.Open there) (h : s.step .start = some s') : s'.Open there ∧ s'.server = s.server := by
  simp only [Session.step] at h
  split at h
  · rename_i e todo hc _
    cases h
    refine ⟨⟨ho.notClosed, ho.reset, fun ht old hs => ?_, fun _ _ => List.cons_ne_nil e []⟩, rfl⟩
    obtain ⟨idle, -, toClient, encs⟩ := ho.untaken ht old hs
    refine ⟨by simp, fun _ => ⟨e, rfl, rfl, ?_⟩, toClient, encs⟩
    change s.toServer ++ _ = _
    rw [idle hc]
    rfl
  · cases h

theorem open_send {sigpipe : Bool} (ho : s.Open there) (h : s.step (.send sigpipe) = some s') :
    s'.Open there ∧ s'.server = s.server := by
  cases sigpipe with
  | true =>
    simp only [Session.step, if_true] at h
    rw [ho.reset] at h
    cases h
  | false =>
    obtain ⟨bytes, c, rfl, hpending, hcur, -, hwritten, halive, hready, -⟩ := clientSend_some h
    rw [put_open ho.notClosed]
    refine ⟨⟨ho.notClosed, ho.reset, fun ht old hs => ?_, fun ht hs => ?_⟩, rfl⟩
    · obtain ⟨-, asks, toClient, encs⟩ := ho.untaken ht old hs
      obtain ⟨e, current, -, stream⟩ := asks hready
      refine ⟨fun hc => ?_, fun _ => ⟨e, hcur.trans current, hwritten, ?_⟩, toClient, encs⟩
      · have hsame := hcur.trans current
        change c = _ at hc
        rw [hc] at hsame
        cases hsame
      · change s.toServer ++ bytes ++ c.pending = _
        rw [List.append_assoc, ← hpending]
        exact stream
    · change c.current ≠ []
      rw [hcur]
      exact ho.under_way ht hs

theorem open_recv (ho : s.Open there) (h : s.step (.recv n) = some s') : s'.Open there ∧ s'.server = s.server := by
  simp only [Session.step] at h
  split at h
  · rename_i e enc hc
    obtain ⟨⟨hpos, -, hlen⟩, h⟩ := Option.ite_none_right_eq_some.1 h
    cases h
    refine ⟨⟨ho.notClosed, ho.reset, fun ht old hs => ?_, fun _ _ => List.cons_ne_nil e []⟩, rfl⟩
    -- there is nothing to receive yet
    rw [(ho.untaken ht old hs).toClient] at hlen
    exact absurd hlen (Nat.not_le.2 hpos)
  · cases h

/-- What the client does leaves the connection as it is with the server. -/
theorem open_client (ho : s.Open there) (hm : m.isServer = false) (h : s.step m = some s') :
    s'.Open there ∧ s'.server = s.server := by
  cases m with
  | start => exact open_start ho h
  | send sigpipe => exact open_send ho h
  | recv n => exact open_recv ho h
  | recvEnd =>
    simp only [Session.step] at h
    split at h
    · rename_i hserver
      exact absurd hserver ho.notClosed
    · cases h
  | serverKey n | serverRecv n | serverSend => cases hm

/-- What the server does keeps it so, or closes it. -/
theorem open_server (ho : s.Open there) (hm : m.isServer = true) (h : s.step m = some s') :
    s'.server = .closed ∨ s'.Open there ∧ ∀ old, s'.server ≠ .key old := by
  cases m with
  | start | send sigpipe | recv n | recvEnd => cases hm
  | serverKey n =>
    simp only [Session.step] at h
    split at h
    · rename_i old hs
      obtain ⟨⟨hpos, -, hlen⟩, h⟩ := Option.ite_none_right_eq_some.1 h
      cases h
      refine Or.inr ⟨⟨by simp, ho.reset, fun _ _ => by simp, fun ht _ hnil => ?_⟩, by simp⟩
      -- who has sent something is in an exchange
      obtain ⟨idle, asks, -, -⟩ := ho.untaken ht old hs
      by_cases hready : s.client = .ready
      · rw [idle hready] at hlen
        exact absurd hlen (Nat.not_le.2 hpos)
      · obtain ⟨e, current, -⟩ := asks hready
        cases hnil.symm.trans current
    · cases h
  | serverRecv n =>
    simp only [Session.step] at h
    split at h
    · rename_i key file hs
      obtain ⟨-, h⟩ := Option.ite_none_right_eq_some.1 h
      cases h
      have hcurrent : there → s.client.current ≠ [] := fun ht => ho.under_way ht (by rw [hs]; simp)
      refine Or.inr ⟨⟨?_, ho.reset, fun _ old hkey => ?_, fun ht _ => hcurrent ht⟩, fun old hkey => ?_⟩
      · dsimp only
        split <;> simp
      · dsimp only at hkey
        split at hkey <;> cases hkey
      · dsimp only at hkey
        split at hkey <;> cases hkey
    · cases h
  | serverSend =>
    simp only [Session.step] at h
    split at h
    · rename_i rest hs
      split at h
      · cases h
        exact Or.inl rfl
      · cases h
        exact Or.inr ⟨⟨by simp, ho.reset, fun _ _ => by simp, fun ht _ => ho.under_way ht (by rw [hs]; simp)⟩, by simp⟩
    · cases h

/-- So does the end of what a client has sent that is no longer there. -/
theorem open_lost (ho : s.Open there) (ht : ¬there) (h : s.lost = some s') : s'.Open there ∧ ∀ old, s'.server ≠ .key old := by
  unfold Session.lost at h
  split at h
  · cases h
    exact ⟨⟨by simp, ho.reset, fun h => absurd h ht, fun h => absurd h ht⟩, by simp⟩
  · cases h
    exact ⟨⟨by simp, ho.reset, fun h => absurd h ht, fun h => absurd h ht⟩, by simp⟩
  · cases h

/-! ## The server among its connections -/

/-- The connections it has are open, those that wait are untouched, and the one whose key is to be read gets it into the array of
`main`. -/
structure Service.Inv (w : Service) : Prop where
  nodup : w.waiting.Nodup
  apart : ∀ i, w.serving = some i → i ∉ w.waiting
  made : ∀ i, w.Holds i → i < w.count
  opened : ∀ i, w.Holds i → (w.sessions i).Open (i ∉ w.gone)
  unread : ∀ i ∈ w.waiting, (w.sessions i).server = .key []
  array : ∀ i, w.serving = some i → ∀ old, (w.sessions i).server = .key old → old = w.key

/-- A server without a connection. -/
theorem inv_of_empty (hserving : w.serving = none) (hwaiting : w.waiting = []) : w.Inv := by
  have hnone : ∀ i, ¬w.Holds i := by
    rintro i (hi | hi)
    · rw [hserving] at hi
      cases hi
    · rw [hwaiting] at hi
      cases hi
  constructor
  · rw [hwaiting]
    exact List.nodup_nil
  · intro i hi
    exact absurd (Or.inl hi) (hnone i)
  · intro i hi
    exact absurd hi (hnone i)
  · intro i hi
    exact absurd hi (hnone i)
  · intro i hi
    exact absurd (Or.inr hi) (hnone i)
  · intro i hi
    exact absurd (Or.inl hi) (hnone i)

theorem service_begin_inv (key : List UInt8) : (Service.begin key).Inv := inv_of_empty rfl rfl

/-- A session that is changed where it is, with the server's part in it as before. -/
theorem Service.Inv.replace {gone : Finset Nat} (hi : w.Inv) (hgone : ∀ i, i ≠ j → (i ∉ gone ↔ i ∉ w.gone))
    (hopen : w.Holds j → s.Open (j ∉ gone) ∧ s.server = (w.sessions j).server) :
    Service.Inv { w with sessions := update w.sessions j s, gone := gone } := by
  refine ⟨hi.nodup, hi.apart, hi.made, fun i hh => ?_, fun i hw => ?_, fun i hs old => ?_⟩
  · by_cases hij : i = j
    · subst hij
      dsimp only
      rw [update_self]
      exact (hopen hh).1
    · dsimp only
      rw [update_of_ne hij, hgone i hij]
      exact hi.opened i hh
  · by_cases hij : i = j
    · subst hij
      dsimp only
      rw [update_self, (hopen (Or.inr hw)).2]
      exact hi.unread i hw
    · dsimp only
      rw [update_of_ne hij]
      exact hi.unread i hw
  · by_cases hij : i = j
    · subst hij
      dsimp only
      rw [update_self, (hopen (Or.inl hs)).2]
      exact hi.array i hs old
    · dsimp only
      rw [update_of_ne hij]
      exact hi.array i hs old

/-- The server has gone on with the connection it serves. -/
theorem Service.Inv.served (hi : w.Inv) (hj : w.serving = some j)
    (hopen : s.server = .closed ∨ s.Open (j ∉ w.gone) ∧ ∀ old, s.server ≠ .key old) : (w.served j s).Inv := by
  have hserving : ∀ i, (w.served j s).serving = some i → i = j ∧ s.server ≠ .closed := by
    intro i hs
    unfold Service.served at hs
    dsimp only at hs
    split at hs
    · cases hs
    · rename_i hnot
      cases hs
      exact ⟨rfl, hnot⟩
  have hne : ∀ i ∈ w.waiting, i ≠ j := by
    rintro i hw rfl
    exact hi.apart i hj hw
  refine ⟨hi.nodup, fun i hs => ?_, fun i hh => ?_, fun i hh => ?_, fun i hw => ?_, fun i hs old hkey => ?_⟩
  · obtain ⟨rfl, -⟩ := hserving i hs
    exact hi.apart i hj
  · rcases hh with hs | hw
    · obtain ⟨rfl, -⟩ := hserving i hs
      exact hi.made i (Or.inl hj)
    · exact hi.made i (Or.inr hw)
  · change Session.Open (i ∉ w.gone) (update w.sessions j s i)
    rcases hh with hs | hw
    · obtain ⟨rfl, hnot⟩ := hserving i hs
      rw [update_self]
      exact (hopen.resolve_left hnot).1
    · rw [update_of_ne (hne i hw)]
      exact hi.opened i (Or.inr hw)
  · change (update w.sessions j s i).server = _
    rw [update_of_ne (hne i hw)]
    exact hi.unread i hw
  · obtain ⟨rfl, hnot⟩ := hserving i hs
    change (update w.sessions i s i).server = _ at hkey
    rw [update_self] at hkey
    exact absurd hkey ((hopen.resolve_left hnot).2 old)

/-- A client connects. -/
theorem inv_connect {todo : List Exchange} (hi : w.Inv) (h : w.step (.connect todo) = some w') : w'.Inv := by
  obtain ⟨-, h⟩ := Option.ite_none_right_eq_some.1 h
  cases h
  have hold : ∀ i, w.Holds i → i ≠ w.count := fun i hh => Nat.ne_of_lt (hi.made i hh)
  have hnew : w.count ∉ w.waiting := fun hw => hold w.count (Or.inr hw) rfl
  refine ⟨?_, fun i hs => ?_, fun i hh => ?_, fun i hh => ?_, fun i hw => ?_, fun i hs old hkey => ?_⟩
  · exact List.nodup_append.2 ⟨hi.nodup, List.nodup_singleton _, fun a ha b hb => by
      rw [List.mem_singleton.1 hb]
      exact hold a (Or.inr ha)⟩
  · intro hw
    rcases List.mem_append.1 hw with hw | hw
    · exact hi.apart i hs hw
    · exact hold i (Or.inl hs) (List.mem_singleton.1 hw)
  · rcases hh with hs | hw
    · exact Nat.lt_succ_of_lt (hi.made i (Or.inl hs))
    · rcases List.mem_append.1 hw with hw | hw
      · exact Nat.lt_succ_of_lt (hi.made i (Or.inr hw))
      · rw [List.mem_singleton.1 hw]
        exact Nat.lt_succ_self _
  · by_cases hic : i = w.count
    · subst hic
      dsimp only
      rw [update_self]
      exact open_begin _ _ _
    · dsimp only
      rw [update_of_ne hic]
      refine hi.opened i ?_
      rcases hh with hs | hw
      · exact Or.inl hs
      · exact Or.inr ((List.mem_append.1 hw).resolve_right fun hw => hic (List.mem_singleton.1 hw))
  · by_cases hic : i = w.count
    · subst hic
      dsimp only
      rw [update_self]
      rfl
    · dsimp only
      rw [update_of_ne hic]
      exact hi.unread i ((List.mem_append.1 hw).resolve_right fun hw => hic (List.mem_singleton.1 hw))
  · have hic : i ≠ w.count := hold i (Or.inl hs)
    dsimp only at hkey
    rw [update_of_ne hic] at hkey
    exact hi.array i hs old hkey

/-- The server takes the connection that has waited longest. -/
theorem inv_accept (hi : w.Inv) (h : w.step .accept = some w') : w'.Inv := by
  simp only [Service.step] at h
  split at h
  · rename_i i rest _ hwait
    cases h
    obtain ⟨hi_out, hrest⟩ := List.nodup_cons.1 (hwait ▸ hi.nodup)
    have hmem : ∀ k ∈ rest, k ∈ w.waiting ∧ k ≠ i := by
      intro k hk
      rw [hwait]
      refine ⟨List.mem_cons_of_mem i hk, ?_⟩
      rintro rfl
      exact hi_out hk
    have hhead : i ∈ w.waiting := hwait ▸ List.mem_cons_self
    refine ⟨hrest, fun k hs => ?_, fun k hh => ?_, fun k hh => ?_, fun k hw => ?_, fun k hs old hkey => ?_⟩
    · cases hs
      exact hi_out
    · rcases hh with hs | hw
      · cases hs
        exact hi.made i (Or.inr hhead)
      · exact hi.made k (Or.inr (hmem k hw).1)
    · rcases hh with hs | hw
      · cases hs
        dsimp only
        rw [update_self]
        exact (hi.opened i (Or.inr hhead)).accepted (hi.unread i hhead) w.key
      · dsimp only
        rw [update_of_ne (hmem k hw).2]
        exact hi.opened k (Or.inr (hmem k hw).1)
    · dsimp only
      rw [update_of_ne (hmem k hw).2]
      exact hi.unread k (hmem k hw).1
    · cases hs
      dsimp only at hkey
      rw [update_self] at hkey
      exact (Server.key.inj hkey).symm
  · cases h

theorem service_step_inv (hi : w.Inv) (ev : Event) (h : w.step ev = some w') : w'.Inv := by
  cases ev with
  | connect todo => exact inv_connect hi h
  | leave i arriving =>
    obtain ⟨⟨hlt, -⟩, h⟩ := Option.ite_none_right_eq_some.1 h
    cases h
    have hnot : ¬i ∉ insert i w.gone := fun h => h (Finset.mem_insert_self i w.gone)
    refine hi.replace (fun k hk => by simp [hk]) fun hh => ?_
    have ho := hi.opened i hh
    exact ⟨⟨ho.notClosed, ho.reset, fun h => absurd h hnot, fun h => absurd h hnot⟩, rfl⟩
  | client i m =>
    obtain ⟨⟨hlt, hthere, hm⟩, h⟩ := Option.ite_none_right_eq_some.1 h
    obtain ⟨s, hs, rfl⟩ := Option.map_eq_some_iff.1 h
    exact hi.replace (fun k _ => Iff.rfl) fun hh => open_client (hi.opened i hh) hm hs
  | accept => exact inv_accept hi h
  | serve m =>
    simp only [Service.step] at h
    split at h
    · rename_i i hserving
      obtain ⟨hm, h⟩ := Option.ite_none_right_eq_some.1 h
      obtain ⟨s, hs, rfl⟩ := Option.map_eq_some_iff.1 h
      exact hi.served hserving (open_server (hi.opened i (Or.inl hserving)) hm hs)
    · cases h
  | serveEnd =>
    simp only [Service.step] at h
    split at h
    · rename_i i hserving
      obtain ⟨⟨hgone, -⟩, h⟩ := Option.ite_none_right_eq_some.1 h
      obtain ⟨s, hs, rfl⟩ := Option.map_eq_some_iff.1 h
      exact hi.served hserving (Or.inr (open_lost (hi.opened i (Or.inl hserving)) (fun h => h hgone) hs))
    · cases h
  | sigpipe =>
    simp only [Service.step] at h
    split at h
    · split at h
      · obtain ⟨-, h⟩ := Option.ite_none_right_eq_some.1 h
        cases h
        exact inv_of_empty rfl rfl
      · cases h
    · cases h

end NetLabs.Crypt
