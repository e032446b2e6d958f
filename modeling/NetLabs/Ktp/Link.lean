import NetLabs.Ktp.Sender
import NetLabs.Ktp.Receiver

/-!
# Two sockets bound to each other

Entry `a`, on which one process only calls `k_sendto`, entry `b`, on which another only calls `k_recvfrom`, and the datagrams in
flight between their UDP sockets. A datagram in flight may be handed to thread R at any time, lost, or doubled, so they arrive late,
out of order, more than once or not at all. An action is one locked section of the code on one of the entries, or what the network
does.
-/

namespace NetLabs.Ktp

open Machine

/-- The two entries, the datagrams in flight to each, the messages `k_sendto` has accepted and the messages `k_recvfrom` has
returned. -/
structure Link where
  a : Entry
  b : Entry
  toA : List Datagram
  toB : List Datagram
  sent : List (List UInt8)
  returned : List (List UInt8)

/-- One action of the two processes, of the threads of the daemon or of the network. -/
inductive Action where
  | send (self : Nat) (junk : Message) (message : List UInt8)
  | recv (self : Nat)
  | wakeA (scan : Slot → Int) (stamp : Nat → Int)
  | wakeB (scan : Slot → Int) (stamp : Nat → Int)
  | updateA
  | updateB
  | deliverA (i : Nat) (dropped : Bool)
  | deliverB (i : Nat) (dropped : Bool)
  | loseA (i : Nat)
  | loseB (i : Nat)
  | doubleA (i : Nat)
  | doubleB (i : Nat)

/-- What an action does; `none` where the code has no defined behaviour and where there is no such datagram. -/
def Link.step (x : Link) : Action → Option Link
  | .send self junk message =>
    some { x with
      a := (kSendto x.a self junk message).2
      sent := x.sent ++ if (kSendto x.a self junk message).1.isSome then [message] else [] }
  | .recv self => some { x with b := (kRecvfrom x.b self).2, returned := x.returned ++ (kRecvfrom x.b self).1.toList }
  | .wakeA scan stamp =>
    match threadS x.a scan stamp with
    | .error _ => none
    | .ok (e, out) => some { x with a := e, toB := x.toB ++ out }
  | .wakeB scan stamp =>
    match threadS x.b scan stamp with
    | .error _ => none
    | .ok (e, out) => some { x with b := e, toA := x.toA ++ out }
  | .updateA => some { x with a := (windowUpdate x.a).1, toB := x.toB ++ (windowUpdate x.a).2 }
  | .updateB => some { x with b := (windowUpdate x.b).1, toA := x.toA ++ (windowUpdate x.b).2 }
  | .deliverA i dropped =>
    match x.toA[i]? with
    | none => none
    | some d =>
      match threadR x.a.toProtocol d dropped with
      | .error _ => none
      | .ok (p, out) => some { x with a := x.a.withProtocol p, toA := x.toA.eraseIdx i, toB := x.toB ++ out }
  | .deliverB i dropped =>
    match x.toB[i]? with
    | none => none
    | some d =>
      match threadR x.b.toProtocol d dropped with
      | .error _ => none
      | .ok (p, out) => some { x with b := x.b.withProtocol p, toB := x.toB.eraseIdx i, toA := x.toA ++ out }
  | .loseA i => some { x with toA := x.toA.eraseIdx i }
  | .loseB i => some { x with toB := x.toB.eraseIdx i }
  | .doubleA i => some { x with toA := x.toA ++ x.toA[i]?.toList }
  | .doubleB i => some { x with toB := x.toB ++ x.toB[i]?.toList }

/-- The beginning: nothing in flight, sent or returned. -/
def Link.begin (a b : Entry) : Link := { a := a, b := b, toA := [], toB := [], sent := [], returned := [] }

/-- The peer of `boundEntry`, handed to process 8 and bound. -/
def boundPeer : Entry where
  toControl := { isFree := 0, pid := 8, udpSocket := 4, destIp := [], destPort := 5000, srcIp := [], srcPort := 6000 }
  toProtocol := freshProtocol

/-! ## What an action that can be taken has done -/

section Inversions

variable {x x' : Link} {self : Nat} {junk : Message} {message : List UInt8} {scan : Slot → Int} {stamp : Nat → Int} {i : Nat}
  {dropped : Bool}

/-- `k_sendto`: nothing changes, or the message is queued. -/
theorem Link.send_some (h : x.step (.send self junk message) = some x') :
    x' = x ∨ ∃ s, queueMessage x.a.toSendSide junk message = some s ∧
      x' = { x with a := x.a.withProtocol (x.a.toProtocol.withSend s), sent := x.sent ++ [message] } := by
  simp only [Link.step, Option.some.injEq] at h
  subst h
  cases hc : (kSendto x.a self junk message).1 with
  | none =>
    left
    simp only [kSendto_none hc, Option.isSome_none, Bool.false_eq_true, ↓reduceIte, List.append_nil]
  | some n =>
    obtain ⟨s, hq, he⟩ := kSendto_some hc
    right
    refine ⟨s, hq, ?_⟩
    simp only [he, Option.isSome_some, ↓reduceIte]

/-- `k_recvfrom`: nothing changes, or a message is returned. -/
theorem Link.recv_some (h : x.step (.recv self) = some x') :
    x' = x ∨ ∃ m r, takeMessage x.b.toRecvSide = some (m, r) ∧ x.b.refused self = false ∧
      x' = { x with b := x.b.withProtocol (x.b.toProtocol.withRecv r), returned := x.returned ++ [m] } := by
  simp only [Link.step, Option.some.injEq] at h
  subst h
  rcases kRecvfrom_cases x.b self with hr | ⟨m, r, ht, hown, hr⟩
  · left
    simp only [hr, Option.toList_none, List.append_nil]
  · right
    refine ⟨m, r, ht, hown, ?_⟩
    simp only [hr, Option.toList_some]

/-- Thread R's update: nothing changes, or the window is announced again. -/
theorem Link.updateA_some (h : x.step .updateA = some x') :
    x' = x ∨ x.a.noSpaceFlags = true ∧ 0 < x.a.rwnd.size ∧
      x' = { x with
        a := x.a.withProtocol (x.a.toProtocol.withRecv { x.a.toRecvSide with noSpaceFlags := false })
        toB := x.toB ++ [ackDatagram x.a.lastAckReceived x.a.rwnd.size] } := by
  simp only [Link.step, Option.some.injEq] at h
  subst h
  rcases windowUpdate_cases x.a with hu | ⟨-, hflag, hsize, hu⟩
  · left
    simp only [hu, List.append_nil]
  · right
    refine ⟨hflag, hsize, ?_⟩
    simp only [hu]

theorem Link.updateB_some (h : x.step .updateB = some x') :
    x' = x ∨ x.b.noSpaceFlags = true ∧ 0 < x.b.rwnd.size ∧
      x' = { x with
        b := x.b.withProtocol (x.b.toProtocol.withRecv { x.b.toRecvSide with noSpaceFlags := false })
        toA := x.toA ++ [ackDatagram x.b.lastAckReceived x.b.rwnd.size] } := by
  simp only [Link.step, Option.some.injEq] at h
  subst h
  rcases windowUpdate_cases x.b with hu | ⟨-, hflag, hsize, hu⟩
  · left
    simp only [hu, List.append_nil]
  · right
    refine ⟨hflag, hsize, ?_⟩
    simp only [hu]

theorem Link.wakeA_some (h : x.step (.wakeA scan stamp) = some x') :
    ∃ e out, threadS x.a scan stamp = .ok (e, out) ∧ x' = { x with a := e, toB := x.toB ++ out } := by
  simp only [Link.step] at h
  split at h
  · cases h
  · rename_i e out hs
    cases h
    exact ⟨e, out, hs, rfl⟩

theorem Link.wakeB_some (h : x.step (.wakeB scan stamp) = some x') :
    ∃ e out, threadS x.b scan stamp = .ok (e, out) ∧ x' = { x with b := e, toA := x.toA ++ out } := by
  simp only [Link.step] at h
  split at h
  · cases h
  · rename_i e out hs
    cases h
    exact ⟨e, out, hs, rfl⟩

theorem Link.deliverA_some (h : x.step (.deliverA i dropped) = some x') :
    ∃ d p out, x.toA[i]? = some d ∧ threadR x.a.toProtocol d dropped = .ok (p, out) ∧
      x' = { x with a := x.a.withProtocol p, toA := x.toA.eraseIdx i, toB := x.toB ++ out } := by
  simp only [Link.step] at h
  split at h
  · cases h
  · rename_i d hd
    split at h
    · cases h
    · rename_i p out hp
      cases h
      exact ⟨d, p, out, hd, hp, rfl⟩

theorem Link.deliverB_some (h : x.step (.deliverB i dropped) = some x') :
    ∃ d p out, x.toB[i]? = some d ∧ threadR x.b.toProtocol d dropped = .ok (p, out) ∧
      x' = { x with b := x.b.withProtocol p, toB := x.toB.eraseIdx i, toA := x.toA ++ out } := by
  simp only [Link.step] at h
  split at h
  · cases h
  · rename_i d hd
    split at h
    · cases h
    · rename_i p out hp
      cases h
      exact ⟨d, p, out, hd, hp, rfl⟩

end Inversions

end NetLabs.Ktp
