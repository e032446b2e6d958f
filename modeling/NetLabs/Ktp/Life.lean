import NetLabs.Lib.Machine
import NetLabs.Ktp.ThreadR
import NetLabs.Ktp.ThreadS
import NetLabs.Ktp.Calls

/-!
# The life of one entry

Everything that can happen to one entry of the shared memory, as a machine: the library calls, the datagrams and rounds of thread
R, the wake-ups of thread S, and what changes its owner. Each event is one locked section of the code. `Life` is an entry with the
history the statements speak about.
-/

namespace NetLabs.Ktp

open Machine

/-- One locked section that works on the entry. -/
inductive Event where
  | sendto (self : Nat) (junk : Message) (message : List UInt8)
  | recvfrom (self : Nat)
  | datagram (d : Datagram) (dropped : Bool)
  | update
  | wakeUp (scan : Slot → Int) (stamp : Nat → Int)
  | socket (self : Nat)
  | bind (a : BindArgs)
  | served
  | close (self : Nat)
  | collect (gone : Nat → Bool)

/-- What an event does to the entry, and what is sent on its UDP socket. -/
def Entry.step (e : Entry) : Event → Except Fault (Entry × List Datagram)
  | .sendto self junk message => .ok ((kSendto e self junk message).2, [])
  | .recvfrom self => .ok ((kRecvfrom e self).2, [])
  | .datagram d dropped =>
    match threadR e.toProtocol d dropped with
    | .error f => .error f
    | .ok (p, out) => .ok (e.withProtocol p, out)
  | .update => .ok (windowUpdate e)
  | .wakeUp scan stamp => threadS e scan stamp
  | .socket self => .ok ((kSocket e self).getD e, [])
  | .bind a => .ok ((kBind e a).getD e, [])
  | .served => .ok (bindServed e, [])
  | .close self => .ok ((kClose e self).getD e, [])
  | .collect gone => .ok (collect gone e, [])

/-- The message an event makes `k_sendto` accept. -/
def Entry.queued (e : Entry) : Event → List (List UInt8)
  | .sendto self junk message => if (kSendto e self junk message).1.isSome then [message] else []
  | _ => []

/-- An entry and the messages `k_sendto` has accepted on it. -/
structure Life where
  entry : Entry
  sent : List (List UInt8)

/-- The beginning of a life: an entry and nothing sent yet. -/
def Life.begin (e : Entry) : Life := { entry := e, sent := [] }

/-- One event of a life; `none` when the code has no defined behaviour there. -/
def Life.after (l : Life) (ev : Event) : Option Life :=
  match l.entry.step ev with
  | .error _ => none
  | .ok (e, _) => some { entry := e, sent := l.sent ++ l.entry.queued ev }

theorem Life.after_eq_some {l l' : Life} {ev : Event} :
    l.after ev = some l' ↔ ∃ e out, l.entry.step ev = .ok (e, out) ∧ l' = { entry := e, sent := l.sent ++ l.entry.queued ev } := by
  unfold Life.after
  cases l.entry.step ev with
  | error f => simp
  | ok x =>
    constructor
    · intro h
      exact ⟨x.1, x.2, rfl, (Option.some.inj h).symm⟩
    · rintro ⟨e, out, hx, rfl⟩
      rw [Except.ok.inj hx]

/-- An entry handed to process 7 and bound, its protocol fields as `init_ksocket` writes them. -/
def boundEntry : Entry where
  toControl := { isFree := 0, pid := 7, udpSocket := 3, destIp := [], destPort := 6000, srcIp := [], srcPort := 5000 }
  toProtocol := freshProtocol

/-! ## What the calls leave alone -/

section Frames

variable {e e' : Entry} {self : Nat} {junk : Message} {message : List UInt8} {out : List Datagram}

/-- A call of `k_sendto` that returns -1 changes nothing. -/
theorem kSendto_none (h : (kSendto e self junk message).1 = none) : (kSendto e self junk message).2 = e := by
  unfold kSendto at h ⊢
  split
  · rfl
  · rename_i hr
    rw [if_neg hr] at h
    split
    · rfl
    · rename_i s hs
      rw [hs] at h
      cases h

/-- A call of `k_sendto` that is accepted queues the message on the sending side. -/
theorem kSendto_some {n : Nat} (h : (kSendto e self junk message).1 = some n) :
    ∃ s, queueMessage e.toSendSide junk message = some s ∧
      (kSendto e self junk message).2 = e.withProtocol (e.toProtocol.withSend s) := by
  unfold kSendto at h ⊢
  split
  · rename_i hr
    rw [if_pos hr] at h
    cases h
  · rename_i hr
    rw [if_neg hr] at h
    cases hq : queueMessage e.toSendSide junk message with
    | none => rw [hq] at h; cases h
    | some s => exact ⟨s, rfl, rfl⟩

/-- A call of `k_sendto` reads and writes the control fields and the sending side only. -/
theorem kSendto_side (c : Control) (p : Protocol) (self : Nat) (junk : Message) (message : List UInt8) :
    (kSendto { toControl := c, toProtocol := p } self junk message).2 =
      { toControl := c, toProtocol := p.withSend
          (if c.refused self then p.toSendSide else (queueMessage p.toSendSide junk message).getD p.toSendSide) } := by
  unfold kSendto
  cases hr : c.refused self with
  | true => simp
  | false =>
    cases hq : queueMessage p.toSendSide junk message with
    | none => simp
    | some s => simp [Entry.withProtocol]

/-- A call of `k_recvfrom` reads and writes the control fields and the receiving side only. -/
theorem kRecvfrom_side (c : Control) (p : Protocol) (self : Nat) :
    (kRecvfrom { toControl := c, toProtocol := p } self).2 =
      { toControl := c, toProtocol := p.withRecv
          (if c.refused self then p.toRecvSide else ((takeMessage p.toRecvSide).map Prod.snd).getD p.toRecvSide) } := by
  unfold kRecvfrom
  cases hr : c.refused self with
  | true => simp
  | false =>
    cases ht : takeMessage p.toRecvSide with
    | none => simp
    | some x => simp [Entry.withProtocol]

/-- `k_recvfrom` changes nothing, or takes a message from the receiving side. -/
theorem kRecvfrom_cases (e : Entry) (self : Nat) :
    kRecvfrom e self = (none, e) ∨ ∃ m r, takeMessage e.toRecvSide = some (m, r) ∧ e.refused self = false ∧
      kRecvfrom e self = (some m, e.withProtocol (e.toProtocol.withRecv r)) := by
  unfold kRecvfrom
  cases hr : e.refused self with
  | true => exact Or.inl rfl
  | false =>
    cases ht : takeMessage e.toRecvSide with
    | none => exact Or.inl rfl
    | some x => exact Or.inr ⟨x.1, x.2, rfl, rfl, rfl⟩

/-- The head of a round of thread R changes the flag only. -/
theorem windowUpdate_cases (e : Entry) :
    windowUpdate e = (e, []) ∨ (e.isFree = 0 ∧ e.noSpaceFlags = true ∧ 0 < e.rwnd.size ∧
      windowUpdate e = (e.withProtocol (e.toProtocol.withRecv { e.toRecvSide with noSpaceFlags := false }),
        [ackDatagram e.lastAckReceived e.rwnd.size])) := by
  unfold windowUpdate
  split
  · rename_i h
    exact Or.inr ⟨h.1, h.2.1, h.2.2, rfl⟩
  · exact Or.inl rfl

end Frames

end NetLabs.Ktp
