import NetLabs.Lib.Fifo
import NetLabs.Ktp.Joint

/-!
# End-to-end delivery

A link is to be a FIFO channel: an accepted `k_sendto` pushes and a `k_recvfrom` that returns a message pops. `Ordered x k` ties the
sender, the receiver and every datagram in flight together as long as the numbers have not started again; after that nothing more
can be returned in order.

What breaks the order is excluded step by step by `KeepsOrder`: `k_recvfrom` returning the message the window starts at (it was
stored ahead of order and is still unacknowledged), a number taken in while it is still held, and a read across the new start of
the numbers.
-/

namespace NetLabs.Ktp

open Function Machine Fifo

/-- What keeps the order: the payload has no NUL; the message `k_recvfrom` picks and returns comes before the start of the window,
and no number held is more than 9 past it; a message is taken in only when its number is not held. -/
def KeepsOrder (x : Link) : Action → Prop
  | .send _ _ message => (0 : UInt8) ∉ message
  | .recv self => x.b.refused self = false → ∀ i, Smallest x.b.toRecvSide i →
      seqByte (x.b.recvBuffer i) ≤ x.b.rwnd.startSequence →
        seqByte (x.b.recvBuffer i) < x.b.rwnd.startSequence ∧
          ∀ q, Held x.b.toRecvSide q → q ≤ x.b.rwnd.startSequence + 9
  | .deliverB i dropped => ∀ d, x.toB[i]? = some d → dropped = false → Accepts x.b.toRecvSide (seqByte d.buffer) →
      ¬Held x.b.toRecvSide (seqByte d.buffer)
  | _ => True

/-- `k` messages have been taken in in order, and the numbers have not started again: the sending side of `a` and the receiving
side of `b` are at the same messages, `a` receives and `b` sends nothing, what is in flight to `b` is messages that have been
sent, and what is in flight to `a` acknowledges messages that have been taken in. -/
structure Ordered (x : Link) (k : Nat) : Prop where
  sender : SendInv x.a.toSendSide x.sent x.a.lastAckReceived
  heard_le : x.a.lastAckReceived ≤ k
  quietA : x.a.noSpaceFlags = false
  quietB : SendInv x.b.toSendSide [] 0
  receiver : RecvWindow x.b.toRecvSide x.sent k x.returned.length
  last_eq : x.b.lastAckReceived = k
  toA : ∀ d ∈ x.toA, ∃ q w, d = ackDatagram q w ∧ q ≤ k
  toB : ∀ d ∈ x.toB, ∃ m b, d = dataDatagram b ∧ Carries x.sent m b
  plain : ∀ m ∈ x.sent, (0 : UInt8) ∉ m

theorem ordered_begin {a b : Entry} (ha : a.toProtocol = freshProtocol) (hb : b.toProtocol = freshProtocol) :
    Ordered (Link.begin a b) 0 := by
  have hj := joined_begin ha hb
  refine ⟨hj.sender, ?_, hj.quietA, hj.quietB, ?_, ?_, ?_, hj.toB, ?_⟩
  · show a.toProtocol.lastAckReceived ≤ 0
    rw [ha]
    exact Nat.le_refl 0
  · show RecvWindow b.toProtocol.toRecvSide [] 0 0
    rw [hb]
    exact recvWindow_fresh
  · show b.toProtocol.lastAckReceived = 0
    rw [hb]
    rfl
  · intro d hd
    cases hd
  · intro m hm
    cases hm

namespace Ordered

variable {x x' : Link} {k : Nat}

theorem sent_le (h : Ordered x k) : x.sent.length ≤ k + 10 := by
  have := h.sender.window.length_le
  have := h.heard_le
  omega

/-- Before the numbers start again, an ordered link is in particular one with the invariant of every run. -/
theorem joined (h : Ordered x k) : Joined x := by
  have hk := h.receiver.k_le
  have htaken := h.receiver.taken_le
  have hack : ∀ q, q ≤ k → Acknowledgeable x.sent q := by
    intro q hq
    rcases Nat.eq_zero_or_pos q with rfl | hpos
    · exact Or.inl rfl
    · exact Or.inr ⟨q - 1, by omega, Ring.num_pred hpos (by omega)⟩
  refine ⟨h.sender, h.quietA, h.quietB, h.receiver.inv, hack _ (Nat.le_of_eq h.last_eq), fun d hd => ?_, h.toB⟩
  obtain ⟨q, w, rfl, hq⟩ := h.toA d hd
  exact ⟨q, w, rfl, hack q hq⟩

/-- What is in flight may be lost, repeated and put in another order. -/
theorem network (h : Ordered x k) {toA toB : List Datagram} (hA : ∀ d ∈ toA, d ∈ x.toA) (hB : ∀ d ∈ toB, d ∈ x.toB) :
    Ordered { x with toA := toA, toB := toB } k where
  sender := h.sender
  heard_le := h.heard_le
  quietA := h.quietA
  quietB := h.quietB
  receiver := h.receiver
  last_eq := h.last_eq
  toA d hd := h.toA d (hA d hd)
  toB d hd := h.toB d (hB d hd)
  plain := h.plain

/-! ## The two processes -/

/-- `k_sendto`: the message is queued, or nothing changes. -/
theorem send {self : Nat} {junk : Message} {message : List UInt8} (h : Ordered x k) (hplain : (0 : UInt8) ∉ message)
    (hs : x.step (.send self junk message) = some x') : Ordered x' k := by
  have hj := h.joined.send hs
  rcases Link.send_some hs with rfl | ⟨s, hq, rfl⟩
  · exact h
  · refine ⟨hj.sender, h.heard_le, h.quietA, h.quietB, h.receiver.append _, h.last_eq, h.toA, hj.toB, fun m hm => ?_⟩
    rw [List.mem_append, List.mem_singleton] at hm
    rcases hm with hm | rfl
    · exact h.plain m hm
    · exact hplain

/-- `k_recvfrom`: nothing is returned and nothing changes, or the next message of the channel is. -/
theorem recv {self : Nat} (h : Ordered x k) (hg : KeepsOrder x (.recv self)) (hs : x.step (.recv self) = some x') :
    Ordered x' k ∧ (x'.returned = x.returned ∨ ∃ m, x.sent[x.returned.length]? = some m ∧ x'.returned = x.returned ++ [m]) := by
  rcases Link.recv_some hs with rfl | ⟨m, r, ht, hown, rfl⟩
  · exact ⟨h, Or.inl rfl⟩
  · obtain ⟨hm, hwin⟩ := h.receiver.take h.plain ht fun i hi hle => (hg hown i hi hle).1
    refine ⟨⟨h.sender, h.heard_le, h.quietA, h.quietB, ?_, h.last_eq, h.toA, h.toB, h.plain⟩, Or.inr ⟨m, hm, rfl⟩⟩
    show RecvWindow r x.sent k (x.returned ++ [m]).length
    rw [List.length_append, List.length_singleton]
    exact hwin

/-! ## The threads of the daemon -/

/-- A wake-up on `a`: what is sent are messages that have been sent before. -/
theorem wakeA {scan : Slot → Int} {stamp : Nat → Int} (h : Ordered x k) (hs : x.step (.wakeA scan stamp) = some x') :
    Ordered x' k := by
  have hj := h.joined.wakeA hs
  obtain ⟨e, out, hw, rfl⟩ := Link.wakeA_some hs
  obtain ⟨t, rfl⟩ := threadS_sendTime hw
  exact ⟨hj.sender, h.heard_le, h.quietA, h.quietB, h.receiver, h.last_eq, h.toA, hj.toB, h.plain⟩

/-- A wake-up on `b`, which has nothing to send. -/
theorem wakeB {scan : Slot → Int} {stamp : Nat → Int} (h : Ordered x k) (hs : x.step (.wakeB scan stamp) = some x') :
    Ordered x' k := by
  have hj := h.joined.wakeB hs
  obtain ⟨e, out, hw, rfl⟩ := Link.wakeB_some hs
  obtain rfl := threadS_silent h.quietB hw
  obtain ⟨t, rfl⟩ := threadS_sendTime hw
  rw [List.append_nil]
  exact ⟨h.sender, h.heard_le, h.quietA, hj.quietB, h.receiver, h.last_eq, h.toA, h.toB, h.plain⟩

/-- The update of thread R on `b` acknowledges the last message taken in. -/
theorem updateB (h : Ordered x k) (hs : x.step .updateB = some x') : Ordered x' k := by
  rcases Link.updateB_some hs with rfl | ⟨-, -, rfl⟩
  · exact h
  · refine ⟨h.sender, h.heard_le, h.quietA, h.quietB, h.receiver.flag false, h.last_eq, fun d hd => ?_, h.toB, h.plain⟩
    rw [List.mem_append, List.mem_singleton] at hd
    rcases hd with hd | rfl
    · exact h.toA d hd
    · exact ⟨x.b.lastAckReceived, x.b.rwnd.size, rfl, Nat.le_of_eq h.last_eq⟩

/-- Thread R on `a`: an acknowledgement of messages taken in frees messages of the sender. -/
theorem deliverA {i : Nat} {dropped : Bool} (h : Ordered x k) (hs : x.step (.deliverA i dropped) = some x') : Ordered x' k := by
  have hj := h.joined.deliverA hs
  obtain ⟨d, p, out, hd, ht, rfl⟩ := Link.deliverA_some hs
  obtain ⟨q, w, rfl, hq⟩ := h.toA d (List.mem_of_getElem? hd)
  obtain ⟨hheard, rfl⟩ := threadR_heard (ackDatagram_isAckFrame q w) ht
  have hk := h.receiver.k_le
  rw [ackDatagram_number (show q ≤ 255 by omega) w] at hheard
  rw [List.append_nil]
  refine ⟨hj.sender, ?_, hj.quietA, h.quietB, h.receiver, h.last_eq, fun d hd => ?_, h.toB, h.plain⟩
  · have hle := h.heard_le
    show p.lastAckReceived ≤ k
    omega
  · exact h.toA d (List.mem_of_mem_eraseIdx hd)

/-- Thread R on `b`: a message is ignored, taken in ahead of order, or taken in in order, and then the receiver is one message
further, or the numbers start again. -/
theorem deliverB {i : Nat} {dropped : Bool} (h : Ordered x k) (hg : KeepsOrder x (.deliverB i dropped))
    (hs : x.step (.deliverB i dropped) = some x') : (∃ k', Ordered x' k') ∨ Wrapped x'.b.toRecvSide := by
  have hrest := (h.joined.deliverB hs).toB
  obtain ⟨m, b, p, out, hd, hc, rfl, ⟨-, rfl, rfl⟩ | ⟨hdrop, hstep⟩⟩ := h.joined.dataStep hs
  · rw [List.append_nil]
    exact Or.inl ⟨k, h.network (fun _ hd => hd) fun _ => List.mem_of_mem_eraseIdx⟩
  · have hlen := h.sent_le
    have hnew := hg _ hd hdrop
    cases hstep with
    | ignored =>
      rw [List.append_nil]
      exact Or.inl ⟨k, h.network (fun _ hd => hd) fun _ => List.mem_of_mem_eraseIdx⟩
    | early j hfree hearly =>
      rw [List.append_nil]
      exact Or.inl ⟨k, h.sender, h.heard_le, h.quietA, h.quietB,
        h.receiver.early hc hlen hfree hearly (hnew (Or.inr hearly)), h.last_eq, h.toA, hrest, h.plain⟩
    | inOrder j start hfree hstart hsize hadv =>
      obtain rfl := h.receiver.next_message hc hlen hstart
      have hk := h.receiver.k_le
      have hbyte : seqByte b = m + 1 := hstart.symm.trans h.receiver.start_eq
      have hnext : start = next (m + 1) := h.receiver.advance_eq hbyte hadv
      by_cases hlast : m = 254
      · subst hlast
        obtain rfl : start = 1 := hnext
        exact Or.inr (h.receiver.wrap hbyte hfree)
      · have hnext' : next (m + 1) = m + 2 := Ring.next_of_lt (by omega)
        obtain rfl : start = m + 2 := hnext.trans hnext'
        have hacc : Accepts x.b.toRecvSide (seqByte b) := Or.inl (decide_eq_true ⟨hstart, hsize⟩)
        refine Or.inl ⟨m + 1, h.sender, Nat.le_succ_of_le h.heard_le, h.quietA, h.quietB,
          h.receiver.inOrder hc (by omega) hfree (hnew hacc), hbyte, fun d hd => ?_, hrest, h.plain⟩
        rw [List.mem_append] at hd
        rcases hd with hd | hd
        · obtain ⟨q, w, rfl, hq⟩ := h.toA d hd
          exact ⟨q, w, rfl, by omega⟩
        · obtain ⟨w, rfl⟩ := mem_acksInOrder hd
          exact ⟨_, w, rfl, Nat.le_of_eq hbyte⟩

/-- Every action that keeps the order leads to an ordered link, or to a receiver whose numbers have started again. -/
theorem step (e : Action) (h : Ordered x k) (hg : KeepsOrder x e) (hs : x.step e = some x') :
    (∃ k', Ordered x' k') ∨ Wrapped x'.b.toRecvSide := by
  cases e with
  | send self junk message => exact Or.inl ⟨k, h.send hg hs⟩
  | recv self => exact Or.inl ⟨k, (h.recv hg hs).1⟩
  | wakeA scan stamp => exact Or.inl ⟨k, h.wakeA hs⟩
  | wakeB scan stamp => exact Or.inl ⟨k, h.wakeB hs⟩
  | updateA =>
    rcases Link.updateA_some hs with rfl | ⟨hflag, -, -⟩
    · exact Or.inl ⟨k, h⟩
    · rw [h.quietA] at hflag
      cases hflag
  | updateB => exact Or.inl ⟨k, h.updateB hs⟩
  | deliverA i dropped => exact Or.inl ⟨k, h.deliverA hs⟩
  | deliverB i dropped => exact h.deliverB hg hs
  | loseA i =>
    cases hs
    exact Or.inl ⟨k, h.network (fun _ => List.mem_of_mem_eraseIdx) fun _ hd => hd⟩
  | loseB i =>
    cases hs
    exact Or.inl ⟨k, h.network (fun _ hd => hd) fun _ => List.mem_of_mem_eraseIdx⟩
  | doubleA i =>
    cases hs
    exact Or.inl ⟨k, h.network (fun _ => mem_of_mem_append_getElem?) fun _ hd => hd⟩
  | doubleB i =>
    cases hs
    exact Or.inl ⟨k, h.network (fun _ hd => hd) fun _ => mem_of_mem_append_getElem?⟩

end Ordered

/-! ## After the numbers have started again -/

/-- Every action keeps the receiver as it is then. -/
theorem wrapped_step {x x' : Link} (e : Action) (h : Wrapped x.b.toRecvSide) (hg : KeepsOrder x e) (hs : x.step e = some x') :
    Wrapped x'.b.toRecvSide ∧ x'.returned = x.returned := by
  cases e with
  | recv self =>
    rcases Link.recv_some hs with rfl | ⟨m, r, ht, hown, rfl⟩
    · exact ⟨h, rfl⟩
    · -- nothing is returned: message 255 is held, far from the start of the window
      obtain ⟨i, hi, hle, hmin, -, -⟩ := takeMessage_some ht
      have hfar := (hg hown i ⟨hi, hmin⟩ hle).2 255 h.oldest
      have hroom := h.room
      have hsize := h.inv.size_nonneg
      omega
  | wakeA scan stamp =>
    obtain ⟨e, out, -, rfl⟩ := Link.wakeA_some hs
    exact ⟨h, rfl⟩
  | wakeB scan stamp =>
    obtain ⟨e, out, hw, rfl⟩ := Link.wakeB_some hs
    obtain ⟨t, rfl⟩ := threadS_sendTime hw
    exact ⟨h, rfl⟩
  | updateB =>
    rcases Link.updateB_some hs with rfl | ⟨-, -, rfl⟩
    · exact ⟨h, rfl⟩
    · exact ⟨⟨h.inv.flag false, h.oldest, h.room, h.ahead⟩, rfl⟩
  | deliverA i dropped =>
    obtain ⟨d, p, out, -, -, rfl⟩ := Link.deliverA_some hs
    exact ⟨h, rfl⟩
  | deliverB i dropped =>
    obtain ⟨d, p, out, -, ht, rfl⟩ := Link.deliverB_some hs
    exact ⟨h.threadR ht, rfl⟩
  | _ =>
    cases hs
    exact ⟨h, rfl⟩

/-! ## The link is a channel -/

/-- The channel a link is to be. -/
def Link.channel (x : Link) : Channel (List UInt8) := { pushed := x.sent, popped := x.returned }

/-- The invariant of the link. -/
def Delivering (x : Link) : Prop := (∃ k, Ordered x k) ∨ Wrapped x.b.toRecvSide

theorem delivering_step (x : Link) (e : Action) (x' : Link) (h : Delivering x) (hg : KeepsOrder x e)
    (hs : x.step e = some x') : Delivering x' := by
  rcases h with ⟨k, h⟩ | h
  · exact h.step e hg hs
  · exact Or.inr (wrapped_step e h hg hs).1

/-- A link that keeps the order is a FIFO channel: an accepted `k_sendto` is a push, a `k_recvfrom` that returns a message a pop, and
everything else nothing. -/
theorem link_simulates_channel : Simulates Link.step KeepsOrder Delivering Channel.step Link.channel := by
  intro x e x' h hg hs
  cases e with
  | send self junk message =>
    cases hs
    cases hc : (kSendto x.a self junk message).1 with
    | none => exact ⟨[], by simp [Link.channel]⟩
    | some n => exact ⟨[.push message], by simp [Link.channel, exec_cons, Channel.step]⟩
  | recv self =>
    have hreturned : x'.returned = x.returned ∨
        ∃ m, x.sent[x.returned.length]? = some m ∧ x'.returned = x.returned ++ [m] := by
      rcases h with ⟨k, h⟩ | h
      · exact (h.recv hg hs).2
      · exact Or.inl (wrapped_step _ h hg hs).2
    have hsent : x'.sent = x.sent := by
      cases hs
      rfl
    rcases hreturned with hr | ⟨m, hm, hr⟩
    · exact ⟨[], by simp [Link.channel, hr, hsent]⟩
    · exact ⟨[.pop], by simp [Link.channel, hr, hsent, exec_cons, Channel.step, hm]⟩
  | wakeA scan stamp =>
    obtain ⟨e, out, -, rfl⟩ := Link.wakeA_some hs
    exact ⟨[], rfl⟩
  | wakeB scan stamp =>
    obtain ⟨e, out, -, rfl⟩ := Link.wakeB_some hs
    exact ⟨[], rfl⟩
  | deliverA i dropped =>
    obtain ⟨d, p, out, -, -, rfl⟩ := Link.deliverA_some hs
    exact ⟨[], rfl⟩
  | deliverB i dropped =>
    obtain ⟨d, p, out, -, -, rfl⟩ := Link.deliverB_some hs
    exact ⟨[], rfl⟩
  | _ =>
    cases hs
    exact ⟨[], rfl⟩

/-- End-to-end delivery, where the order is kept. In every run of two entries in the state `init_ksocket` writes, with any schedule
of the two processes and the daemon and any losses, delays and repetitions, whose every action keeps the order, the messages
`k_recvfrom` has returned are a beginning of the messages `k_sendto` has accepted; the run is one of a FIFO channel. -/
theorem returned_prefix_sent (a b : Entry) (ha : a.toProtocol = freshProtocol) (hb : b.toProtocol = freshProtocol)
    (es : List Action) (hes : Meets Link.step KeepsOrder (Link.begin a b) es) (x : Link)
    (hx : exec Link.step (Link.begin a b) es = some x) :
    x.returned <+: x.sent ∧ ∃ os, exec Channel.step { pushed := [], popped := [] } os = some x.channel := by
  obtain ⟨os, hos⟩ := link_simulates_channel.run delivering_step (Or.inl ⟨0, ordered_begin ha hb⟩) hes hx
  have hempty : (Link.begin a b).channel.InOrder := List.nil_prefix
  exact ⟨hempty.run hos, os, hos⟩

/-- `returned_prefix_sent` on a message that is sent, taken in and returned. -/
theorem returned_prefix_sent_one :
    ∃ x, exec Link.step (Link.begin boundEntry boundPeer)
        [.send 7 (fun _ => 0) [104, 105], .wakeA (fun _ => 100) (fun _ => 100), .deliverB 0 false, .recv 8] = some x ∧
      x.returned <+: x.sent := by
  have hrun : (exec Link.step (Link.begin boundEntry boundPeer)
      [.send 7 (fun _ => 0) [104, 105], .wakeA (fun _ => 100) (fun _ => 100), .deliverB 0 false, .recv 8]).isSome = true := by
    decide +kernel
  have hfree : (exec Link.step (Link.begin boundEntry boundPeer)
      [.send 7 (fun _ => 0) [104, 105], .wakeA (fun _ => 100) (fun _ => 100)]).all
        (fun x => decide (∀ j, x.b.rbuffFree j = true)) = true := by
    decide +kernel
  have hbefore : (exec Link.step (Link.begin boundEntry boundPeer)
      [.send 7 (fun _ => 0) [104, 105], .wakeA (fun _ => 100) (fun _ => 100), .deliverB 0 false]).all
        (fun x => decide (∀ j, x.b.rbuffFree j = false → seqByte (x.b.recvBuffer j) < x.b.rwnd.startSequence)) = true := by
    decide +kernel
  obtain ⟨x, hx⟩ := Option.isSome_iff_exists.1 hrun
  refine ⟨x, hx, (returned_prefix_sent boundEntry boundPeer rfl rfl _ ?_ x hx).1⟩
  have hplain : (0 : UInt8) ∉ [104, 105] := by decide
  refine ⟨hplain, fun x1 h1 => ⟨trivial, fun x2 h2 => ⟨?_, fun x3 h3 => ⟨?_, fun _ _ => trivial⟩⟩⟩⟩
  · rw [exec_cons_eq_some.2 ⟨x1, h1, exec_cons_eq_some.2 ⟨x2, h2, rfl⟩⟩] at hfree
    rintro d - - - ⟨j, hj, -⟩
    rw [of_decide_eq_true hfree j] at hj
    cases hj
  · rw [exec_cons_eq_some.2 ⟨x1, h1, exec_cons_eq_some.2 ⟨x2, h2, exec_cons_eq_some.2 ⟨x3, h3, rfl⟩⟩⟩] at hbefore
    have hbefore := of_decide_eq_true hbefore
    refine fun _ i hi _ => ⟨hbefore i hi.1, ?_⟩
    rintro q ⟨j, hj, rfl⟩
    exact Nat.le_add_right_of_le (Nat.le_of_lt (hbefore j hj))

/-- Messages 1 and 2 are taken in in order and 1 is read; 4 comes ahead of order, then 3, then a second copy of 4, now in order,
which is stored again. `k_recvfrom` returns message 4 twice. -/
theorem message_returned_twice :
    ∃ x, exec Link.step (Link.begin boundEntry boundPeer)
        [.send 7 (fun _ => 0) [65], .send 7 (fun _ => 0) [66], .send 7 (fun _ => 0) [67], .send 7 (fun _ => 0) [68],
          .wakeA (fun _ => 100) (fun _ => 100), .deliverB 0 false, .deliverB 0 false, .recv 8, .doubleB 1,
          .deliverB 1 false, .deliverB 0 false, .deliverB 0 false, .recv 8, .recv 8, .recv 8, .recv 8] = some x ∧
      x.sent = [[65], [66], [67], [68]] ∧ x.returned = [[65], [66], [67], [68], [68]] ∧ ¬x.returned <+: x.sent := by
  have hrun : ((exec Link.step (Link.begin boundEntry boundPeer)
      [.send 7 (fun _ => 0) [65], .send 7 (fun _ => 0) [66], .send 7 (fun _ => 0) [67], .send 7 (fun _ => 0) [68],
        .wakeA (fun _ => 100) (fun _ => 100), .deliverB 0 false, .deliverB 0 false, .recv 8, .doubleB 1,
        .deliverB 1 false, .deliverB 0 false, .deliverB 0 false, .recv 8, .recv 8, .recv 8, .recv 8]).any
      fun x => x.sent == [[65], [66], [67], [68]] && x.returned == [[65], [66], [67], [68], [68]]) = true := by
    decide +kernel
  obtain ⟨x, hx, hend⟩ := (Option.any_eq_true _ _).1 hrun
  simp only [Bool.and_eq_true, beq_iff_eq] at hend
  obtain ⟨hsent, hreturned⟩ := hend
  refine ⟨x, hx, hsent, hreturned, ?_⟩
  rw [hsent, hreturned]
  decide

end NetLabs.Ktp
