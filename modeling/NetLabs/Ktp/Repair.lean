import NetLabs.Ktp.Acks
import NetLabs.Ktp.Joint

/-!
# A lost acknowledgement

The receiver has taken a message in in order, and its acknowledgement is lost. When the sender sends the message again, thread R has
nothing to say: it acknowledges a message only when it takes it in, and its extra acknowledgement for a number that a slot still carries
stands in the same branch. So the loss is repaired exactly when the receiver takes the second copy for a new message
(`repaired_iff`), which needs the window to have gone once round the numbers.
-/

namespace NetLabs.Ktp

open Function Machine

/-- Some copy of a message has been taken in in order by thread R of `b` along the run. -/
def TakenAlong (a b : Entry) (es : List Action) (message : Message) : Prop :=
  ∃ pre k y, pre ++ [.deliverB k false] <+: es ∧ exec Link.step (Link.begin a b) pre = some y ∧
    y.toB[k]? = some (dataDatagram message) ∧ inOrder y.b.toRecvSide (seqByte message) = true

/-- The sender holds in slot `i` a message that the receiver has taken in in order, and the `k`th datagram in flight is what thread S
sends for that slot. -/
structure SentAgain (a b : Entry) (es : List Action) (x : Link) (k : Nat) (i : Slot) : Prop where
  held : x.a.sbuffFree i = false
  taken : TakenAlong a b es (x.a.sendBuffer i)
  copy : x.toB[k]? = some (dataDatagram (x.a.sendBuffer i))

/-- Thread R of `b` answers the `k`th datagram, and whichever answer is handed to thread R of `a`, slot `i` is free after it. -/
def Repaired (x : Link) (k : Nat) (i : Slot) : Prop :=
  ∃ x' answers, x.step (.deliverB k false) = some x' ∧ x'.toA = x.toA ++ answers ∧ answers ≠ [] ∧
    ∀ d ∈ answers, d.isAckFrame = true ∧ ∃ p out, threadR x'.a.toProtocol d false = .ok (p, out) ∧ p.sbuffFree i = true

/-- The receiver expects the number of slot `i` again and has room, and the sender has not heard of a number as large. -/
def ComesRound (x : Link) (i : Slot) : Prop :=
  x.b.rwnd.startSequence = seqByte (x.a.sendBuffer i) ∧ 0 < x.b.rwnd.size ∧
    x.a.lastAckReceived < seqByte (x.a.sendBuffer i)

/-- The acknowledgement of the number in a slot in use frees the slot exactly when the number is larger than the last one. -/
theorem SendInv.ack_slot {p : Protocol} {sent : List (List UInt8)} {i : Slot} {w : Int}
    (h : SendInv p.toSendSide sent p.lastAckReceived) (hi : p.sbuffFree i = false) (h0 : 0 ≤ w) (hw : w ≤ 10) :
    ∃ p', threadR p (ackDatagram (seqByte (p.sendBuffer i)) w) false = .ok (p', []) ∧
      (p'.sbuffFree i = true ↔ p.lastAckReceived < seqByte (p.sendBuffer i)) := by
  obtain ⟨m, h1, h2, hnoted⟩ := h.window.used i hi
  have hmax : num m ≤ 255 := Ring.num_le (by decide)
  have hnumber : seqByte (p.sendBuffer i) = num m := by
    obtain ⟨j, hj, -, hframe⟩ := h.window.slotOf m h2 h1
    obtain rfl : j = i := Fin.ext (by omega)
    exact hframe.seqByte_eq hmax
  have hpos : 0 < num m := Ring.num_pos
  rw [hnumber]
  have hwindow := ackDatagram_window (num m) h0 (by omega)
  have hbyte := ackDatagram_number hmax w
  have hacc : ackAccepted (num m) ((ackDatagram (num m) w).buffer 1).toNat = true :=
    decide_eq_true ⟨hpos, hmax, by omega⟩
  obtain ⟨p', hp, -⟩ := h.ack (w := ((ackDatagram (num m) w).buffer 1).toNat) ⟨m, h2, rfl⟩
  obtain ⟨hfreed, -, -⟩ := handleAck_freed h hacc ⟨m, h2, rfl⟩ hp
  refine ⟨p', by rw [threadR_ack (ackDatagram_isAckFrame _ _) rfl, hbyte, hp], ?_⟩
  constructor
  · intro hf
    by_contra hle
    -- with an older number the loop frees nothing
    have hmax : max (num m) p.lastAckReceived = p.lastAckReceived := by omega
    rw [hmax] at hfreed
    have hkept := (hfreed.others i fun ⟨n, hn1, hn2, _⟩ => by omega).1
    have hkept : p'.sbuffFree i = p.sbuffFree i := hkept
    rw [hf, hi] at hkept
    cases hkept
  · intro hlt
    have hm : num m = m + 1 := Ring.num_of_lt ((h.lt_num_iff h1 h2).1 hlt)
    exact (hfreed.slots i ⟨m, h1, by omega, hnoted⟩).1

/-- Every answer to a message taken in in order acknowledges its number, with a window of at most 10. -/
theorem RecvInv.acksInOrder_window {r : RecvSide} {q : Nat} {d : Datagram} (h : RecvInv r) (hsize : 0 < r.rwnd.size)
    (hd : d ∈ acksInOrder r q) : ∃ w, d = ackDatagram q w ∧ 0 ≤ w ∧ w ≤ 10 := by
  have hle := h.size_le
  unfold acksInOrder at hd
  rw [List.mem_append, List.mem_singleton] at hd
  rcases hd with hd | rfl
  · split at hd
    · rw [List.mem_singleton] at hd
      exact ⟨_, hd, by omega, hle⟩
    · cases hd
  · exact ⟨_, rfl, by omega, by omega⟩

theorem acksInOrder_ne_nil (r : RecvSide) (q : Nat) : acksInOrder r q ≠ [] := by
  unfold acksInOrder
  exact List.append_ne_nil_of_right_ne_nil _ (List.cons_ne_nil _ _)

/-- What a second copy of a held message does, in every state of a link. -/
theorem Joined.repaired_iff_comesRound {x : Link} {k : Nat} {i : Slot} (h : Joined x) (hi : x.a.sbuffFree i = false)
    (hk : x.toB[k]? = some (dataDatagram (x.a.sendBuffer i))) : Repaired x k i ↔ ComesRound x i := by
  have hdata : (dataDatagram (x.a.sendBuffer i)).isAckFrame = false := rfl
  have hlen : (dataDatagram (x.a.sendBuffer i)).len ≠ 0 := nofun
  obtain ⟨p, out, hr, hstep⟩ := threadR_data h.receiver hdata hlen
  have hx : x.step (.deliverB k false) =
      some { x with b := x.b.withProtocol p, toB := x.toB.eraseIdx k, toA := x.toA ++ out } := by
    simp only [Link.step, hk, hr]
  constructor
  · rintro ⟨x', answers, hx', htoA, hne, hall⟩
    rw [hx] at hx'
    cases hx'
    obtain rfl : out = answers := List.append_cancel_left htoA
    cases hstep with
    | ignored => exact absurd rfl hne
    | early => exact absurd rfl hne
    | inOrder j start hfree hstart hsize hadv =>
      refine ⟨hstart, hsize, ?_⟩
      obtain ⟨d, hd⟩ := List.exists_mem_of_ne_nil _ hne
      obtain ⟨w, rfl, h0, hw⟩ := h.receiver.acksInOrder_window hsize hd
      obtain ⟨-, q, out', hq, hf⟩ := hall _ hd
      obtain ⟨q', hq', hiff⟩ := h.sender.ack_slot hi h0 hw
      have hq : threadR x.a.toProtocol (ackDatagram (seqByte (x.a.sendBuffer i)) w) false = .ok (q, out') := hq
      rw [hq] at hq'
      cases hq'
      exact hiff.1 hf
  · rintro ⟨hstart, hsize, hlt⟩
    cases hstep with
    | ignored hn => exact absurd (Or.inl (decide_eq_true ⟨hstart, hsize⟩)) hn
    | early j hfree hearly => exact absurd hstart.symm hearly.1
    | inOrder j start hfree _ _ hadv =>
      refine ⟨_, _, hx, rfl, acksInOrder_ne_nil _ _, fun d hd => ?_⟩
      obtain ⟨w, rfl, h0, hw⟩ := h.receiver.acksInOrder_window hsize hd
      obtain ⟨q', hq', hiff⟩ := h.sender.ack_slot hi h0 hw
      exact ⟨ackDatagram_isAckFrame _ _, q', [], hq', hiff.2 hlt⟩

/-- When a lost acknowledgement is repaired. In every state a link can reach, where the sender still holds a message that the receiver
has taken in in order and another copy of it arrives and is not dropped: thread R answers with acknowledgements that free the slot,
if and only if the receiver expects that number again, has room, and the number is larger than the last one the sender has heard of. -/
theorem repaired_iff (a b : Entry) (ha : a.toProtocol = freshProtocol) (hb : b.toProtocol = freshProtocol) (es : List Action)
    (x : Link) (hx : exec Link.step (Link.begin a b) es = some x) (k : Nat) (i : Slot) (h : SentAgain a b es x k i) :
    Repaired x k i ↔ ComesRound x i :=
  (joined_run ha hb hx).repaired_iff_comesRound h.held h.copy

/-- Ten messages are sent. -/
def tenSent : List Action := List.replicate 10 (.send 7 (fun _ => 0) [65]) ++ [.wakeA (fun _ => 100) (fun _ => 100)]

/-- The first arrives, its acknowledgement is lost, and after the timeout all ten are sent again. -/
def firstAckLost : List Action := [.deliverB 0 false, .loseA 0, .wakeA (fun _ => 200) (fun _ => 200)]

/-- The second copy of the first message has arrived when its acknowledgement is lost. -/
theorem firstAckLost_sentAgain :
    ∃ x, exec Link.step (Link.begin boundEntry boundPeer) (tenSent ++ firstAckLost) = some x ∧
      SentAgain boundEntry boundPeer (tenSent ++ firstAckLost) x 9 0 ∧ ¬ComesRound x 0 := by
  have hrun : ((exec Link.step (Link.begin boundEntry boundPeer) tenSent).any fun y =>
      (exec Link.step y firstAckLost).any fun x =>
        !x.a.sbuffFree 0 && x.b.rwnd.startSequence != seqByte (x.a.sendBuffer 0) &&
          inOrder y.b.toRecvSide (seqByte (x.a.sendBuffer 0)) &&
          y.carriesAt 0 (x.a.sendBuffer 0) && x.carriesAt 9 (x.a.sendBuffer 0)) = true := by
    decide +kernel
  obtain ⟨y, hy, hrun⟩ := (Option.any_eq_true _ _).1 hrun
  obtain ⟨x, hx, hend⟩ := (Option.any_eq_true _ _).1 hrun
  simp only [Bool.and_eq_true, Bool.not_eq_true', bne_iff_ne, Link.carriesAt_iff] at hend
  obtain ⟨⟨⟨⟨hheld, hstart⟩, hin⟩, hfirst⟩, hcopy⟩ := hend
  refine ⟨x, by rw [exec_append, hy]; exact hx, ⟨hheld, ⟨tenSent, 0, y, ?_, hy, hfirst, hin⟩, hcopy⟩, fun h => hstart h.1⟩
  exact ⟨[.loseA 0, .wakeA (fun _ => 200) (fun _ => 200)], by simp [firstAckLost]⟩

/-- `repaired_iff` on that run. -/
theorem repaired_iff_lost : ∃ x, exec Link.step (Link.begin boundEntry boundPeer) (tenSent ++ firstAckLost) = some x ∧
    (Repaired x 9 0 ↔ ComesRound x 0) := by
  obtain ⟨x, hx, h, -⟩ := firstAckLost_sentAgain
  exact ⟨x, hx, repaired_iff boundEntry boundPeer rfl rfl _ x hx 9 0 h⟩

/-- Thread R does not answer the second copy. -/
theorem lost_ack_not_repaired : ∃ x, exec Link.step (Link.begin boundEntry boundPeer) (tenSent ++ firstAckLost) = some x ∧
    SentAgain boundEntry boundPeer (tenSent ++ firstAckLost) x 9 0 ∧ ¬Repaired x 9 0 := by
  obtain ⟨x, hx, h, hround⟩ := firstAckLost_sentAgain
  refine ⟨x, hx, h, fun hrep => hround ?_⟩
  exact ((joined_run rfl rfl hx).repaired_iff_comesRound h.held h.copy).1 hrep

end NetLabs.Ktp
