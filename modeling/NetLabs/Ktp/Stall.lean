import NetLabs.Ktp.Directions
import NetLabs.Ktp.Link

/-!
# The closed window

A sender whose window has size 0 sends nothing, so it depends on the receiver to open it again: the receiver has no space and sets
its flag, the flag is set and the next round of thread R sends an update, or an acknowledgement with a positive window is on its
way. Of all that can happen two things take the last way away (`KeepsWay` says that neither does): the network loses that
acknowledgement, and an acknowledgement with window 0 arrives when nothing is left to open the window after it.
-/

namespace NetLabs.Ktp

open Function Slots Machine

/-- An acknowledgement that announces a positive window. -/
def Datagram.opens (d : Datagram) : Bool := d.actsAsAck && decide (0 < (d.buffer 1).toNat)

/-- Something will open a closed window again: the receiver has no space or has its flag set, or an acknowledgement that does is
among `toA`. -/
def Reopening (b : Entry) (toA : List Datagram) : Prop :=
  b.rwnd.size = 0 ∨ b.noSpaceFlags = true ∨ ∃ d ∈ toA, d.opens = true

/-- The sender is not left with a closed window that nobody will reopen. -/
def NoStall (x : Link) : Prop := x.a.swnd.size = 0 → Reopening x.b x.toA

/-- An acknowledgement that opens a closed window is lost, and one with window 0 acted on, only when something else will open the
window again. -/
def KeepsWay (x : Link) : Action → Prop
  | .loseA i => ∀ d, x.toA[i]? = some d → d.opens = true → x.a.swnd.size = 0 → Reopening x.b (x.toA.eraseIdx i)
  | .deliverA i _ => ∀ d, x.toA[i]? = some d → d.actsAsAck = true → (d.buffer 1).toNat = 0 →
      Reopening x.b (x.toA.eraseIdx i)
  | _ => True

/-! ## The receiver -/

/-- What the receiver keeps: where there is no space the flag is set, and before the first message nothing has happened. -/
structure ReceiverReady (p : Protocol) : Prop where
  recv : RecvInv p.toRecvSide
  full : p.rwnd.size = 0 → p.noSpaceFlags = true
  first : p.lastAckReceived = 0 → p.rwnd.size = 10 ∧ p.rwnd.startSequence = 1 ∧ p.noSpaceFlags = false
  last_le : p.lastAckReceived ≤ 255

theorem receiverReady_fresh : ReceiverReady freshProtocol where
  recv := recvInv_fresh
  full h := absurd h (by decide)
  first _ := ⟨rfl, rfl, rfl⟩
  last_le := by decide

namespace ReceiverReady

variable {p p' : Protocol} {out : List Datagram}

/-- `k_recvfrom` keeps it. -/
theorem take {m : List UInt8} {r : RecvSide} (h : ReceiverReady p) (ht : takeMessage p.toRecvSide = some (m, r)) :
    ReceiverReady (p.withRecv r) := by
  have hinv := recvInv_takeMessage h.recv ht
  obtain ⟨i, hi, -, -, -, rfl⟩ := takeMessage_some ht
  have hgive := freeCount_give hi
  have hle := freeCount_le (update p.rbuffFree i true)
  rw [Fintype.card_fin] at hle
  have hsize := h.recv.size_eq
  refine ⟨hinv, fun h0 => ?_, fun h0 => ?_, h.last_le⟩
  · have hsize' : (p.withRecv (freeSlot p.toRecvSide i (seqByte (p.recvBuffer i)))).rwnd.size = _ := hinv.size_eq
    have hfree : (freeCount (update p.rbuffFree i true) : Int) = 0 := hsize'.symm.trans h0
    omega
  · have := (h.first h0).1
    omega

/-- A data message keeps it. -/
theorem data {b : Message} (h : ReceiverReady p) (hs : DataStep p b p' out) : ReceiverReady p' := by
  have hinv := hs.recvInv h.recv
  have hflag : ∀ r : RecvSide, (takeSpace r).rwnd.size = 0 → (takeSpace r).noSpaceFlags = true := by
    intro r h0
    have h0 : r.rwnd.size - 1 = 0 := h0
    simp [takeSpace, h0]
  cases hs with
  | ignored => exact h
  | early i hfree hearly =>
    refine ⟨hinv, hflag _, fun h0 => ?_, h.last_le⟩
    obtain ⟨hsize, hstart, -⟩ := h.first h0
    exact absurd hearly (not_acceptsEarly hstart hsize _)
  | inOrder i start hfree hstart hsize hadv =>
    have hpos := h.recv.start_pos
    have hlt := seqByte_lt b
    refine ⟨hinv, hflag _, fun h0 => ?_, by show seqByte b ≤ 255; omega⟩
    have h0 : seqByte b = 0 := h0
    omega

/-- A datagram keeps it. -/
theorem threadR {d : Datagram} {dropped : Bool} (h : ReceiverReady p) (hs : threadR p d dropped = .ok (p', out)) :
    ReceiverReady p' := by
  rcases threadR_cases h.recv hs with ⟨rfl, -⟩ | ha | ⟨-, -, -, hstep⟩
  · exact h
  · obtain ⟨hrecv, hlast, hpos, -⟩ := threadR_acts ha hs
    have hbyte := (d.buffer 0).toNat_lt
    have hle := h.last_le
    refine ⟨hrecv ▸ h.recv, ?_, fun h0 => by omega, by omega⟩
    show p'.toRecvSide.rwnd.size = 0 → p'.toRecvSide.noSpaceFlags = true
    rw [hrecv]
    exact h.full
  · exact h.data hstep

end ReceiverReady

/-- The update thread R sends announces a positive window for a number that is not 0. -/
theorem ackDatagram_opens {q : Nat} {w : Int} (hq : 1 ≤ q) (hq' : q ≤ 255) (hw : 0 < w) (hw' : w ≤ 10) :
    (ackDatagram q w).opens = true := by
  have hnumber := ackDatagram_number hq' w
  have hwindow := ackDatagram_window q (Int.le_of_lt hw) (by omega)
  have hacc : ackAccepted ((ackDatagram q w).buffer 0).toNat ((ackDatagram q w).buffer 1).toNat = true := by
    simp only [ackAccepted, decide_eq_true_eq]
    omega
  have hpos : 0 < ((ackDatagram q w).buffer 1).toNat := by omega
  simp only [Datagram.opens, Datagram.actsAsAck, ackDatagram_isAckFrame, hacc, hpos, decide_true, Bool.and_true, Bool.true_and]
  rfl

/-! ## One action -/

section Steps

variable {x x' : Link}

/-- More in flight leaves every way open. -/
theorem Reopening.append {b : Entry} {toA out : List Datagram} (h : Reopening b toA) : Reopening b (toA ++ out) := by
  rcases h with h | h | ⟨d, hd, ho⟩
  · exact Or.inl h
  · exact Or.inr (Or.inl h)
  · exact Or.inr (Or.inr ⟨d, List.mem_append_left _ hd, ho⟩)

/-- Without a datagram that opens nothing, every way is still open. -/
theorem Reopening.erase {b : Entry} {toA : List Datagram} {i : Nat} (h : Reopening b toA)
    (hi : ∀ d, toA[i]? = some d → d.opens = false) : Reopening b (toA.eraseIdx i) := by
  rcases h with h | h | ⟨d, hd, ho⟩
  · exact Or.inl h
  · exact Or.inr (Or.inl h)
  · obtain ⟨j, hj⟩ := List.mem_iff_getElem?.1 hd
    refine Or.inr (Or.inr ⟨d, List.mem_eraseIdx_iff_getElem?.2 ⟨j, ?_, hj⟩, ho⟩)
    rintro rfl
    rw [hi d hj] at ho
    cases ho

/-- Where the flag stays set, every way stays open: a receiver without space has it set. -/
theorem Reopening.mono {b b' : Entry} {toA : List Datagram} (h : Reopening b toA) (hready : ReceiverReady b.toProtocol)
    (hflag : b.noSpaceFlags = true → b'.noSpaceFlags = true) : Reopening b' toA := by
  rcases h with h | h | h
  · exact Or.inr (Or.inl (hflag (hready.full h)))
  · exact Or.inr (Or.inl (hflag h))
  · exact Or.inr (Or.inr h)

/-- A data message leaves the flag set. -/
theorem DataStep.noSpaceFlags {p p' : Protocol} {b : Message} {out : List Datagram} (hs : DataStep p b p' out)
    (h : p.noSpaceFlags = true) : p'.noSpaceFlags = true := by
  have hspace : ∀ r : RecvSide, r.noSpaceFlags = true → (takeSpace r).noSpaceFlags = true := by
    intro r hr
    simp [takeSpace, hr]
  cases hs with
  | ignored => exact h
  | early i => exact hspace _ h
  | inOrder i => exact hspace _ h

/-- So does every datagram. -/
theorem threadR_noSpaceFlags {p p' : Protocol} {d : Datagram} {dropped : Bool} {out : List Datagram}
    (hready : ReceiverReady p) (hs : threadR p d dropped = .ok (p', out)) (h : p.noSpaceFlags = true) :
    p'.noSpaceFlags = true := by
  rcases threadR_cases hready.recv hs with ⟨rfl, -⟩ | ha | ⟨-, -, -, hstep⟩
  · exact h
  · show p'.toRecvSide.noSpaceFlags = true
    rw [(threadR_acts ha hs).1]
    exact h
  · exact hstep.noSpaceFlags h

/-- Every action keeps what the receiver keeps. -/
theorem receiverReady_step (e : Action) (h : ReceiverReady x.b.toProtocol) (hs : x.step e = some x') :
    ReceiverReady x'.b.toProtocol := by
  cases e with
  | recv self =>
    rcases Link.recv_some hs with rfl | ⟨m, r, ht, -, rfl⟩
    · exact h
    · exact h.take ht
  | wakeB scan stamp =>
    obtain ⟨e, out, hw, rfl⟩ := Link.wakeB_some hs
    obtain ⟨t, rfl⟩ := threadS_sendTime hw
    exact ⟨h.recv, h.full, h.first, h.last_le⟩
  | updateB =>
    rcases Link.updateB_some hs with rfl | ⟨hflag, hsize, rfl⟩
    · exact h
    · refine ⟨h.recv.flag false, fun h0 => ?_, fun h0 => ?_, h.last_le⟩
      · have h0 : x.b.rwnd.size = 0 := h0
        omega
      · have hnone := (h.first h0).2.2
        rw [hflag] at hnone
        cases hnone
  | deliverA i dropped =>
    obtain ⟨d, p, out, -, -, rfl⟩ := Link.deliverA_some hs
    exact h
  | deliverB i dropped =>
    obtain ⟨d, p, out, -, ht, rfl⟩ := Link.deliverB_some hs
    exact h.threadR ht
  | wakeA scan stamp =>
    obtain ⟨e, out, -, rfl⟩ := Link.wakeA_some hs
    exact h
  | _ =>
    cases hs
    exact h

/-- A `k_sendto` leaves the size of the window alone. -/
theorem kSendto_size (e : Entry) (self : Nat) (junk : Message) (message : List UInt8) :
    (kSendto e self junk message).2.swnd.size = e.swnd.size := by
  cases hc : (kSendto e self junk message).1 with
  | none => rw [kSendto_none hc]
  | some n =>
    obtain ⟨s, hq, he⟩ := kSendto_some hc
    obtain ⟨-, i, -, rfl⟩ := queueMessage_some hq
    rw [he]
    rfl

/-- A datagram that is not acted on as an acknowledgement leaves the size of the window alone. -/
theorem threadR_size {p p' : Protocol} {d : Datagram} {dropped : Bool} {out : List Datagram} (ha : d.actsAsAck = false)
    (hs : threadR p d dropped = .ok (p', out)) : p'.swnd.size = p.swnd.size := by
  cases hd : d.isAckFrame with
  | true =>
    rw [threadR_idle p dropped hd ha] at hs
    cases hs
    rfl
  | false =>
    rw [threadR_sendSide hd hs]

/-- An action that keeps the way open leads from a state without a stall to one without a stall. -/
theorem noStall_keep (e : Action) (h : ReceiverReady x.b.toProtocol) (hp : NoStall x) (hg : KeepsWay x e)
    (hs : x.step e = some x') : NoStall x' := by
  cases e with
  | send self junk message =>
    cases hs
    intro h0
    exact hp ((kSendto_size x.a self junk message).symm.trans h0)
  | recv self =>
    rcases Link.recv_some hs with rfl | ⟨m, r, ht, -, rfl⟩
    · exact hp
    · obtain ⟨i, -, -, -, -, rfl⟩ := takeMessage_some ht
      exact fun h0 => (hp h0).mono h id
  | wakeA scan stamp =>
    obtain ⟨e, out, hw, rfl⟩ := Link.wakeA_some hs
    obtain ⟨t, rfl⟩ := threadS_sendTime hw
    exact hp
  | wakeB scan stamp =>
    obtain ⟨e, out, hw, rfl⟩ := Link.wakeB_some hs
    obtain ⟨t, rfl⟩ := threadS_sendTime hw
    exact fun h0 => ((hp h0).mono h id).append
  | updateA =>
    rcases Link.updateA_some hs with rfl | ⟨-, -, rfl⟩
    · exact hp
    · exact hp
  | updateB =>
    rcases Link.updateB_some hs with rfl | ⟨hflag, hsize, rfl⟩
    · exact hp
    · -- the update itself opens the window: the flag is set only after a message with a number has been taken in
      have hlast : x.b.lastAckReceived ≠ 0 := by
        intro h0
        have hnone := (h.first h0).2.2
        rw [hflag] at hnone
        cases hnone
      have hopens := ackDatagram_opens (Nat.one_le_iff_ne_zero.2 hlast) h.last_le hsize h.recv.size_le
      exact fun _ => Or.inr (Or.inr ⟨_, List.mem_append_right _ (List.mem_singleton_self _), hopens⟩)
  | deliverA i dropped =>
    obtain ⟨d, p, out, hd, ht, rfl⟩ := Link.deliverA_some hs
    intro h0
    cases ha : d.actsAsAck with
    | true => exact hg d hd ha ((threadR_acts ha ht).2.2.2.1.symm.trans h0)
    | false =>
      refine (hp ((threadR_size ha ht).symm.trans h0)).erase fun d' hd' => ?_
      obtain rfl := Option.some.inj (hd.symm.trans hd')
      simp [Datagram.opens, ha]
  | deliverB i dropped =>
    obtain ⟨d, p, out, -, ht, rfl⟩ := Link.deliverB_some hs
    exact fun h0 => ((hp h0).mono h (threadR_noSpaceFlags h ht)).append
  | loseA i =>
    cases hs
    intro h0
    by_cases hopen : ∃ d, x.toA[i]? = some d ∧ d.opens = true
    · obtain ⟨d, hd, ho⟩ := hopen
      exact hg d hd ho h0
    · refine (hp h0).erase fun d hd => ?_
      cases ho : d.opens with
      | false => rfl
      | true => exact absurd ⟨d, hd, ho⟩ hopen
  | loseB i =>
    cases hs
    exact hp
  | doubleA i =>
    cases hs
    exact fun h0 => (hp h0).append
  | doubleB i =>
    cases hs
    exact hp

/-- An action that does not leads to a stall. -/
theorem noStall_break (e : Action) (hg : ¬KeepsWay x e) (hs : x.step e = some x') : ¬NoStall x' := by
  cases e with
  | deliverA i dropped =>
    obtain ⟨d, p, out, hd, ht, rfl⟩ := Link.deliverA_some hs
    simp only [KeepsWay, hd, Option.some.injEq, forall_eq', Classical.not_imp] at hg
    obtain ⟨ha, hzero, hway⟩ := hg
    exact fun hp => hway (hp ((threadR_acts ha ht).2.2.2.1.trans hzero))
  | loseA i =>
    cases hs
    simp only [KeepsWay, not_forall] at hg
    obtain ⟨d, hd, ho, h0, hway⟩ := hg
    exact fun hp => hway (hp h0)
  | _ => exact absurd trivial hg

end Steps

/-! ## Every run -/

/-- When a closed window is never left closed. In every run of two entries in the state `init_ksocket` writes, one sending and one
receiving, with datagrams lost, doubled and delivered in any order, the sender is in no state left with a closed window that nobody
will reopen, if and only if, at every action, an acknowledgement that announces a positive window is lost while the window is closed
only when something else will open it, and an acknowledgement with window 0 is acted on only when something will open it again. -/
theorem noStall_iff (a b : Entry) (ha : a.toProtocol = freshProtocol) (hb : b.toProtocol = freshProtocol) (es : List Action)
    (x : Link) (hx : exec Link.step (Link.begin a b) es = some x) :
    Always Link.step NoStall (Link.begin a b) es ↔ Meets Link.step KeepsWay (Link.begin a b) es := by
  refine always_iff_meets (I := fun x : Link => ReceiverReady x.b.toProtocol)
    (fun x e x' h hs => receiverReady_step e h hs) (fun x e x' h hp hg hs => noStall_keep e h hp hg hs)
    (fun x e x' _ _ hg hs => noStall_break e hg hs) ?_ ?_ hx
  · show ReceiverReady b.toProtocol
    rw [hb]
    exact receiverReady_fresh
  · intro h0
    have hsize : a.toProtocol.swnd.size = 0 := h0
    rw [ha] at hsize
    cases hsize

/-- `noStall_iff` on a message that is sent, taken in and acknowledged. -/
theorem noStall_iff_one :
    Always Link.step NoStall (Link.begin boundEntry boundPeer)
        [.send 7 (fun _ => 0) [104, 105], .wakeA (fun _ => 100) (fun _ => 100), .deliverB 0 false, .deliverA 0 false] ↔
      Meets Link.step KeepsWay (Link.begin boundEntry boundPeer)
        [.send 7 (fun _ => 0) [104, 105], .wakeA (fun _ => 100) (fun _ => 100), .deliverB 0 false, .deliverA 0 false] :=
  noStall_iff boundEntry boundPeer rfl rfl _ _ rfl

/-- Ten messages fill the receiver, and the acknowledgement of the last closes the window. One message is read, the update is sent,
which clears the flag, and the network loses it. -/
theorem window_update_lost :
    ∃ x, exec Link.step (Link.begin boundEntry boundPeer)
        (List.replicate 10 (.send 7 (fun _ => 0) []) ++ [.wakeA (fun _ => 100) (fun _ => 100)] ++
          (List.replicate 10 [.deliverB 0 false, .deliverA 0 false]).flatten ++ [.recv 8, .updateB, .loseA 0]) = some x ∧
      ¬NoStall x := by
  have hrun : ((exec Link.step (Link.begin boundEntry boundPeer)
      (List.replicate 10 (.send 7 (fun _ => 0) []) ++ [.wakeA (fun _ => 100) (fun _ => 100)] ++
        (List.replicate 10 [.deliverB 0 false, .deliverA 0 false]).flatten ++ [.recv 8, .updateB, .loseA 0])).any
      fun x => x.a.swnd.size == 0 && x.b.rwnd.size == 1 && !x.b.noSpaceFlags && x.toA.isEmpty) = true := by
    decide +kernel
  obtain ⟨x, hx, hend⟩ := (Option.any_eq_true _ _).1 hrun
  simp only [Bool.and_eq_true, beq_iff_eq, Bool.not_eq_true', List.isEmpty_iff] at hend
  obtain ⟨⟨⟨hclosed, hspace⟩, hflag⟩, hnone⟩ := hend
  refine ⟨x, hx, fun hp => ?_⟩
  rcases hp hclosed with h | h | ⟨d, hd, -⟩
  · rw [hspace] at h
    cases h
  · rw [hflag] at h
    cases h
  · rw [hnone] at hd
    cases hd

end NetLabs.Ktp
