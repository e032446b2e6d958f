import NetLabs.Ktp.Entry

/-!
# KTP: thread R

`initksocket.c`, `thread_R_function`, for one entry: the check at the head of each round whether a closed window can be opened
again (`windowUpdate`), and what it does with a datagram `recvfrom` returned (`threadR`): an acknowledgement (`handleAck`), a
data message in order (`storeInOrder`) or ahead of order (`storeEarly`).
-/

namespace NetLabs.Ktp

open Function Loop

/-! ## Acknowledgements -/

/-- The message with number `j`, in slot `i`, is acknowledged: the slot is cleared and freed, the number no longer noted. -/
def clearSlot (s : SendSide) (j : Nat) (i : Slot) : SendSide :=
  { s with
    swnd := { s.swnd with
      validSeqNum := update s.swnd.validSeqNum j false
      indexSeqNum := update s.swnd.indexSeqNum j (-1) }
    sendBuffer := update s.sendBuffer i (fun _ => 0)
    sendTime := update s.sendTime i (-1)
    sbuffFree := update s.sbuffFree i true }

/-- One iteration of the loop that frees acknowledged messages: the slot noted for `j` is cleared, then `j = 1 + j % 255`. -/
def freeAcked (x : SendSide × Nat) : Except Fault (SendSide × Nat) :=
  match slot? (x.1.swnd.indexSeqNum x.2) with
  | .error f => .error f
  | .ok i => .ok (clearSlot x.1 x.2 i, next x.2)

/-- The loop `while (j != last_ack_received % 255 + 1)`, started at `swnd.start_sequence`. -/
def ackLoop (s : SendSide) (lastAck : Nat) : Except Fault (SendSide × Nat) :=
  loopWhile .endless (fun x => x.2 != lastAck % 255 + 1) freeAcked 256 (s, s.swnd.startSequence)

/-- An acknowledgement is looked at only when its number is not 0 and its window is at most 10. -/
def ackAccepted (ackedSeqNum remoteWindowSize : Nat) : Bool :=
  decide (0 < ackedSeqNum ∧ ackedSeqNum ≤ 255 ∧ remoteWindowSize ≤ 10)

/-- An acknowledgement of `ackedSeqNum` that announces `remoteWindowSize`. -/
def handleAck (p : Protocol) (ackedSeqNum remoteWindowSize : Nat) : Except Fault Protocol :=
  if ackAccepted ackedSeqNum remoteWindowSize then
    let lastAck := if p.lastAckReceived < ackedSeqNum then ackedSeqNum else p.lastAckReceived
    match ackLoop { p.toSendSide with swnd := { p.swnd with size := remoteWindowSize } } lastAck with
    | .error f => .error f
    | .ok (s, j) =>
      .ok { p.withSend { s with swnd := { s.swnd with startSequence := j } } with lastAckReceived := lastAck }
  else .ok p

/-! ## Data in order -/

/-- The loop `while (valid_seq_num[start_sequence] == 0)` that moves the window over what has been received. -/
def advanceStart (valid : Nat → Bool) (start : Nat) : Except Fault Nat :=
  loopWhile .endless (fun j => !valid j) (fun j => .ok (next j)) 256 start

/-- A buffer goes into a free slot, under its number. -/
def putSlot (r : RecvSide) (j : Slot) (buffer : Message) : RecvSide :=
  { r with
    recvBuffer := update r.recvBuffer j buffer
    rwnd := { r.rwnd with indexSeqNum := update r.rwnd.indexSeqNum (seqByte buffer) (j.val : Int) }
    rbuffFree := update r.rbuffFree j false }

/-- `rwnd.size--`, and the flag when there is no space left. -/
def takeSpace (r : RecvSide) : RecvSide :=
  { r with
    rwnd := { r.rwnd with size := r.rwnd.size - 1 }
    noSpaceFlags := if r.rwnd.size - 1 = 0 then true else r.noSpaceFlags }

/-- The message is the next one expected and there is room for it. -/
def inOrder (r : RecvSide) (seqNum : Nat) : Bool := decide (r.rwnd.startSequence = seqNum ∧ 0 < r.rwnd.size)

/-- A message that is in order: an extra acknowledgement when a slot carries its number already, then the first free slot, the
acknowledgement, and the window moves on. -/
def storeInOrder (p : Protocol) (buffer : Message) : Except Fault (Protocol × List Datagram) :=
  let seqNum := seqByte buffer
  let again := if (List.finRange 10).any (fun j => seqByte (p.recvBuffer j) == seqNum)
    then [ackDatagram seqNum p.rwnd.size] else []
  let stored := match firstFree p.rbuffFree with
    | some j => putSlot p.toRecvSide j buffer
    | none => p.toRecvSide
  let r := takeSpace stored
  let valid := update r.rwnd.validSeqNum seqNum false
  match advanceStart valid r.rwnd.startSequence with
  | .error f => .error f
  | .ok start =>
    .ok ({ p with
      toRecvSide := { r with rwnd := { r.rwnd with validSeqNum := valid, startSequence := start } }
      lastAckReceived := seqNum }, again ++ [ackDatagram seqNum r.rwnd.size])

/-! ## Data ahead of order -/

/-- `received_seq_num % 255 + 1 > start_sequence && received_seq_num <= (start_sequence + 9 - size) % 255 + 1`. -/
def inWindow (r : RecvSide) (seqNum : Nat) : Bool :=
  decide (r.rwnd.startSequence < seqNum % 255 + 1 ∧
    (seqNum : Int) ≤ ((r.rwnd.startSequence : Int) + 9 - r.rwnd.size).tmod 255 + 1)

/-- The loop that looks for a number before `seqNum` that is still missing: `back_acknowledged` stays true when it finds
none. -/
def backAcknowledged (r : RecvSide) (seqNum : Nat) : Except Fault Bool :=
  match loopWhile .endless (fun j => j != seqNum && !r.rwnd.validSeqNum j) (fun j => .ok (next j)) 256
    r.rwnd.startSequence with
  | .error f => .error f
  | .ok j => .ok (j == seqNum)

/-- The slot of a message that is ahead of order, counted from the slot noted for `start_sequence`. -/
def earlyIndex (r : RecvSide) (seqNum : Nat) : Int :=
  (r.rwnd.indexSeqNum r.rwnd.startSequence + ((seqNum : Int) - r.rwnd.startSequence + 255).tmod 255).tmod 10

/-- A message ahead of order: stored, without an acknowledgement, when an earlier one is missing, its own number has not been
taken in and its slot is free. -/
def storeEarly (r : RecvSide) (buffer : Message) : Except Fault RecvSide :=
  match backAcknowledged r (seqByte buffer) with
  | .error f => .error f
  | .ok true => .ok r
  | .ok false =>
    if r.rwnd.validSeqNum (seqByte buffer) then
      match slot? (earlyIndex r (seqByte buffer)) with
      | .error f => .error f
      | .ok i => if r.rbuffFree i then .ok (takeSpace (putSlot r i buffer)) else .ok r
    else .ok r

/-! ## One datagram -/

/-- A data message that `dropMessage` let through. -/
def handleData (p : Protocol) (buffer : Message) : Except Fault (Protocol × List Datagram) :=
  if inOrder p.toRecvSide (seqByte buffer) then
    if seqByte buffer = 0 then .ok (p, []) else storeInOrder p buffer
  else if inWindow p.toRecvSide (seqByte buffer) then
    match storeEarly p.toRecvSide buffer with
    | .error f => .error f
    | .ok r => .ok (p.withRecv r, [])
  else .ok (p, [])

/-- What thread R does with a datagram: the new protocol fields and what it sends. `dropped` is the outcome of `dropMessage`,
which is asked for data only. -/
def threadR (p : Protocol) (d : Datagram) (dropped : Bool) : Except Fault (Protocol × List Datagram) :=
  if d.len = 0 then .ok (p, [])
  else if d.isAckFrame then
    if d.buffer 5 = 35 then
      match handleAck p (d.buffer 0).toNat (d.buffer 1).toNat with
      | .error f => .error f
      | .ok p' => .ok (p', [])
    else .ok (p, [])
  else if dropped then .ok (p, [])
  else handleData p d.buffer

/-! ## The window update -/

/-- The head of a round of thread R: where the flag is set and there is space again, the last number is acknowledged once more
with the new window, and the flag is cleared. -/
def windowUpdate (e : Entry) : Entry × List Datagram :=
  if e.isFree = 0 ∧ e.noSpaceFlags = true ∧ 0 < e.rwnd.size then
    (e.withProtocol (e.toProtocol.withRecv { e.toRecvSide with noSpaceFlags := false }),
      [ackDatagram e.lastAckReceived e.rwnd.size])
  else (e, [])

/-! ## What an acknowledgement reads and writes -/

/-- The acknowledgement is one that `handleAck` acts on. -/
def Datagram.actsAsAck (d : Datagram) : Bool :=
  d.isAckFrame && d.buffer 5 == 35 && ackAccepted (d.buffer 0).toNat (d.buffer 1).toNat

/-- An acknowledgement, as a datagram, is what `handleAck` handles. -/
theorem threadR_ack {p : Protocol} {d : Datagram} {dropped : Bool} (hd : d.isAckFrame = true) (h5 : d.buffer 5 = 35) :
    threadR p d dropped = match handleAck p (d.buffer 0).toNat (d.buffer 1).toNat with
      | .error f => .error f
      | .ok p' => .ok (p', []) := by
  have hlen : d.len ≠ 0 := by
    intro h0
    simp [Datagram.isAckFrame, h0] at hd
  unfold threadR
  rw [if_neg hlen, if_pos hd, if_pos h5]

/-- `handleAck` reads, besides the sending side, the larger of the number acknowledged and `last_ack_received`. -/
theorem handleAck_accepted {a w : Nat} (h : ackAccepted a w = true) (p : Protocol) : handleAck p a w =
    (ackLoop { p.toSendSide with swnd := { p.swnd with size := w } } (max a p.lastAckReceived)).map fun x =>
      { p.withSend { x.1 with swnd := { x.1.swnd with startSequence := x.2 } } with
        lastAckReceived := max a p.lastAckReceived } := by
  have hmax : (if p.lastAckReceived < a then a else p.lastAckReceived) = max a p.lastAckReceived := by
    split <;> omega
  unfold handleAck
  simp only [if_pos h, hmax]
  split <;> rename_i hloop <;> rw [hloop] <;> rfl

/-- An acknowledgement that is not acted on changes nothing. -/
theorem threadR_idle {d : Datagram} (p : Protocol) (dropped : Bool) (hd : d.isAckFrame = true) (ha : d.actsAsAck = false) :
    threadR p d dropped = .ok (p, []) := by
  by_cases h5 : d.buffer 5 = 35
  · have hno : ackAccepted (d.buffer 0).toNat (d.buffer 1).toNat = false := by
      simpa [Datagram.actsAsAck, hd, h5] using ha
    rw [threadR_ack hd h5]
    simp [handleAck, hno]
  · unfold threadR
    simp [hd, h5]

/-- The freeing loop leaves the size of the window alone. -/
theorem ackLoop_size {s s' : SendSide} {lastAck j : Nat} (h : ackLoop s lastAck = .ok (s', j)) : s'.swnd.size = s.swnd.size := by
  refine (loopWhile_keeps (fun x : SendSide × Nat => x.1.swnd.size = s.swnd.size) (fun x x' hx _ hb => ?_) rfl h).1
  unfold freeAcked at hb
  split at hb
  · cases hb
  · cases hb
    exact hx

/-- An acknowledgement that is acted on writes the sending side, with the window it announces, and the larger of its number, which
is not 0, and `last_ack_received`. -/
theorem threadR_acts {p p' : Protocol} {d : Datagram} {dropped : Bool} {out : List Datagram} (ha : d.actsAsAck = true)
    (h : threadR p d dropped = .ok (p', out)) :
    p'.toRecvSide = p.toRecvSide ∧ p'.lastAckReceived = max (d.buffer 0).toNat p.lastAckReceived ∧ 0 < (d.buffer 0).toNat ∧
      p'.swnd.size = (d.buffer 1).toNat ∧ out = [] := by
  obtain ⟨⟨hd, h5⟩, hacc⟩ : (d.isAckFrame = true ∧ d.buffer 5 = 35) ∧
      ackAccepted (d.buffer 0).toNat (d.buffer 1).toNat = true := by simpa [Datagram.actsAsAck] using ha
  rw [threadR_ack hd h5, handleAck_accepted hacc] at h
  cases hloop : ackLoop { p.toSendSide with swnd := { p.swnd with size := (d.buffer 1).toNat } }
      (max (d.buffer 0).toNat p.lastAckReceived) with
  | error f => rw [hloop] at h; cases h
  | ok z =>
    rw [hloop] at h
    cases h
    exact ⟨rfl, rfl, (of_decide_eq_true hacc).1, ackLoop_size hloop, rfl⟩

/-- Nothing is sent for an acknowledgement, and the last number heard of stays or becomes the one it carries. -/
theorem threadR_heard {p p' : Protocol} {d : Datagram} {dropped : Bool} {out : List Datagram} (hd : d.isAckFrame = true)
    (h : threadR p d dropped = .ok (p', out)) :
    p'.lastAckReceived ≤ max (d.buffer 0).toNat p.lastAckReceived ∧ out = [] := by
  cases ha : d.actsAsAck with
  | false =>
    rw [threadR_idle p dropped hd ha] at h
    cases h
    exact ⟨Nat.le_max_right _ _, rfl⟩
  | true =>
    obtain ⟨-, hlast, -, -, hout⟩ := threadR_acts ha h
    exact ⟨Nat.le_of_eq hlast, hout⟩

/-- An acknowledgement leaves the receiving side alone. -/
theorem threadR_recvSide {p p' : Protocol} {d : Datagram} {dropped : Bool} {out : List Datagram} (hd : d.isAckFrame = true)
    (h : threadR p d dropped = .ok (p', out)) : p'.toRecvSide = p.toRecvSide := by
  cases ha : d.actsAsAck with
  | false =>
    rw [threadR_idle p dropped hd ha] at h
    cases h
    rfl
  | true => exact (threadR_acts ha h).1

end NetLabs.Ktp
