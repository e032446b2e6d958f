import NetLabs.Ktp.Receiver
import NetLabs.Ktp.Sender

/-!
# The two directions of a KTP socket

The sending and the receiving side of an entry meet in one field: `last_ack_received` is raised by every acknowledgement, set by
every data message taken in in order, and read by the freeing loop and by the window update. `Traffic` records, next to the entry,
what each direction alone would have made of that field; as long as it agrees where it is read, a run has the sending side of the
run without its receiving events, and sends the acknowledgements of the run without its sending events.
-/

namespace NetLabs.Ktp

open Function Machine

/-- The events of the sending direction: `k_sendto`, datagrams that are acknowledgements, wake-ups of thread S. -/
def Event.isSending : Event → Bool
  | .sendto _ _ _ => true
  | .datagram d _ => d.isAckFrame
  | .wakeUp _ _ => true
  | _ => false

/-- The events of an entry that stays in the hands of its owner. -/
def Event.isTraffic (ev : Event) : Bool := ev.isSending || ev.isReceiving

/-- An entry, the largest number acknowledged so far, the number of the last message taken in in order, and the acknowledgements
thread R has sent. -/
structure Traffic where
  entry : Entry
  heard : Nat
  taken : Nat
  acks : List Datagram

/-- An entry before any traffic. -/
def Traffic.begin (e : Entry) : Traffic := { entry := e, heard := 0, taken := 0, acks := [] }

/-- The largest number acknowledged after an event. -/
def heardAfter (heard : Nat) : Event → Nat
  | .datagram d _ => if d.actsAsAck then max (d.buffer 0).toNat heard else heard
  | _ => heard

/-- The number of the last message taken in in order after an event. -/
def takenAfter (r : RecvSide) (taken : Nat) : Event → Nat
  | .datagram d dropped =>
    if !d.isAckFrame && d.len != 0 && !dropped && inOrder r (seqByte d.buffer) && seqByte d.buffer != 0
    then seqByte d.buffer else taken
  | _ => taken

/-- One event. -/
def Traffic.after (x : Traffic) (ev : Event) : Option Traffic :=
  match x.entry.step ev with
  | .error _ => none
  | .ok (e, out) =>
    some
      { entry := e
        heard := heardAfter x.heard ev
        taken := takenAfter x.entry.toRecvSide x.taken ev
        acks := if ev.isReceiving then x.acks ++ out else x.acks }

/-- Where an acknowledgement is acted on, `last_ack_received` counts for no more than the acknowledgements so far: it, or the number
now acknowledged if that is larger, is the largest number acknowledged. -/
def AckClear (x : Traffic) : Event → Prop
  | .datagram d _ => d.actsAsAck = true →
      max (d.buffer 0).toNat x.entry.lastAckReceived = max (d.buffer 0).toNat x.heard
  | _ => True

/-- Where a window update is sent, `last_ack_received` is the number of the last message taken in in order. -/
def UpdateClear (x : Traffic) : Event → Prop
  | .update => x.entry.isFree = 0 → x.entry.noSpaceFlags = true → 0 < x.entry.rwnd.size →
      x.entry.lastAckReceived = x.taken
  | _ => True

/-- The sender-side state: what the first half of the independence speaks about. -/
def Traffic.senderState (x : Traffic) : (Slot → Message) × (Slot → Bool) × SenderWindow × Nat :=
  (x.entry.sendBuffer, x.entry.sbuffFree, x.entry.swnd, x.entry.maxSeqNumberYet)

theorem Traffic.after_eq_some {x x' : Traffic} {ev : Event} :
    x.after ev = some x' ↔ ∃ e out, x.entry.step ev = .ok (e, out) ∧
      x' = { entry := e, heard := heardAfter x.heard ev, taken := takenAfter x.entry.toRecvSide x.taken ev,
             acks := if ev.isReceiving then x.acks ++ out else x.acks } := by
  unfold Traffic.after
  cases x.entry.step ev with
  | error f => simp
  | ok r =>
    constructor
    · intro h
      exact ⟨r.1, r.2, rfl, (Option.some.inj h).symm⟩
    · rintro ⟨e, out, hr, rfl⟩
      rw [Except.ok.inj hr]

/-! ## The sending direction -/

/-- The state of a run and of its sending events alone: they share the sending side, the control fields and the largest number
acknowledged, which in the second is `last_ack_received`. -/
structure SameSending (x y : Traffic) : Prop where
  send : x.entry.toSendSide = y.entry.toSendSide
  control : x.entry.toControl = y.entry.toControl
  heard : x.heard = y.heard
  lone : y.entry.lastAckReceived = y.heard
  recv : RecvInv x.entry.toRecvSide

/-- A receiving event of the first run alone keeps the two in step. -/
theorem SameSending.skip {x y : Traffic} {ev : Event} (h : SameSending x y) (hev : ev.isReceiving = true) :
    ∃ x', x.after ev = some x' ∧ SameSending x' y := by
  obtain ⟨e', out, hs, hinv, hsend, hcontrol⟩ := Entry.receiving_step h.recv hev
  have hheard : heardAfter x.heard ev = x.heard := by
    cases ev with
    | datagram d dropped =>
      have hd : d.isAckFrame = false := by simpa [Event.isReceiving] using hev
      simp [heardAfter, Datagram.actsAsAck, hd]
    | _ => rfl
  exact ⟨_, Traffic.after_eq_some.2 ⟨e', out, hs, rfl⟩,
    ⟨hsend.trans h.send, hcontrol.trans h.control, hheard.trans h.heard, h.lone, hinv⟩⟩

/-- A sending event of both, clear in the first, keeps them in step or stops both. -/
theorem SameSending.keep {x y : Traffic} {ev : Event} (h : SameSending x y) (hev : ev.isSending = true)
    (hclear : AckClear x ev) : Option.Rel SameSending (x.after ev) (y.after ev) := by
  obtain ⟨⟨c, s, r, l⟩, hx, tx, ax⟩ := x
  obtain ⟨⟨c', s', r', l'⟩, hy, ty, ay⟩ := y
  obtain ⟨hs, hc, hh, hl, hr⟩ := h
  simp only at hs hc hh hl hr
  subst hs hc hh hl
  cases ev with
  | sendto self junk message =>
    refine Option.Rel.some ⟨?_, ?_, rfl, ?_, ?_⟩ <;> simp only [kSendto_side]
    all_goals first | rfl | exact hr
  | datagram d dropped =>
    have hd : d.isAckFrame = true := hev
    cases ha : d.actsAsAck with
    | false =>
      have hidle : ∀ e : Entry, e.step (.datagram d dropped) = .ok (e, []) := by
        intro e
        simp only [Entry.step, threadR_idle e.toProtocol dropped hd ha]
        rfl
      simp only [Traffic.after, hidle, heardAfter, ha]
      exact Option.Rel.some ⟨rfl, rfl, rfl, rfl, hr⟩
    | true =>
      have hmax : max (d.buffer 0).toNat l = max (d.buffer 0).toNat l' := hclear ha
      obtain ⟨⟨-, h5⟩, hacc⟩ : (d.isAckFrame = true ∧ d.buffer 5 = 35) ∧
          ackAccepted (d.buffer 0).toNat (d.buffer 1).toNat = true := by simpa [Datagram.actsAsAck] using ha
      simp only [Traffic.after, Entry.step, threadR_ack hd h5, handleAck_accepted hacc, hmax, heardAfter, ha]
      cases ackLoop { s with swnd := { s.swnd with size := (d.buffer 1).toNat } } (max (d.buffer 0).toNat l') with
      | error f => exact Option.Rel.none
      | ok z => exact Option.Rel.some ⟨rfl, rfl, rfl, rfl, hr⟩
  | wakeUp scan stamp =>
    simp only [Traffic.after, Entry.step, threadS]
    by_cases hfree : c.isFree = 0
    · simp only [hfree, ↓reduceIte]
      cases wakeUp s scan stamp with
      | error f => exact Option.Rel.none
      | ok z => exact Option.Rel.some ⟨rfl, rfl, rfl, rfl, hr⟩
    · simp only [hfree, ↓reduceIte]
      exact Option.Rel.some ⟨rfl, rfl, rfl, rfl, hr⟩
  | _ => cases hev

/-- The sending side of a run is that of its sending events alone. -/
theorem sending_alone {e : Entry} (hfresh : e.toProtocol = freshProtocol) {es : List Event}
    (hes : ∀ ev ∈ es, ev.isTraffic = true) (hclear : Meets Traffic.after AckClear (Traffic.begin e) es) :
    Option.Rel SameSending (exec Traffic.after (Traffic.begin e) es)
      (exec Traffic.after (Traffic.begin e) (es.filter Event.isSending)) := by
  have hstart : SameSending (Traffic.begin e) (Traffic.begin e) := by
    refine ⟨rfl, rfl, rfl, ?_, ?_⟩
    · show e.toProtocol.lastAckReceived = 0
      rw [hfresh]
      rfl
    · show RecvInv e.toProtocol.toRecvSide
      rw [hfresh]
      exact recvInv_fresh
  refine exec_filter_rel (fun x y ev h hg hev => h.keep hev hg.2) (fun x y ev h hg hev => h.skip ?_) hstart
    ((meets_of_forall hes).and hclear)
  have htraffic := hg.1
  simpa [Event.isTraffic, hev] using htraffic

/-- The two ends share what the sender-side state consists of. -/
theorem senderState_eq {a b : Option Traffic} (h : Option.Rel SameSending a b) :
    a.map Traffic.senderState = b.map Traffic.senderState := by
  cases h with
  | none => rfl
  | @some x y h =>
    have hstate : x.senderState = y.senderState := by
      show (x.entry.toSendSide.sendBuffer, x.entry.toSendSide.sbuffFree, x.entry.toSendSide.swnd,
        x.entry.toSendSide.maxSeqNumberYet) = y.senderState
      rw [h.send]
      rfl
    simp only [Option.map_some, hstate]

/-! ## The receiving direction -/

/-- The state of a run and of its receiving events alone: they share the receiving side, the control fields, the number of the last
message taken in in order, which in the second is `last_ack_received`, and the acknowledgements sent. -/
structure SameReceiving (x y : Traffic) : Prop where
  recv : x.entry.toRecvSide = y.entry.toRecvSide
  control : x.entry.toControl = y.entry.toControl
  taken : x.taken = y.taken
  acks : x.acks = y.acks
  lone : y.entry.lastAckReceived = y.taken

/-- A data message reads the receiving side only, and what it writes elsewhere is the number of a message in order. -/
theorem handleData_side (p : Protocol) (s : SendSide) (l : Nat) (b : Message) :
    handleData { toSendSide := s, toRecvSide := p.toRecvSide, lastAckReceived := l } b =
      (handleData p b).map fun x =>
        ({ toSendSide := s, toRecvSide := x.1.toRecvSide,
           lastAckReceived := if inOrder p.toRecvSide (seqByte b) && seqByte b != 0 then seqByte b else l }, x.2) := by
  unfold handleData
  cases ho : inOrder p.toRecvSide (seqByte b) with
  | true =>
    by_cases h0 : seqByte b = 0
    · simp [h0, Except.map]
    · have hne : (true && seqByte b != 0) = true := by simpa using h0
      simp only [↓reduceIte, h0, storeInOrder, hne]
      split <;> rfl
  | false =>
    simp only [Bool.false_eq_true, ↓reduceIte, Bool.false_and]
    split
    · split <;> rfl
    · rfl

/-- A data datagram reads the receiving side only, and what it writes elsewhere is the number of a message in order. -/
theorem threadR_side {d : Datagram} (hd : d.isAckFrame = false) (p : Protocol) (taken : Nat) (s : SendSide) (dropped : Bool) :
    threadR { toSendSide := s, toRecvSide := p.toRecvSide, lastAckReceived := taken } d dropped =
      (threadR p d dropped).map fun x =>
        ({ toSendSide := s, toRecvSide := x.1.toRecvSide,
           lastAckReceived := takenAfter p.toRecvSide taken (.datagram d dropped) }, x.2) := by
  unfold threadR
  by_cases hlen : d.len = 0
  · simp [hlen, takenAfter, Except.map]
  · cases dropped with
    | true => simp [hlen, hd, takenAfter, Except.map]
    | false => simp [hlen, hd, takenAfter, handleData_side]

/-- So the sending side stays. -/
theorem threadR_sendSide {p p' : Protocol} {d : Datagram} {dropped : Bool} {out : List Datagram} (hd : d.isAckFrame = false)
    (hs : threadR p d dropped = .ok (p', out)) : p' =
      { toSendSide := p.toSendSide, toRecvSide := p'.toRecvSide,
        lastAckReceived := takenAfter p.toRecvSide p.lastAckReceived (.datagram d dropped) } := by
  have hside : threadR p d dropped = _ := threadR_side hd p p.lastAckReceived p.toSendSide dropped
  rw [hs] at hside
  simp only [Except.map, Except.ok.injEq, Prod.mk.injEq] at hside
  exact hside.1

/-- A receiving event of the first run, clear there, can be taken in the second and keeps the two in step. -/
theorem SameReceiving.keep {x y x' : Traffic} {ev : Event} (h : SameReceiving x y) (hev : ev.isReceiving = true)
    (hclear : UpdateClear x ev) (hx : x.after ev = some x') : ∃ y', y.after ev = some y' ∧ SameReceiving x' y' := by
  obtain ⟨⟨c, s, r, l⟩, hx1, tx, ax⟩ := x
  obtain ⟨⟨c', s', r', l'⟩, hy, ty, ay⟩ := y
  obtain ⟨hr, hc, ht, ha, hl⟩ := h
  simp only at hr hc ht ha hl
  subst hr hc ht ha hl
  obtain ⟨e, out, hs, rfl⟩ := Traffic.after_eq_some.1 hx
  cases ev with
  | recvfrom self =>
    simp only [Entry.step, kRecvfrom_side, Except.ok.injEq, Prod.mk.injEq] at hs
    obtain ⟨rfl, rfl⟩ := hs
    refine ⟨_, Traffic.after_eq_some.2 ⟨_, [], rfl, rfl⟩, ?_⟩
    simp only [kRecvfrom_side]
    exact ⟨rfl, rfl, rfl, rfl, rfl⟩
  | datagram d dropped =>
    have hd : d.isAckFrame = false := by simpa [Event.isReceiving] using hev
    simp only [Entry.step] at hs
    cases hp : threadR { toSendSide := s, toRecvSide := r, lastAckReceived := l } d dropped with
    | error f => rw [hp] at hs; cases hs
    | ok z =>
      rw [hp] at hs
      simp only [Except.ok.injEq, Prod.mk.injEq] at hs
      obtain ⟨rfl, rfl⟩ := hs
      have hside := threadR_side hd { toSendSide := s, toRecvSide := r, lastAckReceived := l } l' s' dropped
      rw [hp] at hside
      refine ⟨_, Traffic.after_eq_some.2 ⟨_, _, by simp only [Entry.step, hside, Except.map]; rfl, rfl⟩, ?_⟩
      exact ⟨rfl, rfl, rfl, rfl, rfl⟩
  | update =>
    by_cases hopen : c.isFree = 0 ∧ r.noSpaceFlags = true ∧ 0 < r.rwnd.size
    · obtain rfl : l = l' := hclear hopen.1 hopen.2.1 hopen.2.2
      have hstep : ∀ t, Entry.step { toControl := c, toSendSide := t, toRecvSide := r, lastAckReceived := l } .update =
          .ok ({ toControl := c, toSendSide := t, toRecvSide := { r with noSpaceFlags := false }, lastAckReceived := l },
            [ackDatagram l r.rwnd.size]) := fun t => congrArg Except.ok (if_pos hopen)
      rw [hstep, Except.ok.injEq, Prod.mk.injEq] at hs
      obtain ⟨rfl, rfl⟩ := hs
      exact ⟨_, Traffic.after_eq_some.2 ⟨_, _, hstep s', rfl⟩, ⟨rfl, rfl, rfl, rfl, rfl⟩⟩
    · have hstep : ∀ t k, Entry.step { toControl := c, toSendSide := t, toRecvSide := r, lastAckReceived := k } .update =
          .ok ({ toControl := c, toSendSide := t, toRecvSide := r, lastAckReceived := k }, []) :=
        fun t k => congrArg Except.ok (if_neg hopen)
      rw [hstep, Except.ok.injEq, Prod.mk.injEq] at hs
      obtain ⟨rfl, rfl⟩ := hs
      exact ⟨_, Traffic.after_eq_some.2 ⟨_, _, hstep s' l', rfl⟩, ⟨rfl, rfl, rfl, rfl, rfl⟩⟩
  | _ => cases hev

/-- A sending event leaves the receiving side and the control fields alone. -/
theorem sending_recvSide {e e' : Entry} {ev : Event} {out : List Datagram} (hev : ev.isSending = true)
    (hs : e.step ev = .ok (e', out)) : e'.toRecvSide = e.toRecvSide ∧ e'.toControl = e.toControl := by
  cases ev with
  | sendto self junk message =>
    cases hs
    rw [kSendto_side e.toControl e.toProtocol]
    exact ⟨rfl, rfl⟩
  | datagram d dropped =>
    simp only [Entry.step] at hs
    split at hs
    · cases hs
    · rename_i p out' hp
      cases hs
      exact ⟨threadR_recvSide hev hp, rfl⟩
  | wakeUp scan stamp =>
    obtain ⟨t, rfl⟩ := threadS_sendTime hs
    exact ⟨rfl, rfl⟩
  | _ => cases hev

/-- A sending event of the first run alone keeps the two in step. -/
theorem SameReceiving.skip {x y x' : Traffic} {ev : Event} (h : SameReceiving x y) (hev : ev.isSending = true)
    (hx : x.after ev = some x') : SameReceiving x' y := by
  obtain ⟨e, out, hs, rfl⟩ := Traffic.after_eq_some.1 hx
  obtain ⟨hrecv, hcontrol⟩ := sending_recvSide hev hs
  have hquiet : ev.isReceiving = false ∧ takenAfter x.entry.toRecvSide x.taken ev = x.taken := by
    cases ev with
    | datagram d dropped =>
      have hd : d.isAckFrame = true := hev
      simp [Event.isReceiving, takenAfter, hd]
    | sendto => exact ⟨rfl, rfl⟩
    | wakeUp => exact ⟨rfl, rfl⟩
    | _ => cases hev
  refine ⟨hrecv.trans h.recv, hcontrol.trans h.control, hquiet.2.trans h.taken, ?_, h.lone⟩
  simp only [hquiet.1, Bool.false_eq_true, ↓reduceIte]
  exact h.acks

/-- The acknowledgements of a run that goes through are those of its receiving events alone. -/
theorem receiving_alone {e : Entry} (hfresh : e.toProtocol = freshProtocol) {es : List Event} {x : Traffic}
    (hes : ∀ ev ∈ es, ev.isTraffic = true) (hclear : Meets Traffic.after UpdateClear (Traffic.begin e) es)
    (hx : exec Traffic.after (Traffic.begin e) es = some x) :
    ∃ y, exec Traffic.after (Traffic.begin e) (es.filter Event.isReceiving) = some y ∧ SameReceiving x y := by
  have hstart : SameReceiving (Traffic.begin e) (Traffic.begin e) := by
    refine ⟨rfl, rfl, rfl, rfl, ?_⟩
    show e.toProtocol.lastAckReceived = 0
    rw [hfresh]
    rfl
  refine exec_filter_some (fun x y ev x' h hg hev hs => h.keep hev hg.2 hs) (fun x y ev x' h hg hev hs => h.skip ?_ hs)
    hstart ((meets_of_forall hes).and hclear) hx
  have htraffic := hg.1
  simpa [Event.isTraffic, hev] using htraffic

/-! ## Two runs -/

/-- The two directions are independent where `last_ack_received` does not carry one into the other. Of two runs of an entry from the
state `init_ksocket` writes: when they agree on the `k_sendto` calls, acknowledgements and wake-ups, and every acknowledgement is
clear, they end alike in the sender-side state, or neither ends; when they agree on the data datagrams, `k_recvfrom` calls and
rounds of thread R, and every window update is clear, thread R has sent the same acknowledgements. -/
theorem directions_independent (e : Entry) (hfresh : e.toProtocol = freshProtocol) (es es' : List Event)
    (hes : ∀ ev ∈ es, ev.isTraffic = true) (hes' : ∀ ev ∈ es', ev.isTraffic = true) :
    (es.filter Event.isSending = es'.filter Event.isSending →
      Meets Traffic.after AckClear (Traffic.begin e) es → Meets Traffic.after AckClear (Traffic.begin e) es' →
      (exec Traffic.after (Traffic.begin e) es).map Traffic.senderState =
        (exec Traffic.after (Traffic.begin e) es').map Traffic.senderState) ∧
    (es.filter Event.isReceiving = es'.filter Event.isReceiving →
      Meets Traffic.after UpdateClear (Traffic.begin e) es → Meets Traffic.after UpdateClear (Traffic.begin e) es' →
      ∀ x ∈ exec Traffic.after (Traffic.begin e) es, ∀ x' ∈ exec Traffic.after (Traffic.begin e) es', x.acks = x'.acks) := by
  constructor
  · intro hagree hclear hclear'
    rw [senderState_eq (sending_alone hfresh hes hclear), senderState_eq (sending_alone hfresh hes' hclear'), hagree]
  · intro hagree hclear hclear' x hx x' hx'
    obtain ⟨y, hy, h⟩ := receiving_alone hfresh hes hclear hx
    obtain ⟨y', hy', h'⟩ := receiving_alone hfresh hes' hclear' hx'
    rw [hagree, hy'] at hy
    obtain rfl := Option.some.inj hy
    exact h.acks.trans h'.acks.symm

/-- `directions_independent` on a run that takes a message in before its acknowledgement and one that does not. -/
theorem directions_independent_ack :
    (exec Traffic.after (Traffic.begin boundEntry)
        [.sendto 7 (fun _ => 0) [104, 105], .datagram (dataDatagram (frame (fun _ => 0) 1 0 [33])) false,
          .datagram (ackDatagram 1 9) false]).map Traffic.senderState =
      (exec Traffic.after (Traffic.begin boundEntry)
        [.sendto 7 (fun _ => 0) [104, 105], .datagram (ackDatagram 1 9) false, .recvfrom 7]).map Traffic.senderState := by
  refine (directions_independent boundEntry rfl _ _ (by decide) (by decide)).1 rfl ?_ ?_
  · refine ⟨trivial, fun x1 h1 => ⟨fun ha => absurd ha (by decide), fun x2 h2 => ⟨fun _ => ?_, fun _ _ => trivial⟩⟩⟩
    obtain rfl := Option.some.inj h1
    obtain rfl := Option.some.inj h2
    rfl
  · refine ⟨trivial, fun x1 h1 => ⟨fun _ => ?_, fun _ _ => ⟨trivial, fun _ _ => trivial⟩⟩⟩
    obtain rfl := Option.some.inj h1
    rfl

/-- Two messages are queued and the first is acknowledged. In the first run messages 1 and 2 of the peer have come in before, so
`last_ack_received` is 2 and the second message is freed as well; in the second run it stays queued. -/
theorem data_frees_unacknowledged :
    List.filter Event.isSending
        [.sendto 7 (fun _ => 0) [104, 105], .sendto 7 (fun _ => 0) [33],
          .datagram (dataDatagram (frame (fun _ => 0) 1 0 [65])) false,
          .datagram (dataDatagram (frame (fun _ => 0) 2 1 [66])) false, .datagram (ackDatagram 1 9) false] =
      List.filter Event.isSending
        [.sendto 7 (fun _ => 0) [104, 105], .sendto 7 (fun _ => 0) [33], .datagram (ackDatagram 1 9) false] ∧
    (exec Traffic.after (Traffic.begin boundEntry)
        [.sendto 7 (fun _ => 0) [104, 105], .sendto 7 (fun _ => 0) [33],
          .datagram (dataDatagram (frame (fun _ => 0) 1 0 [65])) false,
          .datagram (dataDatagram (frame (fun _ => 0) 2 1 [66])) false,
          .datagram (ackDatagram 1 9) false]).map Traffic.senderState ≠
      (exec Traffic.after (Traffic.begin boundEntry)
        [.sendto 7 (fun _ => 0) [104, 105], .sendto 7 (fun _ => 0) [33],
          .datagram (ackDatagram 1 9) false]).map Traffic.senderState := by
  refine ⟨rfl, fun heq => ?_⟩
  have hslot := congrArg (Option.map fun state => state.2.1 (1 : Slot)) heq
  exact absurd hslot (by decide)

end NetLabs.Ktp
