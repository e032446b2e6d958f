import NetLabs.Ktp.WakeUp
import NetLabs.Ktp.Window
import NetLabs.Ktp.Link

/-!
# What holds of a link in every run

`Joined` says nothing about order, so unlike `Ordered` it survives everything two processes, the daemon and the network can do: each side
keeps its own invariant, what is in flight to `b` are messages that have been sent, and what is in flight to `a` acknowledges numbers of
messages that have been sent.
-/

namespace NetLabs.Ktp

open Machine

/-- A number an acknowledgement may carry: that of a message that has been queued, or 0, with which nothing is acknowledged. -/
def Acknowledgeable (sent : List (List UInt8)) (q : Nat) : Prop := q = 0 ∨ ∃ m, m < sent.length ∧ num m = q

theorem Acknowledgeable.le {sent : List (List UInt8)} {q : Nat} (h : Acknowledgeable sent q) : q ≤ 255 := by
  rcases h with rfl | ⟨m, -, rfl⟩
  · exact Nat.zero_le 255
  · exact Ring.num_le (by decide)

theorem Acknowledgeable.append {sent : List (List UInt8)} {q : Nat} (h : Acknowledgeable sent q) (more : List (List UInt8)) :
    Acknowledgeable (sent ++ more) q := by
  rcases h with h | ⟨m, hm, hq⟩
  · exact Or.inl h
  · refine Or.inr ⟨m, ?_, hq⟩
    rw [List.length_append]
    omega

/-- A datagram doubled is one that was in flight. -/
theorem mem_of_mem_append_getElem? {l : List Datagram} {i : Nat} {d : Datagram} (h : d ∈ l ++ l[i]?.toList) : d ∈ l := by
  rw [List.mem_append, Option.mem_toList] at h
  rcases h with h | h
  · exact h
  · exact List.mem_of_getElem? h

/-- The invariant of a link: `a` only sends, `b` only receives. -/
structure Joined (x : Link) : Prop where
  sender : SendInv x.a.toSendSide x.sent x.a.lastAckReceived
  quietA : x.a.noSpaceFlags = false
  quietB : SendInv x.b.toSendSide [] 0
  receiver : RecvInv x.b.toRecvSide
  last : Acknowledgeable x.sent x.b.lastAckReceived
  toA : ∀ d ∈ x.toA, ∃ q w, d = ackDatagram q w ∧ Acknowledgeable x.sent q
  toB : ∀ d ∈ x.toB, ∃ m b, d = dataDatagram b ∧ Carries x.sent m b

theorem joined_begin {a b : Entry} (ha : a.toProtocol = freshProtocol) (hb : b.toProtocol = freshProtocol) :
    Joined (Link.begin a b) := by
  obtain ⟨c, p⟩ := a
  obtain ⟨c', p'⟩ := b
  obtain rfl : p = freshProtocol := ha
  obtain rfl : p' = freshProtocol := hb
  refine ⟨sendInv_fresh, rfl, sendInv_fresh, recvInv_fresh, Or.inl rfl, ?_, ?_⟩
  · intro d hd
    cases hd
  · intro d hd
    cases hd

namespace Joined

variable {x x' : Link}

/-- What is in flight may be lost, repeated and put in another order. -/
theorem network (h : Joined x) {toA toB : List Datagram} (hA : ∀ d ∈ toA, d ∈ x.toA) (hB : ∀ d ∈ toB, d ∈ x.toB) :
    Joined { x with toA := toA, toB := toB } where
  sender := h.sender
  quietA := h.quietA
  quietB := h.quietB
  receiver := h.receiver
  last := h.last
  toA d hd := h.toA d (hA d hd)
  toB d hd := h.toB d (hB d hd)

/-- `k_sendto`: the message is queued, or nothing changes. -/
theorem send {self : Nat} {junk : Message} {message : List UInt8} (h : Joined x)
    (hs : x.step (.send self junk message) = some x') : Joined x' := by
  rcases Link.send_some hs with rfl | ⟨s, hq, rfl⟩
  · exact h
  · refine ⟨h.sender.queue hq, h.quietA, h.quietB, h.receiver, h.last.append _, fun d hd => ?_, fun d hd => ?_⟩
    · obtain ⟨q, w, hdq, hq⟩ := h.toA d hd
      exact ⟨q, w, hdq, hq.append _⟩
    · obtain ⟨m, b, hdb, hc⟩ := h.toB d hd
      exact ⟨m, b, hdb, hc.append _⟩

/-- `k_recvfrom`. -/
theorem recv {self : Nat} (h : Joined x) (hs : x.step (.recv self) = some x') : Joined x' := by
  rcases Link.recv_some hs with rfl | ⟨m, r, ht, -, rfl⟩
  · exact h
  · exact ⟨h.sender, h.quietA, h.quietB, recvInv_takeMessage h.receiver ht, h.last, h.toA, h.toB⟩

/-- A wake-up on `a`: what is sent are messages that have been sent before. -/
theorem wakeA {scan : Slot → Int} {stamp : Nat → Int} (h : Joined x) (hs : x.step (.wakeA scan stamp) = some x') : Joined x' := by
  obtain ⟨e, out, hw, rfl⟩ := Link.wakeA_some hs
  have hout := threadS_sends h.sender hw
  obtain ⟨t, rfl⟩ := threadS_sendTime hw
  refine ⟨h.sender.stamped t, h.quietA, h.quietB, h.receiver, h.last, h.toA, fun d hd => ?_⟩
  rw [List.mem_append] at hd
  rcases hd with hd | hd
  · exact h.toB d hd
  · obtain ⟨m, hm, i, -, -, -, rfl, -, hframe⟩ := hout d hd
    exact ⟨m, _, rfl, i, x.sent[m], List.getElem?_eq_getElem hm, hframe⟩

/-- A wake-up on `b`, which has nothing to send. -/
theorem wakeB {scan : Slot → Int} {stamp : Nat → Int} (h : Joined x) (hs : x.step (.wakeB scan stamp) = some x') : Joined x' := by
  obtain ⟨e, out, hw, rfl⟩ := Link.wakeB_some hs
  obtain rfl := threadS_silent h.quietB hw
  obtain ⟨t, rfl⟩ := threadS_sendTime hw
  rw [List.append_nil]
  exact ⟨h.sender, h.quietA, h.quietB.stamped t, h.receiver, h.last, h.toA, h.toB⟩

/-- The update of thread R on `b` acknowledges the last message taken in in order. -/
theorem updateB (h : Joined x) (hs : x.step .updateB = some x') : Joined x' := by
  rcases Link.updateB_some hs with rfl | ⟨-, -, rfl⟩
  · exact h
  · refine ⟨h.sender, h.quietA, h.quietB, h.receiver.flag false, h.last, fun d hd => ?_, h.toB⟩
    rw [List.mem_append, List.mem_singleton] at hd
    rcases hd with hd | rfl
    · exact h.toA d hd
    · exact ⟨x.b.lastAckReceived, x.b.rwnd.size, rfl, h.last⟩

/-- Thread R on `a`. -/
theorem deliverA {i : Nat} {dropped : Bool} (h : Joined x) (hs : x.step (.deliverA i dropped) = some x') : Joined x' := by
  obtain ⟨d, p, out, hd, ht, rfl⟩ := Link.deliverA_some hs
  obtain ⟨q, w, rfl, hq⟩ := h.toA d (List.mem_of_getElem? hd)
  have hnumber := ackDatagram_number hq.le w
  cases ha : (ackDatagram q w).actsAsAck with
  | false =>
    rw [threadR_idle _ dropped (ackDatagram_isAckFrame q w) ha] at ht
    cases ht
    rw [List.append_nil]
    exact h.network (fun _ => List.mem_of_mem_eraseIdx) fun _ hd => hd
  | true =>
    obtain ⟨hrecv, -, hpos, -, rfl⟩ := threadR_acts ha ht
    have hqueued : ∃ m, m < x.sent.length ∧ num m = ((ackDatagram q w).buffer 0).toNat := by
      rw [hnumber] at hpos ⊢
      rcases hq with rfl | hq
      · exact absurd hpos (Nat.lt_irrefl 0)
      · exact hq
    obtain ⟨p', hp, hinv, -⟩ := SendInv.ack (w := ((ackDatagram q w).buffer 1).toNat) h.sender hqueued
    rw [threadR_ack (ackDatagram_isAckFrame q w) rfl, hp] at ht
    cases ht
    rw [List.append_nil]
    refine ⟨hinv, ?_, h.quietB, h.receiver, h.last, fun d hd => h.toA d (List.mem_of_mem_eraseIdx hd), h.toB⟩
    show p.toRecvSide.noSpaceFlags = false
    rw [hrecv]
    exact h.quietA

/-- What a data datagram in flight to `b` does there. -/
theorem dataStep {i : Nat} {dropped : Bool} (h : Joined x) (hs : x.step (.deliverB i dropped) = some x') :
    ∃ m b p out, x.toB[i]? = some (dataDatagram b) ∧ Carries x.sent m b ∧
      x' = { x with b := x.b.withProtocol p, toB := x.toB.eraseIdx i, toA := x.toA ++ out } ∧
      (dropped = true ∧ p = x.b.toProtocol ∧ out = [] ∨ dropped = false ∧ DataStep x.b.toProtocol b p out) := by
  obtain ⟨d, p, out, hd, ht, rfl⟩ := Link.deliverB_some hs
  obtain ⟨m, b, rfl, hc⟩ := h.toB d (List.mem_of_getElem? hd)
  refine ⟨m, b, p, out, hd, hc, rfl, ?_⟩
  rcases threadR_cases h.receiver ht with ⟨rfl, rfl, -, hwhy⟩ | ha | ⟨-, -, hdrop, hstep⟩
  · refine Or.inl ⟨?_, rfl, rfl⟩
    simpa [dataDatagram, Datagram.isAckFrame] using hwhy
  · simp [Datagram.actsAsAck] at ha
  · exact Or.inr ⟨hdrop, hstep⟩

/-- Thread R on `b`. -/
theorem deliverB {i : Nat} {dropped : Bool} (h : Joined x) (hs : x.step (.deliverB i dropped) = some x') : Joined x' := by
  obtain ⟨m, b, p, out, -, hc, rfl, hcase⟩ := h.dataStep hs
  have hrest : ∀ d ∈ x.toB.eraseIdx i, ∃ m b, d = dataDatagram b ∧ Carries x.sent m b :=
    fun d hd => h.toB d (List.mem_of_mem_eraseIdx hd)
  rcases hcase with ⟨-, rfl, rfl⟩ | ⟨-, hstep⟩
  · rw [List.append_nil]
    exact h.network (fun _ hd => hd) fun _ => List.mem_of_mem_eraseIdx
  · have hinv := hstep.recvInv h.receiver
    cases hstep with
    | ignored =>
      rw [List.append_nil]
      exact h.network (fun _ hd => hd) fun _ => List.mem_of_mem_eraseIdx
    | early j hfree hearly =>
      rw [List.append_nil]
      exact ⟨h.sender, h.quietA, h.quietB, hinv, h.last, h.toA, hrest⟩
    | inOrder j start hfree hstart hsize hadv =>
      have hqueued : Acknowledgeable x.sent (seqByte b) := Or.inr ⟨m, hc.lt, hc.seqByte_eq.symm⟩
      refine ⟨h.sender, h.quietA, h.quietB, hinv, hqueued, fun d hd => ?_, hrest⟩
      rw [List.mem_append] at hd
      rcases hd with hd | hd
      · exact h.toA d hd
      · obtain ⟨w, rfl⟩ := mem_acksInOrder hd
        exact ⟨_, w, rfl, hqueued⟩

end Joined

/-- Every action keeps the invariant. -/
theorem joined_step (x : Link) (e : Action) (x' : Link) (h : Joined x) (hs : x.step e = some x') : Joined x' := by
  cases e with
  | send self junk message => exact h.send hs
  | recv self => exact h.recv hs
  | wakeA scan stamp => exact h.wakeA hs
  | wakeB scan stamp => exact h.wakeB hs
  | updateA =>
    rcases Link.updateA_some hs with rfl | ⟨hflag, -, -⟩
    · exact h
    · rw [h.quietA] at hflag
      cases hflag
  | updateB => exact h.updateB hs
  | deliverA i dropped => exact h.deliverA hs
  | deliverB i dropped => exact h.deliverB hs
  | loseA i =>
    cases hs
    exact h.network (fun _ => List.mem_of_mem_eraseIdx) fun _ hd => hd
  | loseB i =>
    cases hs
    exact h.network (fun _ hd => hd) fun _ => List.mem_of_mem_eraseIdx
  | doubleA i =>
    cases hs
    exact h.network (fun _ => mem_of_mem_append_getElem?) fun _ hd => hd
  | doubleB i =>
    cases hs
    exact h.network (fun _ hd => hd) fun _ => mem_of_mem_append_getElem?

/-- Every run keeps the invariant. -/
theorem joined_run {a b : Entry} {es : List Action} {x : Link} (ha : a.toProtocol = freshProtocol)
    (hb : b.toProtocol = freshProtocol) (hx : exec Link.step (Link.begin a b) es = some x) : Joined x :=
  always_of_kept joined_step (joined_begin ha hb) es (List.prefix_refl es) x hx

/-- The `k`th datagram in flight to `b` is what thread S sends for the buffer. -/
def Link.carriesAt (x : Link) (k : Nat) (message : Message) : Bool :=
  x.toB[k]?.any fun d => d.len == 512 && decide (d.buffer = message)

theorem Link.carriesAt_iff {x : Link} {k : Nat} {message : Message} :
    x.carriesAt k message = true ↔ x.toB[k]? = some (dataDatagram message) := by
  rw [Link.carriesAt, Option.any_eq_true]
  constructor
  · rintro ⟨⟨len, buffer⟩, hd, hsame⟩
    simp only [Bool.and_eq_true, beq_iff_eq, decide_eq_true_eq] at hsame
    obtain ⟨rfl, rfl⟩ := hsame
    exact hd
  · intro hd
    refine ⟨_, hd, ?_⟩
    simp [dataDatagram]

end NetLabs.Ktp
