import NetLabs.Ktp.Directions

/-!
# An entry handed out again

`k_close` and the garbage collector mark an entry as free and `k_socket` resets its addresses and its two window sizes; nobody
resets the rest. What the traffic of an owner leaves is never undone (`dirty_step`), so the next owner finds the entry as
`init_ksocket` wrote it exactly when there was no traffic.
-/

namespace NetLabs.Ktp

open Function Loop Machine

/-- The event is no traffic: `k_sendto` is refused, the acknowledgement not acted on, the data message not taken in. -/
def Quiet (l : Life) : Event → Prop
  | .sendto self junk message => (kSendto l.entry self junk message).1 = none
  | .datagram d dropped => d.actsAsAck = false ∧
      (d.isAckFrame = false → d.len ≠ 0 → dropped = false → ¬Accepts l.entry.toRecvSide (seqByte d.buffer))
  | _ => True

/-- What traffic leaves behind: a number in `last_ack_received`, or a send slot in use. -/
def Dirty (p : Protocol) : Prop := p.lastAckReceived ≠ 0 ∨ ∃ i, p.sbuffFree i = false

theorem not_dirty_fresh : ¬Dirty freshProtocol := by
  rintro (h | ⟨i, hi⟩)
  · exact h rfl
  · cases hi

/-! ## What changes the owner -/

/-- The protocol fields with both windows at their full size. -/
def Protocol.withFullWindows (p : Protocol) : Protocol :=
  { p with swnd := { p.swnd with size := 10 }, rwnd := { p.rwnd with size := 10 } }

/-- Nothing that changes the owner of an entry, or where it is bound, writes its protocol fields, but for the two window sizes
`k_socket` sets. -/
theorem owner_step {e e' : Entry} {ev : Event} {out : List Datagram} (hev : ev.isTraffic = false)
    (hs : e.step ev = .ok (e', out)) : e'.toProtocol = e.toProtocol ∨ e'.toProtocol = e.toProtocol.withFullWindows := by
  cases ev with
  | socket self =>
    cases hs
    unfold kSocket
    split
    · exact Or.inr rfl
    · exact Or.inl rfl
  | bind a =>
    cases hs
    unfold kBind
    split <;> exact Or.inl rfl
  | served =>
    cases hs
    exact Or.inl rfl
  | close self =>
    cases hs
    unfold kClose
    split
    · exact Or.inl rfl
    · split <;> exact Or.inl rfl
  | collect gone =>
    cases hs
    unfold collect
    split
    · exact Or.inl rfl
    · split <;> exact Or.inl rfl
  | _ => simp [Event.isTraffic, Event.isSending, Event.isReceiving] at hev

/-! ## What is left behind stays -/

/-- A datagram frees a send slot only as an acknowledgement that is acted on, and that leaves a number in `last_ack_received`; a
data message puts its own number there or leaves the one it finds. -/
theorem dirty_threadR {p p' : Protocol} {d : Datagram} {dropped : Bool} {out : List Datagram} (h : Dirty p)
    (hs : threadR p d dropped = .ok (p', out)) : Dirty p' := by
  cases hd : d.isAckFrame with
  | true =>
    cases ha : d.actsAsAck with
    | false =>
      rw [threadR_idle p dropped hd ha] at hs
      cases hs
      exact h
    | true =>
      obtain ⟨-, hlast, hpos, -⟩ := threadR_acts ha hs
      exact Or.inl (by omega)
  | false =>
    rw [threadR_sendSide hd hs]
    rcases h with h | h
    · left
      show takenAfter p.toRecvSide p.lastAckReceived (.datagram d dropped) ≠ 0
      simp only [takenAfter, Bool.and_eq_true, bne_iff_ne]
      split <;> omega
    · exact Or.inr h

/-- No event undoes what traffic has left. -/
theorem dirty_step {e e' : Entry} {ev : Event} {out : List Datagram} (h : Dirty e.toProtocol)
    (hs : e.step ev = .ok (e', out)) : Dirty e'.toProtocol := by
  cases ev with
  | sendto self junk message =>
    cases hs
    cases hc : (kSendto e self junk message).1 with
    | none =>
      rw [kSendto_none hc]
      exact h
    | some n =>
      obtain ⟨s, hq, he⟩ := kSendto_some hc
      obtain ⟨-, i, hi, rfl⟩ := queueMessage_some hq
      rw [he]
      exact Or.inr ⟨i, by simp [fillSlot]⟩
  | recvfrom self =>
    cases hs
    rw [kRecvfrom_side e.toControl e.toProtocol]
    exact h
  | datagram d dropped =>
    simp only [Entry.step] at hs
    split at hs
    · cases hs
    · rename_i p out' hp
      cases hs
      exact dirty_threadR h hp
  | update =>
    simp only [Entry.step] at hs
    rcases windowUpdate_cases e with hu | ⟨-, -, -, hu⟩ <;> rw [hu] at hs <;> cases hs <;> exact h
  | wakeUp scan stamp =>
    obtain ⟨t, rfl⟩ := threadS_sendTime hs
    exact h
  | _ =>
    rcases owner_step rfl hs with hp | hp <;> rw [hp] <;> exact h

/-! ## From an entry as `init_ksocket` wrote it -/

/-- A wake-up finds nothing to send. -/
theorem wakeUp_fresh {s' : SendSide} {scan : Slot → Int} {stamp : Nat → Int} {out : List Datagram}
    (h : wakeUp freshProtocol.toSendSide scan stamp = .ok (s', out)) : s' = freshProtocol.toSendSide := by
  have htimed : timedOut freshProtocol.toSendSide scan = false := by simp [timedOut, freshProtocol]
  have hsize : freshProtocol.toSendSide.swnd.size ≠ 0 := by decide
  simp only [wakeUp, htimed, Bool.false_eq_true, ↓reduceIte, hsize] at h
  unfold sweep at h
  split at h
  · cases h
  · rename_i x hx
    cases h
    refine (loopWhile_keeps (fun x : Sweep => x.side = freshProtocol.toSendSide) (fun x x' hi _ hb => ?_) rfl hx).1
    have hnone : ¬0 ≤ x.side.swnd.indexSeqNum x.k := by
      rw [hi]
      exact (by decide : ¬(0 : Int) ≤ -1)
    rw [sendNew, if_neg hnone] at hb
    cases hb
    exact hi

/-- A datagram that is no traffic changes nothing; one that is leaves a number in `last_ack_received`. -/
theorem fresh_datagram {l : Life} {d : Datagram} {dropped : Bool} {p' : Protocol} {out : List Datagram}
    (h : l.entry.toProtocol = freshProtocol) (hs : threadR l.entry.toProtocol d dropped = .ok (p', out)) :
    (Quiet l (.datagram d dropped) → p' = l.entry.toProtocol) ∧ (¬Quiet l (.datagram d dropped) → Dirty p') := by
  have hinv : RecvInv l.entry.toProtocol.toRecvSide := by
    rw [h]
    exact recvInv_fresh
  rcases threadR_cases hinv hs with ⟨rfl, -, ha, hwhy⟩ | ha | ⟨hd, hlen, rfl, hstep⟩
  · refine ⟨fun _ => rfl, fun hq => absurd ⟨ha, fun hd hlen hdrop => ?_⟩ hq⟩
    rcases hwhy with hwhy | hwhy | hwhy
    · rw [hd] at hwhy
      cases hwhy
    · exact absurd hwhy hlen
    · rw [hdrop] at hwhy
      cases hwhy
  · obtain ⟨-, hlast, hpos, -⟩ := threadR_acts ha hs
    exact ⟨fun hq => absurd (ha.symm.trans hq.1) (by decide), fun _ => Or.inl (by omega)⟩
  · have ha : d.actsAsAck = false := by simp [Datagram.actsAsAck, hd]
    cases hstep with
    | ignored hn => exact ⟨fun _ => rfl, fun hq => absurd ⟨ha, fun _ _ _ => hn⟩ hq⟩
    | early i hfree hearly =>
      rw [h] at hearly
      exact absurd hearly (not_acceptsEarly rfl rfl _)
    | inOrder i start hfree hstart hsize hadv =>
      refine ⟨fun hq => absurd (Or.inl ?_) (hq.2 hd hlen rfl), fun _ => Or.inl ?_⟩
      · simp [NetLabs.Ktp.inOrder, hstart, hsize]
      · have := hinv.start_pos
        show seqByte d.buffer ≠ 0
        omega

/-- An event that is no traffic leaves the protocol fields as `init_ksocket` wrote them; traffic leaves something behind. -/
theorem fresh_step {l : Life} {ev : Event} {e' : Entry} {out : List Datagram} (h : l.entry.toProtocol = freshProtocol)
    (hs : l.entry.step ev = .ok (e', out)) :
    (Quiet l ev → e'.toProtocol = freshProtocol) ∧ (¬Quiet l ev → Dirty e'.toProtocol) := by
  cases ev with
  | sendto self junk message =>
    cases hs
    constructor
    · intro hq
      rw [kSendto_none hq]
      exact h
    · intro hq
      obtain ⟨n, hn⟩ := Option.ne_none_iff_exists'.1 hq
      obtain ⟨s, hq, he⟩ := kSendto_some hn
      obtain ⟨-, i, hi, rfl⟩ := queueMessage_some hq
      rw [he]
      exact Or.inr ⟨i, by simp [fillSlot]⟩
  | recvfrom self =>
    cases hs
    refine ⟨fun _ => ?_, fun hq => absurd trivial hq⟩
    rcases kRecvfrom_cases l.entry self with hr | ⟨m, r, ht, -, -⟩
    · rw [hr]
      exact h
    · rw [h] at ht
      obtain ⟨i, hi, -⟩ := takeMessage_some ht
      cases hi
  | datagram d dropped =>
    simp only [Entry.step] at hs
    split at hs
    · cases hs
    · rename_i p out' hp
      cases hs
      obtain ⟨hquiet, hdirty⟩ := fresh_datagram h hp
      exact ⟨fun hq => (hquiet hq).trans h, hdirty⟩
  | update =>
    refine ⟨fun _ => ?_, fun hq => absurd trivial hq⟩
    simp only [Entry.step] at hs
    rcases windowUpdate_cases l.entry with hu | ⟨-, hflag, -, -⟩
    · rw [hu] at hs
      cases hs
      exact h
    · rw [h] at hflag
      cases hflag
  | wakeUp scan stamp =>
    refine ⟨fun _ => ?_, fun hq => absurd trivial hq⟩
    simp only [Entry.step, threadS] at hs
    split at hs
    · split at hs
      · cases hs
      · rename_i s out' hw
        cases hs
        rw [h] at hw
        simp only [Entry.withProtocol_toProtocol, h, wakeUp_fresh hw, Protocol.withSend_self]
    · cases hs
      exact h
  | _ =>
    refine ⟨fun _ => ?_, fun hq => absurd trivial hq⟩
    rcases owner_step rfl hs with hp | hp <;> rw [hp, h]
    rfl

/-! ## Every history -/

/-- Along a run, what traffic has left stays. -/
theorem dirty_run {l l' : Life} {es : List Event} (h : Dirty l.entry.toProtocol) (hx : exec Life.after l es = some l') :
    Dirty l'.entry.toProtocol := by
  refine exec_invariant (I := fun l : Life => Dirty l.entry.toProtocol) (g := fun _ _ => True) ?_ h
    (meets_of_forall fun _ _ => trivial) hx
  intro l ev l1 h _ hl
  obtain ⟨e', out, hs, rfl⟩ := Life.after_eq_some.1 hl
  exact dirty_step h hs

/-- A run from the state `init_ksocket` writes ends in that state when it has seen no traffic, and with something left behind
otherwise. -/
theorem fresh_run {l l' : Life} {es : List Event} (h : l.entry.toProtocol = freshProtocol)
    (hx : exec Life.after l es = some l') :
    (Meets Life.after Quiet l es → l'.entry.toProtocol = freshProtocol) ∧
      (¬Meets Life.after Quiet l es → Dirty l'.entry.toProtocol) := by
  induction es generalizing l with
  | nil =>
    obtain rfl : l = l' := by simpa using hx
    exact ⟨fun _ => h, fun hn => absurd trivial hn⟩
  | cons ev es ih =>
    obtain ⟨l1, h1, hx⟩ := exec_cons_eq_some.1 hx
    obtain ⟨e', out, hs, rfl⟩ := Life.after_eq_some.1 h1
    obtain ⟨hquiet, hdirty⟩ := fresh_step h hs
    rw [meets_cons_iff h1]
    by_cases hq : Quiet l ev
    · obtain ⟨hrest, hrest'⟩ := ih (hquiet hq) hx
      exact ⟨fun hm => hrest hm.2, fun hn => hrest' fun hm => hn ⟨hq, hm⟩⟩
    · exact ⟨fun hm => absurd hm.1 hq, fun _ => dirty_run (hdirty hq) hx⟩

/-- What `k_socket` hands out. After every history of an entry, from `init_ksocket` on, that leaves it free (by `k_close` or by the
garbage collector, or because nobody has had it), `k_socket` hands it out, and its protocol fields are those of an entry never
used before if and only if the history has seen no traffic: no `k_sendto` was accepted, no acknowledgement acted on and no data
message taken in. -/
theorem kSocket_fresh_iff (udpSocket : Sock → Int) (i : Sock) (es : List Event) (l : Life)
    (hx : exec Life.after (Life.begin (initKsocket udpSocket i)) es = some l) (hfree : l.entry.isFree = 1) (self : Nat) :
    ∃ e, kSocket l.entry self = some e ∧ e.isFree = 0 ∧ e.pid = self ∧
      (e.toProtocol = freshProtocol ↔ Meets Life.after Quiet (Life.begin (initKsocket udpSocket i)) es) := by
  refine ⟨_, if_pos hfree, rfl, rfl, ?_⟩
  obtain ⟨hquiet, hdirty⟩ := fresh_run (l := Life.begin (initKsocket udpSocket i)) rfl hx
  constructor
  · intro hfresh
    by_contra hn
    refine not_dirty_fresh (hfresh ▸ ?_)
    exact hdirty hn
  · intro hm
    have hprotocol := hquiet hm
    show l.entry.toProtocol.withFullWindows = freshProtocol
    rw [hprotocol]
    rfl

/-- `kSocket_fresh_iff` on an entry whose first owner ends without using it. -/
theorem kSocket_fresh_unused :
    ∃ e, kSocket (initKsocket (fun _ => 3) 0) 8 = some e ∧ e.isFree = 0 ∧ e.pid = 8 ∧
      (e.toProtocol = freshProtocol ↔ Meets Life.after Quiet (Life.begin (initKsocket (fun _ => 3) 0)) [.socket 7, .collect (· == 7)]) :=
  kSocket_fresh_iff (fun _ => 3) 0 [.socket 7, .collect (· == 7)] _ rfl rfl 8

/-- Process 7 has the entry, a message for it is taken in, it ends without reading it, and the collector frees the entry. Process 8 is
handed the entry with that message, and its first `k_recvfrom` returns it. -/
theorem kSocket_leaks :
    ∃ l e, exec Life.after (Life.begin (initKsocket (fun _ => 3) 0))
        [.socket 7, .bind { srcIp := [], srcPort := 5000, destIp := [], destPort := 6000 }, .served,
          .datagram (dataDatagram (frame (fun _ => 0) 1 0 [104, 105])) false, .collect (· == 7)] = some l ∧ l.entry.isFree = 1 ∧
      kSocket l.entry 8 = some e ∧ e.toProtocol ≠ freshProtocol ∧ (kRecvfrom e 8).1 = some [104, 105] := by
  refine ⟨_, _, rfl, rfl, rfl, fun h => ?_, rfl⟩
  exact absurd (congrArg Protocol.lastAckReceived h) (by decide)

end NetLabs.Ktp
