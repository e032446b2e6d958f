import NetLabs.Ktp.Receiver

/-!
# The window a receiver advertises

An acknowledgement announces `rwnd.size`, so the sender may send that many numbers from `start_sequence` on. The next number expected
is always taken in. Of the others thread R takes in those at most `10 - size` ahead, as long as the window does not touch number 255,
and only where the slot it has worked out for them is free.
-/

namespace NetLabs.Ktp

open Function Machine

/-- How far a number is from the start of the window. -/
def ahead (r : RecvSide) (q : Nat) : Nat := Ring.dist 255 r.rwnd.startSequence q

/-- A number of the ring in the window the receiver advertises, whose message is not stored yet. -/
structure Advertised (r : RecvSide) (q : Nat) : Prop where
  pos : 1 ≤ q
  le : q ≤ 255
  near : (ahead r q : Int) < r.rwnd.size
  new : ¬Held r q

/-- The number is the next one expected; or neither it nor the window touches number 255, it is at most `10 - size` ahead, and the slot
worked out for it is free. -/
def WithinReach (r : RecvSide) (q : Nat) : Prop :=
  q = r.rwnd.startSequence ∨
    (r.rwnd.startSequence + ahead r q ≤ 254 ∧ (r.rwnd.startSequence : Int) + 9 - r.rwnd.size ≤ 254 ∧
      (ahead r q : Int) ≤ 10 - r.rwnd.size ∧ ∃ i : Slot, earlyIndex r q = (i.val : Int) ∧ r.rbuffFree i = true)

/-- Thread R puts the datagram into a receive slot. -/
def Stores (p : Protocol) (d : Datagram) : Prop :=
  ∃ p' out i, threadR p d false = .ok (p', out) ∧ p.rbuffFree i = true ∧ p'.rbuffFree i = false ∧ p'.recvBuffer i = d.buffer

section Receivers

variable {r : RecvSide} {q : Nat}

/-- The two comparisons of thread R, on a number of the advertised window. -/
theorem inWindow_iff (h : RecvInv r) (ha : Advertised r q) :
    inWindow r q = true ↔ r.rwnd.startSequence + ahead r q ≤ 254 ∧ (r.rwnd.startSequence : Int) + 9 - r.rwnd.size ≤ 254 ∧
      (ahead r q : Int) ≤ 10 - r.rwnd.size := by
  have hpos := h.start_pos
  have hle := h.start_le
  have hsize := h.size_le
  have hq := ha.pos
  have hq' := ha.le
  have hnear := ha.near
  unfold inWindow ahead Ring.dist at *
  rw [decide_eq_true_eq, Int.tmod_eq_emod_of_nonneg (by omega)]
  omega

/-- A number in the advertised window that is not stored has not been taken in. -/
theorem Advertised.valid (ha : Advertised r q) (h : RecvInv r) : r.rwnd.validSeqNum q = true := by
  cases hv : r.rwnd.validSeqNum q with
  | true => rfl
  | false => exact absurd (h.held q hv) ha.new

/-- Thread R takes in a number of the advertised window exactly when it is within reach. -/
theorem accepts_iff_withinReach (h : RecvInv r) (ha : Advertised r q) : Accepts r q ↔ WithinReach r q := by
  have hslot : (∃ i, slot? (earlyIndex r q) = .ok i ∧ r.rbuffFree i = true) ↔
      ∃ i : Slot, earlyIndex r q = (i.val : Int) ∧ r.rbuffFree i = true := by
    simp only [slot?_eq_ok]
  by_cases hne : q = r.rwnd.startSequence
  · have hnear := ha.near
    refine ⟨fun _ => Or.inl hne, fun _ => Or.inl (decide_eq_true ⟨hne.symm, ?_⟩)⟩
    omega
  · have hno : inOrder r q ≠ true := by
      intro ho
      exact hne (of_decide_eq_true ho).1.symm
    constructor
    · rintro (ho | ⟨-, hw, -, hi⟩)
      · exact absurd ho hno
      · obtain ⟨h1, h2, h3⟩ := (inWindow_iff h ha).1 hw
        exact Or.inr ⟨h1, h2, h3, hslot.1 hi⟩
    · rintro (he | ⟨h1, h2, h3, hi⟩)
      · exact absurd he hne
      · exact Or.inr ⟨hne, (inWindow_iff h ha).2 ⟨h1, h2, h3⟩, ha.valid h, hslot.2 hi⟩

end Receivers

/-- Under the invariant a data datagram is stored exactly when thread R decides to take it in. -/
theorem stores_iff_accepts {p : Protocol} (h : RecvInv p.toRecvSide) {d : Datagram} (hd : d.isAckFrame = false) (hlen : d.len ≠ 0) :
    Stores p d ↔ Accepts p.toRecvSide (seqByte d.buffer) := by
  obtain ⟨p1, out1, hr, hstep⟩ := threadR_data h hd hlen
  have hlaw : Stores p d ↔ ∃ i, p.rbuffFree i = true ∧ p1.rbuffFree i = false ∧ p1.recvBuffer i = d.buffer := by
    constructor
    · rintro ⟨p', out, i, hr', hi⟩
      rw [hr] at hr'
      cases hr'
      exact ⟨i, hi⟩
    · rintro ⟨i, hi⟩
      exact ⟨p1, out1, i, hr, hi⟩
  rw [hlaw]
  rcases hstep.stores with ⟨ha, i, hfree, hput, hbuffer⟩ | ⟨hn, rfl, -⟩
  · exact ⟨fun _ => ha, fun _ => ⟨i, hfree, by rw [hput, update_self], by rw [hbuffer, update_self]⟩⟩
  · refine ⟨?_, fun ha => absurd ha hn⟩
    rintro ⟨i, hi, hi', -⟩
    rw [hi] at hi'
    cases hi'

/-- When the receiver takes in what it advertises. In every state that data datagrams, rounds of thread R and calls of `k_recvfrom`
reach from what `init_ksocket` writes, a data datagram that is not dropped, whose number is less than `rwnd.size` ahead of the start of
the window and is not stored yet, is stored, if and only if it is within reach. -/
theorem stores_advertised_iff (e : Entry) (hfresh : e.toProtocol = freshProtocol) (es : List Event)
    (hes : ∀ ev ∈ es, ev.isReceiving = true) :
    ∃ l, exec Life.after (Life.begin e) es = some l ∧ ∀ d : Datagram, d.isAckFrame = false → d.len ≠ 0 →
      Advertised l.entry.toRecvSide (seqByte d.buffer) →
      (Stores l.entry.toProtocol d ↔ WithinReach l.entry.toRecvSide (seqByte d.buffer)) := by
  obtain ⟨l, hx, hinv⟩ := receiving_run hfresh hes
  refine ⟨l, hx, fun d hd hlen ha => ?_⟩
  rw [stores_iff_accepts hinv hd hlen, accepts_iff_withinReach hinv ha]

/-- `stores_advertised_iff` on the next message expected. -/
theorem stores_advertised_next :
    ∃ l, exec Life.after (Life.begin boundEntry) [.datagram (dataDatagram (frame (fun _ => 0) 1 0 [104])) false] = some l ∧
      (Stores l.entry.toProtocol (dataDatagram (frame (fun _ => 0) 2 1 [105])) ↔
        WithinReach l.entry.toRecvSide (seqByte (frame (fun _ => 0) 2 1 [105]))) := by
  obtain ⟨l, hx, hall⟩ := stores_advertised_iff boundEntry rfl
    [.datagram (dataDatagram (frame (fun _ => 0) 1 0 [104])) false] (by decide)
  refine ⟨l, hx, hall _ rfl (by decide) ⟨by decide, by decide, ?_, ?_⟩⟩
  · obtain rfl := Option.some.inj hx
    decide
  · obtain rfl := Option.some.inj hx
    rintro ⟨j, hj, hq⟩
    revert j
    decide

/-- A receiver that has taken in nothing advertises ten numbers, and does not take in number 2 before number 1. -/
theorem advertised_not_stored :
    exec Life.after (Life.begin boundEntry) [] = some (Life.begin boundEntry) ∧
      Advertised boundEntry.toRecvSide (seqByte (frame (fun _ => 0) 2 1 [105])) ∧
      ¬Stores boundEntry.toProtocol (dataDatagram (frame (fun _ => 0) 2 1 [105])) := by
  refine ⟨rfl, ⟨by decide, by decide, by decide, ?_⟩, ?_⟩
  · rintro ⟨j, hj, -⟩
    cases hj
  · rintro ⟨p', out, i, hr, hi, hi', -⟩
    obtain ⟨rfl, -⟩ := Prod.mk.inj (Except.ok.inj hr)
    cases hi'

end NetLabs.Ktp
