import Mathlib.Order.Interval.Finset.Nat
import Mathlib.Data.Set.Function
import NetLabs.Lib.Slots
import NetLabs.Ktp.Life

/-!
# The sending side of a KTP socket

The messages `k_sendto` accepted are numbered from 0; `SendWindow s sent acked` says that exactly the messages from `acked` on are
held, each in a slot of its own under its number. `SendInv` adds where the window starts and where the next number is. The number
of the last acknowledgement is the number of freed messages, and stays so after the numbers have started again: 255 is the largest
number, so `last_ack_received` never moves past it and nothing after message 255 is freed.
-/

namespace NetLabs.Ktp

open Function Loop Slots Machine

/-- A slot holds what `k_sendto` wrote for message `m` under number `q`: number, slot, message and NUL. -/
def HoldsFrame (b : Message) (q : Nat) (i : Slot) (m : List UInt8) : Prop :=
  m.length ≤ 509 ∧ ∃ junk, b = frame junk q i m

theorem HoldsFrame.seqByte_eq {b : Message} {q : Nat} {i : Slot} {m : List UInt8} (h : HoldsFrame b q i m) (hq : q ≤ 255) :
    seqByte b = q := by
  obtain ⟨-, junk, rfl⟩ := h
  show (UInt8.ofNat q).toNat = q
  rw [UInt8.toNat_ofNat']
  omega

/-- The messages from `acked` on are held, each in a slot of its own that `index_seq_num` notes for its number; no other slot is in
use and no other number is noted. -/
structure SendWindow (s : SendSide) (sent : List (List UInt8)) (acked : Nat) : Prop where
  acked_le : acked ≤ sent.length
  slotOf : ∀ m (hm : m < sent.length), acked ≤ m → ∃ i : Slot, s.swnd.indexSeqNum (num m) = (i.val : Int) ∧
    s.sbuffFree i = false ∧ HoldsFrame (s.sendBuffer i) (num m) i sent[m]
  distinct : ∀ m m', acked ≤ m → m < sent.length → acked ≤ m' → m' < sent.length →
    s.swnd.indexSeqNum (num m) = s.swnd.indexSeqNum (num m') → m = m'
  used : ∀ i, s.sbuffFree i = false → ∃ m, acked ≤ m ∧ m < sent.length ∧ s.swnd.indexSeqNum (num m) = (i.val : Int)
  rest : ∀ q, (∀ m, acked ≤ m → m < sent.length → num m ≠ q) → s.swnd.indexSeqNum q = -1

/-- The invariant of the sending side. -/
structure SendInv (s : SendSide) (sent : List (List UInt8)) (lastAck : Nat) : Prop where
  window : SendWindow s sent lastAck
  start_eq : s.swnd.startSequence = num lastAck
  next_eq : s.maxSeqNumberYet = num sent.length
  last_le : lastAck ≤ 255
  size_le : s.swnd.size ≤ 10

/-- What `init_ksocket` writes satisfies the invariant, with nothing sent. -/
theorem sendInv_fresh : SendInv freshProtocol.toSendSide [] 0 where
  window :=
    { acked_le := Nat.le_refl _
      slotOf := fun m hm => absurd hm (Nat.not_lt_zero m)
      distinct := fun m _ _ hm => absurd hm (Nat.not_lt_zero m)
      used := fun i hi => by cases hi
      rest := fun _ _ => rfl }
  start_eq := rfl
  next_eq := rfl
  last_le := by decide
  size_le := by decide

namespace SendWindow

variable {s : SendSide} {sent : List (List UInt8)} {acked : Nat}

/-- The messages held, each in a slot of its own, are no more than the slots in use. -/
theorem count (h : SendWindow s sent acked) : sent.length - acked + freeCount s.sbuffFree ≤ 10 := by
  have hslot : ∀ m ∈ Finset.Ico acked sent.length, ∃ i : Slot, s.swnd.indexSeqNum (num m) = (i.val : Int) ∧
      s.sbuffFree i = false := by
    intro m hm
    rw [Finset.mem_Ico] at hm
    obtain ⟨i, hi, hf, -⟩ := h.slotOf m hm.2 hm.1
    exact ⟨i, hi, hf⟩
  choose! slot hnote hfree using hslot
  have hcard := held_card_le (Finset.Ico acked sent.length) slot hfree (fun m hm m' hm' heq => by
    have h1 := Finset.mem_Ico.1 hm
    have h2 := Finset.mem_Ico.1 hm'
    exact h.distinct m m' h1.1 h1.2 h2.1 h2.2 (by rw [hnote m hm, hnote m' hm', heq]))
  rw [Nat.card_Ico, Fintype.card_fin] at hcard
  exact hcard

theorem length_le (h : SendWindow s sent acked) : sent.length ≤ acked + 10 := by
  have := h.count
  have := h.acked_le
  omega

/-- A number that is noted is the number of a message held. -/
theorem of_noted (h : SendWindow s sent acked) {q : Nat} (hq : s.swnd.indexSeqNum q ≠ -1) :
    ∃ m, acked ≤ m ∧ m < sent.length ∧ num m = q := by
  by_contra hno
  exact hq (h.rest q fun m h1 h2 he => hno ⟨m, h1, h2, he⟩)

/-- Only the numbers noted, the free flags and the buffers matter. -/
theorem of_eq {s' : SendSide} (h : SendWindow s sent acked) (hi : s'.swnd.indexSeqNum = s.swnd.indexSeqNum)
    (hf : s'.sbuffFree = s.sbuffFree) (hb : s'.sendBuffer = s.sendBuffer) : SendWindow s' sent acked where
  acked_le := h.acked_le
  slotOf := by rw [hi, hf, hb]; exact h.slotOf
  distinct := by rw [hi]; exact h.distinct
  used := by rw [hi, hf]; exact h.used
  rest := by rw [hi]; exact h.rest

/-- The number of the next message is not that of a message held. -/
theorem num_ne_next (h : SendWindow s sent acked) {m : Nat} (h1 : acked ≤ m) (h2 : m < sent.length) :
    num m ≠ num sent.length := by
  have := h.length_le
  exact Ring.num_ne h2 (by omega)

/-- A message held is not in a free slot. -/
theorem slotOf_ne (h : SendWindow s sent acked) {i : Slot} (hi : s.sbuffFree i = true) {m : Nat} (hm : m < sent.length)
    (h1 : acked ≤ m) : ∃ j : Slot, s.swnd.indexSeqNum (num m) = (j.val : Int) ∧ s.sbuffFree j = false ∧
      HoldsFrame (s.sendBuffer j) (num m) j sent[m] ∧ j ≠ i := by
  obtain ⟨j, h2, h3, h4⟩ := h.slotOf m hm h1
  refine ⟨j, h2, h3, h4, ?_⟩
  rintro rfl
  rw [hi] at h3
  cases h3

end SendWindow

/-- The times of sending are no part of the invariant. -/
theorem SendInv.stamped {s : SendSide} {sent : List (List UInt8)} {lastAck : Nat} (h : SendInv s sent lastAck)
    (t : Slot → Int) : SendInv { s with sendTime := t } sent lastAck where
  window := h.window.of_eq rfl rfl rfl
  start_eq := h.start_eq
  next_eq := h.next_eq
  last_le := h.last_le
  size_le := h.size_le

/-! ## `k_sendto` -/

/-- What an accepted `k_sendto` does: the message goes into a free slot under the next number. -/
theorem queueMessage_some {s s' : SendSide} {junk : Message} {message : List UInt8} (h : queueMessage s junk message = some s') :
    message.length ≤ 509 ∧ ∃ i : Slot, s.sbuffFree i = true ∧ s' = fillSlot s i junk message := by
  unfold queueMessage at h
  split at h
  · cases h
  · rename_i hlen
    cases hf : firstFree s.sbuffFree with
    | none => rw [hf] at h; cases h
    | some i =>
      rw [hf] at h
      exact ⟨by omega, i, firstFree_eq_some hf, (Option.some.inj h).symm⟩

/-- One more message is held, in a slot that was free and under the next number. -/
theorem SendWindow.fill {s : SendSide} {sent : List (List UInt8)} {acked : Nat} (h : SendWindow s sent acked)
    (hnext : s.maxSeqNumberYet = num sent.length) {i : Slot} (hi : s.sbuffFree i = true) (junk : Message)
    {message : List UInt8} (hlen : message.length ≤ 509) : SendWindow (fillSlot s i junk message) (sent ++ [message]) acked where
  acked_le := by
    have := h.acked_le
    rw [List.length_append]
    omega
  slotOf m hm h1 := by
    simp only [List.length_append, List.length_singleton] at hm
    by_cases hmn : m < sent.length
    · obtain ⟨j, h2, h3, h4, hji⟩ := h.slotOf_ne hi hmn h1
      refine ⟨j, ?_, ?_, ?_⟩
      · simp only [fillSlot, hnext, update_of_ne (h.num_ne_next h1 hmn), h2]
      · simp only [fillSlot, update_of_ne hji, h3]
      · simp only [fillSlot, update_of_ne hji, List.getElem_append_left hmn]
        exact h4
    · obtain rfl : m = sent.length := by omega
      refine ⟨i, ?_, ?_, ?_⟩
      · simp only [fillSlot, hnext, update_self]
      · simp only [fillSlot, update_self]
      · simp only [fillSlot, update_self, hnext, List.getElem_concat_length]
        exact ⟨hlen, junk, rfl⟩
  distinct m m' h1 hm h1' hm' heq := by
    simp only [List.length_append, List.length_singleton] at hm hm'
    simp only [fillSlot, hnext] at heq
    by_cases hmn : m < sent.length <;> by_cases hmn' : m' < sent.length
    · rw [update_of_ne (h.num_ne_next h1 hmn), update_of_ne (h.num_ne_next h1' hmn')] at heq
      exact h.distinct m m' h1 hmn h1' hmn' heq
    · obtain rfl : m' = sent.length := by omega
      obtain ⟨j, h2, -, -, hji⟩ := h.slotOf_ne hi hmn h1
      rw [update_of_ne (h.num_ne_next h1 hmn), update_self, h2] at heq
      exact absurd (Fin.ext (by omega)) hji
    · obtain rfl : m = sent.length := by omega
      obtain ⟨j, h2, -, -, hji⟩ := h.slotOf_ne hi hmn' h1'
      rw [update_of_ne (h.num_ne_next h1' hmn'), update_self, h2] at heq
      exact absurd (Fin.ext (by omega)) hji
    · omega
  used j hj := by
    have hle := h.acked_le
    simp only [fillSlot, hnext, List.length_append, List.length_singleton]
    by_cases hji : j = i
    · exact ⟨sent.length, hle, by omega, by rw [update_self, hji]⟩
    · obtain ⟨m, h1, h2, h3⟩ := h.used j (by simpa [fillSlot, hji] using hj)
      exact ⟨m, h1, by omega, by rw [update_of_ne (h.num_ne_next h1 h2), h3]⟩
  rest q hq := by
    simp only [List.length_append, List.length_singleton] at hq
    have hne : q ≠ num sent.length := fun he => hq sent.length h.acked_le (by omega) he.symm
    simp only [fillSlot, hnext, update_of_ne hne]
    exact h.rest q fun m h1 h2 => hq m h1 (by omega)

/-- An accepted `k_sendto` keeps the invariant, with one more message sent. -/
theorem SendInv.queue {s s' : SendSide} {sent : List (List UInt8)} {lastAck : Nat} {junk : Message} {message : List UInt8}
    (h : SendInv s sent lastAck) (hq : queueMessage s junk message = some s') : SendInv s' (sent ++ [message]) lastAck := by
  obtain ⟨hlen, i, hi, rfl⟩ := queueMessage_some hq
  refine ⟨h.window.fill h.next_eq hi junk hlen, h.start_eq, ?_, h.last_le, h.size_le⟩
  simp only [fillSlot, h.next_eq, List.length_append, List.length_singleton]
  exact Ring.next_num

/-! ## Acknowledgements -/

/-- Without the oldest message held, whose slot is cleared, what is held is what comes after. -/
theorem SendWindow.clear {s : SendSide} {sent : List (List UInt8)} {acked : Nat} (h : SendWindow s sent acked)
    (hlt : acked < sent.length) {i : Slot} (hi : s.swnd.indexSeqNum (num acked) = (i.val : Int)) :
    SendWindow (clearSlot s (num acked) i) sent (acked + 1) := by
  have hlen := h.length_le
  -- the later messages have other numbers and other slots
  have hnum : ∀ m, acked + 1 ≤ m → m < sent.length → num m ≠ num acked :=
    fun m h1 h2 => (Ring.num_ne (by omega) (by omega)).symm
  have hslot : ∀ m, acked + 1 ≤ m → m < sent.length → s.swnd.indexSeqNum (num m) ≠ (i.val : Int) := by
    intro m h1 h2 he
    have := h.distinct m acked (by omega) h2 (Nat.le_refl _) hlt (he.trans hi.symm)
    omega
  refine ⟨hlt, ?_, ?_, ?_, ?_⟩
  · intro m hm h1
    obtain ⟨j, h2, h3, h4⟩ := h.slotOf m hm (by omega)
    have hji : j ≠ i := by
      rintro rfl
      exact hslot m h1 hm h2
    refine ⟨j, ?_, ?_, ?_⟩
    · simp only [clearSlot, update_of_ne (hnum m h1 hm), h2]
    · simp only [clearSlot, update_of_ne hji, h3]
    · simp only [clearSlot, update_of_ne hji]
      exact h4
  · intro m m' h1 h2 h1' h2' heq
    simp only [clearSlot, update_of_ne (hnum m h1 h2), update_of_ne (hnum m' h1' h2')] at heq
    exact h.distinct m m' (by omega) h2 (by omega) h2' heq
  · intro j hj
    obtain ⟨hj, hji⟩ := used_give.1 hj
    obtain ⟨m, h1, h2, h3⟩ := h.used j hj
    have hm : m ≠ acked := by
      rintro rfl
      exact hji (Fin.ext (by omega))
    exact ⟨m, by omega, h2, by simp only [clearSlot, update_of_ne (hnum m (by omega) h2), h3]⟩
  · intro q hq
    by_cases hqa : q = num acked
    · simp only [clearSlot, hqa, update_self]
    · simp only [clearSlot, update_of_ne hqa]
      refine h.rest q fun m h1 h2 he => ?_
      rcases Nat.eq_or_lt_of_le h1 with rfl | h1
      · exact hqa he.symm
      · exact hq m h1 h2 he

/-- One iteration of the freeing loop, at the number of the oldest message held, frees that message. -/
theorem SendWindow.free {s : SendSide} {sent : List (List UInt8)} {acked : Nat} (h : SendWindow s sent acked)
    (hlt : acked < sent.length) : ∃ s', freeAcked (s, num acked) = .ok (s', num (acked + 1)) ∧
      SendWindow s' sent (acked + 1) ∧ s'.swnd.size = s.swnd.size ∧ s'.maxSeqNumberYet = s.maxSeqNumberYet := by
  obtain ⟨i, hi, -⟩ := h.slotOf acked hlt (Nat.le_refl _)
  exact ⟨clearSlot s (num acked) i, by simp only [freeAcked, hi, slot?_coe, Ring.next_num], h.clear hlt hi, rfl, rfl⟩

/-- The freeing loop, from the oldest message held to message `target`: it ends, with every slot inside the buffer, and what is
held is what comes after. -/
theorem SendWindow.ackLoop {s : SendSide} {sent : List (List UInt8)} {acked target : Nat} (h : SendWindow s sent acked)
    (hstart : s.swnd.startSequence = num acked) (hle : acked ≤ target) (htarget : target ≤ sent.length) :
    ∃ s', ackLoop s target = .ok (s', num target) ∧ SendWindow s' sent target ∧ s'.swnd.size = s.swnd.size ∧
      s'.maxSeqNumberYet = s.maxSeqNumberYet := by
  have hlen := h.length_le
  have htest : ∀ q, (q != target % 255 + 1) = true ↔ q ≠ num target := by
    intro q
    rw [bne_iff_ne, Nat.add_comm]
    rfl
  let Inv : SendSide × Nat → Prop := fun x => ∃ a, acked ≤ a ∧ a ≤ target ∧ x.2 = num a ∧ SendWindow x.1 sent a ∧
    x.1.swnd.size = s.swnd.size ∧ x.1.maxSeqNumberYet = s.maxSeqNumberYet
  have hbody : ∀ x, Inv x → (x.2 != target % 255 + 1) = true →
      ∃ x', freeAcked x = .ok x' ∧ Inv x' ∧ Ring.dist 255 x'.2 (num target) < Ring.dist 255 x.2 (num target) := by
    rintro ⟨t, q⟩ ⟨a, h1, h2, rfl, hw, hsize, hmax⟩ ht
    have hne : a ≠ target := by
      rintro rfl
      exact (htest _).1 ht rfl
    obtain ⟨t', hf, hw', hsz, hmx⟩ := hw.free (by omega)
    refine ⟨_, hf, ⟨a + 1, by omega, by omega, rfl, hw', hsz.trans hsize, hmx.trans hmax⟩, ?_⟩
    simp only
    rw [Ring.dist_num (by omega) (by omega), Ring.dist_num (by omega) (by omega)]
    omega
  have hfuel : Ring.dist 255 s.swnd.startSequence (num target) < 256 :=
    Nat.lt_succ_of_lt (Ring.dist_lt (by decide) _ _)
  obtain ⟨⟨s', q⟩, hx, ⟨a, h1, h2, hq, hw, hsize, hmax⟩, ht⟩ :=
    loopWhile_total Inv (fun x => Ring.dist 255 x.2 (num target)) hbody
      (s := (s, s.swnd.startSequence)) ⟨acked, Nat.le_refl _, hle, hstart, h, rfl, rfl⟩ hfuel
  have hqt : q = num target := by
    by_contra hne
    rw [(htest q).2 hne] at ht
    cases ht
  simp only at hq hw hsize hmax
  have ha : a = target := Ring.num_inj (hq.symm.trans hqt) h2 (by omega)
  subst ha
  exact ⟨s', hx.trans (by rw [hqt]), hw, hsize, hmax⟩

/-- An acknowledgement of a number that has been queued is handled without leaving the arrays and keeps the invariant; the other
side of the entry is not touched. -/
theorem SendInv.ack {p : Protocol} {sent : List (List UInt8)} {a w : Nat} (h : SendInv p.toSendSide sent p.lastAckReceived)
    (hqueued : ∃ m, m < sent.length ∧ num m = a) :
    ∃ p', handleAck p a w = .ok p' ∧ SendInv p'.toSendSide sent p'.lastAckReceived ∧ p'.toRecvSide = p.toRecvSide := by
  obtain ⟨m, hm, rfl⟩ := hqueued
  have hpos : 1 ≤ num m := Ring.num_pos
  have hmax : num m ≤ 255 := Ring.num_le (by decide)
  have hle : num m ≤ m + 1 := by
    show 1 + m % 255 ≤ m + 1
    have := Nat.mod_le m 255
    omega
  unfold handleAck
  by_cases hw : ackAccepted (num m) w = true
  · rw [if_pos hw]
    have hw10 : w ≤ 10 := by
      simp only [ackAccepted, decide_eq_true_eq] at hw
      exact hw.2.2
    have hcur := h.window.acked_le
    -- the loop goes from the last acknowledgement to the larger of the two
    generalize htarget : (if p.lastAckReceived < num m then num m else p.lastAckReceived) = target
    have h1 : p.lastAckReceived ≤ target := by
      rw [← htarget]
      split <;> omega
    have h2 : target ≤ sent.length := by
      rw [← htarget]
      split <;> omega
    have h3 : target ≤ 255 := by
      have := h.last_le
      rw [← htarget]
      split <;> omega
    have hwin : SendWindow { p.toSendSide with swnd := { p.swnd with size := w } } sent p.lastAckReceived :=
      h.window.of_eq rfl rfl rfl
    obtain ⟨s', hloop, hw', hsize, hmx⟩ := hwin.ackLoop h.start_eq h1 h2
    refine ⟨{ p.withSend { s' with swnd := { s'.swnd with startSequence := num target } } with lastAckReceived := target },
      by simp only [hloop], ⟨hw'.of_eq rfl rfl rfl, rfl, hmx.trans h.next_eq, h3, ?_⟩, rfl⟩
    exact hsize.trans_le hw10
  · rw [if_neg hw]
    exact ⟨p, rfl, h, rfl⟩

/-! ## The outstanding numbers -/

/-- How many numbers lie cyclically from `swnd.start_sequence` up to, but not including, `max_seq_number_yet`. -/
def outstandingCount (s : SendSide) : Nat := Ring.dist 255 s.swnd.startSequence s.maxSeqNumberYet

/-- `q` is one of them. -/
def Outstanding (s : SendSide) (q : Nat) : Prop :=
  1 ≤ q ∧ q ≤ 255 ∧ Ring.dist 255 s.swnd.startSequence q < outstandingCount s

namespace SendInv

variable {s : SendSide} {sent : List (List UInt8)} {lastAck : Nat}

theorem count_eq (h : SendInv s sent lastAck) : outstandingCount s = sent.length - lastAck := by
  have := h.window.length_le
  unfold outstandingCount
  rw [h.start_eq, h.next_eq]
  exact Ring.dist_num h.window.acked_le (by omega)

theorem count_le (h : SendInv s sent lastAck) : outstandingCount s ≤ 10 := by
  have := h.window.length_le
  rw [h.count_eq]
  omega

/-- The outstanding numbers are the numbers of the messages held. -/
theorem outstanding_iff (h : SendInv s sent lastAck) (q : Nat) :
    Outstanding s q ↔ ∃ m, lastAck ≤ m ∧ m < sent.length ∧ num m = q := by
  have hlen := h.window.length_le
  have hc := h.count_eq
  constructor
  · rintro ⟨h1, h2, h3⟩
    rw [h.start_eq, hc] at h3
    exact ⟨lastAck + Ring.dist 255 (num lastAck) q, by omega, by omega, Ring.num_add_dist h1 h2⟩
  · rintro ⟨m, h1, h2, rfl⟩
    refine ⟨Ring.num_pos, Ring.num_le (by decide), ?_⟩
    rw [h.start_eq, hc, Ring.dist_num h1 (by omega)]
    omega

/-- `index_seq_num` maps the outstanding numbers one-to-one onto the slots in use. -/
theorem bijOn (h : SendInv s sent lastAck) :
    Set.BijOn s.swnd.indexSeqNum {q | Outstanding s q} {i | ∃ j : Slot, s.sbuffFree j = false ∧ i = (j.val : Int)} := by
  refine ⟨?_, ?_, ?_⟩
  · intro q hq
    obtain ⟨m, h1, h2, rfl⟩ := (h.outstanding_iff q).1 hq
    obtain ⟨i, hi, hf, -⟩ := h.window.slotOf m h2 h1
    exact ⟨i, hf, hi⟩
  · intro q hq q' hq' heq
    obtain ⟨m, h1, h2, rfl⟩ := (h.outstanding_iff q).1 hq
    obtain ⟨m', h1', h2', rfl⟩ := (h.outstanding_iff q').1 hq'
    rw [h.window.distinct m m' h1 h2 h1' h2' heq]
  · rintro i ⟨j, hj, rfl⟩
    obtain ⟨m, h1, h2, h3⟩ := h.window.used j hj
    exact ⟨num m, (h.outstanding_iff _).2 ⟨m, h1, h2, rfl⟩, h3⟩

end SendInv

/-! ## Every run -/

/-- The events of a socket that only sends: calls of `k_sendto`, by anyone and accepted or refused, and acknowledgements, with a
window of at most 10, of a number that has been queued. -/
def SendEvent (l : Life) : Event → Prop
  | .sendto _ _ _ => True
  | .datagram d _ => d.isAckFrame = true ∧ d.buffer 5 = 35 ∧ (d.buffer 1).toNat ≤ 10 ∧
      ∃ m, m < l.sent.length ∧ num m = (d.buffer 0).toNat
  | _ => False

/-- The invariant of the sending side of a life. -/
def Life.SendOk (l : Life) : Prop := SendInv l.entry.toSendSide l.sent l.entry.lastAckReceived

theorem Life.sendOk_begin {e : Entry} (h : e.toProtocol = freshProtocol) : (Life.begin e).SendOk := by
  show SendInv e.toProtocol.toSendSide [] e.toProtocol.lastAckReceived
  rw [h]
  exact sendInv_fresh

/-- A call of `k_sendto` keeps the invariant. -/
theorem Life.SendOk.sendto {l : Life} (h : l.SendOk) (self : Nat) (junk : Message) (message : List UInt8) :
    ∃ l', l.after (.sendto self junk message) = some l' ∧ l'.SendOk := by
  refine ⟨_, rfl, ?_⟩
  show SendInv (kSendto l.entry self junk message).2.toSendSide
    (l.sent ++ if (kSendto l.entry self junk message).1.isSome then [message] else [])
    (kSendto l.entry self junk message).2.lastAckReceived
  cases hc : (kSendto l.entry self junk message).1 with
  | none =>
    rw [kSendto_none hc, Option.isSome_none, if_neg Bool.false_ne_true, List.append_nil]
    exact h
  | some n =>
    obtain ⟨s, hs, he⟩ := kSendto_some hc
    rw [he]
    simpa using h.queue hs

/-- An acknowledgement of a number that has been queued keeps the invariant. -/
theorem Life.SendOk.acked {l : Life} (h : l.SendOk) {d : Datagram} (dropped : Bool) (hev : SendEvent l (.datagram d dropped)) :
    ∃ l', l.after (.datagram d dropped) = some l' ∧ l'.SendOk := by
  obtain ⟨hd, h5, -, hq⟩ := hev
  obtain ⟨p', hp, hinv, -⟩ := SendInv.ack (w := (d.buffer 1).toNat) h hq
  refine ⟨{ entry := l.entry.withProtocol p', sent := l.sent ++ [] }, Life.after_eq_some.2 ⟨_, [], ?_, rfl⟩, ?_⟩
  · simp [Entry.step, threadR_ack hd h5, hp]
  · show SendInv p'.toSendSide (l.sent ++ []) p'.lastAckReceived
    rw [List.append_nil]
    exact hinv

/-- An event of a socket that only sends can be handled, and keeps the invariant. -/
theorem sending_step (l : Life) (ev : Event) (h : l.SendOk) (hev : SendEvent l ev) :
    ∃ l', l.after ev = some l' ∧ l'.SendOk := by
  cases ev with
  | sendto self junk message => exact h.sendto self junk message
  | datagram d dropped => exact h.acked dropped hev
  | _ => exact hev.elim

/-- The representation invariant of a socket that only sends. From the state `init_ksocket` writes, every sequence of `k_sendto`
calls and of acknowledgements of queued numbers is handled without an index outside the slots, and ends in a state where at most
10 numbers are outstanding, `index_seq_num` maps them one-to-one onto the slots in use, the slot of each holds what `k_sendto`
wrote for the message last queued under that number, and a refused `k_sendto` changes nothing. -/
theorem sender_representation (e : Entry) (hfresh : e.toProtocol = freshProtocol) (es : List Event)
    (hes : Meets Life.after SendEvent (Life.begin e) es) :
    ∃ l, exec Life.after (Life.begin e) es = some l ∧
      outstandingCount l.entry.toSendSide ≤ 10 ∧
      Set.BijOn l.entry.swnd.indexSeqNum {q | Outstanding l.entry.toSendSide q}
        {i | ∃ j : Slot, l.entry.sbuffFree j = false ∧ i = (j.val : Int)} ∧
      (∀ q, Outstanding l.entry.toSendSide q → ∃ m, ∃ hm : m < l.sent.length, ∃ i : Slot,
        num m = q ∧ (∀ m', m < m' → m' < l.sent.length → num m' ≠ q) ∧
        l.entry.swnd.indexSeqNum q = (i.val : Int) ∧ HoldsFrame (l.entry.sendBuffer i) q i l.sent[m]) ∧
      ∀ self junk message, (kSendto l.entry self junk message).1 = none → (kSendto l.entry self junk message).2 = l.entry := by
  obtain ⟨l, hx, hinv⟩ := exec_total sending_step (Life.sendOk_begin hfresh) hes
  refine ⟨l, hx, SendInv.count_le hinv, SendInv.bijOn hinv, fun q hq => ?_, fun _ _ _ h => kSendto_none h⟩
  obtain ⟨m, h1, h2, rfl⟩ := (SendInv.outstanding_iff hinv q).1 hq
  obtain ⟨i, hi, -, hframe⟩ := hinv.window.slotOf m h2 h1
  have hlen := hinv.window.length_le
  exact ⟨m, h2, i, rfl, fun m' h3 h4 => (Ring.num_ne h3 (by omega)).symm, hi, hframe⟩

/-- `sender_representation` on two messages, the first of them acknowledged, twice. -/
theorem sender_representation_four :
    ∃ l, exec Life.after (Life.begin boundEntry)
        [.sendto 7 (fun _ => 0) [104, 105], .sendto 7 (fun _ => 0) [33], .datagram (ackDatagram 1 9) false,
          .datagram (ackDatagram 1 9) false] = some l ∧ outstandingCount l.entry.toSendSide ≤ 10 := by
  obtain ⟨l, hx, hcount, -⟩ := sender_representation boundEntry rfl
    [.sendto 7 (fun _ => 0) [104, 105], .sendto 7 (fun _ => 0) [33], .datagram (ackDatagram 1 9) false,
      .datagram (ackDatagram 1 9) false] (by
      refine ⟨trivial, fun l1 h1 => ⟨trivial, fun l2 h2 => ?_⟩⟩
      obtain rfl := Option.some.inj h1
      obtain rfl := Option.some.inj h2
      refine ⟨⟨rfl, rfl, by decide, 0, by decide, rfl⟩, fun l3 h3 => ⟨⟨rfl, rfl, by decide, 0, ?_, rfl⟩, fun _ _ => trivial⟩⟩
      obtain rfl := Option.some.inj h3
      decide)
  exact ⟨l, hx, hcount⟩

end NetLabs.Ktp
