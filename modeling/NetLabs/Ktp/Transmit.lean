import Mathlib.Data.Nat.Count
import NetLabs.Ktp.Acks
import NetLabs.Ktp.WakeUp

/-!
# What thread S puts on the wire

Beside the entry, a run keeps the numbers that have been transmitted since they were last queued; `send_time` says the same
(`WireInv`). A pass for new messages ends at `(start + size) % 255 + 1`, one number after the window, or when it has sent `size`
messages. So the number right after the window is looked at unless every message of the window is sent in this pass
(`sweep_sendNew_sends`), and is sent when it waits and some message of the window has been sent before.
-/

namespace NetLabs.Ktp

open Function Loop Machine

/-- The sequence number `d` numbers after the start of the window. -/
def nthNumber (s : SendSide) (d : Nat) : Nat := next^[d] s.swnd.startSequence

/-- A slot is noted for the number, and has not been sent. -/
def unsentAt (s : SendSide) (q : Nat) : Bool :=
  match slot? (s.swnd.indexSeqNum q) with
  | .ok i => decide (s.sendTime i = -1)
  | .error _ => false

/-! ## A pass and the times it writes -/

/-- What a pass has done to `send_time`: a slot whose message has been sent is stamped, every other slot is as it was. -/
structure Logged (s : SendSide) (sent : List (List UInt8)) (lastAck : Nat) (x : Sweep) : Prop where
  side : ∃ t, x.side = { s with sendTime := t }
  times : ∀ m, lastAck ≤ m → m < sent.length → ∀ i : Slot, s.swnd.indexSeqNum (num m) = (i.val : Int) →
    (x.side.sendTime i = -1 ↔ s.sendTime i = -1 ∧ ∀ d ∈ x.out, seqByte d.buffer ≠ num m)
  free : ∀ i, s.sbuffFree i = true → x.side.sendTime i = s.sendTime i

section Passes

variable {s : SendSide} {sent : List (List UInt8)} {lastAck : Nat} {stamp : Nat → Int} {x x' : Sweep} {i : Slot} {q m : Nat}

theorem logged_begin (s : SendSide) (sent : List (List UInt8)) (lastAck k : Nat) :
    Logged s sent lastAck { side := s, k := k, cnt := 0, out := [] } where
  side := ⟨s.sendTime, rfl⟩
  times := by simp
  free _ _ := rfl

/-- The slot noted for a number that is noted holds an outstanding message under that number. -/
theorem SendInv.noted_slot (h : SendInv s sent lastAck) (hi : slot? (s.swnd.indexSeqNum q) = .ok i) :
    ∃ m, lastAck ≤ m ∧ m < sent.length ∧ num m = q ∧ s.swnd.indexSeqNum q = (i.val : Int) ∧ s.sbuffFree i = false ∧
      seqByte (s.sendBuffer i) = q := by
  have hq : s.swnd.indexSeqNum q = (i.val : Int) := slot?_eq_ok.1 hi
  obtain ⟨m, h1, h2, rfl⟩ := h.window.of_noted (q := q) (by omega)
  obtain ⟨j, hj, hfree, hframe⟩ := h.window.slotOf m h2 h1
  obtain rfl : j = i := Fin.ext (by omega)
  exact ⟨m, h1, h2, rfl, hj, hfree, hframe.seqByte_eq (Ring.num_le (by decide))⟩

/-- One more message sent, at a time that is not -1. -/
theorem Logged.transmit (hx : Logged s sent lastAck x) (h : SendInv s sent lastAck)
    (hi : slot? (x.side.swnd.indexSeqNum q) = .ok i) {now : Int} (hnow : now ≠ -1) : Logged s sent lastAck (x.transmit i now) := by
  obtain ⟨t, ht⟩ := hx.side
  have hi' : slot? (s.swnd.indexSeqNum q) = .ok i := by
    rw [ht] at hi
    exact hi
  obtain ⟨n, h1, h2, rfl, hn, hused, hbyte⟩ := h.noted_slot hi'
  refine ⟨⟨update t i now, by simp [Sweep.transmit, ht]⟩, ?_, ?_⟩
  · intro m hm hm' j hj
    have hbuffer : x.side.sendBuffer = s.sendBuffer := by rw [ht]
    simp only [Sweep.transmit, List.mem_append, List.mem_singleton]
    by_cases hji : j = i
    · subst hji
      obtain rfl : m = n := h.window.distinct m n hm hm' h1 h2 (hj.trans hn.symm)
      rw [update_self]
      refine ⟨fun hc => absurd hc hnow, fun hc => absurd ?_ (hc.2 _ (Or.inr rfl))⟩
      rw [hbuffer]
      exact hbyte
    · have hne : num n ≠ num m := by
        intro he
        have hsame : ((i : Nat) : Int) = (j : Nat) := by rw [← hn, ← hj, he]
        exact hji (Fin.ext (by omega))
      rw [update_of_ne hji, hx.times m hm hm' j hj]
      refine and_congr_right fun _ => ⟨fun hall d hd => ?_, fun hall d hd => hall d (Or.inl hd)⟩
      rcases hd with hd | rfl
      · exact hall d hd
      · show seqByte (x.side.sendBuffer i) ≠ num m
        rw [hbuffer, hbyte]
        exact hne
  · intro j hj
    have hji : j ≠ i := by
      rintro rfl
      rw [hj] at hused
      cases hused
    simpa [Sweep.transmit, hji] using hx.free j hj

/-- Both loop bodies keep the log, when the clock never shows -1. -/
theorem Logged.resend (hx : Logged s sent lastAck x) (h : SendInv s sent lastAck) (hstamp : ∀ k, 0 ≤ stamp k)
    (hs : resend stamp x = .ok x') : Logged s sent lastAck x' := by
  unfold Ktp.resend at hs
  split at hs
  · cases hs
  · rename_i i hi
    cases hs
    have := hstamp x.k
    exact hx.transmit h hi (by omega)

theorem Logged.sendNew (hx : Logged s sent lastAck x) (h : SendInv s sent lastAck) (hstamp : ∀ k, 0 ≤ stamp k)
    (hs : sendNew stamp x = .ok x') : Logged s sent lastAck x' := by
  unfold Ktp.sendNew at hs
  split at hs
  · split at hs
    · cases hs
    · rename_i i hi
      split at hs
      · cases hs
        have := hstamp x.k
        exact hx.transmit h hi (by omega)
      · cases hs
        exact ⟨hx.side, hx.times, hx.free⟩
  · cases hs
    exact ⟨hx.side, hx.times, hx.free⟩

/-- What a pass has done when it ends. -/
theorem sweep_logged {body : Sweep → Except Fault Sweep} {s' : SendSide} {out : List Datagram}
    (hbody : ∀ x x', Logged s sent lastAck x → body x = .ok x' → Logged s sent lastAck x')
    (hs : sweep body s = .ok (s', out)) : ∃ k cnt, Logged s sent lastAck { side := s', k := k, cnt := cnt, out := out } := by
  unfold sweep at hs
  split at hs
  · cases hs
  · rename_i x hx
    cases hs
    exact ⟨x.k, x.cnt, (loopWhile_keeps (Logged s sent lastAck) (fun x x' hi _ hb => hbody x x' hi hb)
      (logged_begin s sent lastAck _) hx).1⟩

/-- What a wake-up has done when it ends. -/
theorem wakeUp_logged {scan : Slot → Int} {s' : SendSide} {out : List Datagram} (h : SendInv s sent lastAck)
    (hstamp : ∀ k, 0 ≤ stamp k) (hw : wakeUp s scan stamp = .ok (s', out)) :
    ∃ k cnt, Logged s sent lastAck { side := s', k := k, cnt := cnt, out := out } := by
  unfold wakeUp at hw
  split at hw <;> split at hw
  · cases hw
    exact ⟨0, 0, logged_begin s sent lastAck 0⟩
  · exact sweep_logged (fun x x' hx hb => hx.resend h hstamp hb) hw
  · cases hw
    exact ⟨0, 0, logged_begin s sent lastAck 0⟩
  · exact sweep_logged (fun x x' hx hb => hx.sendNew h hstamp hb) hw

end Passes

/-! ## The pass for new messages -/

section NewMessages

variable {s : SendSide} {sent : List (List UInt8)} {lastAck : Nat} (stamp : Nat → Int)

/-- The numbers after the start of the window are the numbers of the messages from the first one held on. -/
theorem SendInv.nthNumber_eq (h : SendInv s sent lastAck) (d : Nat) : nthNumber s d = num (lastAck + d) := by
  unfold nthNumber
  rw [h.start_eq]
  induction d with
  | zero => rfl
  | succ d ih => rw [iterate_succ_apply', ih, next, Ring.next_num, Nat.add_assoc]

/-- A number that is unsent is the number of a message held. -/
theorem SendInv.of_unsentAt (h : SendInv s sent lastAck) {q : Nat} (hq : unsentAt s q = true) :
    ∃ m, ∃ i : Slot, lastAck ≤ m ∧ m < sent.length ∧ num m = q ∧ s.swnd.indexSeqNum q = (i.val : Int) ∧ s.sendTime i = -1 := by
  unfold unsentAt at hq
  split at hq
  · rename_i i hi
    obtain ⟨m, h1, h2, hm, hn, -⟩ := h.noted_slot hi
    exact ⟨m, i, h1, h2, hm, hn, of_decide_eq_true hq⟩
  · cases hq

/-- One iteration of the loop for new messages: what is unsent is sent. -/
theorem sendNew_eq (h : SendInv s sent lastAck) {x : Sweep} (hx : Logged s sent lastAck x) :
    (unsentAt x.side x.k = true ∧ ∃ i, slot? (x.side.swnd.indexSeqNum x.k) = .ok i ∧
        seqByte (x.side.sendBuffer i) = x.k ∧ sendNew stamp x = .ok (x.transmit i (stamp x.k))) ∨
      (unsentAt x.side x.k = false ∧ sendNew stamp x = .ok { x with k := next x.k }) := by
  obtain ⟨t, ht⟩ := hx.side
  have hindex : x.side.swnd.indexSeqNum = s.swnd.indexSeqNum := by rw [ht]
  have hbuffer : x.side.sendBuffer = s.sendBuffer := by rw [ht]
  unfold sendNew unsentAt
  by_cases hnoted : 0 ≤ x.side.swnd.indexSeqNum x.k
  · rw [if_pos hnoted]
    obtain ⟨m, h1, h2, hm⟩ := h.window.of_noted (q := x.k) (by rw [← hindex]; omega)
    obtain ⟨i, hi, -⟩ := h.window.slotOf m h2 h1
    have hslot : slot? (x.side.swnd.indexSeqNum x.k) = .ok i := by rw [hindex, ← hm, hi, slot?_coe]
    obtain ⟨-, -, -, -, -, -, hbyte⟩ := h.noted_slot (i := i) (by rw [← hindex]; exact hslot)
    rw [hslot]
    by_cases htime : x.side.sendTime i = -1
    · left
      exact ⟨decide_eq_true htime, i, rfl, by rw [hbuffer]; exact hbyte, if_pos htime⟩
    · right
      exact ⟨decide_eq_false htime, if_neg htime⟩
  · right
    rw [if_neg hnoted]
    have hslot : slot? (x.side.swnd.indexSeqNum x.k) = .error (.badIndex (x.side.swnd.indexSeqNum x.k)) := by
      unfold slot?
      rw [dif_neg fun hz => hnoted hz.1]
    rw [hslot]
    exact ⟨rfl, rfl⟩

/-- Sending another number leaves a number unsent. -/
theorem unsentAt_transmit (h : SendInv s sent lastAck) {x : Sweep} (hx : Logged s sent lastAck x) {i : Slot} {q k : Nat}
    (hi : slot? (x.side.swnd.indexSeqNum k) = .ok i) (hne : q ≠ k) (now : Int) :
    unsentAt (x.transmit i now).side q = unsentAt x.side q := by
  obtain ⟨t, ht⟩ := hx.side
  have hindex : x.side.swnd.indexSeqNum = s.swnd.indexSeqNum := by rw [ht]
  obtain ⟨n, h1, h2, rfl, hn, -⟩ := h.noted_slot (i := i) (q := k) (by rw [← hindex]; exact hi)
  show (match slot? (x.side.swnd.indexSeqNum q) with
    | .ok j => decide (update x.side.sendTime i now j = -1)
    | .error _ => false) = unsentAt x.side q
  unfold unsentAt
  cases hj : slot? (x.side.swnd.indexSeqNum q) with
  | error f => rfl
  | ok j =>
    obtain ⟨m, h1', h2', rfl, hm, -⟩ := h.noted_slot (i := j) (q := q) (by rw [← hindex]; exact hj)
    have hji : j ≠ i := by
      rintro rfl
      obtain rfl := h.window.distinct m n h1' h2' h1 h2 (hm.trans hn.symm)
      exact hne rfl
    simp only [update_of_ne hji]

/-- How far a pass for new messages has come: it has looked at `d` numbers and sent the unsent ones among them, and has not changed
what it still has to look at. -/
structure NewPass (s : SendSide) (sent : List (List UInt8)) (lastAck d : Nat) (x : Sweep) : Prop where
  log : Logged s sent lastAck x
  d_le : d ≤ s.swnd.size + 1
  k_eq : x.k = num (lastAck + d)
  cnt_eq : x.cnt = Nat.count (fun j => unsentAt s (num (lastAck + j))) d
  sent_iff : ∀ q, (∃ o ∈ x.out, seqByte o.buffer = q) ↔ ∃ j < d, unsentAt s (num (lastAck + j)) = true ∧ q = num (lastAck + j)
  ahead : ∀ j, d ≤ j → j ≤ s.swnd.size → unsentAt x.side (num (lastAck + j)) = unsentAt s (num (lastAck + j))
  past : d ≤ s.swnd.size ∨ Nat.count (fun j => unsentAt s (num (lastAck + j))) s.swnd.size ≠ s.swnd.size

/-- One more number looked at. -/
theorem NewPass.step {d : Nat} {x : Sweep} (hx : NewPass s sent lastAck d x) (h : SendInv s sent lastAck)
    (hstamp : ∀ k, 0 ≤ stamp k) (ht : inSweep s.swnd.startSequence s.swnd.size x = true) :
    ∃ x', sendNew stamp x = .ok x' ∧ NewPass s sent lastAck (d + 1) x' := by
  have hsize := h.size_le
  simp only [inSweep, sweep_bound h.start_eq, Bool.and_eq_true, bne_iff_ne] at ht
  have hd : d ≤ s.swnd.size := by
    have hle := hx.d_le
    rcases Nat.eq_or_lt_of_le hle with rfl | hlt
    · exact absurd hx.k_eq ht.1
    · omega
  have hpast : d + 1 ≤ s.swnd.size ∨ Nat.count (fun j => unsentAt s (num (lastAck + j))) s.swnd.size ≠ s.swnd.size := by
    rcases Nat.eq_or_lt_of_le hd with rfl | hlt
    · right
      rw [← hx.cnt_eq]
      exact ht.2
    · exact Or.inl hlt
  have hnext : next x.k = num (lastAck + (d + 1)) := by rw [hx.k_eq, next, Ring.next_num, Nat.add_assoc]
  have hhere : unsentAt x.side x.k = unsentAt s (num (lastAck + d)) := by
    rw [hx.k_eq]
    exact hx.ahead d (Nat.le_refl d) hd
  rcases sendNew_eq stamp h hx.log with ⟨hu, i, hi, hbyte, hs⟩ | ⟨hu, hs⟩
  · rw [hhere] at hu
    refine ⟨_, hs, hx.log.sendNew h hstamp hs, by omega, hnext, ?_, fun q => ?_, fun j hj hj' => ?_, hpast⟩
    · simp only [Sweep.transmit, Nat.count_succ, hu, ↓reduceIte, hx.cnt_eq]
    · simp only [Sweep.transmit, List.mem_append, List.mem_singleton, or_and_right, exists_or, exists_eq_left, hx.sent_iff q,
        Nat.exists_lt_succ_right, hu, true_and]
      show _ ∨ seqByte (x.side.sendBuffer i) = q ↔ _
      rw [hbyte, hx.k_eq, eq_comm (a := q)]
    · have hne : num (lastAck + j) ≠ x.k := by
        rw [hx.k_eq]
        exact (Ring.num_ne (by omega) (by omega)).symm
      rw [unsentAt_transmit h hx.log hi hne]
      exact hx.ahead j (by omega) hj'
  · rw [hhere] at hu
    refine ⟨_, hs, hx.log.sendNew h hstamp hs, by omega, hnext, ?_, fun q => ?_, fun j hj hj' => ?_, hpast⟩
    · simp only [Nat.count_succ, hu, Bool.false_eq_true, ↓reduceIte, hx.cnt_eq, Nat.add_zero]
    · simp only [hx.sent_iff q, Nat.exists_lt_succ_right, hu, Bool.false_eq_true, false_and, or_false]
    · exact hx.ahead j (by omega) hj'

/-- Where a pass for new messages ends: after the numbers of the window, all of them unsent, or after one more, when some of them was
not. -/
theorem NewPass.ended {d : Nat} {x : Sweep} (hx : NewPass s sent lastAck d x) (h : SendInv s sent lastAck)
    (hend : inSweep s.swnd.startSequence s.swnd.size x = false) :
    d = s.swnd.size ∧ (∀ j < s.swnd.size, unsentAt s (num (lastAck + j)) = true) ∨
      d = s.swnd.size + 1 ∧ ∃ j < s.swnd.size, unsentAt s (num (lastAck + j)) = false := by
  have hsize := h.size_le
  have hle := hx.d_le
  have hcount := Nat.count_le (p := fun j => unsentAt s (num (lastAck + j)) = true) (n := d)
  have hcnt := hx.cnt_eq
  -- the number after the last one looked at is past the bound, or the counter has reached the size
  have hwhy : d = s.swnd.size + 1 ∨ x.cnt = s.swnd.size := by
    by_contra hneither
    rw [not_or] at hneither
    have hk : x.k ≠ num (lastAck + s.swnd.size + 1) := by
      rw [hx.k_eq]
      exact Ring.num_ne (by omega) (by omega)
    simp [inSweep, sweep_bound h.start_eq, hk, hneither.2] at hend
  rcases hx.past with hin | hnot
  · left
    obtain rfl : d = s.swnd.size := by omega
    exact ⟨rfl, Nat.count_iff_forall.1 (by omega)⟩
  · right
    refine ⟨?_, ?_⟩
    · rcases hwhy with hd | hfull
      · exact hd
      · by_contra hne
        obtain rfl : d = s.swnd.size := by omega
        exact hnot (by omega)
    · by_contra hall
      push Not at hall
      exact hnot (Nat.count_iff_forall.2 fun j hj => by simpa using hall j hj)

/-- What the pass for new messages sends: the unsent numbers of the window when all of them are unsent, and otherwise those and the
number after the window, if that is unsent. -/
theorem sweep_sendNew_sends (h : SendInv s sent lastAck) (hstamp : ∀ k, 0 ≤ stamp k) :
    ∃ s' out d, sweep (sendNew stamp) s = .ok (s', out) ∧
      (∀ q, (∃ o ∈ out, seqByte o.buffer = q) ↔ ∃ j < d, unsentAt s (nthNumber s j) = true ∧ q = nthNumber s j) ∧
      (d = s.swnd.size ∧ (∀ j < s.swnd.size, unsentAt s (nthNumber s j) = true) ∨
        d = s.swnd.size + 1 ∧ ∃ j < s.swnd.size, unsentAt s (nthNumber s j) = false) := by
  have hsize := h.size_le
  let left : Sweep → Nat := fun x => Ring.dist 255 x.k (num (lastAck + s.swnd.size + 1))
  have hbody : ∀ x, (∃ d, NewPass s sent lastAck d x) → inSweep s.swnd.startSequence s.swnd.size x = true →
      ∃ x', sendNew stamp x = .ok x' ∧ (∃ d, NewPass s sent lastAck d x') ∧ left x' < left x := by
    rintro x ⟨d, hx⟩ ht
    obtain ⟨x', hs, hx'⟩ := hx.step stamp h hstamp ht
    have hle := hx'.d_le
    refine ⟨x', hs, ⟨d + 1, hx'⟩, ?_⟩
    show Ring.dist 255 x'.k _ < Ring.dist 255 x.k _
    rw [hx'.k_eq, hx.k_eq, Ring.dist_num (by omega) (by omega), Ring.dist_num (by omega) (by omega)]
    omega
  have hfuel : left { side := s, k := s.swnd.startSequence, cnt := 0, out := [] } < 256 :=
    Nat.lt_succ_of_lt (Ring.dist_lt (by decide) _ _)
  have hbegin : NewPass s sent lastAck 0 { side := s, k := s.swnd.startSequence, cnt := 0, out := [] } :=
    ⟨logged_begin s sent lastAck _, Nat.zero_le _, h.start_eq, rfl, by simp, fun _ _ _ => rfl, Or.inl (Nat.zero_le _)⟩
  obtain ⟨x, hx, ⟨d, hpass⟩, hend⟩ := loopWhile_total (fun x => ∃ d, NewPass s sent lastAck d x) left hbody (o := Fault.endless)
    ⟨0, hbegin⟩ hfuel
  refine ⟨x.side, x.out, d, by unfold sweep; rw [hx], fun q => ?_, ?_⟩
  · simp only [h.nthNumber_eq]
    exact hpass.sent_iff q
  · simp only [h.nthNumber_eq]
    exact hpass.ended h hend

/-- If the number after the window is outstanding, so are those in it. -/
theorem SendInv.outstanding_before (h : SendInv s sent lastAck) {d : Nat} (hd : d ≤ s.swnd.size)
    (hq : Outstanding s (nthNumber s s.swnd.size)) : Outstanding s (nthNumber s d) := by
  have hsize := h.size_le
  have hlen := h.window.length_le
  rw [h.nthNumber_eq, h.outstanding_iff] at hq ⊢
  obtain ⟨m, h1, h2, hm⟩ := hq
  have hm' : m = lastAck + s.swnd.size := by
    rcases Nat.le_total m (lastAck + s.swnd.size) with hle | hle
    · exact Ring.num_inj hm hle (by omega)
    · exact (Ring.num_inj hm.symm hle (by omega)).symm
  exact ⟨lastAck + d, Nat.le_add_right _ _, by omega, rfl⟩

end NewMessages

/-! ## Runs that remember what has been transmitted -/

/-- A life and, for each number, whether it has been transmitted since it was last queued. -/
structure Wire where
  life : Life
  onWire : Nat → Bool

/-- What has been transmitted after an event that has sent `out`. -/
def onWireAfter (e : Entry) (onWire : Nat → Bool) (out : List Datagram) : Event → Nat → Bool
  | .sendto self junk message =>
    if (kSendto e self junk message).1.isSome then update onWire e.maxSeqNumberYet false else onWire
  | .wakeUp _ _ => fun q => onWire q || out.any fun d => seqByte d.buffer == q
  | _ => onWire

/-- One event. -/
def Wire.step (x : Wire) (ev : Event) : Option Wire :=
  match x.life.entry.step ev with
  | .error _ => none
  | .ok (e, out) =>
    some { life := { entry := e, sent := x.life.sent ++ x.life.entry.queued ev }
           onWire := onWireAfter x.life.entry x.onWire out ev }

/-- The beginning: nothing has been transmitted. -/
def Wire.begin (e : Entry) : Wire := { life := Life.begin e, onWire := fun _ => false }

/-- The number is queued and has not been transmitted. -/
def Wire.Waiting (x : Wire) (q : Nat) : Prop := Outstanding x.life.entry.toSendSide q ∧ x.onWire q = false

/-- The events of a socket that only sends, where the clock never shows a time before 0. -/
def ClockedEvent (l : Life) : Event → Prop
  | .wakeUp _ stamp => ∀ k, 0 ≤ stamp k
  | ev => SendEvent l ev

/-- A wake-up transmits exactly the numbers that wait among the first `swnd.size` from the start of the window. -/
def RespectsWindow (x : Wire) (scan : Slot → Int) (stamp : Nat → Int) : Prop :=
  ∃ e out, threadS x.life.entry scan stamp = .ok (e, out) ∧
    ∀ q, (∃ o ∈ out, seqByte o.buffer = q) ↔
      x.Waiting q ∧ ∃ d < x.life.entry.swnd.size, q = nthNumber x.life.entry.toSendSide d

/-- If the number right after the window waits, nothing in the window has been transmitted yet. -/
def NothingBeyond (x : Wire) : Prop :=
  x.Waiting (nthNumber x.life.entry.toSendSide x.life.entry.swnd.size) →
    ∀ d < x.life.entry.swnd.size, x.onWire (nthNumber x.life.entry.toSendSide d) = false

/-- The entry is in use, a message held has a time in `send_time` exactly when it has been transmitted, and a free slot has none. -/
structure WireInv (x : Wire) : Prop where
  ok : x.life.SendOk
  inUse : x.life.entry.isFree = 0
  times : ∀ m, x.life.entry.lastAckReceived ≤ m → m < x.life.sent.length → ∀ i : Slot,
    x.life.entry.swnd.indexSeqNum (num m) = (i.val : Int) → (x.life.entry.sendTime i = -1 ↔ x.onWire (num m) = false)
  free : ∀ i, x.life.entry.sbuffFree i = true → x.life.entry.sendTime i = -1

theorem wireInv_begin {e : Entry} (h : e.toProtocol = freshProtocol) (huse : e.isFree = 0) : WireInv (Wire.begin e) := by
  obtain ⟨c, p⟩ := e
  obtain rfl : p = freshProtocol := h
  refine ⟨sendInv_fresh, huse, ?_, fun _ _ => rfl⟩
  intro m _ hm
  exact absurd hm (Nat.not_lt_zero m)

section WireSteps

variable {x x' : Wire}

theorem Wire.step_some {ev : Event} (h : x.step ev = some x') :
    ∃ e out, x.life.entry.step ev = .ok (e, out) ∧ x'.life = { entry := e, sent := x.life.sent ++ x.life.entry.queued ev } ∧
      x'.onWire = onWireAfter x.life.entry x.onWire out ev := by
  unfold Wire.step at h
  split at h
  · cases h
  · rename_i e out he
    cases h
    exact ⟨e, out, he, rfl, rfl⟩

/-- The life takes the same step. -/
theorem Wire.step_life {ev : Event} (h : x.step ev = some x') : x.life.after ev = some x'.life := by
  obtain ⟨e, out, he, hl, -⟩ := Wire.step_some h
  exact Life.after_eq_some.2 ⟨e, out, he, hl⟩

/-- `k_sendto` keeps the invariant: the number of a message it accepts is on the wire no more. -/
theorem WireInv.sendto {self : Nat} {junk : Message} {message : List UInt8} (h : WireInv x) (hok : x'.life.SendOk)
    (hs : x.step (.sendto self junk message) = some x') : WireInv x' := by
  obtain ⟨e, out, he, hl, hw⟩ := Wire.step_some hs
  simp only [Entry.step] at he
  cases he
  cases hc : (kSendto x.life.entry self junk message).1 with
  | none =>
    have hlife : x'.life = x.life := by
      rw [hl, kSendto_none hc]
      simp [Entry.queued, hc]
    have hwire : x'.onWire = x.onWire := by
      rw [hw]
      simp [onWireAfter, hc]
    exact ⟨hok, by rw [hlife]; exact h.inUse, by rw [hlife, hwire]; exact h.times, by rw [hlife]; exact h.free⟩
  | some n =>
    obtain ⟨s, hq, hentry⟩ := kSendto_some hc
    obtain ⟨-, i, hi, rfl⟩ := queueMessage_some hq
    have hlife : x'.life = { entry := x.life.entry.withProtocol (x.life.entry.toProtocol.withSend
        (fillSlot x.life.entry.toSendSide i junk message)), sent := x.life.sent ++ [message] } := by
      rw [hl, hentry]
      simp [Entry.queued, hc]
    have hwire : x'.onWire = update x.onWire (num x.life.sent.length) false := by
      rw [hw, ← h.ok.next_eq]
      simp [onWireAfter, hc]
    refine ⟨hok, by rw [hlife]; exact h.inUse, ?_, ?_⟩
    · rw [hlife, hwire]
      intro m h1 h2 j hj
      simp only [List.length_append, List.length_singleton] at h2
      simp only [Entry.withProtocol_toProtocol, Protocol.withSend_toSendSide, fillSlot, h.ok.next_eq] at hj ⊢
      by_cases hm : m < x.life.sent.length
      · have hne := h.ok.window.num_ne_next h1 hm
        rw [update_of_ne hne] at hj ⊢
        exact h.times m h1 hm j hj
      · obtain rfl : m = x.life.sent.length := by omega
        rw [update_self] at hj ⊢
        obtain rfl : j = i := Fin.ext (by omega)
        simp [h.free j hi]
    · rw [hlife]
      intro j hj
      have hji : j ≠ i := by
        rintro rfl
        simp [fillSlot] at hj
      exact h.free j (by simpa [fillSlot, hji] using hj)

/-- An acknowledgement of a queued number keeps it: the slots given up have no time. -/
theorem WireInv.acked {d : Datagram} {dropped : Bool} (h : WireInv x) (hok : x'.life.SendOk)
    (hev : SendEvent x.life (.datagram d dropped)) (hs : x.step (.datagram d dropped) = some x') : WireInv x' := by
  obtain ⟨e, out, he, hl, hw⟩ := Wire.step_some hs
  obtain ⟨hd, h5, hwin, m, hm, hnum⟩ := hev
  have hacc : ackAccepted (d.buffer 0).toNat (d.buffer 1).toNat = true := by
    rw [← hnum]
    exact decide_eq_true ⟨Ring.num_pos, Ring.num_le (by decide), hwin⟩
  obtain ⟨p, hp, -⟩ := SendInv.ack (w := (d.buffer 1).toNat) h.ok ⟨m, hm, hnum⟩
  obtain ⟨hfreed, -⟩ := handleAck_freed h.ok hacc ⟨m, hm, hnum⟩ hp
  have hacts : d.actsAsAck = true := by simp [Datagram.actsAsAck, hd, h5, hacc]
  have hthread : threadR x.life.entry.toProtocol d dropped = .ok (p, []) := by rw [threadR_ack hd h5, hp]
  obtain ⟨-, hlast, -⟩ := threadR_acts hacts hthread
  simp only [Entry.step, hthread] at he
  cases he
  have hlife : x'.life = { entry := x.life.entry.withProtocol p, sent := x.life.sent } := by
    rw [hl]
    simp [Entry.queued]
  refine ⟨hok, by rw [hlife]; exact h.inUse, ?_, ?_⟩
  · have hlen := h.ok.window.length_le
    rw [hlife, hw]
    intro n h1 h2 i hi
    have h1 : p.lastAckReceived ≤ n := h1
    have h2 : n < x.life.sent.length := h2
    have hrest := (hfreed.numbers (num n) fun k hk hk' => Ring.num_ne (by omega) (by omega)).1
    have hi' : x.life.entry.swnd.indexSeqNum (num n) = (i.val : Int) := hrest.symm.trans hi
    have hkept : ¬NotedBetween x.life.entry.toSendSide x.life.entry.lastAckReceived
        (max (d.buffer 0).toNat x.life.entry.lastAckReceived) i := by
      rintro ⟨k, hk, hk', hki⟩
      have := h.ok.window.distinct k n hk (by omega) (by omega) h2 (hki.trans hi'.symm)
      omega
    show p.sendTime i = -1 ↔ x.onWire (num n) = false
    rw [(hfreed.others i hkept).2.1]
    exact h.times n (by omega) h2 i hi'
  · rw [hlife]
    intro i hi
    show p.sendTime i = -1
    by_cases hn : NotedBetween x.life.entry.toSendSide x.life.entry.lastAckReceived
        (max (d.buffer 0).toNat x.life.entry.lastAckReceived) i
    · exact (hfreed.slots i hn).2
    · obtain ⟨hfree, htime, -⟩ := hfreed.others i hn
      rw [htime]
      exact h.free i (hfree.symm.trans hi)

/-- A wake-up keeps it: what it stamps it sends. -/
theorem WireInv.woken {scan : Slot → Int} {stamp : Nat → Int} (h : WireInv x) (hok : x'.life.SendOk) (hstamp : ∀ k, 0 ≤ stamp k)
    (hs : x.step (.wakeUp scan stamp) = some x') : WireInv x' := by
  obtain ⟨e, out, he, hl, hw⟩ := Wire.step_some hs
  have he : threadS x.life.entry scan stamp = .ok (e, out) := he
  unfold threadS at he
  rw [if_pos h.inUse] at he
  split at he
  · cases he
  · rename_i s out' hwake
    cases he
    obtain ⟨k, cnt, hlog⟩ := wakeUp_logged h.ok hstamp hwake
    obtain ⟨t, ht⟩ := hlog.side
    have hlife : x'.life = { entry := x.life.entry.withProtocol (x.life.entry.toProtocol.withSend s), sent := x.life.sent } := by
      rw [hl]
      simp [Entry.queued]
    have hsame : s = { x.life.entry.toSendSide with sendTime := t } := ht
    refine ⟨hok, by rw [hlife]; exact h.inUse, ?_, ?_⟩
    · rw [hlife, hw]
      intro m h1 h2 i hi
      have hi' : x.life.entry.swnd.indexSeqNum (num m) = (i.val : Int) := by
        have : s.swnd.indexSeqNum (num m) = (i.val : Int) := hi
        rw [hsame] at this
        exact this
      show s.sendTime i = -1 ↔ (x.onWire (num m) || out.any fun d => seqByte d.buffer == num m) = false
      rw [hlog.times m h1 h2 i hi', h.times m h1 h2 i hi', Bool.or_eq_false_iff, List.any_eq_false]
      simp only [beq_iff_eq, ne_eq]
    · rw [hlife]
      intro i hi
      have hi' : x.life.entry.sbuffFree i = true := by
        have : s.sbuffFree i = true := hi
        rw [hsame] at this
        exact this
      show s.sendTime i = -1
      rw [hlog.free i hi']
      exact h.free i hi'

/-- Every event keeps the invariant. -/
theorem wire_step (x : Wire) (ev : Event) (x' : Wire) (h : WireInv x) (hev : ClockedEvent x.life ev) (hs : x.step ev = some x') :
    WireInv x' := by
  have hok : SenderEvent x.life ev → x'.life.SendOk := fun hsend => sender_step x.life ev x'.life h.ok hsend (Wire.step_life hs)
  cases ev with
  | sendto self junk message => exact h.sendto (hok trivial) hs
  | datagram d dropped => exact h.acked (hok hev) hev hs
  | wakeUp scan stamp => exact h.woken (hok trivial) hev hs
  | _ => exact hev.elim

/-- The numbers that wait are those whose slot has no time. -/
theorem WireInv.unsentAt_iff (h : WireInv x) (q : Nat) : unsentAt x.life.entry.toSendSide q = true ↔ x.Waiting q := by
  constructor
  · intro hq
    obtain ⟨m, i, h1, h2, rfl, hi, htime⟩ := SendInv.of_unsentAt h.ok hq
    exact ⟨(SendInv.outstanding_iff h.ok _).2 ⟨m, h1, h2, rfl⟩, (h.times m h1 h2 i hi).1 htime⟩
  · rintro ⟨hq, hwire⟩
    obtain ⟨m, h1, h2, rfl⟩ := (SendInv.outstanding_iff h.ok _).1 hq
    obtain ⟨i, hi, -⟩ := h.ok.window.slotOf m h2 h1
    unfold unsentAt
    rw [hi, slot?_coe]
    exact decide_eq_true ((h.times m h1 h2 i hi).2 hwire)

/-- When some number of the window does not wait, nothing is beyond the window exactly when the number after it does not wait. -/
theorem WireInv.nothingBeyond_iff (h : WireInv x) {j : Nat} (hj : j < x.life.entry.swnd.size)
    (hsent : unsentAt x.life.entry.toSendSide (nthNumber x.life.entry.toSendSide j) = false) :
    NothingBeyond x ↔ ¬x.Waiting (nthNumber x.life.entry.toSendSide x.life.entry.swnd.size) := by
  constructor
  · intro hnothing hwaits
    have hwait : x.Waiting (nthNumber x.life.entry.toSendSide j) :=
      ⟨SendInv.outstanding_before h.ok (Nat.le_of_lt hj) hwaits.1, hnothing hwaits j hj⟩
    rw [(h.unsentAt_iff _).2 hwait] at hsent
    cases hsent
  · intro hnot hwaits
    exact absurd hwaits hnot

/-- Of one number more, exactly those of the window are sent if and only if the one more does not wait. -/
theorem sends_window_iff {p : Nat → Prop} {f : Nat → Nat} {n : Nat} (hne : ∀ d < n, f n ≠ f d) :
    (∀ q, (∃ d < n + 1, p (f d) ∧ q = f d) ↔ p q ∧ ∃ d < n, q = f d) ↔ ¬p (f n) := by
  constructor
  · intro hall hp
    obtain ⟨-, d, hd, he⟩ := (hall (f n)).1 ⟨n, Nat.lt_succ_self n, hp, rfl⟩
    exact hne d hd he
  · intro hnot q
    rw [Nat.exists_lt_succ_right]
    constructor
    · rintro (⟨d, hd, hp, rfl⟩ | ⟨hp, rfl⟩)
      · exact ⟨hp, d, hd, rfl⟩
      · exact absurd hp hnot
    · rintro ⟨hp, d, hd, rfl⟩
      exact Or.inl ⟨d, hd, hp, rfl⟩

/-- Whether a wake-up respects the window is seen in what it sends. -/
theorem respectsWindow_of_run {scan : Slot → Int} {stamp : Nat → Int} {e : Entry} {out : List Datagram}
    (hrun : threadS x.life.entry scan stamp = .ok (e, out)) :
    RespectsWindow x scan stamp ↔ ∀ q, (∃ o ∈ out, seqByte o.buffer = q) ↔
      x.Waiting q ∧ ∃ d < x.life.entry.swnd.size, q = nthNumber x.life.entry.toSendSide d := by
  constructor
  · rintro ⟨e', out', hr, hall⟩
    rw [hrun] at hr
    cases hr
    exact hall
  · intro hall
    exact ⟨_, _, hrun, hall⟩

/-- A wake-up without a timeout respects the window exactly when there is nothing to send beyond it, or nothing in it has been sent
yet. -/
theorem WireInv.respects_iff_nothingBeyond (h : WireInv x) (scan : Slot → Int) {stamp : Nat → Int} (hstamp : ∀ k, 0 ≤ stamp k)
    (htime : timedOut x.life.entry.toSendSide scan = false) : RespectsWindow x scan stamp ↔ NothingBeyond x := by
  have hsize : x.life.entry.swnd.size ≤ 10 := h.ok.size_le
  by_cases hzero : x.life.entry.swnd.size = 0
  · have hnone : threadS x.life.entry scan stamp = .ok (x.life.entry, []) := by
      simp [threadS, h.inUse, wakeUp, htime, hzero]
    refine ⟨fun _ _ d hd => by omega, fun _ => ⟨_, _, hnone, fun q => ⟨by simp, ?_⟩⟩⟩
    rintro ⟨-, d, hd, -⟩
    omega
  · obtain ⟨s', out, d, hsweep, hsent, hcase⟩ := sweep_sendNew_sends stamp h.ok hstamp
    have hrun : threadS x.life.entry scan stamp =
        .ok (x.life.entry.withProtocol (x.life.entry.toProtocol.withSend s'), out) := by
      simp [threadS, h.inUse, wakeUp, htime, hzero, hsweep]
    rw [respectsWindow_of_run hrun]
    simp only [hsent, h.unsentAt_iff]
    rcases hcase with ⟨rfl, hall⟩ | ⟨rfl, j, hj, hbefore⟩
    · constructor
      · intro _ _ d hd
        exact ((h.unsentAt_iff _).1 (hall d hd)).2
      · intro _ q
        constructor
        · rintro ⟨d, hd, hq, rfl⟩
          exact ⟨hq, d, hd, rfl⟩
        · rintro ⟨hq, d, hd, rfl⟩
          exact ⟨d, hd, hq, rfl⟩
    · rw [h.nothingBeyond_iff hj hbefore]
      refine sends_window_iff fun d hd => ?_
      rw [SendInv.nthNumber_eq h.ok, SendInv.nthNumber_eq h.ok]
      exact (Ring.num_ne (by omega) (by omega)).symm

end WireSteps

/-- When thread S respects the window. In every state of a socket in use that only sends, after any `k_sendto` calls, acknowledgements
of queued numbers and wake-ups, a wake-up without a timeout transmits exactly the queued and not yet transmitted numbers among the
first `swnd.size` from the start of the window, if and only if the number right after the window does not wait or nothing in the window
has been transmitted yet. -/
theorem respectsWindow_iff (e : Entry) (hfresh : e.toProtocol = freshProtocol) (huse : e.isFree = 0) (es : List Event)
    (hes : Meets Wire.step (fun x ev => ClockedEvent x.life ev) (Wire.begin e) es) (x : Wire)
    (hx : exec Wire.step (Wire.begin e) es = some x) (scan : Slot → Int) (stamp : Nat → Int) (hstamp : ∀ k, 0 ≤ stamp k)
    (htime : timedOut x.life.entry.toSendSide scan = false) : RespectsWindow x scan stamp ↔ NothingBeyond x := by
  have hinv : WireInv x := exec_invariant (g := fun (x : Wire) ev => ClockedEvent x.life ev) wire_step
    (wireInv_begin hfresh huse) hes hx
  exact hinv.respects_iff_nothingBeyond scan hstamp htime

/-- `respectsWindow_iff` on two messages, none of them transmitted. -/
theorem respectsWindow_iff_two :
    ∃ x, exec Wire.step (Wire.begin boundEntry) [.sendto 7 (fun _ => 0) [65], .sendto 7 (fun _ => 0) [66]] = some x ∧
      (RespectsWindow x (fun _ => 100) (fun _ => 100) ↔ NothingBeyond x) := by
  refine ⟨_, rfl, respectsWindow_iff boundEntry rfl rfl [.sendto 7 (fun _ => 0) [65], .sendto 7 (fun _ => 0) [66]] ?_ _ rfl _ _ ?_ ?_⟩
  · exact ⟨trivial, fun _ _ => ⟨trivial, fun _ _ => trivial⟩⟩
  · intro k
    decide
  · decide

/-- The peer has acknowledged message 1 and announced a window of 1; messages 2 and 3 are queued, and 2 has been transmitted by one
wake-up. The next wake-up transmits message 3 as well. -/
theorem sent_beyond_window :
    ∃ x, exec Wire.step (Wire.begin boundEntry)
        [.sendto 7 (fun _ => 0) [65], .wakeUp (fun _ => 100) (fun _ => 100), .datagram (ackDatagram 1 1) false,
          .sendto 7 (fun _ => 0) [66], .sendto 7 (fun _ => 0) [67], .wakeUp (fun _ => 101) (fun _ => 101)] = some x ∧
      timedOut x.life.entry.toSendSide (fun _ => 102) = false ∧ x.life.entry.swnd.size = 1 ∧
      ¬RespectsWindow x (fun _ => 102) (fun _ => 102) := by
  have hrun : ((exec Wire.step (Wire.begin boundEntry)
      [.sendto 7 (fun _ => 0) [65], .wakeUp (fun _ => 100) (fun _ => 100), .datagram (ackDatagram 1 1) false,
        .sendto 7 (fun _ => 0) [66], .sendto 7 (fun _ => 0) [67], .wakeUp (fun _ => 101) (fun _ => 101)]).any fun x =>
      !timedOut x.life.entry.toSendSide (fun _ => 102) && x.life.entry.swnd.size == 1 &&
        x.life.entry.swnd.startSequence == 2 &&
        match threadS x.life.entry (fun _ => 102) (fun _ => 102) with
        | .ok (_, out) => out.any fun o => seqByte o.buffer == 3
        | .error _ => false) = true := by
    decide +kernel
  obtain ⟨x, hx, hend⟩ := (Option.any_eq_true _ _).1 hrun
  simp only [Bool.and_eq_true, beq_iff_eq, Bool.not_eq_true'] at hend
  obtain ⟨⟨⟨htime, hsize⟩, hstart⟩, hsends⟩ := hend
  refine ⟨x, hx, htime, hsize, ?_⟩
  rintro ⟨e, out, hs, hall⟩
  rw [hs] at hsends
  obtain ⟨o, ho, hthree⟩ := List.any_eq_true.1 hsends
  obtain ⟨-, d, hd, hq⟩ := (hall 3).1 ⟨o, ho, by simpa using hthree⟩
  -- the window of one number is the number 2
  obtain rfl : d = 0 := by omega
  have hfirst : nthNumber x.life.entry.toSendSide 0 = 2 := hstart
  omega

end NetLabs.Ktp
