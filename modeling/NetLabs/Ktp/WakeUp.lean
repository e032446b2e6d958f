import NetLabs.Ktp.Sender

/-!
# What thread S touches

A pass of thread S for new messages looks at a slot only where `index_seq_num` notes one, so it touches outstanding messages only
(`sweep_sendNew`). The retransmission pass has no such test: it counts `swnd.size` numbers from the start of the window, and is
within the arrays exactly when that many messages are outstanding (`sweep_resend`, `sweep_resend_fails`).
-/

namespace NetLabs.Ktp

open Function Loop Machine

/-- A datagram that thread S may send: the content of a slot in use that holds a queued message, not yet acknowledged, under its
number. -/
def FromWindow (s : SendSide) (sent : List (List UInt8)) (d : Datagram) : Prop :=
  ∃ m, ∃ hm : m < sent.length, ∃ i : Slot, Outstanding s (num m) ∧ s.swnd.indexSeqNum (num m) = (i.val : Int) ∧
    s.sbuffFree i = false ∧ d = dataDatagram (s.sendBuffer i) ∧ seqByte d.buffer = num m ∧
    HoldsFrame (s.sendBuffer i) (num m) i sent[m]

/-- A pass has changed nothing but `send_time` and sent nothing but outstanding messages. -/
def SweepOk (s : SendSide) (sent : List (List UInt8)) (x : Sweep) : Prop :=
  (∃ t, x.side = { s with sendTime := t }) ∧ ∀ d ∈ x.out, FromWindow s sent d

section Sweeps

variable {s : SendSide} {sent : List (List UInt8)} {lastAck : Nat} (stamp : Nat → Int)

/-- Sending the slot noted for an outstanding message is a step a pass may take. -/
theorem SweepOk.transmit {x : Sweep} (hx : SweepOk s sent x) (h : SendInv s sent lastAck) {m : Nat} (h1 : lastAck ≤ m)
    (h2 : m < sent.length) (now : Int) :
    ∃ i, slot? (x.side.swnd.indexSeqNum (num m)) = .ok i ∧ SweepOk s sent (x.transmit i now) := by
  obtain ⟨⟨t, ht⟩, hout⟩ := hx
  obtain ⟨i, hi, hf, hframe⟩ := h.window.slotOf m h2 h1
  refine ⟨i, by rw [ht]; simp only [hi, slot?_coe], ⟨update t i now, by simp [Sweep.transmit, ht]⟩, fun d hd => ?_⟩
  simp only [Sweep.transmit, ht, List.mem_append, List.mem_singleton] at hd
  rcases hd with hd | rfl
  · exact hout d hd
  · exact ⟨m, h2, i, (h.outstanding_iff _).2 ⟨m, h1, h2, rfl⟩, hi, hf, rfl,
      hframe.seqByte_eq (Ring.num_le (by decide)), hframe⟩

/-- A number is past the window of a pass when it is `size + 1` numbers on. -/
theorem sweep_bound (hstart : s.swnd.startSequence = num lastAck) (size : Nat) :
    (s.swnd.startSequence + size) % 255 + 1 = num (lastAck + size + 1) := by
  rw [hstart]
  show (1 + lastAck % 255 + size) % 255 + 1 = 1 + (lastAck + size + 1) % 255
  omega

/-- One iteration of the retransmission loop at an outstanding message sends that message. -/
theorem resend_outstanding (h : SendInv s sent lastAck) {x : Sweep} (hk : x.k = num (lastAck + x.cnt)) (hok : SweepOk s sent x)
    (hlt : lastAck + x.cnt < sent.length) : ∃ x', resend stamp x = .ok x' ∧ x'.k = num (lastAck + x'.cnt) ∧
      x'.cnt = x.cnt + 1 ∧ SweepOk s sent x' := by
  obtain ⟨i, hi, hok'⟩ := hok.transmit h (Nat.le_add_right _ _) hlt (stamp x.k)
  refine ⟨x.transmit i (stamp x.k), by simp only [resend, hk, hi], ?_, rfl, hok'⟩
  have hnext : next x.k = num (lastAck + x.cnt + 1) := by rw [hk, next, Ring.next_num]
  exact hnext

/-- The retransmission pass stays within the arrays when as many messages are outstanding as the window counts, and then sends
outstanding messages only. -/
theorem sweep_resend (h : SendInv s sent lastAck) (hfit : s.swnd.size ≤ outstandingCount s) :
    ∃ s' out, sweep (resend stamp) s = .ok (s', out) ∧ (∃ t, s' = { s with sendTime := t }) ∧
      ∀ d ∈ out, FromWindow s sent d := by
  have hsize := h.size_le
  rw [h.count_eq] at hfit
  let Inv : Sweep → Prop := fun x => x.k = num (lastAck + x.cnt) ∧ x.cnt ≤ s.swnd.size ∧ SweepOk s sent x
  have hbody : ∀ x, Inv x → inSweep s.swnd.startSequence s.swnd.size x = true →
      ∃ x', resend stamp x = .ok x' ∧ Inv x' ∧ s.swnd.size - x'.cnt < s.swnd.size - x.cnt := by
    rintro x ⟨hk, hcnt, hok⟩ ht
    simp only [inSweep, Bool.and_eq_true, bne_iff_ne] at ht
    obtain ⟨x', hx', hk', hcnt', hok'⟩ := resend_outstanding stamp h hk hok (by omega)
    exact ⟨x', hx', ⟨hk', by omega, hok'⟩, by omega⟩
  obtain ⟨x, hx, ⟨-, -, hok⟩, -⟩ := loopWhile_total Inv (fun x => s.swnd.size - x.cnt) hbody (o := Fault.endless)
    (s := { side := s, k := s.swnd.startSequence, cnt := 0, out := [] })
    ⟨h.start_eq, Nat.zero_le _, ⟨s.sendTime, rfl⟩, by simp⟩ (show s.swnd.size - 0 < 256 by omega)
  exact ⟨x.side, x.out, by unfold sweep; rw [hx], hok.1, hok.2⟩

/-- The retransmission pass runs into the number after the last one queued, for which no slot is noted, when the window counts
more messages than are outstanding: it uses the slot index -1. -/
theorem sweep_resend_fails (h : SendInv s sent lastAck) (hfit : outstandingCount s < s.swnd.size) :
    sweep (resend stamp) s = .error (.badIndex (-1)) := by
  have hsize := h.size_le
  have hle := h.window.acked_le
  rw [h.count_eq] at hfit
  have hnext : s.swnd.indexSeqNum (num sent.length) = -1 := h.window.rest _ fun m h1 h2 => h.window.num_ne_next h1 h2
  let Inv : Sweep → Prop := fun x => x.k = num (lastAck + x.cnt) ∧ lastAck + x.cnt ≤ sent.length ∧ SweepOk s sent x
  have hbody : ∀ x, Inv x → inSweep s.swnd.startSequence s.swnd.size x = true ∧
      (resend stamp x = .error (.badIndex (-1)) ∨
        ∃ x', resend stamp x = .ok x' ∧ Inv x' ∧ sent.length - (lastAck + x'.cnt) < sent.length - (lastAck + x.cnt)) := by
    rintro x ⟨hk, hcnt, hok⟩
    constructor
    · simp only [inSweep, sweep_bound h.start_eq, Bool.and_eq_true, bne_iff_ne, hk]
      exact ⟨Ring.num_ne (by omega) (by omega), by omega⟩
    · rcases Nat.eq_or_lt_of_le hcnt with hlast | hlt
      · left
        obtain ⟨⟨t, ht⟩, -⟩ := hok
        have hidx : x.side.swnd.indexSeqNum x.k = -1 := by
          rw [ht, hk, hlast]
          exact hnext
        simp only [resend, hidx, slot?_neg_one]
      · right
        obtain ⟨x', hx', hk', hcnt', hok'⟩ := resend_outstanding stamp h hk hok hlt
        exact ⟨x', hx', ⟨hk', by omega, hok'⟩, by omega⟩
  have hfuel : sent.length - (lastAck + 0) < 256 := by omega
  have hstart : Inv { side := s, k := s.swnd.startSequence, cnt := 0, out := [] } :=
    ⟨h.start_eq, hle, ⟨s.sendTime, rfl⟩, by simp⟩
  unfold sweep
  rw [loopWhile_fails Inv (fun x => sent.length - (lastAck + x.cnt)) hbody hstart hfuel]

/-- One iteration of the loop for new messages sends the message of the number looked at, or nothing, and goes on to the next. -/
theorem sendNew_step (h : SendInv s sent lastAck) {x : Sweep} (hok : SweepOk s sent x) :
    ∃ x', sendNew stamp x = .ok x' ∧ x'.k = next x.k ∧ SweepOk s sent x' := by
  obtain ⟨t, ht⟩ := hok.1
  unfold sendNew
  by_cases hnoted : 0 ≤ x.side.swnd.indexSeqNum x.k
  · rw [if_pos hnoted]
    have hnoted' : s.swnd.indexSeqNum x.k ≠ -1 := by
      rw [ht] at hnoted
      simp only at hnoted
      omega
    obtain ⟨m, h1, h2, hm⟩ := h.window.of_noted hnoted'
    obtain ⟨j, hj, hok'⟩ := hok.transmit h h1 h2 (stamp x.k)
    rw [hm] at hj
    simp only [hj]
    split
    · exact ⟨_, rfl, rfl, hok'⟩
    · exact ⟨_, rfl, rfl, hok⟩
  · rw [if_neg hnoted]
    exact ⟨_, rfl, rfl, hok⟩

/-- The pass for new messages stays within the arrays and sends outstanding messages only. -/
theorem sweep_sendNew (h : SendInv s sent lastAck) :
    ∃ s' out, sweep (sendNew stamp) s = .ok (s', out) ∧ (∃ t, s' = { s with sendTime := t }) ∧
      ∀ d ∈ out, FromWindow s sent d := by
  have hsize := h.size_le
  let Inv : Sweep → Prop := fun x => ∃ i, i ≤ s.swnd.size + 1 ∧ x.k = num (lastAck + i) ∧ SweepOk s sent x
  let left : Sweep → Nat := fun x => Ring.dist 255 x.k (num (lastAck + s.swnd.size + 1))
  have hbody : ∀ x, Inv x → inSweep s.swnd.startSequence s.swnd.size x = true →
      ∃ x', sendNew stamp x = .ok x' ∧ Inv x' ∧ left x' < left x := by
    rintro x ⟨i, hi, hk, hok⟩ ht
    simp only [inSweep, sweep_bound h.start_eq, Bool.and_eq_true, bne_iff_ne] at ht
    have hne : i ≠ s.swnd.size + 1 := by
      rintro rfl
      exact ht.1 hk
    obtain ⟨x', hx', hk', hok'⟩ := sendNew_step stamp h hok
    have hk1 : x'.k = num (lastAck + (i + 1)) := by rw [hk', hk, next, Ring.next_num, Nat.add_assoc]
    refine ⟨x', hx', ⟨i + 1, by omega, hk1, hok'⟩, ?_⟩
    show Ring.dist 255 x'.k _ < Ring.dist 255 x.k _
    rw [hk1, hk, Ring.dist_num (by omega) (by omega), Ring.dist_num (by omega) (by omega)]
    omega
  have hfuel : left { side := s, k := s.swnd.startSequence, cnt := 0, out := [] } < 256 :=
    Nat.lt_succ_of_lt (Ring.dist_lt (by decide) _ _)
  obtain ⟨x, hx, ⟨-, -, -, hok⟩, -⟩ := loopWhile_total Inv left hbody (o := Fault.endless)
    (s := { side := s, k := s.swnd.startSequence, cnt := 0, out := [] })
    ⟨0, Nat.zero_le _, h.start_eq, ⟨s.sendTime, rfl⟩, by simp⟩ hfuel
  exact ⟨x.side, x.out, by unfold sweep; rw [hx], hok.1, hok.2⟩

/-- A wake-up that stays within the arrays sends outstanding messages only. -/
theorem wakeUp_sends (h : SendInv s sent lastAck) {s' : SendSide} {scan : Slot → Int} {out : List Datagram}
    (hw : wakeUp s scan stamp = .ok (s', out)) : ∀ d ∈ out, FromWindow s sent d := by
  have hpass : ∀ {body}, (∃ s' out, sweep body s = .ok (s', out) ∧ (∃ t, s' = { s with sendTime := t }) ∧
      ∀ d ∈ out, FromWindow s sent d) → sweep body s = .ok (s', out) → ∀ d ∈ out, FromWindow s sent d := by
    rintro body ⟨s1, out1, hs, -, hout⟩ hs'
    rw [hs] at hs'
    cases hs'
    exact hout
  unfold wakeUp at hw
  split at hw <;> split at hw
  · cases hw
    simp
  · by_cases hfit : s.swnd.size ≤ outstandingCount s
    · exact hpass (sweep_resend stamp h hfit) hw
    · rw [sweep_resend_fails stamp h (Nat.lt_of_not_le hfit)] at hw
      cases hw
  · cases hw
    simp
  · exact hpass (sweep_sendNew stamp h) hw

/-- The same for thread S on an entry. -/
theorem threadS_sends {e e' : Entry} {scan : Slot → Int} {stamp : Nat → Int} {out : List Datagram}
    (h : SendInv e.toSendSide sent lastAck) (hs : threadS e scan stamp = .ok (e', out)) :
    ∀ d ∈ out, FromWindow e.toSendSide sent d := by
  unfold threadS at hs
  split at hs
  · split at hs
    · cases hs
    · rename_i hw
      cases hs
      exact wakeUp_sends stamp h hw
  · cases hs
    simp

/-- Thread S sends nothing for an entry that has queued nothing. -/
theorem threadS_silent {e e' : Entry} {out : List Datagram} {u : Nat} {scan : Slot → Int} {stamp : Nat → Int}
    (h : SendInv e.toSendSide [] u) (hw : threadS e scan stamp = .ok (e', out)) : out = [] := by
  refine List.eq_nil_iff_forall_not_mem.2 fun d hd => ?_
  obtain ⟨m, hm, -⟩ := threadS_sends h hw d hd
  exact absurd hm (Nat.not_lt_zero m)

end Sweeps

/-! ## A wake-up -/

/-- Where a wake-up finds a timeout on an entry in use, the window counts no more messages than are outstanding. -/
def WakeUpFits (e : Entry) (scan : Slot → Int) : Prop :=
  e.isFree = 0 → timedOut e.toSendSide scan = true → e.swnd.size ≤ outstandingCount e.toSendSide

/-- A wake-up uses no index outside the slots, sends outstanding messages only and changes nothing but `send_time`. -/
def WakeUpOk (l : Life) (scan : Slot → Int) (stamp : Nat → Int) : Prop :=
  ∃ e' out, threadS l.entry scan stamp = .ok (e', out) ∧
    (∃ t, e' = l.entry.withProtocol (l.entry.toProtocol.withSend { l.entry.toSendSide with sendTime := t })) ∧
    ∀ d ∈ out, FromWindow l.entry.toSendSide l.sent d

theorem wakeUpOk_of_fits {l : Life} {scan : Slot → Int} (stamp : Nat → Int) (h : l.SendOk) (hfit : WakeUpFits l.entry scan) :
    WakeUpOk l scan stamp := by
  have hpass : ∀ {body}, (∃ s' out, sweep body l.entry.toSendSide = .ok (s', out) ∧
        (∃ t, s' = { l.entry.toSendSide with sendTime := t }) ∧ ∀ d ∈ out, FromWindow l.entry.toSendSide l.sent d) →
      wakeUp l.entry.toSendSide scan stamp = sweep body l.entry.toSendSide → l.entry.isFree = 0 →
      WakeUpOk l scan stamp := by
    rintro body ⟨s', out, hs, ⟨t, rfl⟩, hout⟩ hw hfree
    exact ⟨_, out, by simp only [threadS, hfree, ↓reduceIte, hw, hs], ⟨t, rfl⟩, hout⟩
  have hnothing : threadS l.entry scan stamp = .ok (l.entry, []) → WakeUpOk l scan stamp :=
    fun he => ⟨l.entry, [], he, ⟨l.entry.sendTime, rfl⟩, by simp⟩
  by_cases hfree : l.entry.isFree = 0
  · by_cases hsize : l.entry.swnd.size = 0
    · exact hnothing (by simp [threadS, hfree, wakeUp, hsize])
    · cases ht : timedOut l.entry.toSendSide scan with
      | true => exact hpass (sweep_resend stamp h (hfit hfree ht)) (by simp [wakeUp, ht, hsize]) hfree
      | false => exact hpass (sweep_sendNew stamp h) (by simp [wakeUp, ht, hsize]) hfree
  · exact hnothing (by simp [threadS, hfree])

/-- On a sending side that satisfies its invariant a wake-up is right exactly when it fits. -/
theorem wakeUpOk_iff {l : Life} (h : l.SendOk) (scan : Slot → Int) (stamp : Nat → Int) :
    WakeUpOk l scan stamp ↔ WakeUpFits l.entry scan := by
  refine ⟨?_, wakeUpOk_of_fits stamp h⟩
  rintro ⟨e', out, hok, -⟩ hfree ht
  by_contra hfit
  have hsize : l.entry.swnd.size ≠ 0 := by omega
  have hfail : threadS l.entry scan stamp = .error (.badIndex (-1)) := by
    simp [threadS, hfree, wakeUp, ht, hsize, sweep_resend_fails stamp h (Nat.lt_of_not_le hfit)]
  rw [hfail] at hok
  cases hok

/-- A wake-up that fits can be taken and keeps the invariant of the sending side. -/
theorem Life.SendOk.wakeUp {l : Life} (h : l.SendOk) {scan : Slot → Int} (stamp : Nat → Int)
    (hfit : WakeUpFits l.entry scan) : ∃ l', l.after (.wakeUp scan stamp) = some l' ∧ l'.SendOk := by
  obtain ⟨e', out, hs, ⟨t, rfl⟩, -⟩ := wakeUpOk_of_fits stamp h hfit
  refine ⟨{ entry := _, sent := l.sent ++ [] }, Life.after_eq_some.2 ⟨_, out, hs, rfl⟩, ?_⟩
  rw [List.append_nil]
  exact SendInv.stamped h t

/-! ## Every run -/

/-- The events of a sending socket: those of `SendEvent`, and wake-ups that fit. -/
def WakeEvent (l : Life) : Event → Prop
  | .wakeUp scan _ => WakeUpFits l.entry scan
  | ev => SendEvent l ev

theorem waking_step (l : Life) (ev : Event) (h : l.SendOk) (hev : WakeEvent l ev) : ∃ l', l.after ev = some l' ∧ l'.SendOk := by
  cases ev with
  | wakeUp scan stamp => exact h.wakeUp stamp hev
  | _ => exact sending_step l _ h hev

/-- Thread S touches only outstanding messages, exactly when it fits. From the state `init_ksocket` writes, along every sequence of
`k_sendto` calls, acknowledgements of queued numbers and wake-ups in which no retransmission counts more messages than are
outstanding, a wake-up at any time uses slots 0 to 9 only, sends nothing but outstanding messages under their numbers and changes
nothing but `send_time`, if and only if it, too, is no such retransmission. -/
theorem wakeUp_touches_outstanding_iff (e : Entry) (hfresh : e.toProtocol = freshProtocol) (es : List Event)
    (hes : Meets Life.after WakeEvent (Life.begin e) es) :
    ∃ l, exec Life.after (Life.begin e) es = some l ∧
      ∀ scan stamp, WakeUpOk l scan stamp ↔ WakeUpFits l.entry scan := by
  obtain ⟨l, hx, hinv⟩ := exec_total waking_step (Life.sendOk_begin hfresh) hes
  exact ⟨l, hx, wakeUpOk_iff hinv⟩

/-- `wakeUp_touches_outstanding_iff` on one message, sent at time 100. -/
theorem wakeUp_touches_outstanding_two :
    ∃ l, exec Life.after (Life.begin boundEntry)
        [.sendto 7 (fun _ => 0) [104, 105], .wakeUp (fun _ => 100) (fun _ => 100)] = some l ∧
      (WakeUpOk l (fun _ => 104) (fun _ => 104) ↔ WakeUpFits l.entry (fun _ => 104)) := by
  obtain ⟨l, hx, hiff⟩ := wakeUp_touches_outstanding_iff boundEntry rfl
    [.sendto 7 (fun _ => 0) [104, 105], .wakeUp (fun _ => 100) (fun _ => 100)] (by
      refine ⟨trivial, fun l1 h1 => ⟨?_, fun _ _ => trivial⟩⟩
      obtain rfl := Option.some.inj h1
      intro _ ht
      exact absurd ht (by decide))
  exact ⟨l, hx, hiff _ _⟩

/-- One message is queued and sent at time 100; at time 105 the retransmission goes on, with a window of 10, to the number after
it and uses the slot index -1. -/
theorem wakeUp_past_the_queue :
    ∃ l, exec Life.after (Life.begin boundEntry)
        [.sendto 7 (fun _ => 0) [104, 105], .wakeUp (fun _ => 100) (fun _ => 100)] = some l ∧
      threadS l.entry (fun _ => 105) (fun _ => 105) = .error (.badIndex (-1)) ∧
      ¬WakeUpOk l (fun _ => 105) (fun _ => 105) := by
  have hfail : ∃ l, exec Life.after (Life.begin boundEntry)
      [.sendto 7 (fun _ => 0) [104, 105], .wakeUp (fun _ => 100) (fun _ => 100)] = some l ∧
      threadS l.entry (fun _ => 105) (fun _ => 105) = .error (.badIndex (-1)) := ⟨_, rfl, rfl⟩
  obtain ⟨l, hx, hf⟩ := hfail
  refine ⟨l, hx, hf, ?_⟩
  rintro ⟨e', out, hok, -⟩
  rw [hf] at hok
  cases hok

end NetLabs.Ktp
