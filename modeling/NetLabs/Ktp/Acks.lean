import NetLabs.Ktp.Sender

/-!
# What an acknowledgement frees

`handleAck` frees from the start of the window up to the larger of the number acknowledged and `last_ack_received`. On a socket that
only sends, this is what a cumulative acknowledgement covers exactly when its number is the larger one (`frees_covered_iff`), which
after message 255 no number is. An acknowledgement that acknowledges nothing does no harm exactly when it finds nothing to write
(`noHarm_iff`).
-/

namespace NetLabs.Ktp

open Function Loop Machine

/-- Slot `i` holds an outstanding message whose number is not after `a`. -/
def Covered (s : SendSide) (a : Nat) (i : Slot) : Prop :=
  ∃ q, Outstanding s q ∧ Ring.dist 255 s.swnd.startSequence q ≤ Ring.dist 255 s.swnd.startSequence a ∧
    s.swnd.indexSeqNum q = (i.val : Int)

/-- From `s` to `s'`, exactly what an acknowledgement of `a` with window `w` covers has been freed. -/
structure FreesCovered (s s' : SendSide) (a w : Nat) : Prop where
  start_eq : s'.swnd.startSequence = next a
  size_eq : s'.swnd.size = w
  freed : ∀ i, Covered s a i → s'.sbuffFree i = true ∧ s'.sendTime i = -1
  kept : ∀ i, ¬Covered s a i →
    s'.sbuffFree i = s.sbuffFree i ∧ s'.sendTime i = s.sendTime i ∧ s'.sendBuffer i = s.sendBuffer i
  later : ∀ q, Outstanding s q → Ring.dist 255 s.swnd.startSequence a < Ring.dist 255 s.swnd.startSequence q →
    Outstanding s' q ∧ s'.swnd.indexSeqNum q = s.swnd.indexSeqNum q ∧ s'.swnd.validSeqNum q = s.swnd.validSeqNum q

/-! ## The freeing loop -/

/-- Slot `i` is noted for one of the messages from `acked` to `a - 1`. -/
def NotedBetween (s : SendSide) (acked a : Nat) (i : Slot) : Prop :=
  ∃ m, acked ≤ m ∧ m < a ∧ s.swnd.indexSeqNum (num m) = (i.val : Int)

/-- From `s` to `s'`, the slots and the numbers of the messages from `acked` to `a - 1` have been given up, and nothing else. -/
structure FreedTo (s s' : SendSide) (acked a : Nat) : Prop where
  slots : ∀ i, NotedBetween s acked a i → s'.sbuffFree i = true ∧ s'.sendTime i = -1
  others : ∀ i, ¬NotedBetween s acked a i →
    s'.sbuffFree i = s.sbuffFree i ∧ s'.sendTime i = s.sendTime i ∧ s'.sendBuffer i = s.sendBuffer i
  numbers : ∀ q, (∀ m, acked ≤ m → m < a → num m ≠ q) →
    s'.swnd.indexSeqNum q = s.swnd.indexSeqNum q ∧ s'.swnd.validSeqNum q = s.swnd.validSeqNum q
  next_eq : s'.maxSeqNumberYet = s.maxSeqNumberYet

theorem freedTo_refl (s : SendSide) (acked : Nat) : FreedTo s s acked acked where
  slots := by
    rintro i ⟨m, h1, h2, -⟩
    omega
  others _ _ := ⟨rfl, rfl, rfl⟩
  numbers _ _ := ⟨rfl, rfl⟩
  next_eq := rfl

/-- One more iteration gives up one more message. -/
theorem FreedTo.clear {s t : SendSide} {acked a : Nat} {i : Slot} (h : FreedTo s t acked a) (hle : acked ≤ a)
    (hring : a < acked + 255) (hi : slot? (t.swnd.indexSeqNum (num a)) = .ok i) :
    FreedTo s (clearSlot t (num a) i) acked (a + 1) := by
  have hnew : ∀ m, acked ≤ m → m < a → num m ≠ num a := fun m h1 h2 => Ring.num_ne h2 (by omega)
  have hnoted : s.swnd.indexSeqNum (num a) = (i.val : Int) := by
    rw [← (h.numbers _ hnew).1]
    exact slot?_eq_ok.1 hi
  have hstep : ∀ j, NotedBetween s acked (a + 1) j ↔ j = i ∨ NotedBetween s acked a j := by
    intro j
    constructor
    · rintro ⟨m, h1, h2, hm⟩
      rcases Nat.eq_or_lt_of_le (Nat.le_of_lt_succ h2) with rfl | h2
      · left
        rw [hnoted] at hm
        exact Fin.ext (by omega)
      · exact Or.inr ⟨m, h1, h2, hm⟩
    · rintro (rfl | ⟨m, h1, h2, hm⟩)
      · exact ⟨a, hle, Nat.lt_succ_self a, hnoted⟩
      · exact ⟨m, h1, Nat.lt_succ_of_lt h2, hm⟩
  refine ⟨?_, ?_, ?_, h.next_eq⟩
  · intro j hj
    by_cases hji : j = i
    · simp [clearSlot, hji]
    · rcases (hstep j).1 hj with rfl | hj
      · exact absurd rfl hji
      · simpa [clearSlot, hji] using h.slots j hj
  · intro j hj
    rw [hstep, not_or] at hj
    simpa [clearSlot, hj.1] using h.others j hj.2
  · intro q hq
    have hqa : q ≠ num a := fun he => hq a hle (Nat.lt_succ_self a) he.symm
    simpa [clearSlot, hqa] using h.numbers q fun m h1 h2 => hq m h1 (Nat.lt_succ_of_lt h2)

/-- What the freeing loop has given up when it ends at message `target`. -/
theorem ackLoop_freed {s s' : SendSide} {acked target j : Nat} (hstart : s.swnd.startSequence = num acked) (hle : acked ≤ target)
    (hring : target ≤ acked + 254) (h : ackLoop s target = .ok (s', j)) : FreedTo s s' acked target := by
  have htest : ∀ q, (q != target % 255 + 1) = true ↔ q ≠ num target := by
    intro q
    rw [bne_iff_ne, Nat.add_comm]
    rfl
  let Inv : SendSide × Nat → Prop := fun x => ∃ a, acked ≤ a ∧ a ≤ target ∧ x.2 = num a ∧ FreedTo s x.1 acked a
  have hbody : ∀ x x', Inv x → (x.2 != target % 255 + 1) = true → freeAcked x = .ok x' → Inv x' := by
    rintro ⟨t, q⟩ x' ⟨a, h1, h2, rfl, hf⟩ ht hb
    have hne : a ≠ target := by
      rintro rfl
      exact (htest _).1 ht rfl
    unfold freeAcked at hb
    split at hb
    · cases hb
    · rename_i i hi
      cases hb
      exact ⟨a + 1, by omega, by omega, Ring.next_num, hf.clear h1 (by omega) hi⟩
  obtain ⟨⟨a, h1, h2, hq, hf⟩, ht⟩ := loopWhile_keeps Inv hbody
    (s := (s, s.swnd.startSequence)) ⟨acked, Nat.le_refl _, hle, hstart, freedTo_refl s acked⟩ h
  have hjt : j = num target := by
    by_contra hne
    rw [(htest j).2 hne] at ht
    cases ht
  have ha : a = target := Ring.num_inj (hq.symm.trans hjt) h2 (by omega)
  subst ha
  exact hf

/-! ## Acknowledgements of outstanding numbers -/

section Outstanding

variable {p p' : Protocol} {sent : List (List UInt8)} {a w m : Nat}

/-- The number of an outstanding message is larger than `last_ack_received` as long as the numbers have not started again. -/
theorem SendInv.lt_num_iff {s : SendSide} {lastAck : Nat} (h : SendInv s sent lastAck) (h1 : lastAck ≤ m) (h2 : m < sent.length) :
    lastAck < num m ↔ m < 255 := by
  have hlen := h.window.length_le
  have hlast := h.last_le
  show lastAck < 1 + m % 255 ↔ m < 255
  omega

/-- What an acknowledgement that is acted on leaves of the sending side. -/
theorem handleAck_freed (h : SendInv p.toSendSide sent p.lastAckReceived) (hacc : ackAccepted a w = true)
    (hqueued : ∃ m, m < sent.length ∧ num m = a) (hp : handleAck p a w = .ok p') :
    FreedTo p.toSendSide p'.toSendSide p.lastAckReceived (max a p.lastAckReceived) ∧
      p'.swnd.startSequence = num (max a p.lastAckReceived) ∧ p'.swnd.size = w := by
  obtain ⟨m, hm, rfl⟩ := hqueued
  have hle : num m ≤ m + 1 := by
    show 1 + m % 255 ≤ m + 1
    have := Nat.mod_le m 255
    omega
  have hlen := h.window.length_le
  have hcur := h.window.acked_le
  have hwin : SendWindow { p.toSendSide with swnd := { p.swnd with size := w } } sent p.lastAckReceived :=
    h.window.of_eq rfl rfl rfl
  have hto : p.lastAckReceived ≤ max (num m) p.lastAckReceived := Nat.le_max_right _ _
  obtain ⟨s', hloop, -, hsize, -⟩ := hwin.ackLoop h.start_eq hto (by omega)
  have hfreed := ackLoop_freed (s := { p.toSendSide with swnd := { p.swnd with size := w } }) h.start_eq (by omega) (by omega) hloop
  rw [handleAck_accepted hacc, hloop] at hp
  cases hp
  exact ⟨⟨hfreed.slots, hfreed.others, hfreed.numbers, hfreed.next_eq⟩, rfl, hsize⟩

/-- What an acknowledgement of message `m` covers: the slots of the messages up to `m`. -/
theorem SendInv.covered_iff {s : SendSide} {lastAck : Nat} (h : SendInv s sent lastAck) (h1 : lastAck ≤ m) (h2 : m < sent.length)
    (i : Slot) : Covered s (num m) i ↔ NotedBetween s lastAck (m + 1) i := by
  have hlen := h.window.length_le
  have hdist : ∀ n, lastAck ≤ n → n < sent.length → Ring.dist 255 s.swnd.startSequence (num n) = n - lastAck := by
    intro n hn hn'
    rw [h.start_eq]
    exact Ring.dist_num hn (by omega)
  constructor
  · rintro ⟨q, hq, hle, hi⟩
    obtain ⟨n, hn, hn', rfl⟩ := (h.outstanding_iff q).1 hq
    rw [hdist n hn hn', hdist m h1 h2] at hle
    exact ⟨n, hn, by omega, hi⟩
  · rintro ⟨n, hn, hn', hi⟩
    refine ⟨num n, (h.outstanding_iff _).2 ⟨n, hn, by omega, rfl⟩, ?_, hi⟩
    rw [hdist n hn (by omega), hdist m h1 h2]
    omega

/-- The messages up to `m` given up, and the window started after it, is what an acknowledgement of `m` covers. -/
theorem SendInv.freesCovered {s s' : SendSide} {lastAck : Nat} (h : SendInv s sent lastAck) (h1 : lastAck ≤ m)
    (h2 : m < sent.length) (hfreed : FreedTo s s' lastAck (m + 1)) (hstart : s'.swnd.startSequence = num (m + 1))
    (hsize : s'.swnd.size = w) : FreesCovered s s' (num m) w := by
  have hlen := h.window.length_le
  refine ⟨?_, hsize, ?_, ?_, ?_⟩
  · rw [hstart]
    exact Ring.next_num.symm
  · intro i hi
    exact hfreed.slots i ((h.covered_iff h1 h2 i).1 hi)
  · intro i hi
    exact hfreed.others i fun hn => hi ((h.covered_iff h1 h2 i).2 hn)
  · intro q hq hlater
    obtain ⟨n, hn, hn', rfl⟩ := (h.outstanding_iff q).1 hq
    rw [h.start_eq, Ring.dist_num h1 (by omega), Ring.dist_num hn (by omega)] at hlater
    refine ⟨⟨Ring.num_pos, Ring.num_le (by decide), ?_⟩, hfreed.numbers _ fun k hk hk' => Ring.num_ne (by omega) (by omega)⟩
    unfold outstandingCount
    rw [hstart, hfreed.next_eq, h.next_eq, Ring.dist_num (by omega) (by omega), Ring.dist_num (by omega) (by omega)]
    omega

/-- An acknowledgement of an outstanding number frees what it covers exactly when its number is larger than
`last_ack_received`. -/
theorem SendInv.frees_iff (h : SendInv p.toSendSide sent p.lastAckReceived) (hq : Outstanding p.toSendSide a) (hw : w ≤ 10) :
    ∃ p', handleAck p a w = .ok p' ∧ (FreesCovered p.toSendSide p'.toSendSide a w ↔ p.lastAckReceived < a) := by
  obtain ⟨m, h1, h2, rfl⟩ := (h.outstanding_iff a).1 hq
  have hacc : ackAccepted (num m) w = true := decide_eq_true ⟨hq.1, hq.2.1, hw⟩
  obtain ⟨p', hp, -⟩ := h.ack (w := w) ⟨m, h2, rfl⟩
  obtain ⟨hfreed, hstart, hsize⟩ := handleAck_freed h hacc ⟨m, h2, rfl⟩ hp
  refine ⟨p', hp, ?_, ?_⟩
  · intro hf
    by_contra hle
    -- nothing is freed, so the window has not moved past `m`
    have hmax : max (num m) p.lastAckReceived = p.lastAckReceived := by omega
    have hlen := h.window.length_le
    have hmoved : num p.lastAckReceived = num (m + 1) := calc
      num p.lastAckReceived = p'.swnd.startSequence := by rw [hstart, hmax]
      _ = next (num m) := hf.start_eq
      _ = num (m + 1) := Ring.next_num
    exact Ring.num_ne (by omega) (by omega) hmoved
  · intro hlt
    have hm : m < 255 := (h.lt_num_iff h1 h2).1 hlt
    have hnum : num m = m + 1 := Ring.num_of_lt hm
    have hmax : max (num m) p.lastAckReceived = m + 1 := by omega
    rw [hmax] at hfreed hstart
    exact h.freesCovered h1 h2 hfreed hstart hsize

end Outstanding

/-! ## Every run of a sender -/

/-- The events of a socket that only sends: those of `SendEvent`, and wake-ups of thread S. -/
def SenderEvent (l : Life) : Event → Prop
  | .wakeUp _ _ => True
  | ev => SendEvent l ev

/-- An event of a socket that only sends keeps the invariant. -/
theorem sender_step (l : Life) (ev : Event) (l' : Life) (h : l.SendOk) (hev : SenderEvent l ev) (hs : l.after ev = some l') :
    l'.SendOk := by
  have hsend : SendEvent l ev → l'.SendOk := by
    intro hev
    obtain ⟨l1, h1, hok⟩ := sending_step l ev h hev
    obtain rfl := Option.some.inj (h1.symm.trans hs)
    exact hok
  cases ev with
  | wakeUp scan stamp =>
    obtain ⟨e, out, he, rfl⟩ := Life.after_eq_some.1 hs
    obtain ⟨t, rfl⟩ := threadS_sendTime he
    show SendInv { l.entry.toSendSide with sendTime := t } (l.sent ++ []) l.entry.lastAckReceived
    rw [List.append_nil]
    exact h.stamped t
  | sendto self junk message => exact hsend hev
  | datagram d dropped => exact hsend hev
  | _ => exact hev.elim

/-- The invariant of the sending side in every state that such events reach. -/
theorem sender_run {e : Entry} {es : List Event} {l : Life} (hfresh : e.toProtocol = freshProtocol)
    (hes : Meets Life.after SenderEvent (Life.begin e) es) (hx : exec Life.after (Life.begin e) es = some l) : l.SendOk :=
  exec_invariant sender_step (Life.sendOk_begin hfresh) hes hx

/-- Thread R handles the datagram, and exactly what it covers is freed. -/
def AckFrees (p : Protocol) (d : Datagram) (dropped : Bool) : Prop :=
  ∃ p', threadR p d dropped = .ok (p', []) ∧
    FreesCovered p.toSendSide p'.toSendSide (d.buffer 0).toNat (d.buffer 1).toNat

/-- When a cumulative acknowledgement frees exactly what it covers. In every state of a socket that only sends, after any `k_sendto`
calls, acknowledgements of queued numbers and wake-ups, an acknowledgement of an outstanding number with a window of at most 10 does
so if and only if its number is larger than `last_ack_received`. -/
theorem ackFrees_iff (e : Entry) (hfresh : e.toProtocol = freshProtocol) (es : List Event)
    (hes : Meets Life.after SenderEvent (Life.begin e) es) (l : Life) (hx : exec Life.after (Life.begin e) es = some l)
    (d : Datagram) (dropped : Bool) (hd : d.isAckFrame = true) (h5 : d.buffer 5 = 35)
    (hq : Outstanding l.entry.toSendSide (d.buffer 0).toNat) (hw : (d.buffer 1).toNat ≤ 10) :
    AckFrees l.entry.toProtocol d dropped ↔ l.entry.lastAckReceived < (d.buffer 0).toNat := by
  have hinv : l.SendOk := sender_run hfresh hes hx
  obtain ⟨p', hp, hiff⟩ := SendInv.frees_iff hinv hq hw
  have hr : threadR l.entry.toProtocol d dropped = .ok (p', []) := by rw [threadR_ack hd h5, hp]
  refine Iff.trans ⟨?_, fun h => ⟨p', hr, h⟩⟩ hiff
  rintro ⟨q, hr', h⟩
  rw [hr] at hr'
  cases hr'
  exact h

/-- `ackFrees_iff` on the second of three messages. -/
theorem ackFrees_iff_two :
    AckFrees (((kSendto boundEntry 7 (fun _ => 0) [65]).2 |> fun e => (kSendto e 7 (fun _ => 0) [66]).2).toProtocol)
      (ackDatagram 2 9) false ↔ 0 < 2 := by
  refine ackFrees_iff boundEntry rfl [.sendto 7 (fun _ => 0) [65], .sendto 7 (fun _ => 0) [66]] ?_ _ rfl _ false rfl rfl ?_ ?_
  · exact ⟨trivial, fun _ _ => ⟨trivial, fun _ _ => trivial⟩⟩
  · exact ⟨by decide, by decide, by decide⟩
  · decide

/-! ## Message 256 -/

/-- Messages `0` to `n - 1`, each acknowledged before the next is sent. -/
def sendRounds : Nat → List Event
  | 0 => []
  | n + 1 => sendRounds n ++ [.sendto 7 (fun _ => 0) [65], .datagram (ackDatagram (num n) 10) false]

/-- `n` messages have been sent, all of them acknowledged, and process 7 may send the next. -/
structure AllAcked (l : Life) (n : Nat) : Prop where
  ok : l.SendOk
  sent_eq : l.sent.length = n
  last_eq : l.entry.lastAckReceived = n
  owned : l.entry.refused 7 = false

/-- One more message, not acknowledged yet. -/
theorem AllAcked.send {l : Life} {n : Nat} (h : AllAcked l n) :
    ∃ l', l.after (.sendto 7 (fun _ => 0) [65]) = some l' ∧ l'.SendOk ∧ l'.sent.length = n + 1 ∧
      l'.entry.lastAckReceived = n ∧ l'.entry.refused 7 = false := by
  obtain ⟨l', hs, hok⟩ := h.ok.sendto 7 (fun _ => 0) [65]
  have hfree : firstFree l.entry.sbuffFree ≠ none := by
    rw [Ne, firstFree_eq_none]
    intro hall
    obtain ⟨m, h1, h2, -⟩ := h.ok.window.used 0 (hall 0)
    have hsent := h.sent_eq
    have hlast := h.last_eq
    omega
  obtain ⟨i, hi⟩ := Option.ne_none_iff_exists'.1 hfree
  have hcall : kSendto l.entry 7 (fun _ => 0) [65] =
      (some 1, l.entry.withProtocol (l.entry.toProtocol.withSend (fillSlot l.entry.toSendSide i (fun _ => 0) [65]))) := by
    simp [kSendto, h.owned, queueMessage, hi]
  refine ⟨l', hs, hok, ?_⟩
  obtain ⟨e, out, he, rfl⟩ := Life.after_eq_some.1 hs
  simp only [Entry.step, hcall] at he
  cases he
  refine ⟨?_, h.last_eq, h.owned⟩
  simp [Entry.queued, hcall, h.sent_eq]

/-- One more message, and its acknowledgement, as long as the numbers have not started again. -/
theorem AllAcked.round {l : Life} {n : Nat} (h : AllAcked l n) (hn : n < 255) :
    Meets Life.after SenderEvent l [.sendto 7 (fun _ => 0) [65], .datagram (ackDatagram (num n) 10) false] ∧
      ∃ l', exec Life.after l [.sendto 7 (fun _ => 0) [65], .datagram (ackDatagram (num n) 10) false] = some l' ∧
        AllAcked l' (n + 1) := by
  have hnum : num n = n + 1 := Ring.num_of_lt hn
  have hnumber := ackDatagram_number (show num n ≤ 255 by omega) 10
  obtain ⟨l1, h1, hok, hsent, hlast, hown⟩ := h.send
  have hev : SendEvent l1 (.datagram (ackDatagram (num n) 10) false) :=
    ⟨ackDatagram_isAckFrame _ _, rfl, Nat.le_refl 10, n, by omega, hnumber.symm⟩
  obtain ⟨l2, h2, hok2⟩ := hok.acked false hev
  refine ⟨?_, l2, exec_cons_eq_some.2 ⟨l1, h1, exec_cons_eq_some.2 ⟨l2, h2, rfl⟩⟩, ?_⟩
  · exact (meets_cons_iff h1).2 ⟨trivial, (meets_cons_iff h2).2 ⟨hev, trivial⟩⟩
  · obtain ⟨e, out, he, rfl⟩ := Life.after_eq_some.1 h2
    simp only [Entry.step] at he
    split at he
    · cases he
    · rename_i p out' hp
      cases he
      have hacts : (ackDatagram (num n) 10).actsAsAck = true := by
        simp only [Datagram.actsAsAck, ackDatagram_isAckFrame, hnumber, Bool.true_and, Bool.and_eq_true]
        exact ⟨rfl, decide_eq_true ⟨by omega, by omega, Nat.le_refl 10⟩⟩
      obtain ⟨-, hmax, -⟩ := threadR_acts hacts hp
      refine ⟨hok2, by simp [Entry.queued, hsent], ?_, hown⟩
      show p.lastAckReceived = n + 1
      rw [hmax]
      show max ((ackDatagram (num n) 10).buffer 0).toNat l1.entry.lastAckReceived = n + 1
      omega

/-- The first 255 messages go through. -/
theorem sendRounds_allAcked {n : Nat} (hn : n ≤ 255) :
    Meets Life.after SenderEvent (Life.begin boundEntry) (sendRounds n) ∧
      ∃ l, exec Life.after (Life.begin boundEntry) (sendRounds n) = some l ∧ AllAcked l n := by
  refine exec_rounds (Q := fun n l => AllAcked l n) (N := 255) rfl (fun _ => rfl) ⟨Life.sendOk_begin rfl, rfl, rfl, rfl⟩ ?_ hn
  intro n hlt l hall
  exact hall.round hlt

/-- With all 255 numbers acknowledged, the acknowledgement of the next message, which has number 1 again, frees nothing. -/
theorem AllAcked.wrap {l : Life} {n : Nat} (h : AllAcked l n) (hn : n = 255) :
    ∃ l', l.after (.sendto 7 (fun _ => 0) [65]) = some l' ∧ Outstanding l'.entry.toSendSide 1 ∧
      ¬AckFrees l'.entry.toProtocol (ackDatagram 1 10) false := by
  obtain ⟨l', hs, hok, hsent, hlast, -⟩ := h.send
  have hq : Outstanding l'.entry.toSendSide 1 := (SendInv.outstanding_iff hok 1).2 ⟨255, by omega, by omega, rfl⟩
  obtain ⟨p', hp, hiff⟩ := SendInv.frees_iff (w := 10) hok hq (Nat.le_refl 10)
  refine ⟨l', hs, hq, ?_⟩
  rintro ⟨p, hr, hf⟩
  have hr' : threadR l'.entry.toProtocol (ackDatagram 1 10) false = .ok (p', []) := by
    rw [threadR_ack (ackDatagram_isAckFrame _ _) rfl]
    exact hp ▸ rfl
  rw [hr'] at hr
  cases hr
  have := hiff.1 hf
  omega

theorem sendRounds_wrap {n : Nat} (hn : n = 255) :
    Meets Life.after SenderEvent (Life.begin boundEntry) (sendRounds n ++ [.sendto 7 (fun _ => 0) [65]]) ∧
      ∃ l, exec Life.after (Life.begin boundEntry) (sendRounds n ++ [.sendto 7 (fun _ => 0) [65]]) = some l ∧
        Outstanding l.entry.toSendSide 1 ∧ ¬AckFrees l.entry.toProtocol (ackDatagram 1 10) false := by
  obtain ⟨hm, l, hx, hl⟩ := sendRounds_allAcked (Nat.le_of_eq hn)
  obtain ⟨l', hs, hl'⟩ := hl.wrap hn
  refine ⟨hm.append fun _ _ => ⟨trivial, fun _ _ => trivial⟩, l', ?_, hl'⟩
  rw [exec_append, hx]
  exact exec_cons_eq_some.2 ⟨l', hs, rfl⟩

/-- 255 messages have been sent and acknowledged one by one, and message 256 is sent: its acknowledgement frees nothing. -/
theorem ack_after_wrap :
    Meets Life.after SenderEvent (Life.begin boundEntry) (sendRounds 255 ++ [.sendto 7 (fun _ => 0) [65]]) ∧
      ∃ l, exec Life.after (Life.begin boundEntry) (sendRounds 255 ++ [.sendto 7 (fun _ => 0) [65]]) = some l ∧
        Outstanding l.entry.toSendSide 1 ∧ ¬AckFrees l.entry.toProtocol (ackDatagram 1 10) false :=
  sendRounds_wrap rfl

/-! ## Acknowledgements that acknowledge nothing -/

/-- The number is neither outstanding nor the one just before the start of the window. -/
def Foreign (s : SendSide) (q : Nat) : Prop := ¬Outstanding s q ∧ ¬(1 ≤ q ∧ next q = s.swnd.startSequence)

/-- Thread R handles the datagram without leaving the slots, and the sending side and `last_ack_received` stay as they were. -/
def NoHarm (p : Protocol) (d : Datagram) (dropped : Bool) : Prop :=
  ∃ p' out, threadR p d dropped = .ok (p', out) ∧ p'.toSendSide = p.toSendSide ∧ p'.lastAckReceived = p.lastAckReceived

/-- If the acknowledgement is acted on, it announces the window there is, its number is not larger than `last_ack_received`, and the
window starts right after that. -/
def NothingToWrite (p : Protocol) (d : Datagram) : Prop :=
  d.actsAsAck = true → (d.buffer 1).toNat = p.swnd.size ∧ (d.buffer 0).toNat ≤ p.lastAckReceived ∧
    p.swnd.startSequence = next p.lastAckReceived

/-- The freeing loop has nothing to do where the window starts after the number it goes to. -/
theorem ackLoop_done {s : SendSide} {lastAck : Nat} (h : s.swnd.startSequence = next lastAck) :
    ackLoop s lastAck = .ok (s, s.swnd.startSequence) := by
  refine loopWhile_done ?_
  show (s.swnd.startSequence != lastAck % 255 + 1) = false
  rw [h, next, Ring.next, Nat.add_comm]
  exact bne_self_eq_false' _

/-- Where it ended, it has come to the number after the one it goes to. -/
theorem ackLoop_end {s s' : SendSide} {lastAck j : Nat} (h : ackLoop s lastAck = .ok (s', j)) : j = next lastAck := by
  have ht : (j != lastAck % 255 + 1) = false := (loopWhile_keeps (fun _ => True) (fun _ _ _ _ _ => trivial) trivial h).2
  rw [bne_eq_false_iff_eq] at ht
  rw [ht, next, Ring.next, Nat.add_comm]

/-- In every state, an acknowledgement does no harm exactly when it finds nothing to write. -/
theorem noHarm_iff_nothingToWrite (p : Protocol) {d : Datagram} (dropped : Bool) (hd : d.isAckFrame = true) :
    NoHarm p d dropped ↔ NothingToWrite p d := by
  cases ha : d.actsAsAck with
  | false =>
    refine ⟨fun _ h => ?_, fun _ => ⟨p, [], threadR_idle p dropped hd ha, rfl, rfl⟩⟩
    rw [ha] at h
    cases h
  | true =>
    obtain ⟨⟨-, h5⟩, hacc⟩ : (d.isAckFrame = true ∧ d.buffer 5 = 35) ∧
        ackAccepted (d.buffer 0).toNat (d.buffer 1).toNat = true := by simpa [Datagram.actsAsAck] using ha
    constructor
    · rintro ⟨p', out, hr, hside, hlast⟩ -
      obtain ⟨-, hmax, -, hsize, -⟩ := threadR_acts ha hr
      rw [hlast] at hmax
      have hsame : p'.swnd = p.swnd := congrArg SendSide.swnd hside
      refine ⟨by rw [← hsize, hsame], by omega, ?_⟩
      rw [threadR_ack hd h5, handleAck_accepted hacc, ← hmax] at hr
      cases hloop : ackLoop { p.toSendSide with swnd := { p.swnd with size := (d.buffer 1).toNat } } p.lastAckReceived with
      | error f => rw [hloop] at hr; cases hr
      | ok x =>
        rw [hloop] at hr
        cases hr
        rw [← hsame]
        exact ackLoop_end hloop
    · intro h
      obtain ⟨hsize, hle, hstart⟩ := h ha
      have hloop := ackLoop_done (s := { p.toSendSide with swnd := { p.swnd with size := p.swnd.size } }) hstart
      have hmax : max (d.buffer 0).toNat p.lastAckReceived = p.lastAckReceived := Nat.max_eq_right hle
      refine ⟨p, [], ?_, rfl, rfl⟩
      rw [threadR_ack hd h5, handleAck_accepted hacc, hsize, hmax, hloop]
      rfl

/-- On a socket that only sends, the window always starts right after `last_ack_received`. -/
theorem Life.SendOk.nothingToWrite_iff {l : Life} (h : l.SendOk) (d : Datagram) :
    NothingToWrite l.entry.toProtocol d ↔
      (d.actsAsAck = true → (d.buffer 1).toNat = l.entry.swnd.size ∧ (d.buffer 0).toNat ≤ l.entry.lastAckReceived) := by
  have hstart : l.entry.swnd.startSequence = next l.entry.lastAckReceived := h.start_eq
  constructor
  · intro hn ha
    exact ⟨(hn ha).1, (hn ha).2.1⟩
  · intro hn ha
    exact ⟨(hn ha).1, (hn ha).2, hstart⟩

/-- When a foreign or stale acknowledgement does no harm. In every state an entry can reach, by any calls, datagrams, wake-ups and
changes of owner, a datagram with the first five bytes of an acknowledgement whose number is neither outstanding nor the one before
the start of the window leaves the sending side and `last_ack_received` as they were, with no slot outside the arrays used, if and
only if it finds nothing to write. -/
theorem noHarm_iff (e : Entry) (es : List Event) (l : Life) : e.toProtocol = freshProtocol →
    exec Life.after (Life.begin e) es = some l → ∀ d dropped, d.isAckFrame = true →
      Foreign l.entry.toSendSide (d.buffer 0).toNat →
      (NoHarm l.entry.toProtocol d dropped ↔ NothingToWrite l.entry.toProtocol d) := by
  intro _ _ d dropped hd _
  exact noHarm_iff_nothingToWrite l.entry.toProtocol dropped hd

/-- `noHarm_iff` on an acknowledgement of number 200 that comes when one message is outstanding. -/
theorem noHarm_iff_one :
    NoHarm (kSendto boundEntry 7 (fun _ => 0) [65]).2.toProtocol (ackDatagram 200 10) false ↔
      NothingToWrite (kSendto boundEntry 7 (fun _ => 0) [65]).2.toProtocol (ackDatagram 200 10) := by
  refine noHarm_iff boundEntry [.sendto 7 (fun _ => 0) [65]] _ rfl rfl (ackDatagram 200 10) false rfl ⟨?_, ?_⟩
  · rintro ⟨-, -, h⟩
    exact absurd h (by decide)
  · decide

/-- One message is outstanding, under number 1, and an acknowledgement of number 2, which has never been sent, comes with window 10:
the loop frees the message and then uses the slot index -1. -/
theorem foreign_ack_leaves_slots :
    ∃ l, exec Life.after (Life.begin boundEntry) [.sendto 7 (fun _ => 0) [65]] = some l ∧
      Foreign l.entry.toSendSide ((ackDatagram 2 10).buffer 0).toNat ∧
      threadR l.entry.toProtocol (ackDatagram 2 10) false = .error (.badIndex (-1)) ∧
      ¬NoHarm l.entry.toProtocol (ackDatagram 2 10) false := by
  have hfault : threadR (kSendto boundEntry 7 (fun _ => 0) [65]).2.toProtocol (ackDatagram 2 10) false =
      .error (.badIndex (-1)) := rfl
  refine ⟨_, rfl, ⟨?_, by decide⟩, hfault, ?_⟩
  · rintro ⟨-, -, h⟩
    exact absurd h (by decide)
  · rintro ⟨p', out, h, -⟩
    have h := hfault.symm.trans h
    cases h

end NetLabs.Ktp
