import Mathlib.Order.Interval.Finset.Nat
import NetLabs.Lib.Slots
import NetLabs.Ktp.Life

/-!
# The receiving side of a KTP socket

`RecvInv` ties the free count, the free flags, the valid bits and the slot contents together. Under it thread R never leaves its
arrays and its loops end; `DataStep` lists what it can do with a data message (`handleData_step`) and `takeMessage_some` what
`k_recvfrom` can do, and both keep the invariant.
-/

namespace NetLabs.Ktp

open Function Loop Slots Machine

/-- The invariant of the receiving side: `rwnd.size` counts the free slots, the window starts at a number of the ring that has
not been taken in, a number taken in is held in a slot in use, and the slots noted are slots. -/
structure RecvInv (r : RecvSide) : Prop where
  size_eq : r.rwnd.size = (freeCount r.rbuffFree : Int)
  start_pos : 1 ≤ r.rwnd.startSequence
  start_le : r.rwnd.startSequence ≤ 255
  start_open : r.rwnd.validSeqNum r.rwnd.startSequence = true
  held : ∀ q, r.rwnd.validSeqNum q = false → ∃ i, r.rbuffFree i = false ∧ seqByte (r.recvBuffer i) = q
  noted : ∀ q, -1 ≤ r.rwnd.indexSeqNum q ∧ r.rwnd.indexSeqNum q ≤ 9

/-- The number is held in a slot. -/
def Held (r : RecvSide) (q : Nat) : Prop := ∃ j, r.rbuffFree j = false ∧ seqByte (r.recvBuffer j) = q

/-- A number stays held when a buffer is put into a free slot. -/
theorem Held.put {r : RecvSide} {q : Nat} {i : Slot} (h : Held r q) (hi : r.rbuffFree i = true) (b : Message) :
    ∃ j, update r.rbuffFree i false j = false ∧ seqByte (update r.recvBuffer i b j) = q := by
  obtain ⟨j, hj, hjq⟩ := h
  have hji : j ≠ i := by
    rintro rfl
    rw [hi] at hj
    cases hj
  exact ⟨j, by rw [update_of_ne hji]; exact hj, by rw [update_of_ne hji]; exact hjq⟩

/-- What `init_ksocket` writes satisfies the invariant. -/
theorem recvInv_fresh : RecvInv freshProtocol.toRecvSide where
  size_eq := by decide
  start_pos := by decide
  start_le := by decide
  start_open := rfl
  held q h := by cases h
  noted q := by simp [freshProtocol]

namespace RecvInv

variable {r : RecvSide}

theorem size_nonneg (h : RecvInv r) : 0 ≤ r.rwnd.size := by
  rw [h.size_eq]
  exact Int.natCast_nonneg _

theorem size_le (h : RecvInv r) : r.rwnd.size ≤ 10 := by
  have := freeCount_le r.rbuffFree
  rw [Fintype.card_fin] at this
  rw [h.size_eq]
  omega

/-- Where there is room, the search for a free slot finds one. -/
theorem exists_free (h : RecvInv r) (hs : 0 < r.rwnd.size) : ∃ i, firstFree r.rbuffFree = some i := by
  rw [← Option.isSome_iff_exists, Option.isSome_iff_ne_none, Ne, firstFree_eq_none]
  intro hall
  have hpos : 0 < freeCount r.rbuffFree := by
    have := h.size_eq
    omega
  obtain ⟨i, hi⟩ := freeCount_pos.1 hpos
  rw [hall i] at hi
  cases hi

/-- The flag is not part of the invariant. -/
theorem flag (h : RecvInv r) (f : Bool) : RecvInv { r with noSpaceFlags := f } where
  size_eq := h.size_eq
  start_pos := h.start_pos
  start_le := h.start_le
  start_open := h.start_open
  held := h.held
  noted := h.noted

/-- With a buffer put into a free slot, its number is held there and the numbers taken in before where they were. -/
theorem held_put (h : RecvInv r) {i : Slot} (hi : r.rbuffFree i = true) (b : Message) {q : Nat}
    (hq : r.rwnd.validSeqNum q = false ∨ q = seqByte b) :
    ∃ j, update r.rbuffFree i false j = false ∧ seqByte (update r.recvBuffer i b j) = q := by
  rcases hq with hq | rfl
  · exact Held.put (h.held q hq) hi b
  · exact ⟨i, by simp, by simp⟩

end RecvInv

/-! ## The loops of thread R end -/

/-- Ten slots cannot hold all 255 numbers: one of them has not been taken in. -/
theorem exists_open {free : Slot → Bool} {buffer : Slot → Message} {valid : Nat → Bool}
    (held : ∀ q, valid q = false → ∃ i, free i = false ∧ seqByte (buffer i) = q) :
    ∃ y, 1 ≤ y ∧ y ≤ 255 ∧ valid y = true := by
  by_contra hno
  have hclosed : ∀ y ∈ Finset.Icc 1 255, ∃ i, free i = false ∧ seqByte (buffer i) = y := by
    intro y hy
    rw [Finset.mem_Icc] at hy
    refine held y ?_
    cases hv : valid y with
    | false => rfl
    | true => exact absurd ⟨y, hy.1, hy.2, hv⟩ hno
  choose! slot hfree hbyte using hclosed
  have hcard := held_card_le (Finset.Icc 1 255) slot hfree
    (fun x hx y hy hxy => by rw [← hbyte x hx, ← hbyte y hy, hxy])
  rw [Nat.card_Icc, Fintype.card_fin] at hcard
  omega

/-- The loop that advances `start_sequence` ends, at a number of the ring that has not been taken in. -/
theorem advanceStart_ends {free : Slot → Bool} {buffer : Slot → Message} {valid : Nat → Bool} {start : Nat}
    (held : ∀ q, valid q = false → ∃ i, free i = false ∧ seqByte (buffer i) = q) (hpos : 1 ≤ start) (hle : start ≤ 255) :
    ∃ z, advanceStart valid start = .ok z ∧ (1 ≤ z ∧ z ≤ 255) ∧ valid z = true := by
  obtain ⟨y, hy1, hy2, hy⟩ := exists_open held
  exact Ring.scan_ends hpos hle hy1 hy2 hy (by decide)

/-- It ends right after the number just taken in, where the next one has not been. -/
theorem advanceStart_next {valid : Nat → Bool} {q : Nat} (h : valid (next q) = true) :
    advanceStart (update valid q false) q = .ok (next q) := by
  refine Eq.trans (loopWhile_step ?_ rfl) (loopWhile_done ?_)
  · simp
  · rw [update_of_ne (Ring.next_ne (by decide)), h]
    rfl

/-- So it ends after the next message expected has been put into a free slot. -/
theorem RecvInv.advance {r : RecvSide} (h : RecvInv r) {i : Slot} (hi : r.rbuffFree i = true) {b : Message}
    (hstart : r.rwnd.startSequence = seqByte b) :
    ∃ z, advanceStart (update r.rwnd.validSeqNum (seqByte b) false) (seqByte b) = .ok z ∧ (1 ≤ z ∧ z ≤ 255) ∧
      update r.rwnd.validSeqNum (seqByte b) false z = true := by
  rw [← hstart]
  exact advanceStart_ends (fun q hq => h.held_put hi b (hstart ▸ used_take.1 hq)) h.start_pos h.start_le

/-- The search for a missing number stops at once: `start_sequence` itself is missing. -/
theorem backAcknowledged_eq {r : RecvSide} (h : RecvInv r) (q : Nat) :
    backAcknowledged r q = .ok (r.rwnd.startSequence == q) := by
  unfold backAcknowledged
  rw [loopWhile_done (by simp [h.start_open])]

/-! ## What thread R does with a data message -/

/-- The receiving side after a message taken in in order, in slot `i`, with the window moved to `start`. -/
def takenInOrder (r : RecvSide) (i : Slot) (buffer : Message) (start : Nat) : RecvSide :=
  { takeSpace (putSlot r i buffer) with
    rwnd := { (takeSpace (putSlot r i buffer)).rwnd with
      validSeqNum := update r.rwnd.validSeqNum (seqByte buffer) false
      startSequence := start } }

/-- The slot of a message ahead of order is inside the buffer. -/
theorem slot?_earlyIndex {r : RecvSide} (h : RecvInv r) {q : Nat} (hq : 1 ≤ q) (hq' : q ≤ 255)
    (hne : q ≠ r.rwnd.startSequence) : ∃ i, slot? (earlyIndex r q) = .ok i := by
  obtain ⟨hlo, hhi⟩ := h.noted r.rwnd.startSequence
  have h1 := h.start_pos
  have h2 := h.start_le
  have hdiff : 1 ≤ ((q : Int) - r.rwnd.startSequence + 255).tmod 255 := by
    rw [Int.tmod_eq_emod_of_nonneg (by omega)]
    omega
  have hindex : 0 ≤ earlyIndex r q ∧ earlyIndex r q < 10 := by
    unfold earlyIndex
    rw [Int.tmod_eq_emod_of_nonneg (by omega)]
    omega
  unfold slot?
  rw [dif_pos hindex]
  exact ⟨_, rfl⟩

/-- Thread R takes the message in ahead of order: an earlier one is missing, its number is in the window and has not been taken
in, and its slot is free. -/
def AcceptsEarly (r : RecvSide) (seqNum : Nat) : Prop :=
  seqNum ≠ r.rwnd.startSequence ∧ inWindow r seqNum = true ∧ r.rwnd.validSeqNum seqNum = true ∧
    ∃ i, slot? (earlyIndex r seqNum) = .ok i ∧ r.rbuffFree i = true

/-- Nothing is taken in ahead of order by a window that has not moved and has all its space. -/
theorem not_acceptsEarly {r : RecvSide} (hstart : r.rwnd.startSequence = 1) (hsize : r.rwnd.size = 10) (q : Nat) :
    ¬AcceptsEarly r q := by
  rintro ⟨hne, hw, -, -⟩
  obtain ⟨hpast, hin⟩ := of_decide_eq_true hw
  rw [hstart] at hne hpast hin
  rw [hsize] at hin
  have hin : (q : Int) ≤ 1 := hin
  omega

/-- Thread R decides to take a data message in. -/
def Accepts (r : RecvSide) (seqNum : Nat) : Prop := inOrder r seqNum = true ∨ AcceptsEarly r seqNum

/-- The acknowledgements sent for a message in order: one more when a slot carries its number already. -/
def acksInOrder (r : RecvSide) (seqNum : Nat) : List Datagram :=
  (if (List.finRange 10).any (fun j => seqByte (r.recvBuffer j) == seqNum) then [ackDatagram seqNum r.rwnd.size] else []) ++
    [ackDatagram seqNum (r.rwnd.size - 1)]

theorem mem_acksInOrder {r : RecvSide} {q : Nat} {d : Datagram} (h : d ∈ acksInOrder r q) : ∃ w, d = ackDatagram q w := by
  unfold acksInOrder at h
  rw [List.mem_append, List.mem_singleton] at h
  rcases h with h | rfl
  · split at h
    · exact ⟨_, List.mem_singleton.1 h⟩
    · cases h
  · exact ⟨_, rfl⟩

/-- What thread R can do with a data message: leave everything as it is, take it in ahead of order, or take it in in order. -/
inductive DataStep (p : Protocol) (b : Message) : Protocol → List Datagram → Prop where
  | ignored (h : ¬Accepts p.toRecvSide (seqByte b)) : DataStep p b p []
  | early (i : Slot) (hfree : p.rbuffFree i = true) (h : AcceptsEarly p.toRecvSide (seqByte b)) :
      DataStep p b (p.withRecv (takeSpace (putSlot p.toRecvSide i b))) []
  | inOrder (i : Slot) (start : Nat) (hfree : p.rbuffFree i = true) (hstart : p.rwnd.startSequence = seqByte b)
      (hsize : 0 < p.rwnd.size) (hadv : advanceStart (update p.rwnd.validSeqNum (seqByte b) false) (seqByte b) = .ok start) :
      DataStep p b { p with toRecvSide := takenInOrder p.toRecvSide i b start, lastAckReceived := seqByte b }
        (acksInOrder p.toRecvSide (seqByte b))

/-- A number in the window is a number of the ring. -/
theorem inWindow_pos {r : RecvSide} (h : RecvInv r) {q : Nat} (hw : inWindow r q = true) : 1 ≤ q := by
  have h1 := h.start_pos
  simp only [inWindow, decide_eq_true_eq] at hw
  by_contra hq
  obtain rfl : q = 0 := by omega
  omega

theorem storeEarly_step {r : RecvSide} (h : RecvInv r) {b : Message} (hw : inWindow r (seqByte b) = true) :
    (¬AcceptsEarly r (seqByte b) ∧ storeEarly r b = .ok r) ∨
      (AcceptsEarly r (seqByte b) ∧
        ∃ i, r.rbuffFree i = true ∧ storeEarly r b = .ok (takeSpace (putSlot r i b))) := by
  have hlt := seqByte_lt b
  unfold storeEarly
  rw [backAcknowledged_eq h]
  by_cases hs : seqByte b = r.rwnd.startSequence
  · left
    exact ⟨fun ha => ha.1 hs, by simp [hs]⟩
  · obtain ⟨i, hi⟩ := slot?_earlyIndex h (inWindow_pos h hw) (by omega) hs
    have hne : (r.rwnd.startSequence == seqByte b) = false := by simpa using fun h => hs h.symm
    cases hv : r.rwnd.validSeqNum (seqByte b) with
    | false =>
      left
      refine ⟨fun ha => ?_, by simp [hne]⟩
      rw [ha.2.2.1] at hv
      cases hv
    | true =>
      cases hf : r.rbuffFree i with
      | false =>
        left
        refine ⟨?_, by simp [hne, hi, hf]⟩
        rintro ⟨_, _, _, j, hj, hjf⟩
        obtain rfl : i = j := Except.ok.inj (hi.symm.trans hj)
        rw [hf] at hjf
        cases hjf
      | true =>
        right
        exact ⟨⟨hs, hw, hv, i, hi, hf⟩, i, hf, by simp [hne, hi, hf]⟩

/-- Under the invariant thread R handles every data message without leaving an array and without looping for ever, and does
one of the three things `DataStep` lists. -/
theorem handleData_step {p : Protocol} (h : RecvInv p.toRecvSide) (b : Message) :
    ∃ p' out, handleData p b = .ok (p', out) ∧ DataStep p b p' out := by
  unfold handleData
  cases ho : inOrder p.toRecvSide (seqByte b) with
  | true =>
    obtain ⟨hstart, hsize⟩ : p.rwnd.startSequence = seqByte b ∧ 0 < p.rwnd.size := by simpa [inOrder] using ho
    obtain ⟨i, hi⟩ := h.exists_free hsize
    have hfree := firstFree_eq_some hi
    have hne : seqByte b ≠ 0 := by
      have := h.start_pos
      omega
    obtain ⟨start, hadv, -⟩ := h.advance hfree hstart
    refine ⟨_, _, ?_, DataStep.inOrder i start hfree hstart hsize hadv⟩
    simp only [↓reduceIte, hne, storeInOrder, hi]
    have hadv' : advanceStart (update (takeSpace (putSlot p.toRecvSide i b)).rwnd.validSeqNum (seqByte b) false)
        (takeSpace (putSlot p.toRecvSide i b)).rwnd.startSequence = .ok start := hstart ▸ hadv
    rw [hadv']
    rfl
  | false =>
    have hno : inOrder p.toRecvSide (seqByte b) ≠ true := by simp [ho]
    cases hw : inWindow p.toRecvSide (seqByte b) with
    | false =>
      refine ⟨p, [], by simp, DataStep.ignored ?_⟩
      rintro (ha | ha)
      · exact hno ha
      · rw [ha.2.1] at hw
        cases hw
    | true =>
      rcases storeEarly_step h hw with ⟨hn, he⟩ | ⟨ha, i, hi, he⟩
      · refine ⟨p, [], by simp [he], DataStep.ignored ?_⟩
        rintro (ha | ha)
        · exact hno ha
        · exact hn ha
      · exact ⟨_, [], by simp [he], DataStep.early i hi ha⟩

/-! ## The invariant is kept -/

/-- A message put into a free slot. -/
theorem RecvInv.put {r : RecvSide} (h : RecvInv r) {i : Slot} (hi : r.rbuffFree i = true) (b : Message) :
    RecvInv (takeSpace (putSlot r i b)) where
  size_eq := by
    have hc := freeCount_take hi
    have hs := h.size_eq
    show r.rwnd.size - 1 = (freeCount (update r.rbuffFree i false) : Int)
    omega
  start_pos := h.start_pos
  start_le := h.start_le
  start_open := h.start_open
  held _ hq := h.held_put hi b (Or.inl hq)
  noted q := by
    have hi' := i.isLt
    have := h.noted q
    simp only [takeSpace, putSlot, update_apply]
    split <;> omega

/-- A message taken in in order, with the window moved on. -/
theorem RecvInv.inOrder {r : RecvSide} (h : RecvInv r) {i : Slot} (hi : r.rbuffFree i = true) {b : Message} {start : Nat}
    (hadv : advanceStart (update r.rwnd.validSeqNum (seqByte b) false) (seqByte b) = .ok start)
    (hstart : r.rwnd.startSequence = seqByte b) : RecvInv (takenInOrder r i b start) := by
  have hput := h.put hi b
  obtain ⟨z, hz, hring, hopen⟩ := h.advance hi hstart
  obtain rfl : start = z := Except.ok.inj (hadv.symm.trans hz)
  exact ⟨hput.size_eq, hring.1, hring.2, hopen, fun q hq => h.held_put hi b (used_take.1 hq), hput.noted⟩

/-- Whatever thread R does with a data message keeps the invariant. -/
theorem DataStep.recvInv {p p' : Protocol} {b : Message} {out : List Datagram} (hs : DataStep p b p' out)
    (h : RecvInv p.toRecvSide) : RecvInv p'.toRecvSide := by
  cases hs with
  | ignored => exact h
  | early i hfree => exact h.put hfree b
  | inOrder i start hfree hstart hsize hadv => exact h.inOrder hfree hadv hstart

/-- A data message is put into a free slot when thread R decides to take it in, and otherwise changes nothing. -/
theorem DataStep.stores {p p' : Protocol} {b : Message} {out : List Datagram} (hs : DataStep p b p' out) :
    (Accepts p.toRecvSide (seqByte b) ∧ ∃ i, p.rbuffFree i = true ∧ p'.rbuffFree = update p.rbuffFree i false ∧
        p'.recvBuffer = update p.recvBuffer i b) ∨
      (¬Accepts p.toRecvSide (seqByte b) ∧ p' = p ∧ out = []) := by
  cases hs with
  | ignored hn => exact Or.inr ⟨hn, rfl, rfl⟩
  | early i hfree ha => exact Or.inl ⟨Or.inr ha, i, hfree, rfl, rfl⟩
  | inOrder i start hfree hstart hsize hadv => exact Or.inl ⟨Or.inl (decide_eq_true ⟨hstart, hsize⟩), i, hfree, rfl, rfl⟩

/-- A datagram that is no acknowledgement and is not dropped is handled as data. -/
theorem threadR_data {p : Protocol} {d : Datagram} (h : RecvInv p.toRecvSide) (hd : d.isAckFrame = false) (hlen : d.len ≠ 0) :
    ∃ p' out, threadR p d false = .ok (p', out) ∧ DataStep p d.buffer p' out := by
  obtain ⟨p', out, hp, hstep⟩ := handleData_step h d.buffer
  exact ⟨p', out, by simp [threadR, hlen, hd, hp], hstep⟩

/-- What thread R can do with a datagram: leave everything as it is, act on it as an acknowledgement, or handle it as data. -/
theorem threadR_cases {p p' : Protocol} {d : Datagram} {dropped : Bool} {out : List Datagram} (h : RecvInv p.toRecvSide)
    (hs : threadR p d dropped = .ok (p', out)) :
    (p' = p ∧ out = [] ∧ d.actsAsAck = false ∧ (d.isAckFrame = true ∨ d.len = 0 ∨ dropped = true)) ∨ d.actsAsAck = true ∨
      (d.isAckFrame = false ∧ d.len ≠ 0 ∧ dropped = false ∧ DataStep p d.buffer p' out) := by
  cases hd : d.isAckFrame with
  | true =>
    cases ha : d.actsAsAck with
    | true => exact Or.inr (Or.inl rfl)
    | false =>
      rw [threadR_idle p dropped hd ha] at hs
      cases hs
      exact Or.inl ⟨rfl, rfl, rfl, Or.inl rfl⟩
  | false =>
    have ha : d.actsAsAck = false := by simp [Datagram.actsAsAck, hd]
    by_cases hlen : d.len = 0
    · simp only [threadR, hlen, ↓reduceIte] at hs
      cases hs
      exact Or.inl ⟨rfl, rfl, ha, Or.inr (Or.inl hlen)⟩
    · cases dropped with
      | true =>
        simp only [threadR, hlen, hd, Bool.false_eq_true, ↓reduceIte] at hs
        cases hs
        exact Or.inl ⟨rfl, rfl, ha, Or.inr (Or.inr rfl)⟩
      | false =>
        obtain ⟨p1, out1, hp, hstep⟩ := threadR_data h hd hlen
        rw [hp] at hs
        cases hs
        exact Or.inr (Or.inr ⟨rfl, hlen, rfl, hstep⟩)

/-! ## What `k_recvfrom` does -/

/-- The search over a list of slots: nothing in use, or the slot in use with the smallest number. -/
theorem foldl_pickStep (r : RecvSide) (l : List Slot) :
    (l.foldl (pickStep r) (none, 257) = (none, 257) ∧ ∀ j ∈ l, r.rbuffFree j = true) ∨
      ∃ i, l.foldl (pickStep r) (none, 257) = (some i, seqByte (r.recvBuffer i)) ∧ r.rbuffFree i = false ∧
        ∀ j ∈ l, r.rbuffFree j = false → seqByte (r.recvBuffer i) ≤ seqByte (r.recvBuffer j) := by
  induction l using List.reverseRecOn with
  | nil => exact Or.inl ⟨rfl, by simp⟩
  | append_singleton l a ih =>
    rw [List.foldl_append]
    simp only [List.foldl_cons, List.foldl_nil, List.mem_append, List.mem_singleton]
    cases ha : r.rbuffFree a with
    | true =>
      have hskip : ∀ x, pickStep r x a = x := fun x => by simp [pickStep, ha]
      rw [hskip]
      rcases ih with ⟨he, hall⟩ | ⟨i, he, hi, hmin⟩
      · refine Or.inl ⟨he, ?_⟩
        rintro j (hj | rfl)
        · exact hall j hj
        · exact ha
      · refine Or.inr ⟨i, he, hi, ?_⟩
        rintro j (hj | rfl) hjf
        · exact hmin j hj hjf
        · rw [ha] at hjf
          cases hjf
    | false =>
      rcases ih with ⟨he, hall⟩ | ⟨i, he, hi, hmin⟩
      · refine Or.inr ⟨a, by simp [he, pickStep, ha], ha, ?_⟩
        rintro j (hj | rfl) hjf
        · rw [hall j hj] at hjf
          cases hjf
        · exact Nat.le_refl _
      · by_cases hlt : seqByte (r.recvBuffer a) < seqByte (r.recvBuffer i)
        · refine Or.inr ⟨a, by simp [he, pickStep, ha, hlt], ha, ?_⟩
          rintro j (hj | rfl) hjf
          · exact Nat.le_trans (Nat.le_of_lt hlt) (hmin j hj hjf)
          · exact Nat.le_refl _
        · refine Or.inr ⟨i, by simp [he, pickStep, ha, hlt], hi, ?_⟩
          rintro j (hj | rfl) hjf
          · exact hmin j hj hjf
          · omega

/-- `pick` finds nothing when every slot is free. -/
theorem pick_none {r : RecvSide} (h : ∀ j, r.rbuffFree j = true) : pick r = (none, 257) := by
  rcases foldl_pickStep r (List.finRange 10) with ⟨he, -⟩ | ⟨i, -, hi, -⟩
  · exact he
  · rw [h i] at hi
    cases hi

/-- `pick` finds the slot in use with the smallest number. -/
theorem pick_some {r : RecvSide} {j : Slot} (hj : r.rbuffFree j = false) :
    ∃ i, pick r = (some i, seqByte (r.recvBuffer i)) ∧ r.rbuffFree i = false ∧
      ∀ k, r.rbuffFree k = false → seqByte (r.recvBuffer i) ≤ seqByte (r.recvBuffer k) := by
  rcases foldl_pickStep r (List.finRange 10) with ⟨-, hall⟩ | ⟨i, he, hi, hmin⟩
  · rw [hall j (List.mem_finRange j)] at hj
    cases hj
  · exact ⟨i, he, hi, fun k hk => hmin k (List.mem_finRange k) hk⟩

/-- The message `k_recvfrom` takes: the one with the smallest number among the slots in use, when that number is not past the
start of the window. -/
theorem takeMessage_some {r r' : RecvSide} {message : List UInt8} (h : takeMessage r = some (message, r')) :
    ∃ i, r.rbuffFree i = false ∧ seqByte (r.recvBuffer i) ≤ r.rwnd.startSequence ∧
      (∀ k, r.rbuffFree k = false → seqByte (r.recvBuffer i) ≤ seqByte (r.recvBuffer k)) ∧
      message = slotString r i ∧ r' = freeSlot r i (seqByte (r.recvBuffer i)) := by
  by_cases hall : ∀ j, r.rbuffFree j = true
  · simp [takeMessage, pick_none hall] at h
  · simp only [not_forall, Bool.not_eq_true] at hall
    obtain ⟨j, hj⟩ := hall
    obtain ⟨i, hp, hi, hmin⟩ := pick_some hj
    unfold takeMessage at h
    rw [hp] at h
    split at h
    · cases h
    · rename_i hc
      simp only [Option.some.injEq, Prod.mk.injEq] at h
      exact ⟨i, hi, by simp only at hc; omega, hmin, h.1.symm, h.2.symm⟩

/-- `k_recvfrom` takes a message whose number is smaller than every other number held, when it is not past the start of the window. -/
theorem takeMessage_smallest {r : RecvSide} {i : Slot} (hi : r.rbuffFree i = false)
    (hmin : ∀ k, r.rbuffFree k = false → k ≠ i → seqByte (r.recvBuffer i) < seqByte (r.recvBuffer k))
    (hle : seqByte (r.recvBuffer i) ≤ r.rwnd.startSequence) :
    takeMessage r = some (slotString r i, freeSlot r i (seqByte (r.recvBuffer i))) := by
  obtain ⟨j, hp, hj, hall⟩ := pick_some hi
  have hji : j = i := by
    by_contra hne
    have := hmin j hj hne
    have := hall i hi
    omega
  subst hji
  have hlt := seqByte_lt (r.recvBuffer j)
  unfold takeMessage
  rw [hp, if_neg (by simp only; omega)]

/-- A slot in use given back. -/
theorem RecvInv.give {r : RecvSide} (h : RecvInv r) {i : Slot} (hi : r.rbuffFree i = false) :
    RecvInv (freeSlot r i (seqByte (r.recvBuffer i))) where
  size_eq := by
    have hc := freeCount_give hi
    have hs := h.size_eq
    have hle := freeCount_le (update r.rbuffFree i true)
    rw [Fintype.card_fin] at hle
    show (if 10 < r.rwnd.size + 1 then 10 else r.rwnd.size + 1) = (freeCount (update r.rbuffFree i true) : Int)
    rw [if_neg (by omega)]
    omega
  start_pos := h.start_pos
  start_le := h.start_le
  start_open := by
    show update r.rwnd.validSeqNum (seqByte (r.recvBuffer i)) true r.rwnd.startSequence = true
    rw [update_apply, h.start_open, ite_self]
  held q hq := by
    obtain ⟨hq, hne⟩ := used_give.1 hq
    obtain ⟨j, hj, hjq⟩ := h.held q hq
    have hji : j ≠ i := by
      rintro rfl
      exact hne hjq.symm
    exact ⟨j, by simp [freeSlot, hji, hj], by simp [freeSlot, hji, hjq]⟩
  noted q := by
    have := h.noted q
    simp only [freeSlot, update_apply]
    split <;> omega

/-- `k_recvfrom` keeps the invariant. -/
theorem recvInv_takeMessage {r r' : RecvSide} {message : List UInt8} (h : RecvInv r)
    (ht : takeMessage r = some (message, r')) : RecvInv r' := by
  obtain ⟨i, hi, -, -, -, rfl⟩ := takeMessage_some ht
  exact h.give hi

/-! ## Every run -/

/-- The events of a receiving socket: data datagrams, rounds of thread R and calls of `k_recvfrom`. -/
def Event.isReceiving : Event → Bool
  | .recvfrom _ => true
  | .datagram d _ => !d.isAckFrame
  | .update => true
  | _ => false

/-- A data message leaves the sending side alone. -/
theorem DataStep.toSendSide {p p' : Protocol} {b : Message} {out : List Datagram} (hs : DataStep p b p' out) :
    p'.toSendSide = p.toSendSide := by
  cases hs <;> rfl

/-- A receiving event can be handled; it keeps the invariant and leaves the sending side and the control fields alone. -/
theorem Entry.receiving_step {e : Entry} {ev : Event} (h : RecvInv e.toRecvSide) (hev : ev.isReceiving = true) :
    ∃ e' out, e.step ev = .ok (e', out) ∧ RecvInv e'.toRecvSide ∧ e'.toSendSide = e.toSendSide ∧ e'.toControl = e.toControl := by
  cases ev with
  | recvfrom self =>
    rcases kRecvfrom_cases e self with he | ⟨m, r, ht, -, he⟩
    · exact ⟨e, [], by simp only [Entry.step, he], h, rfl, rfl⟩
    · exact ⟨e.withProtocol (e.toProtocol.withRecv r), [], by simp only [Entry.step, he], recvInv_takeMessage h ht, rfl, rfl⟩
  | update =>
    rcases windowUpdate_cases e with he | ⟨-, -, -, he⟩
    · exact ⟨e, [], by simp only [Entry.step, he], h, rfl, rfl⟩
    · exact ⟨e.withProtocol (e.toProtocol.withRecv { e.toRecvSide with noSpaceFlags := false }), _, by
        simp only [Entry.step, he]; rfl, h.flag false, rfl, rfl⟩
  | datagram d dropped =>
    have hd : d.isAckFrame = false := by simpa [Event.isReceiving] using hev
    have hcases : ∃ p' out', threadR e.toProtocol d dropped = .ok (p', out') ∧ RecvInv p'.toRecvSide ∧
        p'.toSendSide = e.toSendSide := by
      by_cases hlen : d.len = 0
      · exact ⟨_, [], by simp only [threadR, hlen, ↓reduceIte], h, rfl⟩
      · cases dropped with
        | true => exact ⟨_, [], by simp [threadR, hlen, hd], h, rfl⟩
        | false =>
          obtain ⟨p, out, hp, hstep⟩ := threadR_data h hd hlen
          exact ⟨p, out, hp, hstep.recvInv h, hstep.toSendSide⟩
    obtain ⟨p', out', ht, hinv, hsend⟩ := hcases
    exact ⟨e.withProtocol p', out', by simp [Entry.step, ht], hinv, hsend, rfl⟩
  | _ => cases hev

theorem receiving_step (l : Life) (ev : Event) (h : RecvInv l.entry.toRecvSide) (hev : ev.isReceiving = true) :
    ∃ l', l.after ev = some l' ∧ RecvInv l'.entry.toRecvSide := by
  obtain ⟨e', out, hs, hinv, -⟩ := Entry.receiving_step h hev
  exact ⟨_, Life.after_eq_some.2 ⟨e', out, hs, rfl⟩, hinv⟩

/-- Receiving events are handled one after another, and the invariant holds where they end. -/
theorem receiving_run {e : Entry} {es : List Event} (hfresh : e.toProtocol = freshProtocol)
    (hes : ∀ ev ∈ es, ev.isReceiving = true) :
    ∃ l, exec Life.after (Life.begin e) es = some l ∧ RecvInv l.entry.toRecvSide := by
  have h0 : RecvInv (Life.begin e).entry.toRecvSide := by
    show RecvInv e.toProtocol.toRecvSide
    rw [hfresh]
    exact recvInv_fresh
  exact exec_total (g := fun _ (ev : Event) => ev.isReceiving = true) receiving_step h0 (meets_of_forall hes)

/-- The representation invariant of a receiving socket. From the state `init_ksocket` writes, every sequence of data datagrams
(any bytes, any losses and repetitions), rounds of thread R and calls of `k_recvfrom` is handled without an index outside the
slots and without an endless loop, and ends in a state where `rwnd.size` is the number of free slots, `start_sequence` is a number
of the ring, every number taken in is held in an unread slot, and a data message is stored, in a slot that was free, whenever
thread R decides to take it in, and otherwise changes nothing. -/
theorem receiver_representation (e : Entry) (hfresh : e.toProtocol = freshProtocol) (es : List Event)
    (hes : ∀ ev ∈ es, ev.isReceiving = true) :
    ∃ l, exec Life.after (Life.begin e) es = some l ∧
      (l.entry.rwnd.size = (freeCount l.entry.rbuffFree : Int) ∧ 0 ≤ l.entry.rwnd.size ∧ l.entry.rwnd.size ≤ 10) ∧
      (1 ≤ l.entry.rwnd.startSequence ∧ l.entry.rwnd.startSequence ≤ 255) ∧
      (∀ q, l.entry.rwnd.validSeqNum q = false →
        ∃ i, l.entry.rbuffFree i = false ∧ seqByte (l.entry.recvBuffer i) = q) ∧
      ∀ b : Message, ∃ p' out, handleData l.entry.toProtocol b = .ok (p', out) ∧
        (Accepts l.entry.toRecvSide (seqByte b) → ∃ i, l.entry.rbuffFree i = true ∧
          p'.rbuffFree = update l.entry.rbuffFree i false ∧ p'.recvBuffer = update l.entry.recvBuffer i b) ∧
        (¬Accepts l.entry.toRecvSide (seqByte b) → p' = l.entry.toProtocol ∧ out = []) := by
  obtain ⟨l, hx, hinv⟩ := receiving_run hfresh hes
  refine ⟨l, hx, ⟨hinv.size_eq, hinv.size_nonneg, hinv.size_le⟩, ⟨hinv.start_pos, hinv.start_le⟩, hinv.held, fun b => ?_⟩
  obtain ⟨p', out, hp, hstep⟩ := handleData_step hinv b
  refine ⟨p', out, hp, ?_⟩
  rcases hstep.stores with ⟨ha, hput⟩ | ⟨hn, hsame⟩
  · exact ⟨fun _ => hput, fun hn => absurd ha hn⟩
  · exact ⟨fun ha => absurd ha hn, fun _ => hsame⟩

/-- `receiver_representation` on a message in order, one ahead of order and a call of `k_recvfrom`. -/
theorem receiver_representation_three :
    ∃ l, exec Life.after (Life.begin boundEntry)
        [.datagram (dataDatagram (frame (fun _ => 0) 1 0 [104, 105])) false,
          .datagram (dataDatagram (frame (fun _ => 0) 3 1 [33])) false, .recvfrom 7] = some l ∧
      l.entry.rwnd.size = (freeCount l.entry.rbuffFree : Int) := by
  obtain ⟨l, hx, hsize, -⟩ := receiver_representation boundEntry rfl
    [.datagram (dataDatagram (frame (fun _ => 0) 1 0 [104, 105])) false,
      .datagram (dataDatagram (frame (fun _ => 0) 3 1 [33])) false, .recvfrom 7] (by decide)
  exact ⟨l, hx, hsize.1⟩

end NetLabs.Ktp
