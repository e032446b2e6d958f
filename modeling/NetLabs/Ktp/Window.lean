import NetLabs.Ktp.Sender
import NetLabs.Ktp.Receiver

/-!
# The window of the receiver

`RecvWindow r sent k read` says what the receiving side holds of the messages a peer has sent, as long as the numbers have not
started again: `k` messages have been taken in in order and `read` of them returned, every slot in use holds the message of its
number, and no number is held twice. Then the message `k_recvfrom` picks is the next one to be returned (`RecvWindow.take`). Once
message 255 has been taken in the window starts at 1 again with that message unread (`Wrapped`).
-/

namespace NetLabs.Ktp

open Function Loop Slots

/-- A datagram's bytes are those of message `m`, in some slot of the sender. -/
def Carries (sent : List (List UInt8)) (m : Nat) (b : Message) : Prop :=
  ∃ j msg, sent[m]? = some msg ∧ HoldsFrame b (num m) j msg

theorem Carries.seqByte_eq {sent : List (List UInt8)} {m : Nat} {b : Message} (h : Carries sent m b) : seqByte b = num m := by
  obtain ⟨j, msg, -, hframe⟩ := h
  exact hframe.seqByte_eq (Ring.num_le (by decide))

theorem Carries.lt {sent : List (List UInt8)} {m : Nat} {b : Message} (h : Carries sent m b) : m < sent.length := by
  obtain ⟨j, msg, hm, -⟩ := h
  exact (List.getElem?_eq_some_iff.1 hm).1

theorem Carries.append {sent : List (List UInt8)} {m : Nat} {b : Message} (h : Carries sent m b) (more : List (List UInt8)) :
    Carries (sent ++ more) m b := by
  have hlt := h.lt
  obtain ⟨j, msg, hm, hframe⟩ := h
  exact ⟨j, msg, by rw [List.getElem?_append_left hlt, hm], hframe⟩

/-! ## The string in a slot -/

theorem cstringAt_eq {mem : Nat → UInt8} {msg : List UInt8} {n a : Nat}
    (hmem : ∀ t (ht : t < msg.length), mem (a + t) = msg[t]) (hend : mem (a + msg.length) = 0) (hplain : (0 : UInt8) ∉ msg)
    (hn : msg.length < n) : cstringAt mem n a = msg := by
  induction msg generalizing n a with
  | nil =>
    obtain ⟨n, rfl⟩ : ∃ n', n = n' + 1 := ⟨n - 1, by simp only [List.length_nil] at hn; omega⟩
    rw [cstringAt, if_pos (by simpa using hend)]
  | cons c msg ih =>
    obtain ⟨n, rfl⟩ : ∃ n', n = n' + 1 := ⟨n - 1, by simp only [List.length_cons] at hn; omega⟩
    rw [List.mem_cons, not_or] at hplain
    have hc : mem a = c := hmem 0 (by simp)
    rw [cstringAt, if_neg (by rw [hc]; exact fun h => hplain.1 h.symm), hc, ih]
    · intro t ht
      have := hmem (t + 1) (by simpa using ht)
      rw [show a + 1 + t = a + (t + 1) by omega, this, List.getElem_cons_succ]
    · rw [← hend, List.length_cons]
      congr 1
      omega
    · exact hplain.2
    · simp only [List.length_cons] at hn
      omega

/-- The bytes of a slot, as they lie in memory. -/
theorem recvMemory_slot (r : RecvSide) (i : Slot) {t : Nat} (ht : t < 512) :
    recvMemory r (512 * i.val + t) = r.recvBuffer i ⟨t, ht⟩ := by
  have hi := i.isLt
  have hlt : 512 * i.val + t < 5120 := by omega
  have hrow : (512 * i.val + t) / 512 = i.val := by omega
  have hcol : (512 * i.val + t) % 512 = t := by omega
  simp only [recvMemory, dif_pos hlt, hrow, hcol]

/-- `strlen` and `memcpy` on a slot that holds a message without NUL give the message. -/
theorem slotString_frame {r : RecvSide} {i j : Slot} {q : Nat} {msg : List UInt8}
    (h : HoldsFrame (r.recvBuffer i) q j msg) (hplain : (0 : UInt8) ∉ msg) : slotString r i = msg := by
  obtain ⟨hlen, junk, hb⟩ := h
  have hi := i.isLt
  refine cstringAt_eq (fun t ht => ?_) ?_ hplain (by omega)
  · rw [Nat.add_assoc, recvMemory_slot r i (by omega), hb]
    have h1 : 2 + t ≠ 0 := by omega
    have h2 : 2 + t ≠ 1 := by omega
    have h3 : 2 + t < msg.length + 2 := by omega
    have h4 : 2 + t - 2 = t := by omega
    simp only [frame, h1, h2, h3, h4, ↓reduceIte, List.getD, List.getElem?_eq_getElem ht, Option.getD_some]
  · rw [Nat.add_assoc, recvMemory_slot r i (by omega), hb]
    have h1 : 2 + msg.length ≠ 0 := by omega
    have h2 : 2 + msg.length ≠ 1 := by omega
    have h3 : ¬2 + msg.length < msg.length + 2 := by omega
    have h4 : 2 + msg.length = msg.length + 2 := by omega
    simp only [frame, h1, h2, h3, ↓reduceIte]
    rw [if_pos h4]

/-! ## The receiver before the numbers start again -/

/-- `k` messages have been taken in in order and `read` of them returned; the slots in use hold messages not yet returned, each
under its number and no number twice, and the numbers marked as taken in are those taken in in order and not yet returned. -/
structure RecvWindow (r : RecvSide) (sent : List (List UInt8)) (k read : Nat) : Prop where
  inv : RecvInv r
  start_eq : r.rwnd.startSequence = k + 1
  k_le : k ≤ 254
  taken_le : k ≤ sent.length
  read_le : read ≤ k
  valid_iff : ∀ q, r.rwnd.validSeqNum q = false ↔ read < q ∧ q ≤ k
  unread : ∀ i, r.rbuffFree i = false → ∃ m, read ≤ m ∧ m < 255 ∧ Carries sent m (r.recvBuffer i)
  distinct : ∀ i j, r.rbuffFree i = false → r.rbuffFree j = false →
    seqByte (r.recvBuffer i) = seqByte (r.recvBuffer j) → i = j

theorem recvWindow_fresh : RecvWindow freshProtocol.toRecvSide [] 0 0 where
  inv := recvInv_fresh
  start_eq := rfl
  k_le := by decide
  taken_le := Nat.le_refl _
  read_le := Nat.le_refl _
  valid_iff q := ⟨nofun, fun h => by omega⟩
  unread i h := by cases h
  distinct i j h := by cases h

/-- Slot `i` holds the smallest of the numbers held. -/
def Smallest (r : RecvSide) (i : Slot) : Prop :=
  r.rbuffFree i = false ∧ ∀ j, r.rbuffFree j = false → seqByte (r.recvBuffer i) ≤ seqByte (r.recvBuffer j)

namespace RecvWindow

variable {r : RecvSide} {sent : List (List UInt8)} {k read m : Nat} {b : Message} {i : Slot}

theorem append (h : RecvWindow r sent k read) (more : List (List UInt8)) : RecvWindow r (sent ++ more) k read where
  inv := h.inv
  start_eq := h.start_eq
  k_le := h.k_le
  taken_le := by
    have := h.taken_le
    rw [List.length_append]
    omega
  read_le := h.read_le
  valid_iff := h.valid_iff
  unread i hi := by
    obtain ⟨m, h1, h2, hc⟩ := h.unread i hi
    exact ⟨m, h1, h2, hc.append more⟩
  distinct := h.distinct

/-- The flag says nothing about the messages. -/
theorem flag (h : RecvWindow r sent k read) (f : Bool) : RecvWindow { r with noSpaceFlags := f } sent k read where
  inv := h.inv.flag f
  start_eq := h.start_eq
  k_le := h.k_le
  taken_le := h.taken_le
  read_le := h.read_le
  valid_iff := h.valid_iff
  unread := h.unread
  distinct := h.distinct

/-- Ten slots hold what has been taken in and not returned. -/
theorem taken_le_read (h : RecvWindow r sent k read) : k ≤ read + 10 := by
  have hslot : ∀ q ∈ Finset.Ioc read k, ∃ j, r.rbuffFree j = false ∧ seqByte (r.recvBuffer j) = q := by
    intro q hq
    rw [Finset.mem_Ioc] at hq
    exact h.inv.held q ((h.valid_iff q).2 hq)
  choose! slot hfree hbyte using hslot
  have hcard := held_card_le (Finset.Ioc read k) slot hfree
    (fun x hx y hy hxy => by rw [← hbyte x hx, ← hbyte y hy, hxy])
  rw [Nat.card_Ioc, Fintype.card_fin] at hcard
  omega

/-- A message that is the next one expected, among those the sender can have sent. -/
theorem next_message (h : RecvWindow r sent k read) (hc : Carries sent m b) (hlen : sent.length ≤ k + 10)
    (hstart : r.rwnd.startSequence = seqByte b) : m = k := by
  have hlt := hc.lt
  have hk := h.k_le
  have hnum : k + 1 = num m := h.start_eq.symm.trans (hstart.trans hc.seqByte_eq)
  have hnum : k + 1 = 1 + m % 255 := hnum
  omega

/-- A message accepted ahead of order comes after those taken in in order, and has its own number. -/
theorem early_message (h : RecvWindow r sent k read) (hc : Carries sent m b) (hlen : sent.length ≤ k + 10)
    (he : AcceptsEarly r (seqByte b)) : k < m ∧ m < 254 := by
  obtain ⟨hne, hw, -, -⟩ := he
  obtain ⟨hpast, -⟩ := of_decide_eq_true hw
  have hlt := hc.lt
  have hk := h.k_le
  rw [h.start_eq, hc.seqByte_eq] at hne hpast
  have hne : 1 + m % 255 ≠ k + 1 := hne
  have hpast : k + 1 < (1 + m % 255) % 255 + 1 := hpast
  omega

/-- The slots in use after one more message is put into a free slot. -/
theorem put_unread (h : RecvWindow r sent k read) (hc : Carries sent m b) (hm : read ≤ m) (hm' : m < 255) :
    ∀ j, update r.rbuffFree i false j = false →
      ∃ m, read ≤ m ∧ m < 255 ∧ Carries sent m (update r.recvBuffer i b j) := by
  intro j hj
  by_cases hji : j = i
  · subst hji
    rw [update_self]
    exact ⟨m, hm, hm', hc⟩
  · rw [update_of_ne hji] at hj ⊢
    exact h.unread j hj

theorem put_distinct (h : RecvWindow r sent k read) (hnew : ¬Held r (seqByte b)) :
    ∀ j j', update r.rbuffFree i false j = false → update r.rbuffFree i false j' = false →
      seqByte (update r.recvBuffer i b j) = seqByte (update r.recvBuffer i b j') → j = j' := by
  intro j j' hj hj' heq
  by_cases hji : j = i <;> by_cases hji' : j' = i
  · rw [hji, hji']
  · subst hji
    rw [update_of_ne hji'] at hj'
    rw [update_self, update_of_ne hji'] at heq
    exact absurd ⟨j', hj', heq.symm⟩ hnew
  · subst hji'
    rw [update_of_ne hji] at hj
    rw [update_self, update_of_ne hji] at heq
    exact absurd ⟨j, hj, heq⟩ hnew
  · rw [update_of_ne hji] at hj
    rw [update_of_ne hji'] at hj'
    rw [update_of_ne hji, update_of_ne hji'] at heq
    exact h.distinct j j' hj hj' heq

/-- A message taken in ahead of order. -/
theorem early (h : RecvWindow r sent k read) (hc : Carries sent m b) (hlen : sent.length ≤ k + 10)
    (hfree : r.rbuffFree i = true) (he : AcceptsEarly r (seqByte b)) (hnew : ¬Held r (seqByte b)) :
    RecvWindow (takeSpace (putSlot r i b)) sent k read := by
  obtain ⟨h1, h2⟩ := h.early_message hc hlen he
  have hread := h.read_le
  exact ⟨h.inv.put hfree b, h.start_eq, h.k_le, h.taken_le, h.read_le, h.valid_iff, h.put_unread hc (by omega) (by omega),
    h.put_distinct hnew⟩

/-- Where the window goes after a message in order: to the next number, which has not been taken in. -/
theorem advance (h : RecvWindow r sent k read) :
    advanceStart (update r.rwnd.validSeqNum (k + 1) false) (k + 1) = .ok (next (k + 1)) := by
  refine advanceStart_next ?_
  cases hv : r.rwnd.validSeqNum (next (k + 1)) with
  | true => rfl
  | false =>
    obtain ⟨h1, h2⟩ := (h.valid_iff _).1 hv
    have hk := h.k_le
    have htaken := h.taken_le_read
    have h1 : read < 1 + (k + 1) % 255 := h1
    have h2 : 1 + (k + 1) % 255 ≤ k := h2
    omega

theorem advance_eq {start : Nat} (h : RecvWindow r sent k read) (hbyte : seqByte b = k + 1)
    (hadv : advanceStart (update r.rwnd.validSeqNum (seqByte b) false) (seqByte b) = .ok start) : start = next (k + 1) := by
  rw [hbyte, h.advance] at hadv
  exact (Except.ok.inj hadv).symm

/-- The next message expected, taken in in order before the last number. -/
theorem inOrder (h : RecvWindow r sent k read) (hc : Carries sent k b) (hk : k + 1 ≤ 254) (hfree : r.rbuffFree i = true)
    (hnew : ¬Held r (seqByte b)) : RecvWindow (takenInOrder r i b (k + 2)) sent (k + 1) read := by
  have hbyte : seqByte b = k + 1 := hc.seqByte_eq.trans (Ring.num_of_lt (by omega))
  have hread := h.read_le
  have hadv : advanceStart (update r.rwnd.validSeqNum (seqByte b) false) (seqByte b) = .ok (k + 2) := by
    rw [hbyte, h.advance, next, Ring.next_of_lt (by omega)]
  refine ⟨h.inv.inOrder hfree hadv (h.start_eq.trans hbyte.symm), rfl, hk, hc.lt, by omega, fun q => ?_,
    h.put_unread hc (by omega) (by omega), h.put_distinct hnew⟩
  show update r.rwnd.validSeqNum (seqByte b) false q = false ↔ _
  rw [hbyte, used_take, h.valid_iff]
  omega

/-- The message `k_recvfrom` returns, when it is not the one the window starts at, is the next one to be returned. -/
theorem take {message : List UInt8} {r' : RecvSide} (h : RecvWindow r sent k read) (hplain : ∀ m ∈ sent, (0 : UInt8) ∉ m)
    (ht : takeMessage r = some (message, r')) (hg : ∀ i, Smallest r i → seqByte (r.recvBuffer i) ≤ r.rwnd.startSequence →
      seqByte (r.recvBuffer i) < r.rwnd.startSequence) :
    sent[read]? = some message ∧ RecvWindow r' sent k (read + 1) := by
  obtain ⟨i, hi, hle, hmin, rfl, rfl⟩ := takeMessage_some ht
  obtain ⟨m, h1, h2, hc⟩ := h.unread i hi
  have hbyte : seqByte (r.recvBuffer i) = m + 1 := hc.seqByte_eq.trans (Ring.num_of_lt h2)
  have hlt := hg i ⟨hi, hmin⟩ hle
  rw [hbyte, h.start_eq] at hlt
  -- the oldest message not yet returned is held, so the smallest number is its number
  obtain rfl : m = read := by
    obtain ⟨j, hj, hjb⟩ := h.inv.held (read + 1) ((h.valid_iff _).2 ⟨by omega, by omega⟩)
    have := hmin j hj
    omega
  obtain ⟨j, msg, hmsg, hframe⟩ := hc
  refine ⟨?_, h.inv.give hi, h.start_eq, h.k_le, h.taken_le, by omega, fun q => ?_, fun j' hj' => ?_, fun j' j'' hj' hj'' heq => ?_⟩
  · rw [hmsg, slotString_frame hframe (hplain msg (List.mem_of_getElem? hmsg))]
  · show update r.rwnd.validSeqNum (seqByte (r.recvBuffer i)) true q = false ↔ _
    rw [hbyte, used_give, h.valid_iff]
    omega
  · obtain ⟨hused, hji⟩ := used_give.1 hj'
    obtain ⟨m', h1', h2', hc'⟩ := h.unread j' hused
    have hne : m' ≠ m := by
      rintro rfl
      exact hji (h.distinct j' i hused hi (by rw [hbyte, hc'.seqByte_eq]; exact Ring.num_of_lt h2))
    exact ⟨m', by omega, h2', by simpa [freeSlot, hji] using hc'⟩
  · obtain ⟨hused, hji⟩ := used_give.1 hj'
    obtain ⟨hused', hji'⟩ := used_give.1 hj''
    simp only [freeSlot, update_of_ne hji, update_of_ne hji'] at heq
    exact h.distinct j' j'' hused hused' heq

end RecvWindow

/-! ## The receiver after the numbers have started again -/

/-- Message 255 is unread, and what is left of the buffer ends before the window comes near its number. -/
structure Wrapped (r : RecvSide) : Prop where
  inv : RecvInv r
  oldest : Held r 255
  room : (r.rwnd.startSequence : Int) + r.rwnd.size ≤ 10
  ahead : ∀ q, r.rwnd.startSequence ≤ q → q ≤ 200 → r.rwnd.validSeqNum q = true

/-- Message 255 taken in in order. -/
theorem RecvWindow.wrap {r : RecvSide} {sent : List (List UInt8)} {read : Nat} {b : Message} {i : Slot}
    (h : RecvWindow r sent 254 read) (hbyte : seqByte b = 255) (hfree : r.rbuffFree i = true) :
    Wrapped (takenInOrder r i b 1) := by
  have hadv : advanceStart (update r.rwnd.validSeqNum (seqByte b) false) (seqByte b) = .ok 1 := by
    rw [hbyte]
    exact h.advance
  have htaken := h.taken_le_read
  have hsize := h.inv.size_le
  refine ⟨h.inv.inOrder hfree hadv (h.start_eq.trans hbyte.symm), ⟨i, ?_, ?_⟩, ?_, fun q h1 h2 => ?_⟩
  · exact update_self i false r.rbuffFree
  · show seqByte (update r.recvBuffer i b i) = 255
    rw [update_self, hbyte]
  · show ((1 : Nat) : Int) + (r.rwnd.size - 1) ≤ 10
    omega
  · show update r.rwnd.validSeqNum (seqByte b) false q = true
    rw [update_of_ne (by omega)]
    cases hv : r.rwnd.validSeqNum q with
    | true => rfl
    | false =>
      have := (h.valid_iff q).1 hv
      omega

namespace Wrapped

variable {r : RecvSide} {p p' : Protocol} {b : Message} {i : Slot} {out : List Datagram}

/-- A data message moves the window by one at most, and takes as much space. -/
theorem data (h : Wrapped p.toRecvSide) (hs : DataStep p b p' out) : Wrapped p'.toRecvSide := by
  have hinv := hs.recvInv h.inv
  have hroom := h.room
  have hpos := h.inv.start_pos
  cases hs with
  | ignored => exact h
  | early i hfree =>
    refine ⟨hinv, h.oldest.put hfree b, ?_, h.ahead⟩
    show (p.rwnd.startSequence : Int) + (p.rwnd.size - 1) ≤ 10
    omega
  | inOrder i start hfree hstart hsize hadv =>
    have hstart' : start = p.rwnd.startSequence + 1 := by
      have hopen : p.rwnd.validSeqNum (p.rwnd.startSequence + 1) = true := h.ahead _ (by omega) (by omega)
      have hnext : next p.rwnd.startSequence = p.rwnd.startSequence + 1 := Ring.next_of_lt (by omega)
      rw [← hstart, advanceStart_next (by rw [hnext, hopen])] at hadv
      rw [← hnext]
      exact (Except.ok.inj hadv).symm
    refine ⟨hinv, h.oldest.put hfree b, ?_, fun q h1 h2 => ?_⟩
    · show (start : Int) + (p.rwnd.size - 1) ≤ 10
      omega
    · have h1 : start ≤ q := h1
      show update p.rwnd.validSeqNum (seqByte b) false q = true
      rw [update_of_ne (by omega)]
      exact h.ahead q (by omega) h2

/-- A datagram keeps it. -/
theorem threadR {d : Datagram} {dropped : Bool} (h : Wrapped p.toRecvSide) (hs : threadR p d dropped = .ok (p', out)) :
    Wrapped p'.toRecvSide := by
  rcases threadR_cases h.inv hs with ⟨rfl, -⟩ | ha | ⟨-, -, -, hstep⟩
  · exact h
  · rw [(threadR_acts ha hs).1]
    exact h
  · exact h.data hstep

end Wrapped

end NetLabs.Ktp
