import NetLabs.Ktp.Receiver

/-!
# The order in which messages are read

A receiver whose messages arrive in order keeps a queue: the slots of the messages not read yet, oldest first. `k_recvfrom` does not
know the queue; it takes the smallest number, and nothing when that is past the start of the window. So it takes the oldest message as
long as the numbers have not started again between that message and the next one expected (`oldestFirst_iff`).
-/

namespace NetLabs.Ktp

open Function Slots Machine

/-- A receiver, how many messages have arrived, and the slots of those taken in and not read yet, oldest first. -/
structure Inbox where
  entry : Entry
  arrived : Nat
  order : List Slot

/-- A data datagram arrives, or `k_recvfrom` is called. -/
inductive Turn where
  | arrive (d : Datagram)
  | call (self : Nat)

/-- The slots that were in use and still are, and after them one that has come into use. -/
def slotsAfter (order : List Slot) (free : Slot → Bool) : List Slot :=
  order.filter (fun i => !free i) ++ ((List.finRange 10).find? fun i => !free i && !order.contains i).toList

/-- One turn. -/
def Inbox.step (x : Inbox) : Turn → Option Inbox
  | .arrive d =>
    match threadR x.entry.toProtocol d false with
    | .error _ => none
    | .ok (p, _) =>
      some { entry := x.entry.withProtocol p, arrived := x.arrived + 1, order := slotsAfter x.order p.rbuffFree }
  | .call self =>
    some { x with
      entry := (kRecvfrom x.entry self).2
      order := slotsAfter x.order (kRecvfrom x.entry self).2.rbuffFree }

/-- The beginning: nothing has arrived. -/
def Inbox.begin (e : Entry) : Inbox := { entry := e, arrived := 0, order := [] }

/-- Data arrives in the order of the numbers, none lost and none twice, each while there is room; the owner calls. -/
def InSequence (x : Inbox) : Turn → Prop
  | .arrive d => d.isAckFrame = false ∧ d.len ≠ 0 ∧ seqByte d.buffer = num x.arrived ∧ 0 < x.entry.rwnd.size
  | .call self => x.entry.refused self = false

/-- A call takes the oldest message not read yet, and returns -1 only when there is none. -/
def OldestFirst (x : Inbox) : Turn → Prop
  | .arrive _ => True
  | .call self =>
    match x.order with
    | [] => (kRecvfrom x.entry self).1 = none
    | i :: _ => (kRecvfrom x.entry self).1 = some (slotString x.entry.toRecvSide i) ∧
        (kRecvfrom x.entry self).2.rbuffFree = update x.entry.rbuffFree i true

/-- At a call, the number of the oldest message not read yet is smaller than the start of the window. -/
def OldestBehindStart (x : Inbox) : Turn → Prop
  | .arrive _ => True
  | .call _ => ∀ i ∈ x.order.head?, seqByte (x.entry.recvBuffer i) < x.entry.rwnd.startSequence

/-- `read` messages have been read, and the others that have arrived are in the queue, under their numbers. -/
structure Queued (x : Inbox) (read : Nat) : Prop where
  inv : RecvInv x.entry.toRecvSide
  arrived_eq : x.arrived = read + x.order.length
  start_eq : x.entry.rwnd.startSequence = num x.arrived
  nodup : x.order.Nodup
  used : ∀ i, x.entry.rbuffFree i = false ↔ i ∈ x.order
  numbers : x.order.map (fun i => seqByte (x.entry.recvBuffer i)) = (List.range' read x.order.length).map num
  taken : ∀ q, x.entry.rwnd.validSeqNum q = false ↔ ∃ i ∈ x.order, seqByte (x.entry.recvBuffer i) = q

theorem queued_begin {e : Entry} (h : e.toProtocol = freshProtocol) : Queued (Inbox.begin e) 0 := by
  obtain ⟨c, p⟩ := e
  obtain rfl : p = freshProtocol := h
  exact ⟨recvInv_fresh, rfl, rfl, List.nodup_nil, by simp [Inbox.begin, freshProtocol], rfl,
    by simp [Inbox.begin, freshProtocol]⟩

/-! ## The slots in use -/

section Slots

variable {order rest : List Slot} {free : Slot → Bool} {i : Slot}

/-- A slot that comes into use is the last of the queue. -/
theorem slotsAfter_put (hused : ∀ j, free j = false ↔ j ∈ order) (hi : free i = true) :
    slotsAfter order (update free i false) = order ++ [i] := by
  have hout : i ∉ order := by
    intro hmem
    rw [(hused i).2 hmem] at hi
    cases hi
  have hold : order.filter (fun j => !update free i false j) = order := by
    rw [List.filter_eq_self]
    intro j hj
    have hji : j ≠ i := fun he => hout (he ▸ hj)
    simp [hji, (hused j).2 hj]
  have hnew : (List.finRange 10).find? (fun j => !update free i false j && !order.contains j) = some i := by
    cases hf : (List.finRange 10).find? fun j => !update free i false j && !order.contains j with
    | none =>
      have := List.find?_eq_none.1 hf i (List.mem_finRange i)
      simp [hout] at this
    | some k =>
      have hk := List.find?_some hf
      simp only [Bool.and_eq_true, Bool.not_eq_true', List.contains_eq_mem, decide_eq_false_iff_not] at hk
      by_cases hki : k = i
      · rw [hki]
      · rw [update_of_ne hki, hused] at hk
        exact absurd hk.1 hk.2
  unfold slotsAfter
  rw [hold, hnew]
  rfl

/-- The first of the queue given back. -/
theorem slotsAfter_give (hused : ∀ j, free j = false ↔ j ∈ i :: rest) (hnodup : (i :: rest).Nodup) :
    slotsAfter (i :: rest) (update free i true) = rest := by
  have hout : i ∉ rest := (List.nodup_cons.1 hnodup).1
  have hold : (i :: rest).filter (fun j => !update free i true j) = rest := by
    rw [List.filter_cons_of_neg (by simp), List.filter_eq_self]
    intro j hj
    have hji : j ≠ i := fun he => hout (he ▸ hj)
    simp [hji, (hused j).2 (List.mem_cons_of_mem i hj)]
  have hnew : (List.finRange 10).find? (fun j => !update free i true j && !(i :: rest).contains j) = none := by
    rw [List.find?_eq_none]
    intro j _ hj
    simp only [Bool.and_eq_true, Bool.not_eq_true', List.contains_eq_mem, decide_eq_false_iff_not] at hj
    by_cases hji : j = i
    · exact hj.2 (hji ▸ List.mem_cons_self)
    · rw [update_of_ne hji, hused] at hj
      exact hj.2 hj.1
  unfold slotsAfter
  rw [hold, hnew, Option.toList_none, List.append_nil]

/-- Where the slots in use do not change, neither does the queue. -/
theorem slotsAfter_used (hused : ∀ j, free j = false ↔ j ∈ order) : slotsAfter order free = order := by
  have hold : order.filter (fun j => !free j) = order := by
    rw [List.filter_eq_self]
    intro j hj
    simp [(hused j).2 hj]
  have hnew : (List.finRange 10).find? (fun j => !free j && !order.contains j) = none := by
    rw [List.find?_eq_none]
    intro j _ hj
    simp only [Bool.and_eq_true, Bool.not_eq_true', List.contains_eq_mem, decide_eq_false_iff_not, hused] at hj
    exact hj.2 hj.1
  unfold slotsAfter
  rw [hold, hnew, Option.toList_none, List.append_nil]

end Slots

/-! ## The queue -/

namespace Queued

variable {x x' : Inbox} {read : Nat}

/-- Ten slots hold ten messages at most. -/
theorem length_le (h : Queued x read) : x.order.length ≤ 10 := by
  have := h.nodup.length_le_card
  rwa [Fintype.card_fin] at this

/-- The number of a message by its place in the queue. -/
theorem number (h : Queued x read) {k : Nat} (hk : k < x.order.length) :
    seqByte (x.entry.recvBuffer x.order[k]) = num (read + k) := by
  have hat := congrArg (·[k]?) h.numbers
  simpa [hk, List.getElem?_range' hk] using hat

/-- The place of a slot in use. -/
theorem place (h : Queued x read) {i : Slot} (hi : x.entry.rbuffFree i = false) :
    ∃ k, ∃ hk : k < x.order.length, x.order[k] = i ∧ seqByte (x.entry.recvBuffer i) = num (read + k) := by
  obtain ⟨k, hk, rfl⟩ := List.getElem_of_mem ((h.used i).1 hi)
  exact ⟨k, hk, rfl, h.number hk⟩

/-- The number after the last one that has arrived is not taken in. -/
theorem next_open (h : Queued x read) : x.entry.rwnd.validSeqNum (next (num x.arrived)) = true := by
  cases hv : x.entry.rwnd.validSeqNum (next (num x.arrived)) with
  | true => rfl
  | false =>
    obtain ⟨i, hi, hnum⟩ := (h.taken _).1 hv
    obtain ⟨k, hk, -, hplace⟩ := h.place ((h.used i).2 hi)
    have hlen := h.length_le
    have harrived := h.arrived_eq
    rw [hplace, next, Ring.next_num] at hnum
    exact absurd hnum (Ring.num_ne (by omega) (by omega))

/-- A free slot is none of the queue's. -/
theorem not_mem (h : Queued x read) {i : Slot} (hi : x.entry.rbuffFree i = true) : i ∉ x.order := by
  intro hmem
  rw [(h.used i).2 hmem] at hi
  cases hi

/-- The next message put into a free slot comes last in the queue. -/
theorem put {b : Message} {i : Slot} {lastAck : Nat} (h : Queued x read) (hfree : x.entry.rbuffFree i = true)
    (hbyte : seqByte b = num x.arrived) (hinv : RecvInv (takenInOrder x.entry.toRecvSide i b (next (num x.arrived)))) :
    Queued { entry := x.entry.withProtocol { x.entry.toProtocol with
               toRecvSide := takenInOrder x.entry.toRecvSide i b (next (num x.arrived))
               lastAckReceived := lastAck }
             arrived := x.arrived + 1, order := x.order ++ [i] } read := by
  have hout := h.not_mem hfree
  have harrived := h.arrived_eq
  have hlong : (x.order ++ [i]).length = x.order.length + 1 := List.length_append
  have hnumbers : (x.order ++ [i]).map (fun j => seqByte (update x.entry.recvBuffer i b j)) =
      x.order.map (fun j => seqByte (x.entry.recvBuffer j)) ++ [num x.arrived] := by
    rw [List.map_append, List.map_singleton, update_self, hbyte, map_update_off hout]
  refine ⟨hinv, ?_, Ring.next_num, ?_, fun j => ?_, ?_, fun q => ?_⟩
  · show x.arrived + 1 = read + (x.order ++ [i]).length
    omega
  · refine List.nodup_append.2 ⟨h.nodup, List.nodup_singleton i, ?_⟩
    rintro j hj k hk rfl
    rw [List.mem_singleton] at hk
    exact hout (hk ▸ hj)
  · show update x.entry.rbuffFree i false j = false ↔ j ∈ x.order ++ [i]
    rw [used_take, h.used, List.mem_append, List.mem_singleton]
  · show (x.order ++ [i]).map (fun j => seqByte (update x.entry.recvBuffer i b j)) =
      (List.range' read (x.order ++ [i]).length).map num
    rw [hnumbers, h.numbers, hlong, List.range'_1_concat, List.map_append, List.map_singleton, harrived]
  · show update x.entry.rwnd.validSeqNum (seqByte b) false q = false ↔
      ∃ j ∈ x.order ++ [i], seqByte (update x.entry.recvBuffer i b j) = q
    rw [used_take, h.taken, ← List.mem_map, ← List.mem_map, hnumbers, hbyte, List.mem_append, List.mem_singleton]

/-- A message that arrives in sequence is taken in, and comes last in the queue. -/
theorem arrive {d : Datagram} (h : Queued x read) (hseq : InSequence x (.arrive d)) :
    ∃ x', x.step (.arrive d) = some x' ∧ Queued x' read ∧ x'.arrived = x.arrived + 1 ∧
      x'.order.length = x.order.length + 1 ∧ x'.entry.toControl = x.entry.toControl := by
  obtain ⟨hd, hlen, hbyte, hsize⟩ := hseq
  have hstart : x.entry.rwnd.startSequence = seqByte d.buffer := h.start_eq.trans hbyte.symm
  obtain ⟨p, out, hr, hstep⟩ := threadR_data h.inv hd hlen
  have hx : x.step (.arrive d) = some { entry := x.entry.withProtocol p, arrived := x.arrived + 1
                                        order := slotsAfter x.order p.rbuffFree } := by
    simp only [Inbox.step, hr]
  cases hstep with
  | ignored hn => exact absurd (Or.inl (decide_eq_true ⟨hstart, hsize⟩)) hn
  | early i hfree he => exact absurd hstart.symm he.1
  | inOrder i start hfree _ _ hadv =>
    have hinv := h.inv.inOrder hfree hadv hstart
    obtain rfl : start = next (num x.arrived) := by
      rw [hbyte, advanceStart_next h.next_open] at hadv
      exact (Except.ok.inj hadv).symm
    have horder : slotsAfter x.order (update x.entry.rbuffFree i false) = x.order ++ [i] := slotsAfter_put h.used hfree
    exact ⟨_, hx.trans (congrArg some (congrArg _ horder)), h.put hfree hbyte hinv, rfl, List.length_append, rfl⟩

/-- The oldest message not read yet. -/
theorem first {i : Slot} {rest : List Slot} (h : Queued x read) (horder : x.order = i :: rest) :
    x.entry.rbuffFree i = false ∧ seqByte (x.entry.recvBuffer i) = num read := by
  have hi : i ∈ x.order := by
    rw [horder]
    exact List.mem_cons_self
  have hnumber := h.number (List.length_pos_of_mem hi)
  simp only [horder, List.getElem_cons_zero] at hnumber
  exact ⟨(h.used i).2 hi, hnumber⟩

/-- The oldest message has the smallest number when its number is before the start of the window. -/
theorem oldest_smallest {i : Slot} {rest : List Slot} (h : Queued x read) (horder : x.order = i :: rest)
    (hlt : seqByte (x.entry.recvBuffer i) < x.entry.rwnd.startSequence) :
    ∀ k, x.entry.rbuffFree k = false → k ≠ i → seqByte (x.entry.recvBuffer i) < seqByte (x.entry.recvBuffer k) := by
  intro k hk hne
  have hlen := h.length_le
  have harrived := h.arrived_eq
  have hfirst := (h.first horder).2
  obtain ⟨n, hn, hplace, hnum⟩ := h.place hk
  have hn0 : n ≠ 0 := by
    rintro rfl
    simp only [horder, List.getElem_cons_zero] at hplace
    exact hne hplace.symm
  rw [hfirst, h.start_eq, harrived] at hlt
  rw [hfirst, hnum]
  have hlt : 1 + read % 255 < 1 + (read + x.order.length) % 255 := hlt
  show 1 + read % 255 < 1 + (read + n) % 255
  omega

/-- A call that takes the oldest message leaves the queue without it. -/
theorem give {i : Slot} {rest : List Slot} (h : Queued x read) (horder : x.order = i :: rest) :
    Queued { x with
      entry := x.entry.withProtocol (x.entry.toProtocol.withRecv
        (freeSlot x.entry.toRecvSide i (seqByte (x.entry.recvBuffer i))))
      order := rest } (read + 1) := by
  obtain ⟨hi, hfirst⟩ := h.first horder
  obtain ⟨hout, hnodup⟩ : i ∉ rest ∧ rest.Nodup := by
    have := h.nodup
    rwa [horder, List.nodup_cons] at this
  have harrived := h.arrived_eq
  have hlen := h.length_le
  rw [horder, List.length_cons] at harrived hlen
  have hnumbers : rest.map (fun j => seqByte (x.entry.recvBuffer j)) = (List.range' (read + 1) rest.length).map num := by
    have := h.numbers
    rw [horder, List.length_cons, List.range'_succ, List.map_cons, List.map_cons, List.cons.injEq] at this
    exact this.2
  -- the number given back is that of no other message in the queue
  have hnew : num read ∉ (List.range' (read + 1) rest.length).map num := by
    intro hmem
    obtain ⟨m, hm, he⟩ := List.mem_map.1 hmem
    rw [List.mem_range'_1] at hm
    exact absurd he.symm (Ring.num_ne (by omega) (by omega))
  refine ⟨h.inv.give hi, ?_, h.start_eq, hnodup, fun j => ?_, ?_, fun q => ?_⟩
  · show x.arrived = read + 1 + rest.length
    omega
  · show update x.entry.rbuffFree i true j = false ↔ j ∈ rest
    rw [used_give, h.used, horder, List.mem_cons]
    refine ⟨fun hor => hor.1.resolve_left hor.2, fun hj => ⟨Or.inr hj, ?_⟩⟩
    rintro rfl
    exact hout hj
  · show rest.map (fun j => seqByte (update x.entry.recvBuffer i (fun _ => 0) j)) = (List.range' (read + 1) rest.length).map num
    rw [map_update_off hout, hnumbers]
  · show update x.entry.rwnd.validSeqNum (seqByte (x.entry.recvBuffer i)) true q = false ↔
      ∃ j ∈ rest, seqByte (update x.entry.recvBuffer i (fun _ => 0) j) = q
    rw [used_give, h.taken, ← List.mem_map, ← List.mem_map, map_update_off hout, horder, List.map_cons, List.mem_cons, hnumbers,
      hfirst]
    refine ⟨fun hor => hor.1.resolve_left hor.2, fun hq => ⟨Or.inr hq, ?_⟩⟩
    rintro rfl
    exact hnew hq

/-- With nothing to read a call returns -1 and changes nothing. -/
theorem call_nil (self : Nat) (h : Queued x read) (horder : x.order = []) : kRecvfrom x.entry self = (none, x.entry) := by
  have hfree : ∀ j, x.entry.rbuffFree j = true := by
    intro j
    cases hj : x.entry.rbuffFree j with
    | true => rfl
    | false =>
      have := (h.used j).1 hj
      rw [horder] at this
      cases this
  have hnone : takeMessage x.entry.toRecvSide = none := by simp [takeMessage, pick_none hfree]
  cases hown : x.entry.refused self with
  | true => simp [kRecvfrom, hown]
  | false => simp [kRecvfrom, hown, hnone]

/-- With the oldest message behind the start of the window a call of the owner takes it. -/
theorem call_cons {self : Nat} {i : Slot} {rest : List Slot} (h : Queued x read) (hown : x.entry.refused self = false)
    (horder : x.order = i :: rest) (hlt : seqByte (x.entry.recvBuffer i) < x.entry.rwnd.startSequence) :
    kRecvfrom x.entry self = (some (slotString x.entry.toRecvSide i),
      x.entry.withProtocol (x.entry.toProtocol.withRecv
        (freeSlot x.entry.toRecvSide i (seqByte (x.entry.recvBuffer i))))) := by
  have htake := takeMessage_smallest (h.first horder).1 (h.oldest_smallest horder hlt) (Nat.le_of_lt hlt)
  simp [kRecvfrom, hown, htake]

/-- The call that takes the oldest message. -/
theorem call_step {self : Nat} {i : Slot} {rest : List Slot} (h : Queued x read) (hown : x.entry.refused self = false)
    (horder : x.order = i :: rest) (hlt : seqByte (x.entry.recvBuffer i) < x.entry.rwnd.startSequence) :
    x.step (.call self) = some { x with
      entry := x.entry.withProtocol (x.entry.toProtocol.withRecv
        (freeSlot x.entry.toRecvSide i (seqByte (x.entry.recvBuffer i))))
      order := rest } := by
  have hsame : slotsAfter x.order (update x.entry.rbuffFree i true) = rest := by
    have hused := h.used
    have hnodup := h.nodup
    rw [horder] at hused hnodup ⊢
    exact slotsAfter_give hused hnodup
  simp only [Inbox.step, h.call_cons hown horder hlt]
  exact congrArg some (congrArg _ hsame)

/-- A call by the owner that finds the oldest message behind the start of the window. -/
theorem call {self : Nat} (h : Queued x read) (hown : x.entry.refused self = false) (hg : OldestBehindStart x (.call self)) :
    OldestFirst x (.call self) ∧ ∃ x' read', x.step (.call self) = some x' ∧ Queued x' read' := by
  cases horder : x.order with
  | nil =>
    have hcall := h.call_nil self horder
    have hsame : slotsAfter x.order x.entry.rbuffFree = x.order := by
      rw [slotsAfter_used h.used]
    refine ⟨by simp only [OldestFirst, horder, hcall], x, read, ?_, h⟩
    simp only [Inbox.step, hcall, hsame]
  | cons i rest =>
    have hlt : seqByte (x.entry.recvBuffer i) < x.entry.rwnd.startSequence := hg i (by rw [horder]; rfl)
    have hcall := h.call_cons hown horder hlt
    refine ⟨?_, _, read + 1, h.call_step hown horder hlt, h.give horder⟩
    simp only [OldestFirst, horder, hcall]
    exact ⟨trivial, rfl⟩

/-- A call by the owner that does not find the oldest message behind the start of the window does not take it. -/
theorem behind_of_first {self : Nat} (h : Queued x read) (hown : x.entry.refused self = false)
    (hfirst : OldestFirst x (.call self)) : OldestBehindStart x (.call self) := by
  intro i hi
  obtain ⟨rest, horder⟩ : ∃ rest, x.order = i :: rest := by
    cases hx : x.order with
    | nil =>
      rw [hx] at hi
      cases hi
    | cons j rest =>
      rw [hx] at hi
      cases hi
      exact ⟨rest, rfl⟩
  simp only [OldestFirst, horder] at hfirst
  obtain ⟨hsome, hfreed⟩ := hfirst
  cases htake : takeMessage x.entry.toRecvSide with
  | none =>
    simp [kRecvfrom, hown, htake] at hsome
  | some y =>
    obtain ⟨message, r⟩ := y
    obtain ⟨j, hj, hle, -, rfl, rfl⟩ := takeMessage_some htake
    have hcall : (kRecvfrom x.entry self).2.rbuffFree = update x.entry.rbuffFree j true := by
      simp [kRecvfrom, hown, htake, freeSlot]
    have hji : j = i := by
      by_contra hne
      have hat := congrFun (hcall.symm.trans hfreed) j
      rw [update_self, update_of_ne hne, hj] at hat
      cases hat
    -- the window starts at the number of the next message, so the oldest cannot have that number
    have harrived := h.arrived_eq
    have hlen := h.length_le
    rw [horder, List.length_cons] at harrived hlen
    have hne : num read ≠ num x.arrived := Ring.num_ne (by omega) (by omega)
    rw [← (h.first horder).2, ← h.start_eq] at hne
    rw [hji] at hle
    omega

end Queued

/-- Messages arrive in sequence order, none lost, each while there is room, and the owner reads when it likes: every `k_recvfrom`
takes the oldest message not read yet, and returns -1 only when there is none, exactly when at every call the number of the oldest one
is smaller than the start of the window. -/
theorem oldestFirst_iff (e : Entry) (hfresh : e.toProtocol = freshProtocol) (ts : List Turn)
    (hseq : Meets Inbox.step InSequence (Inbox.begin e) ts) :
    Meets Inbox.step OldestFirst (Inbox.begin e) ts ↔ Meets Inbox.step OldestBehindStart (Inbox.begin e) ts := by
  refine meets_iff_meets_while (I := fun x => ∃ read, Queued x read) ?_ ?_ ⟨0, queued_begin hfresh⟩ hseq
  · rintro x t x' ⟨read, hx⟩ hq hg hs
    cases t with
    | arrive d =>
      obtain ⟨y, hy, hqueued, -⟩ := hx.arrive hq
      obtain rfl : y = x' := Option.some.inj (hy.symm.trans hs)
      exact ⟨read, hqueued⟩
    | call self =>
      obtain ⟨-, y, read', hy, hqueued⟩ := hx.call hq hg
      obtain rfl : y = x' := Option.some.inj (hy.symm.trans hs)
      exact ⟨read', hqueued⟩
  · rintro x t ⟨read, hx⟩ hq
    cases t with
    | arrive d => exact Iff.rfl
    | call self => exact ⟨hx.behind_of_first hq, fun hg => (hx.call hq hg).1⟩

/-! ## Read as they arrive -/

/-- A message of one byte under a number. -/
def oneByte (seqNum : Nat) : Datagram :=
  dataDatagram fun t => if t.val = 0 then UInt8.ofNat seqNum else if t.val = 2 then 65 else 0

/-- Messages `0` to `n - 1`, each read before the next arrives. -/
def readRounds : Nat → List Turn
  | 0 => []
  | n + 1 => readRounds n ++ [.arrive (oneByte (num n)), .call 7]

/-- `n` messages have arrived, all of them have been read, and process 7 may read the next. -/
structure AllRead (x : Inbox) (n : Nat) : Prop where
  queued : Queued x n
  empty : x.order = []
  owned : x.entry.refused 7 = false

/-- One more message, not read yet. -/
theorem AllRead.arrive {x : Inbox} {n : Nat} (h : AllRead x n) :
    InSequence x (.arrive (oneByte (num n))) ∧
      ∃ x' i, x.step (.arrive (oneByte (num n))) = some x' ∧ Queued x' n ∧
        x'.order = [i] ∧ seqByte (x'.entry.recvBuffer i) = num n ∧ x'.entry.rwnd.startSequence = num (n + 1) ∧
        x'.entry.refused 7 = false := by
  have harrived : x.arrived = n := by
    have := h.queued.arrived_eq
    rwa [h.empty] at this
  have hsize : 0 < x.entry.rwnd.size := by
    have hused := h.queued.used
    rw [h.empty] at hused
    have hfree : x.entry.rbuffFree 0 = true := by
      by_contra hf
      have := (hused 0).1 (Bool.eq_false_of_not_eq_true hf)
      cases this
    have := freeCount_pos.2 ⟨0, hfree⟩
    rw [h.queued.inv.size_eq]
    omega
  have hnum : num n ≤ 255 := Ring.num_le (by decide)
  have hseq : InSequence x (.arrive (oneByte (num n))) := by
    refine ⟨rfl, nofun, ?_, hsize⟩
    rw [harrived]
    exact Nat.mod_eq_of_lt (show num n < 256 by omega)
  obtain ⟨x', hs, hqueued, hnext, hlong, hcontrol⟩ := h.queued.arrive hseq
  rw [h.empty] at hlong
  obtain ⟨i, hi⟩ := List.length_eq_one_iff.1 hlong
  refine ⟨hseq, x', i, hs, hqueued, hi, (hqueued.first hi).2, ?_, ?_⟩
  · rw [hqueued.start_eq, hnext, harrived]
  · rw [hcontrol]
    exact h.owned

/-- One more message, and the call that reads it, as long as the numbers have not started again. -/
theorem AllRead.round {x : Inbox} {n : Nat} (h : AllRead x n) (hn : n < 254) :
    Meets Inbox.step InSequence x [.arrive (oneByte (num n)), .call 7] ∧
      ∃ x', exec Inbox.step x [.arrive (oneByte (num n)), .call 7] = some x' ∧
        AllRead x' (n + 1) := by
  obtain ⟨hseq, x1, i, h1, hqueued, horder, hnumber, hstart, hown⟩ := h.arrive
  have hlt : seqByte (x1.entry.recvBuffer i) < x1.entry.rwnd.startSequence := by
    have h1 : num n = n + 1 := Ring.num_of_lt (by omega)
    have h2 : num (n + 1) = n + 2 := Ring.num_of_lt (by omega)
    omega
  have hcall := hqueued.call_step hown horder hlt
  exact ⟨(meets_cons_iff h1).2 ⟨hseq, (meets_cons_iff hcall).2 ⟨hown, trivial⟩⟩, _,
    exec_cons_eq_some.2 ⟨x1, h1, exec_cons_eq_some.2 ⟨_, hcall, rfl⟩⟩, hqueued.give horder, rfl, hown⟩

/-- The first 254 messages are read. -/
theorem readRounds_allRead {n : Nat} (hn : n ≤ 254) :
    Meets Inbox.step InSequence (Inbox.begin boundEntry) (readRounds n) ∧
      ∃ x, exec Inbox.step (Inbox.begin boundEntry) (readRounds n) = some x ∧ AllRead x n := by
  refine exec_rounds (Q := fun n x => AllRead x n) (N := 254) rfl (fun _ => rfl) ⟨queued_begin rfl, rfl, rfl⟩ ?_ hn
  intro n hlt x hall
  exact hall.round hlt

theorem oldestFirst_readRounds :
    Meets Inbox.step OldestFirst (Inbox.begin boundEntry) (readRounds 3) ↔
      Meets Inbox.step OldestBehindStart (Inbox.begin boundEntry) (readRounds 3) :=
  oldestFirst_iff boundEntry rfl _ (readRounds_allRead (by decide)).1

theorem readRounds_wrap {n : Nat} (hn : n = 254) :
    Meets Inbox.step InSequence (Inbox.begin boundEntry)
        (readRounds n ++ [.arrive (oneByte (num n)), .call 7]) ∧
      ∃ x, exec Inbox.step (Inbox.begin boundEntry)
          (readRounds n ++ [.arrive (oneByte (num n))]) = some x ∧
        x.order ≠ [] ∧ (kRecvfrom x.entry 7).1 = none := by
  obtain ⟨hm, x, hx, hall⟩ := readRounds_allRead (Nat.le_of_eq hn)
  obtain ⟨hseq, x1, i, h1, hqueued, horder, hnumber, hstart, hown⟩ := hall.arrive
  refine ⟨hm.append fun t ht => ?_, x1, ?_, by simp [horder], ?_⟩
  · obtain rfl : x = t := Option.some.inj (hx.symm.trans ht)
    exact (meets_cons_iff h1).2 ⟨hseq, hown, fun _ _ => trivial⟩
  · rw [exec_append, hx]
    exact exec_cons_eq_some.2 ⟨x1, h1, rfl⟩
  · cases htake : takeMessage x1.entry.toRecvSide with
    | none => simp [kRecvfrom, hown, htake]
    | some y =>
      obtain ⟨message, r⟩ := y
      obtain ⟨j, hj, hle, -⟩ := takeMessage_some htake
      have hji : j = i := by
        have := (hqueued.used j).1 hj
        rwa [horder, List.mem_singleton] at this
      rw [hji, hnumber, hstart, hn] at hle
      exact absurd hle (by decide)

/-- 254 messages have been read as they came, and message 255 arrives, after which the window starts at 1: `k_recvfrom` returns -1
although that message is there. -/
theorem unread_at_wrap :
    Meets Inbox.step InSequence (Inbox.begin boundEntry)
        (readRounds 254 ++ [.arrive (oneByte (num 254)), .call 7]) ∧
      ∃ x, exec Inbox.step (Inbox.begin boundEntry)
          (readRounds 254 ++ [.arrive (oneByte (num 254))]) = some x ∧
        x.order ≠ [] ∧ (kRecvfrom x.entry 7).1 = none :=
  readRounds_wrap rfl

end NetLabs.Ktp
