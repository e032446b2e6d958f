import NetLabs.Lib.Machine
import NetLabs.StopWait.Calls
import Mathlib.Algebra.BigOperators.Group.Finset.Basic

/-!
# Stop-and-wait delivery

One process calls `k_sendto` with one message after another, its peer calls `k_recvfrom`. The network may lose, delay and
duplicate datagrams: what has been sent once can be received at any later time, any number of times or never. `select` may time out at
any moment, `dropMessage` may drop what it likes. The model keeps with each datagram the number of the call whose message it carries or
acknowledges; the code does not see it.
-/

namespace NetLabs.StopWait

open Machine

/-! ## The code -/

/-- Where `k_sendto` stands: before `sendto`, or in `select`. -/
inductive Sender where
  | idle
  | transmitting (message : List UInt8)
  | waiting (message : List UInt8)
  deriving DecidableEq

/-- The two processes and what is under way between them; `completed` counts the calls that have returned their length. -/
structure Delivery where
  nextSeq : UInt8
  sender : Sender
  passed : List (List UInt8)
  completed : Nat
  frames : List (Nat × List UInt8)
  acks : List (Nat × List UInt8)
  returned : List (Nat × List UInt8)
  deriving DecidableEq

/-- Both sockets are new. -/
def Delivery.begin : Delivery := ⟨0, .idle, [], 0, [], [], []⟩

/-- What can happen next. -/
inductive Event where
  | call (message : List UInt8)
  | transmit
  | timeout
  | acknowledge (i : Nat)
  | recvfrom (i : Nat) (dropped : Bool) (length : Nat)

/-- `k_sendto` up to the loop. A message that is sent as it is has been sent then; one that is refused as too large does not count as
passed. -/
def Delivery.call (s : Delivery) (message : List UInt8) : Option Delivery :=
  match route message with
  | .raw => some { s with
      passed := s.passed ++ [message], completed := s.completed + 1, frames := s.frames ++ [(s.completed, message)] }
  | .framed => some { s with passed := s.passed ++ [message], sender := .transmitting message }
  | .tooLarge => none

/-- `k_sendto` has its acknowledgement and returns. -/
def Delivery.complete (s : Delivery) : Delivery := { s with sender := .idle, nextSeq := s.nextSeq + 1, completed := s.completed + 1 }

/-- `k_recvfrom` has taken in a datagram of call `k`. -/
def Delivery.receive (s : Delivery) (k : Nat) (r : Received) : Delivery :=
  { s with
    acks := s.acks ++ (r.reply.map fun ack => (k, ack)).toList
    returned := if 0 ≤ r.value then s.returned ++ [(k, r.stored)] else s.returned }

def Delivery.step (s : Delivery) : Event → Option Delivery
  | .call message => if s.sender = .idle then s.call message else none
  | .transmit =>
    match s.sender with
    | .transmitting message => some { s with
        sender := .waiting message, frames := s.frames ++ [(s.completed, dataFrame s.nextSeq message)] }
    | _ => none
  | .timeout =>
    match s.sender with
    | .waiting message => some { s with sender := .transmitting message }
    | _ => none
  | .acknowledge i =>
    match s.sender with
    | .waiting message => s.acks[i]?.map fun ack =>
        if acknowledges ack.2 s.nextSeq then s.complete
        else { s with sender := .transmitting message }
    | _ => none
  | .recvfrom i dropped length =>
    match s.frames[i]? with
    | some frame => (received frame.2 dropped length).map (s.receive frame.1)
    | none => none

/-- The numbers of the messages `k_recvfrom` has returned. -/
def Delivery.numbers (s : Delivery) : List Nat := s.returned.map Prod.fst

/-- What `k_recvfrom` has returned is a prefix of what `k_sendto` has been called with, and the message of every call that has returned
its length has been returned once. -/
structure Delivery.Right (s : Delivery) : Prop where
  inOrder : s.returned.map Prod.snd <+: s.passed
  once : ∀ k < s.completed, s.numbers.count k = 1

/-- No message is sent as it is; `k_recvfrom` does not take in, unless it drops it, a frame whose message it has returned already or one
that its buffer cannot hold; and `k_sendto` does not take the acknowledgement of an earlier message for its own before its own message
has been returned. -/
def Clean (s : Delivery) : Event → Prop
  | .call message => route message = .framed
  | .transmit | .timeout => True
  | .acknowledge i => ∀ ack ∈ s.acks[i]?, acknowledges ack.2 s.nextSeq = true → ack.1 = s.completed ∨ s.completed ∈ s.numbers
  | .recvfrom i dropped length =>
    dropped = false → ∀ frame ∈ s.frames[i]?, frame.1 ∉ s.numbers ∧ frame.2.length ≤ length + 4

instance decidableClean (s : Delivery) : (e : Event) → Decidable (Clean s e)
  | .call message => inferInstanceAs (Decidable (route message = .framed))
  | .transmit | .timeout => isTrue trivial
  | .acknowledge i => inferInstanceAs (Decidable (∀ ack ∈ s.acks[i]?, _ → _))
  | .recvfrom i _ _ => inferInstanceAs (Decidable (_ → ∀ frame ∈ s.frames[i]?, _ ∧ _))

/-! ## The invariant -/

/-- The message of the call that is going on. -/
def Sender.current : Sender → List (List UInt8)
  | .idle => []
  | .transmitting message | .waiting message => [message]

/-- Every datagram is what the code makes of the message whose number goes with it. -/
structure Delivery.Inv (s : Delivery) : Prop where
  seq : s.nextSeq = s.completed.toUInt8
  passed : ∃ done, done.length = s.completed ∧ s.passed = done ++ s.sender.current
  current : ∀ message ∈ s.sender.current, message.length ≤ payloadSize
  frames : ∀ frame ∈ s.frames, ∃ message, s.passed[frame.1]? = some message ∧ message.length ≤ payloadSize ∧
    frame.2 = dataFrame frame.1.toUInt8 message
  acks : ∀ ack ∈ s.acks, ack.2 = ackFrame ack.1.toUInt8 ∧ ack.1 ∈ s.numbers
  bounded : ∀ k ∈ s.numbers, k < s.passed.length

variable {s s' : Delivery} {e : Event} {message : List UInt8} {i : Nat}

/-- A list of numbers up to `c` in which each one below `c` stands once. -/
theorem length_eq_add_count {t : List Nat} {c : Nat} (hle : ∀ k ∈ t, k ≤ c) (h : ∀ k < c, t.count k = 1) :
    t.length = c + t.count c := by
  have hcard : ∑ k ∈ Finset.range (c + 1), Multiset.count k (t : Multiset Nat) = Multiset.card (t : Multiset Nat) :=
    Multiset.sum_count_eq_card fun k hk => Finset.mem_range_succ_iff.2 (hle k hk)
  have hone : ∑ k ∈ Finset.range c, t.count k = c := by
    rw [Finset.sum_const_nat fun k hk => h k (Finset.mem_range.1 hk), Finset.card_range, Nat.mul_one]
  simp only [Multiset.coe_count, Multiset.coe_card] at hcard
  rw [← hcard, Finset.sum_range_succ, hone]

theorem Delivery.Inv.length_passed (hi : s.Inv) : s.passed.length = s.completed + s.sender.current.length := by
  obtain ⟨done, hlen, hpassed⟩ := hi.passed
  rw [hpassed, List.length_append, hlen]

theorem length_current_le (x : Sender) : x.current.length ≤ 1 := by
  cases x with
  | idle => exact Nat.zero_le 1
  | transmitting message | waiting message => exact Nat.le_refl 1

theorem Delivery.Inv.passed_le (hi : s.Inv) : s.passed.length ≤ s.completed + 1 := by
  rw [hi.length_passed]
  exact Nat.add_le_add_left (length_current_le s.sender) s.completed

/-- Beyond one message of each completed call, only the current message can have been returned. -/
theorem Delivery.Inv.length_returned (hi : s.Inv) (hr : s.Right) : s.returned.length = s.completed + s.numbers.count s.completed := by
  have hle : ∀ k ∈ s.numbers, k ≤ s.completed := by
    intro k hk
    have hlt := hi.bounded k hk
    have := hi.passed_le
    omega
  rw [← length_eq_add_count hle hr.once, Delivery.numbers, List.length_map]

theorem Delivery.Right.length_le (hr : s.Right) : s.returned.length ≤ s.passed.length := by
  have hle := hr.inOrder.length_le
  rw [List.length_map] at hle
  exact hle

/-- A message that has been returned has been returned once. -/
theorem Delivery.Inv.count_le (hi : s.Inv) (hr : s.Right) : s.numbers.count s.completed ≤ 1 := by
  have hlen := hi.length_returned hr
  have hle := hr.length_le
  have := hi.passed_le
  omega

/-! ## What the steps do -/

/-- A call that `Clean` allows. -/
theorem call_some (hc : route message = .framed) (h : s.step (.call message) = some s') : s.sender = .idle ∧
    message.length ≤ payloadSize ∧ s' = { s with passed := s.passed ++ [message], sender := .transmitting message } := by
  obtain ⟨hidle, h⟩ := Option.ite_none_right_eq_some.1 h
  have hlen : message.length ≤ payloadSize := by
    unfold route at hc
    split at hc
    · cases hc
    · split at hc
      · cases hc
      · rename_i hle
        exact Nat.not_lt.1 hle
  rw [Delivery.call, hc] at h
  cases h
  exact ⟨hidle, hlen, rfl⟩

theorem transmit_some (h : s.step .transmit = some s') : ∃ message, s.sender = .transmitting message ∧
    s' = { s with sender := .waiting message, frames := s.frames ++ [(s.completed, dataFrame s.nextSeq message)] } := by
  cases hs : s.sender with
  | transmitting message =>
    simp only [Delivery.step, hs] at h
    cases h
    exact ⟨message, rfl, rfl⟩
  | idle | waiting message =>
    simp only [Delivery.step, hs] at h
    cases h

theorem timeout_some (h : s.step .timeout = some s') : ∃ message, s.sender = .waiting message ∧
    s' = { s with sender := .transmitting message } := by
  cases hs : s.sender with
  | waiting message =>
    simp only [Delivery.step, hs] at h
    cases h
    exact ⟨message, rfl, rfl⟩
  | idle | transmitting message =>
    simp only [Delivery.step, hs] at h
    cases h

/-- A datagram that comes in while `k_sendto` waits ends the call, or the frame is sent again. -/
theorem acknowledge_some (h : s.step (.acknowledge i) = some s') : ∃ message ack, s.sender = .waiting message ∧ s.acks[i]? = some ack ∧
    (acknowledges ack.2 s.nextSeq = true ∧
        s' = s.complete ∨
      acknowledges ack.2 s.nextSeq = false ∧ s' = { s with sender := .transmitting message }) := by
  cases hs : s.sender with
  | waiting message =>
    simp only [Delivery.step, hs] at h
    obtain ⟨ack, hack, h⟩ := Option.map_eq_some_iff.1 h
    refine ⟨message, ack, rfl, hack, ?_⟩
    cases ha : acknowledges ack.2 s.nextSeq with
    | true =>
      rw [if_pos ha] at h
      exact Or.inl ⟨rfl, h.symm⟩
    | false =>
      rw [if_neg (by rw [ha]; exact Bool.false_ne_true)] at h
      exact Or.inr ⟨rfl, h.symm⟩
  | idle | transmitting message =>
    simp only [Delivery.step, hs] at h
    cases h

/-- A call of `k_recvfrom` that takes in a frame of message `k`. -/
theorem recvfrom_some {dropped : Bool} {length : Nat} (hi : s.Inv) (h : s.step (.recvfrom i dropped length) = some s') :
    ∃ frame message, s.frames[i]? = some frame ∧ s.passed[frame.1]? = some message ∧ frame.2.length = message.length + 4 ∧
      (dropped = true ∧ s' = s ∨ dropped = false ∧ s' = { s with
        acks := s.acks ++ [(frame.1, ackFrame frame.1.toUInt8)]
        returned := s.returned ++ [(frame.1, message.take (min message.length length))] }) := by
  cases hf : s.frames[i]? with
  | none =>
    simp only [Delivery.step, hf] at h
    cases h
  | some frame =>
    obtain ⟨message, hmessage, hlen, hframe⟩ := hi.frames frame (List.mem_of_getElem? hf)
    simp only [Delivery.step, hf] at h
    rw [hframe, received_dataFrame hlen] at h
    refine ⟨frame, message, rfl, hmessage, by rw [hframe]; exact length_frame .., ?_⟩
    cases dropped with
    | true =>
      cases h
      refine Or.inl ⟨rfl, ?_⟩
      simp only [Delivery.receive, Option.map_none, Option.toList_none, List.append_nil]
      rfl
    | false =>
      cases h
      exact Or.inr ⟨rfl, rfl⟩

/-! ## What a step keeps -/

theorem getElem?_append_some {α : Type*} {l : List α} {k : Nat} {a : α} (h : l[k]? = some a) (t : List α) : (l ++ t)[k]? = some a := by
  rw [List.getElem?_append_left (List.getElem?_eq_some_iff.1 h).1]
  exact h

theorem inv_call (hi : s.Inv) (hidle : s.sender = .idle) (hlen : message.length ≤ payloadSize) :
    Delivery.Inv { s with passed := s.passed ++ [message], sender := .transmitting message } := by
  obtain ⟨done, hdone, hpassed⟩ := hi.passed
  rw [hidle, Sender.current, List.append_nil] at hpassed
  refine ⟨hi.seq, ⟨done, hdone, by rw [hpassed]; rfl⟩, ?_, ?_, hi.acks, ?_⟩
  · intro m hm
    obtain rfl := List.mem_singleton.1 hm
    exact hlen
  · intro frame hf
    obtain ⟨m, hm, hrest⟩ := hi.frames frame hf
    exact ⟨m, getElem?_append_some hm _, hrest⟩
  · intro k hk
    rw [List.length_append]
    exact Nat.lt_add_right _ (hi.bounded k hk)

theorem inv_transmit (hi : s.Inv) (hs : s.sender = .transmitting message) :
    Delivery.Inv { s with sender := .waiting message, frames := s.frames ++ [(s.completed, dataFrame s.nextSeq message)] } := by
  obtain ⟨done, hdone, hpassed⟩ := hi.passed
  have hcurrent : ∀ m ∈ [message], m.length ≤ payloadSize := by
    have := hi.current
    rw [hs] at this
    exact this
  rw [hs] at hpassed
  refine ⟨hi.seq, ⟨done, hdone, hpassed⟩, hcurrent, ?_, hi.acks, hi.bounded⟩
  intro frame hf
  rcases List.mem_append.1 hf with hf | hf
  · exact hi.frames frame hf
  · obtain rfl := List.mem_singleton.1 hf
    refine ⟨message, ?_, hcurrent message (List.mem_singleton_self _), by rw [← hi.seq]⟩
    change s.passed[s.completed]? = some message
    rw [hpassed, ← hdone, Sender.current, List.getElem?_append_right (Nat.le_refl _), Nat.sub_self]
    rfl

/-- Whether `k_sendto` waits or is about to send again, the rest is as it is. -/
theorem inv_resend (hi : s.Inv) (hs : s.sender = .waiting message) : Delivery.Inv { s with sender := .transmitting message } := by
  have hcurrent := hi.current
  have hpassed := hi.passed
  rw [hs] at hcurrent hpassed
  exact ⟨hi.seq, hpassed, hcurrent, hi.frames, hi.acks, hi.bounded⟩

theorem inv_acknowledged (hi : s.Inv) (hs : s.sender = .waiting message) :
    s.complete.Inv := by
  obtain ⟨done, hdone, hpassed⟩ := hi.passed
  rw [hs] at hpassed
  refine ⟨?_, ⟨done ++ [message], ?_, ?_⟩, nofun, hi.frames, hi.acks, hi.bounded⟩
  · change s.nextSeq + 1 = (s.completed + 1).toUInt8
    rw [hi.seq, Nat.toUInt8_eq, Nat.toUInt8_eq, UInt8.ofNat_add]
    rfl
  · rw [List.length_append, hdone]
    rfl
  · change s.passed = done ++ [message] ++ []
    rw [List.append_nil]
    exact hpassed

theorem inv_received {k : Nat} {payload : List UInt8} (hi : s.Inv) (hk : k < s.passed.length) : Delivery.Inv { s with
    acks := s.acks ++ [(k, ackFrame k.toUInt8)], returned := s.returned ++ [(k, payload)] } := by
  refine ⟨hi.seq, hi.passed, hi.current, hi.frames, ?_, ?_⟩
  · intro ack hack
    simp only [Delivery.numbers, List.map_append, List.mem_append]
    rcases List.mem_append.1 hack with hack | hack
    · obtain ⟨hbytes, hmem⟩ := hi.acks ack hack
      exact ⟨hbytes, Or.inl hmem⟩
    · obtain rfl := List.mem_singleton.1 hack
      exact ⟨rfl, Or.inr (List.mem_singleton_self _)⟩
  · intro j hj
    simp only [Delivery.numbers, List.map_append, List.mem_append, List.map_cons, List.map_nil, List.mem_singleton] at hj
    rcases hj with hj | rfl
    · exact hi.bounded j hj
    · exact hk

/-! ## Which steps keep the property -/

/-- A message that has not been returned comes next. -/
theorem Delivery.Inv.next {k : Nat} (hi : s.Inv) (hr : s.Right) (hk : k < s.passed.length) (hnew : k ∉ s.numbers) :
    k = s.completed ∧ s.returned.length = s.completed := by
  have hge : s.completed ≤ k := by
    by_contra hlt
    have hone := hr.once k (Nat.not_le.1 hlt)
    rw [List.count_eq_zero_of_not_mem hnew] at hone
    cases hone
  have hle := hi.passed_le
  obtain rfl : k = s.completed := by omega
  refine ⟨rfl, ?_⟩
  rw [hi.length_returned hr, List.count_eq_zero_of_not_mem hnew, Nat.add_zero]

theorem count_numbers_append (s : Delivery) (k j : Nat) (payload : List UInt8) (acks : List (Nat × List UInt8)) :
    (Delivery.numbers { s with acks := acks, returned := s.returned ++ [(k, payload)] }).count j =
      s.numbers.count j + if k = j then 1 else 0 := by
  simp only [Delivery.numbers, List.map_append, List.count_append, List.map_cons, List.map_nil, List.count_singleton, beq_iff_eq]

/-- Taking in the message that comes next, as a whole. -/
theorem right_received {k : Nat} {acks : List (Nat × List UInt8)} (hi : s.Inv) (hr : s.Right) (hm : s.passed[k]? = some message)
    (hnew : k ∉ s.numbers) : Delivery.Right { s with acks := acks, returned := s.returned ++ [(k, message)] } := by
  have hk : k < s.passed.length := (List.getElem?_eq_some_iff.1 hm).1
  obtain ⟨rfl, hlen⟩ := hi.next hr hk hnew
  constructor
  · have htake : s.returned.map Prod.snd = s.passed.take s.completed := by
      have := List.prefix_iff_eq_take.1 hr.inOrder
      rw [List.length_map, hlen] at this
      exact this
    change (s.returned ++ [(s.completed, message)]).map Prod.snd <+: s.passed
    rw [List.map_append, htake, List.map_cons, List.map_nil, ← Option.toList_some (a := message), ← hm, ← List.take_add_one]
    exact List.take_prefix _ _
  · intro j hj
    rw [count_numbers_append, if_neg (Nat.ne_of_gt hj)]
    exact hr.once j hj

/-- Taking in a message that has been returned, or only a part of one. -/
theorem not_right_received {k : Nat} {payload : List UInt8} {acks : List (Nat × List UInt8)} (hi : s.Inv) (hr : s.Right)
    (hm : s.passed[k]? = some message) (hbad : k ∈ s.numbers ∨ payload ≠ message) :
    ¬Delivery.Right { s with acks := acks, returned := s.returned ++ [(k, payload)] } := by
  intro hr'
  have hk : k < s.passed.length := (List.getElem?_eq_some_iff.1 hm).1
  by_cases hmem : k ∈ s.numbers
  · have hpos : 0 < s.numbers.count k := List.count_pos_iff.2 hmem
    by_cases hlt : k < s.completed
    · -- a message of a completed call, for the second time
      have htwo := hr'.once k hlt
      rw [count_numbers_append, if_pos rfl] at htwo
      omega
    · -- the current message, for the second time: more has been returned than passed
      have hle := hi.passed_le
      obtain rfl : k = s.completed := by omega
      have hlen := hi.length_returned hr
      have hle' := hr'.length_le
      change (s.returned ++ [(s.completed, payload)]).length ≤ s.passed.length at hle'
      rw [List.length_append] at hle'
      change s.returned.length + 1 ≤ s.passed.length at hle'
      omega
  · obtain ⟨rfl, hlen⟩ := hi.next hr hk hmem
    refine hbad.resolve_left hmem ?_
    have hin : (s.returned ++ [(s.completed, payload)]).map Prod.snd <+: s.passed := hr'.inOrder
    have hlast : ((s.returned ++ [(s.completed, payload)]).map Prod.snd)[s.completed]? = some payload := by
      rw [← hlen, List.map_append, List.getElem?_append_right (by rw [List.length_map]), List.length_map, Nat.sub_self]
      rfl
    obtain ⟨rest, hrest⟩ := hin
    have hat := getElem?_append_some hlast rest
    rw [hrest] at hat
    exact Option.some.inj (hat.symm.trans hm)

/-- A call may end when its message has been returned, and only then. -/
theorem right_complete_iff (hi : s.Inv) (hr : s.Right) : s.complete.Right ↔ s.completed ∈ s.numbers := by
  constructor
  · intro h
    have hone : s.numbers.count s.completed = 1 := h.once s.completed (Nat.lt_succ_self _)
    exact List.count_pos_iff.1 (by omega)
  · intro hmem
    refine ⟨hr.inOrder, fun k hk => ?_⟩
    change s.numbers.count k = 1
    rcases Nat.lt_succ_iff_lt_or_eq.1 hk with hlt | rfl
    · exact hr.once k hlt
    · exact Nat.le_antisymm (hi.count_le hr) (List.count_pos_iff.2 hmem)

/-- A message that is sent as it is: the call returns at once, before its message can have been returned. -/
theorem not_right_raw {frames : List (Nat × List UInt8)} (hi : s.Inv) (hidle : s.sender = .idle) : ¬Delivery.Right { s with
    passed := s.passed ++ [message], completed := s.completed + 1, frames := frames } := by
  intro hr'
  have hlen : s.passed.length = s.completed := by
    rw [hi.length_passed, hidle]
    rfl
  have hnew : s.completed ∉ s.numbers := by
    intro hmem
    have hlt := hi.bounded _ hmem
    omega
  have hone : s.numbers.count s.completed = 1 := hr'.once s.completed (Nat.lt_succ_self _)
  rw [List.count_eq_zero_of_not_mem hnew] at hone
  cases hone

/-- A step that `Clean` allows keeps the invariant and the property. -/
theorem step_keeps (hi : s.Inv) (hr : s.Right) (hc : Clean s e) (h : s.step e = some s') : s'.Inv ∧ s'.Right := by
  cases e with
  | call message =>
    obtain ⟨hidle, hlen, rfl⟩ := call_some hc h
    exact ⟨inv_call hi hidle hlen, hr.inOrder.trans (List.prefix_append _ _), hr.once⟩
  | transmit =>
    obtain ⟨message, hs, rfl⟩ := transmit_some h
    exact ⟨inv_transmit hi hs, hr.inOrder, hr.once⟩
  | timeout =>
    obtain ⟨message, hs, rfl⟩ := timeout_some h
    exact ⟨inv_resend hi hs, hr.inOrder, hr.once⟩
  | acknowledge i =>
    obtain ⟨message, ack, hs, hack, ⟨ha, rfl⟩ | ⟨-, rfl⟩⟩ := acknowledge_some h
    · refine ⟨inv_acknowledged hi hs, (right_complete_iff hi hr).2 ?_⟩
      -- an acknowledgement of the current message is only made when the message is returned
      rcases hc ack hack ha with hown | hmem
      · rw [← hown]
        exact (hi.acks ack (List.mem_of_getElem? hack)).2
      · exact hmem
    · exact ⟨inv_resend hi hs, hr.inOrder, hr.once⟩
  | recvfrom i dropped length =>
    obtain ⟨frame, message, hf, hm, hlen, ⟨-, rfl⟩ | ⟨hdropped, rfl⟩⟩ := recvfrom_some hi h
    · exact ⟨hi, hr⟩
    · obtain ⟨hnew, hfits⟩ := hc hdropped frame hf
      have hwhole : message.take (min message.length length) = message := List.take_of_length_le (by omega)
      rw [hwhole]
      exact ⟨inv_received hi (List.getElem?_eq_some_iff.1 hm).1, right_received hi hr hm hnew⟩

/-- A step that `Clean` forbids breaks the property. -/
theorem step_breaks (hi : s.Inv) (hr : s.Right) (hc : ¬Clean s e) (h : s.step e = some s') : ¬s'.Right := by
  cases e with
  | call message =>
    obtain ⟨hidle, h⟩ := Option.ite_none_right_eq_some.1 h
    cases hroute : route message with
    | framed => exact absurd hroute hc
    | tooLarge =>
      rw [Delivery.call, hroute] at h
      cases h
    | raw =>
      rw [Delivery.call, hroute] at h
      cases h
      exact not_right_raw hi hidle
  | transmit | timeout => exact absurd trivial hc
  | acknowledge i =>
    obtain ⟨message, ack, hs, hack, ⟨ha, rfl⟩ | ⟨ha, rfl⟩⟩ := acknowledge_some h
    · rw [right_complete_iff hi hr]
      exact fun hmem => hc fun _ _ _ => Or.inr hmem
    · refine absurd (fun ack' hack' ha' => ?_) hc
      cases hack.symm.trans hack'
      rw [ha] at ha'
      cases ha'
  | recvfrom i dropped length =>
    obtain ⟨frame, message, hf, hm, hlen, ⟨hdropped, rfl⟩ | ⟨hdropped, rfl⟩⟩ := recvfrom_some hi h
    · refine absurd (fun hfalse => ?_) hc
      rw [hdropped] at hfalse
      cases hfalse
    · refine not_right_received hi hr hm ?_
      by_contra hor
      obtain ⟨hnew, hwhole⟩ := not_or.1 hor
      refine hc fun _ frame' hf' => ?_
      cases hf.symm.trans hf'
      have hle := congrArg List.length (not_not.1 hwhole)
      rw [List.length_take] at hle
      exact ⟨hnew, by omega⟩

theorem begin_inv : Delivery.begin.Inv := ⟨rfl, ⟨[], rfl, rfl⟩, nofun, nofun, nofun, nofun⟩

theorem begin_right : Delivery.begin.Right := ⟨List.nil_prefix, nofun⟩

/-- Stop-and-wait delivery. Along a run, what is returned is at every moment a prefix of what has been passed, and the message of every
call that has returned has been returned once, exactly when every step of the run is clean. -/
theorem delivery_right_iff (events : List Event) (s : Delivery) (h : exec Delivery.step .begin events = some s) :
    Always Delivery.step Delivery.Right .begin events ↔ Meets Delivery.step Clean .begin events :=
  always_iff_meets_while (fun _ _ _ hi hr hc hs => step_keeps hi hr hc hs) (fun _ _ _ hi hr hc hs => step_breaks hi hr hc hs)
    begin_inv begin_right h

/-- One message, sent, taken in and acknowledged. -/
theorem delivery_right_once : Always Delivery.step Delivery.Right .begin
    [.call [65], .transmit, .timeout, .transmit, .recvfrom 1 true 512, .recvfrom 0 false 512, .acknowledge 0] := by
  have hrun : (exec Delivery.step .begin
      [.call [65], .transmit, .timeout, .transmit, .recvfrom 1 true 512, .recvfrom 0 false 512, .acknowledge 0]).isSome = true := by
    decide +kernel
  obtain ⟨s, hs⟩ := Option.isSome_iff_exists.1 hrun
  exact (delivery_right_iff _ s hs).2 (by decide +kernel)

/-- The message is taken in, its acknowledgement is late, and the frame that is sent again is taken in as well. -/
theorem frame_taken_twice : ¬∀ events, Always Delivery.step (fun s => s.returned.map Prod.snd <+: s.passed) .begin events := by
  intro h
  have hrun : (exec Delivery.step .begin
      [.call [65], .transmit, .recvfrom 0 false 512, .timeout, .transmit, .recvfrom 1 false 512]).any
      (fun s => decide (s.passed.length < s.returned.length)) = true := by decide +kernel
  obtain ⟨s, hs, hlt⟩ := (Option.any_eq_true _ _).1 hrun
  have hle := (h _ _ (List.prefix_refl _) s hs).length_le
  rw [List.length_map] at hle
  exact absurd (of_decide_eq_true hlt) (Nat.not_lt.2 hle)

end NetLabs.StopWait
