import Mathlib.Data.Nat.Find
import NetLabs.Lib.Chunks
import NetLabs.StopWait.Closing
import NetLabs.StopWait.Delivery

/-!
# Sending a file over the stop-and-wait sockets

`user1` reads `input.txt` in pieces of up to 508 bytes, passes each one to `k_sendto` and then sends `EOF`; `user2` writes what
`k_recvfrom` returns into `output.txt` until the buffer it receives into begins with `EOF`. The buffer is not cleared between messages.
`user2` is followed up to the end of its loop.
-/

namespace NetLabs.StopWait

open Chunks CText Machine

/-! ## The code -/

/-- What `user1` has not read and whether it has left its loop, what is between the programs and whether an `EOF` is, the buffer and
the file of `user2` and whether it has left its loop. -/
structure Copying where
  rest : List UInt8
  closing : Bool
  delivery : Delivery
  eofSent : Bool
  buffer : List UInt8
  output : List UInt8
  left : Bool

/-- The files are open and the sockets new; `buffer` is not initialised. -/
def Copying.begin (buffer content : List UInt8) : Copying := ⟨content, false, .begin, false, buffer, [], false⟩

/-- `fread` and, with a piece of the file, the call of `k_sendto`; what happens in `k_sendto`; a call of `k_recvfrom` that takes a frame or
the `EOF`; and the sending of `EOF`. -/
inductive CopyMove where
  | fread
  | transmit
  | timeout
  | acknowledge (i : Nat)
  | recvfrom (i : Nat) (dropped : Bool)
  | sendEof
  | recvEof (dropped : Bool)

/-- The bytes of a message in a buffer that is not cleared before. -/
def lay (message buffer : List UInt8) : List UInt8 := message ++ buffer.drop message.length

/-- `strncmp(buffer, "EOF", 3) == 0`. -/
def beginsEof (buffer : List UInt8) : Bool := startsWith buffer (text "EOF")

/-- `user2` with what `k_recvfrom` has returned. -/
def Copying.takes (x : Copying) (r : Received) : Copying :=
  if r.value < 0 then x
  else if beginsEof (lay r.stored x.buffer) then { x with buffer := lay r.stored x.buffer, left := true }
  else { x with buffer := lay r.stored x.buffer, output := x.output ++ r.stored }

def Copying.step (x : Copying) : CopyMove → Option Copying
  | .fread =>
    if x.delivery.sender = .idle ∧ x.closing = false then
      if x.rest = [] then some { x with closing := true }
      else (x.delivery.step (.call (x.rest.take payloadSize))).map fun d =>
        { x with rest := x.rest.drop payloadSize, delivery := d }
    else none
  | .transmit => (x.delivery.step .transmit).map fun d => { x with delivery := d }
  | .timeout => (x.delivery.step .timeout).map fun d => { x with delivery := d }
  | .acknowledge i => (x.delivery.step (.acknowledge i)).map fun d => { x with delivery := d }
  | .recvfrom i dropped =>
    if x.left then none
    else match x.delivery.frames[i]? with
      | some frame => (received frame.2 dropped messageSize).map fun r =>
        { x with delivery := x.delivery.receive frame.1 r }.takes r
      | none => none
  | .sendEof => if x.closing then some { x with eofSent := true } else none
  | .recvEof dropped => if x.left ∨ ¬x.eofSent then none else (received eof dropped messageSize).map x.takes

/-- What a move does on the way between the programs, and that it goes well there. -/
def Copying.Clean (x : Copying) : CopyMove → Prop
  | .fread => x.rest ≠ [] → StopWait.Clean x.delivery (.call (x.rest.take payloadSize))
  | .acknowledge i => StopWait.Clean x.delivery (.acknowledge i)
  | .recvfrom i dropped => StopWait.Clean x.delivery (.recvfrom i dropped messageSize)
  | .transmit | .timeout | .sendEof | .recvEof _ => True

/-! ## What a copy is to do -/

/-- The `k`-th message of the file. -/
abbrev piece (content : List UInt8) (k : Nat) : List UInt8 := chunk payloadSize content k

/-- The buffer of `user2` after `k` messages. -/
def bufferAfter (buffer content : List UInt8) : Nat → List UInt8
  | 0 => buffer
  | k + 1 => lay (piece content k) (bufferAfter buffer content k)

/-- Of the messages up to the first one that is sent as it is, none begins, in the buffer as it was before, with `EOF`. -/
def NoEarlyEof (buffer content : List UInt8) : Prop :=
  ∀ k, payloadSize * k < content.length → (∀ i ≤ k, route (piece content i) = .framed) →
    beginsEof (bufferAfter buffer content (k + 1)) = false

/-- What has been written is a beginning of the file; when `user1` has left its loop it is all of it; and `user2` does not leave its loop
before. -/
structure Copying.Right (content : List UInt8) (x : Copying) : Prop where
  output : x.output <+: content
  whole : x.closing = true → x.output = content
  left : x.left = true → x.closing = true

variable {x x' : Copying} {m : CopyMove} {buffer content message : List UInt8} {r : Received} {k : Nat}

/-! ## The invariant -/

/-- `user1` has passed the first pieces of the file, all in frames; `user2` has written the first ones of these, all that have been
returned as long as it is in its loop, and leaves it after `user1` only. -/
structure Copying.Inv (buffer content : List UInt8) (x : Copying) : Prop where
  delivery : x.delivery.Inv
  right : x.delivery.Right
  passed : x.delivery.passed = chunks payloadSize content x.delivery.passed.length
  framed : ∀ i < x.delivery.passed.length, payloadSize * i < content.length ∧ route (piece content i) = .framed
  rest : x.rest = content.drop (payloadSize * x.delivery.passed.length)
  closing : x.closing = true → x.delivery.sender = .idle ∧ x.rest = []
  eofSent : x.eofSent = true → x.closing = true
  output : ∃ j, x.output = content.take (payloadSize * j) ∧ (x.left = false → j = x.delivery.returned.length)
  held : x.left = false → x.buffer = bufferAfter buffer content x.delivery.returned.length
  left : NoEarlyEof buffer content → x.left = true → x.closing = true ∧ x.output = content

theorem copying_begin (buffer content : List UInt8) : (Copying.begin buffer content).Inv buffer content where
  delivery := begin_inv
  right := begin_right
  passed := rfl
  framed i hi := absurd hi (Nat.not_lt_zero i)
  rest := rfl
  closing h := by cases h
  eofSent h := by cases h
  output := ⟨0, (List.take_zero ..).symm, fun _ => rfl⟩
  held _ := rfl
  left _ h := by cases h

/-- What `user2` has been given are the first pieces. -/
theorem Copying.Inv.returned (hi : x.Inv buffer content) :
    x.delivery.returned.map Prod.snd = chunks payloadSize content x.delivery.returned.length := by
  have h := hi.right.inOrder
  rw [hi.passed] at h
  have := eq_chunks_of_prefix h
  rwa [List.length_map] at this

/-- When `user1` has left its loop, every piece of the file has been returned. -/
theorem Copying.Inv.all_returned (hi : x.Inv buffer content) (hclosing : x.closing = true) :
    content.take (payloadSize * x.delivery.returned.length) = content := by
  obtain ⟨hidle, hrest⟩ := hi.closing hclosing
  have hpassed : x.delivery.passed.length = x.delivery.completed := by
    rw [hi.delivery.length_passed, hidle]
    rfl
  have hnew : x.delivery.completed ∉ x.delivery.numbers := by
    intro hmem
    have := hi.delivery.bounded _ hmem
    omega
  have hall : x.delivery.returned.length = x.delivery.completed := by
    rw [hi.delivery.length_returned hi.right, List.count_eq_zero_of_not_mem hnew, Nat.add_zero]
  rw [hall, ← hpassed]
  refine List.take_of_length_le ?_
  rw [hi.rest] at hrest
  exact List.drop_eq_nil_iff.1 hrest

/-- What is between the programs changes, and what `user1` has passed and `user2` has been given does not. -/
theorem Copying.Inv.of_delivery {d : Delivery} (hi : x.Inv buffer content) (hd : d.Inv) (hr : d.Right)
    (hpassed : d.passed = x.delivery.passed) (hreturned : d.returned = x.delivery.returned)
    (hidle : x.delivery.sender = .idle → d.sender = .idle) : Copying.Inv buffer content { x with delivery := d } where
  delivery := hd
  right := hr
  passed := by rw [hpassed]; exact hi.passed
  framed := by rw [hpassed]; exact hi.framed
  rest := by rw [hpassed]; exact hi.rest
  closing h := ⟨hidle (hi.closing h).1, (hi.closing h).2⟩
  eofSent := hi.eofSent
  output := by rw [hreturned]; exact hi.output
  held := by rw [hreturned]; exact hi.held
  left := hi.left

/-! ## The moves of `user1` -/

theorem inv_fread (hi : x.Inv buffer content) (hc : x.Clean .fread) (h : x.step .fread = some x') : x'.Inv buffer content := by
  obtain ⟨⟨hidle, hopen⟩, h⟩ := Option.ite_none_right_eq_some.1 h
  by_cases hrest : x.rest = []
  · rw [if_pos hrest] at h
    cases h
    exact ⟨hi.delivery, hi.right, hi.passed, hi.framed, hi.rest, fun _ => ⟨hidle, hrest⟩, fun _ => rfl, hi.output, hi.held,
      fun hno hleft => ⟨rfl, (hi.left hno hleft).2⟩⟩
  · rw [if_neg hrest] at h
    obtain ⟨d, hd, rfl⟩ := Option.map_eq_some_iff.1 h
    have hroute := hc hrest
    obtain ⟨hdelivery, hright⟩ := step_keeps hi.delivery hi.right hroute hd
    obtain ⟨-, -, rfl⟩ := call_some hroute hd
    have hpiece : x.rest.take payloadSize = piece content x.delivery.passed.length := by rw [hi.rest, piece, chunk]
    have hlen : (x.delivery.passed ++ [x.rest.take payloadSize]).length = x.delivery.passed.length + 1 := List.length_append ..
    have hmore : payloadSize * x.delivery.passed.length < content.length := by
      rw [hi.rest, List.drop_eq_nil_iff] at hrest
      exact Nat.not_le.1 hrest
    refine ⟨hdelivery, hright, ?_, ?_, ?_, ?_, hi.eofSent, hi.output, hi.held, hi.left⟩
    · simp only [hlen]
      rw [chunks_succ, ← hi.passed, hpiece]
    · intro j hj
      simp only [hlen] at hj
      rcases Nat.lt_succ_iff_lt_or_eq.1 hj with hlt | rfl
      · exact hi.framed j hlt
      · exact ⟨hmore, hpiece ▸ hroute⟩
    · simp only [hlen]
      rw [hi.rest, List.drop_drop, ← Nat.mul_succ]
    · intro hclosing
      rw [hopen] at hclosing
      cases hclosing

/-- What `k_sendto` does while it waits changes nothing of the files. -/
theorem inv_waiting {e : Event} (hi : x.Inv buffer content) (hc : StopWait.Clean x.delivery e)
    (he : e = .transmit ∨ e = .timeout ∨ ∃ i, e = .acknowledge i)
    (h : (x.delivery.step e).map (fun d => { x with delivery := d }) = some x') : x'.Inv buffer content := by
  obtain ⟨d, hd, rfl⟩ := Option.map_eq_some_iff.1 h
  obtain ⟨hdelivery, hright⟩ := step_keeps hi.delivery hi.right hc hd
  rcases he with rfl | rfl | ⟨i, rfl⟩
  · obtain ⟨message, hs, rfl⟩ := transmit_some hd
    refine hi.of_delivery hdelivery hright rfl rfl fun hidle => ?_
    rw [hidle] at hs
    cases hs
  · obtain ⟨message, hs, rfl⟩ := timeout_some hd
    refine hi.of_delivery hdelivery hright rfl rfl fun hidle => ?_
    rw [hidle] at hs
    cases hs
  · obtain ⟨message, ack, hs, -, ⟨-, rfl⟩ | ⟨-, rfl⟩⟩ := acknowledge_some hd
    · exact hi.of_delivery hdelivery hright rfl rfl fun _ => rfl
    · refine hi.of_delivery hdelivery hright rfl rfl fun hidle => ?_
      rw [hidle] at hs
      cases hs

/-! ## The moves of `user2` -/

/-- `user2` with a message of the file. -/
theorem takes_message (hm : r = ⟨(message.length : Int), message, some (ackFrame k.toUInt8)⟩) :
    x.takes r = if beginsEof (lay message x.buffer) then { x with buffer := lay message x.buffer, left := true }
      else { x with buffer := lay message x.buffer, output := x.output ++ message } := by
  subst hm
  rw [Copying.takes, if_neg (Int.not_lt.2 (Int.natCast_nonneg _))]

/-- `user2` takes in the piece that comes next. -/
theorem inv_takes {d : Delivery} (hi : x.Inv buffer content) (hleft : x.left = false) (hd : d.Inv) (hr : d.Right)
    (hpassed : d.passed = x.delivery.passed) (hreturned : d.returned = x.delivery.returned ++ [(k, message)])
    (hsender : d.sender = x.delivery.sender) (hm : r = ⟨(message.length : Int), message, some (ackFrame k.toUInt8)⟩) :
    (Copying.takes { x with delivery := d } r).Inv buffer content := by
  have hlen : d.returned.length = x.delivery.returned.length + 1 := by
    rw [hreturned, List.length_append]
    rfl
  -- what has been returned are the first pieces, so the message is the next one
  have hpieces : d.returned.map Prod.snd = chunks payloadSize content (x.delivery.returned.length + 1) := by
    have hprefix := hr.inOrder
    rw [hpassed, hi.passed] at hprefix
    have := eq_chunks_of_prefix hprefix
    rwa [List.length_map, hlen] at this
  have hmessage : message = piece content x.delivery.returned.length := by
    rw [hreturned, List.map_append, hi.returned, chunks_succ] at hpieces
    exact List.singleton_inj.1 (List.append_cancel_left hpieces)
  have hlt : x.delivery.returned.length < x.delivery.passed.length := by
    have := hr.length_le
    rw [hpassed, hlen] at this
    exact this
  obtain ⟨j, houtput, hj⟩ := hi.output
  obtain rfl := hj hleft
  have hheld : lay message x.buffer = bufferAfter buffer content (x.delivery.returned.length + 1) := by
    rw [bufferAfter, hmessage, hi.held hleft]
  have hpassed' : d.passed = chunks payloadSize content d.passed.length := by rw [hpassed]; exact hi.passed
  have hframed : ∀ i < d.passed.length, payloadSize * i < content.length ∧ route (piece content i) = .framed := by
    rw [hpassed]
    exact hi.framed
  have hrest : x.rest = content.drop (payloadSize * d.passed.length) := by rw [hpassed]; exact hi.rest
  have hclosing : x.closing = true → d.sender = .idle ∧ x.rest = [] := by rw [hsender]; exact hi.closing
  rw [takes_message hm]
  cases hb : beginsEof (lay message x.buffer) with
  | true =>
    rw [if_pos rfl]
    refine ⟨hd, hr, hpassed', hframed, hrest, hclosing, hi.eofSent, ⟨_, houtput, fun hf => by cases hf⟩,
      (fun hf => by cases hf), ?_⟩
    intro hno _
    have hquiet := hno _ (hi.framed _ hlt).1 fun i hle => (hi.framed i (Nat.lt_of_le_of_lt hle hlt)).2
    rw [← hheld, hb] at hquiet
    cases hquiet
  | false =>
    rw [if_neg Bool.false_ne_true]
    refine ⟨hd, hr, hpassed', hframed, hrest, hclosing, hi.eofSent, ⟨_, ?_, fun _ => hlen.symm⟩, fun _ => ?_, ?_⟩
    · rw [houtput, hmessage]
      exact take_chunk
    · rw [hlen]
      exact hheld
    · intro _ hleft'
      exact absurd (hleft.symm.trans hleft') Bool.false_ne_true

theorem inv_recvfrom {i : Nat} {dropped : Bool} (hi : x.Inv buffer content) (hc : x.Clean (.recvfrom i dropped))
    (h : x.step (.recvfrom i dropped) = some x') : x'.Inv buffer content := by
  obtain ⟨hleft, h⟩ := Option.ite_none_left_eq_some.1 h
  have hleft := Bool.eq_false_iff.2 hleft
  cases hf : x.delivery.frames[i]? with
  | none =>
    rw [hf] at h
    cases h
  | some frame =>
    simp only [hf] at h
    obtain ⟨r, hr, rfl⟩ := Option.map_eq_some_iff.1 h
    obtain ⟨message, hmessage, hlen, hframe⟩ := hi.delivery.frames frame (List.mem_of_getElem? hf)
    have hstep : x.delivery.step (.recvfrom i dropped messageSize) = some (x.delivery.receive frame.1 r) := by
      simp only [Delivery.step, hf, hr, Option.map_some]
    have hclean : StopWait.Clean x.delivery (.recvfrom i dropped messageSize) := hc
    obtain ⟨hdelivery, hright⟩ := step_keeps hi.delivery hi.right hclean hstep
    rw [hframe, received_dataFrame hlen] at hr
    cases dropped with
    | true =>
      cases hr
      rw [Copying.takes, if_pos (by decide)]
      exact hi.of_delivery hdelivery hright rfl rfl fun hidle => hidle
    | false =>
      have hwhole : min message.length messageSize = message.length :=
        Nat.min_eq_left (hlen.trans (by unfold payloadSize; omega))
      rw [if_neg Bool.false_ne_true, hwhole, List.take_length] at hr
      cases hr
      exact inv_takes hi hleft hdelivery hright rfl rfl rfl rfl

/-- `user2` with an `EOF`: `user1` has left its loop, and everything has been written. -/
theorem inv_recvEof {dropped : Bool} (hi : x.Inv buffer content) (h : x.step (.recvEof dropped) = some x') : x'.Inv buffer content := by
  obtain ⟨hnot, h⟩ := Option.ite_none_left_eq_some.1 h
  obtain ⟨hleft, hsent⟩ := not_or.1 hnot
  have hleft := Bool.eq_false_iff.2 hleft
  have hclosing := hi.eofSent (not_not.1 hsent)
  rw [received_eof] at h
  cases h
  have hend : beginsEof (lay eof x.buffer) = true := by
    rw [beginsEof, startsWith_iff, lay, eof, List.append_assoc]
    exact List.prefix_append _ _
  rw [Copying.takes, if_neg (by decide), if_pos hend]
  obtain ⟨j, houtput, hj⟩ := hi.output
  refine ⟨hi.delivery, hi.right, hi.passed, hi.framed, hi.rest, hi.closing, hi.eofSent, ⟨j, houtput, fun hf => by cases hf⟩,
    (fun hf => by cases hf), fun _ _ => ⟨hclosing, ?_⟩⟩
  obtain rfl := hj hleft
  exact houtput.trans (hi.all_returned hclosing)

/-! ## Every run -/

theorem copying_step (hi : x.Inv buffer content) (hc : x.Clean m) (h : x.step m = some x') : x'.Inv buffer content := by
  cases m with
  | fread => exact inv_fread hi hc h
  | transmit => exact inv_waiting (e := .transmit) hi trivial (Or.inl rfl) h
  | timeout => exact inv_waiting (e := .timeout) hi trivial (Or.inr (Or.inl rfl)) h
  | acknowledge i => exact inv_waiting (e := .acknowledge i) hi hc (Or.inr (Or.inr ⟨i, rfl⟩)) h
  | recvfrom i dropped => exact inv_recvfrom hi hc h
  | sendEof =>
    obtain ⟨hclosing, ⟨⟩⟩ := Option.ite_none_right_eq_some.1 h
    exact ⟨hi.delivery, hi.right, hi.passed, hi.framed, hi.rest, hi.closing, fun _ => hclosing, hi.output, hi.held, hi.left⟩
  | recvEof dropped => exact inv_recvEof hi h

theorem right_of_inv (hno : NoEarlyEof buffer content) (hi : x.Inv buffer content) : x.Right content := by
  obtain ⟨j, houtput, hj⟩ := hi.output
  refine ⟨houtput ▸ List.take_prefix _ _, fun hclosing => ?_, fun hleft => (hi.left hno hleft).1⟩
  cases hleft : x.left with
  | true => exact (hi.left hno hleft).2
  | false =>
    obtain rfl := hj hleft
    exact houtput.trans (hi.all_returned hclosing)

/-! ## The run in which `user2` leaves too early -/

/-- A piece is sent, taken in and acknowledged, `k` times. -/
def rounds : Nat → List CopyMove
  | 0 => []
  | k + 1 => rounds k ++ [.fread, .transmit, .recvfrom k false, .acknowledge k]

/-- What is between the programs after `k` rounds. -/
def delivered (content : List UInt8) (k : Nat) : Delivery where
  nextSeq := k.toUInt8
  sender := .idle
  passed := chunks payloadSize content k
  completed := k
  frames := (List.range k).map fun i => (i, dataFrame i.toUInt8 (piece content i))
  acks := (List.range k).map fun i => (i, ackFrame i.toUInt8)
  returned := (List.range k).map fun i => (i, piece content i)

/-- After `k` rounds. -/
def afterRounds (buffer content : List UInt8) (k : Nat) : Copying where
  rest := content.drop (payloadSize * k)
  closing := false
  delivery := delivered content k
  eofSent := false
  buffer := bufferAfter buffer content k
  output := content.take (payloadSize * k)
  left := false

/-- The `k`-th of what has been numbered from 0 on. -/
theorem getElem?_numbered {α : Type*} (f : Nat → α) (k : Nat) : ((List.range k).map f ++ [f k])[k]? = some (f k) := by
  rw [List.getElem?_append_right (by rw [List.length_map, List.length_range]), List.length_map, List.length_range, Nat.sub_self]
  rfl

theorem range_map_succ {α : Type*} (f : Nat → α) (k : Nat) : (List.range k).map f ++ [f k] = (List.range (k + 1)).map f := by
  rw [List.range_succ, List.map_append]
  rfl

/-- `user1` has called `k_sendto` with the next piece, and its frame is on the way. -/
def underWay (buffer content : List UInt8) (k : Nat) : Copying :=
  { afterRounds buffer content k with
    rest := content.drop (payloadSize * (k + 1))
    delivery := { delivered content k with
      sender := .waiting (piece content k)
      passed := chunks payloadSize content (k + 1)
      frames := (List.range (k + 1)).map fun i => (i, dataFrame i.toUInt8 (piece content i)) } }

/-- `user1` reads a piece that goes out in a frame. -/
theorem step_fread (hidle : x.delivery.sender = .idle) (hopen : x.closing = false) (hrest : x.rest ≠ [])
    (hroute : route (x.rest.take payloadSize) = .framed) : x.step .fread = some { x with
      rest := x.rest.drop payloadSize
      delivery := { x.delivery with
        passed := x.delivery.passed ++ [x.rest.take payloadSize], sender := .transmitting (x.rest.take payloadSize) } } := by
  rw [Copying.step, if_pos ⟨hidle, hopen⟩, if_neg hrest, Delivery.step, if_pos hidle, Delivery.call, hroute]
  rfl

/-- `user2` takes in a frame that holds a message. -/
theorem step_recvfrom {i : Nat} (hleft : x.left = false) (hf : x.delivery.frames[i]? = some (k, dataFrame k.toUInt8 message))
    (hlen : message.length ≤ payloadSize) : x.step (.recvfrom i false) = some (Copying.takes { x with
      delivery := { x.delivery with
        acks := x.delivery.acks ++ [(k, ackFrame k.toUInt8)], returned := x.delivery.returned ++ [(k, message)] } }
      ⟨(message.length : Int), message, some (ackFrame k.toUInt8)⟩) := by
  have hmin : min message.length messageSize = message.length := Nat.min_eq_left (hlen.trans (by unfold payloadSize; omega))
  have hr : received (dataFrame k.toUInt8 message) false messageSize =
      some ⟨(message.length : Int), message, some (ackFrame k.toUInt8)⟩ := by
    rw [received_dataFrame hlen, if_neg Bool.false_ne_true, hmin, List.take_length]
  have hpos : (0 : Int) ≤ (message.length : Int) := Int.natCast_nonneg _
  rw [Copying.step, if_neg (Bool.eq_false_iff.1 hleft), hf]
  simp only [hr, Option.map_some, Delivery.receive, Option.toList_some, if_pos hpos]

/-- `k_sendto` has its acknowledgement. -/
theorem step_acknowledge {i : Nat} {ack : Nat × List UInt8} (hs : x.delivery.sender = .waiting message)
    (hack : x.delivery.acks[i]? = some ack) (ha : acknowledges ack.2 x.delivery.nextSeq = true) :
    x.step (.acknowledge i) = some { x with delivery := x.delivery.complete } := by
  simp only [Copying.step, Delivery.step, hs, hack, Option.map_some, ha, if_true]

/-- The first half of a round. -/
theorem exec_underWay (hlen : payloadSize * k < content.length) (hroute : route (piece content k) = .framed) :
    exec Copying.step (afterRounds buffer content k) [.fread, .transmit] = some (underWay buffer content k) ∧
      Meets Copying.step Copying.Clean (afterRounds buffer content k) [.fread, .transmit] := by
  have hne : content.drop (payloadSize * k) ≠ [] := fun hnil => absurd (List.drop_eq_nil_iff.1 hnil) (Nat.not_le.2 hlen)
  have hread := step_fread (x := afterRounds buffer content k) rfl rfl hne hroute
  constructor
  · refine exec_cons_eq_some.2 ⟨_, hread, exec_cons_eq_some.2 ⟨_, rfl, ?_⟩⟩
    simp only [exec, afterRounds, underWay, delivered, chunks_succ, ← range_map_succ, List.drop_drop, ← Nat.mul_succ]
    rfl
  · exact ⟨fun _ => hroute, fun _ _ => ⟨trivial, fun _ _ => trivial⟩⟩

/-- `user2` takes in the frame. -/
theorem step_underWay (buffer content : List UInt8) (k : Nat) : (underWay buffer content k).step (.recvfrom k false) =
    some (Copying.takes { underWay buffer content k with
      delivery := { (underWay buffer content k).delivery with
        acks := (List.range (k + 1)).map fun i => (i, ackFrame i.toUInt8)
        returned := (List.range (k + 1)).map fun i => (i, piece content i) } }
      ⟨((piece content k).length : Int), piece content k, some (ackFrame k.toUInt8)⟩) := by
  have hframe : (underWay buffer content k).delivery.frames[k]? = some (k, dataFrame k.toUInt8 (piece content k)) := by
    simp only [underWay, ← range_map_succ]
    exact getElem?_numbered (fun i => (i, dataFrame i.toUInt8 (piece content i))) k
  rw [step_recvfrom rfl hframe length_chunk_le]
  simp only [underWay, delivered, ← range_map_succ]

theorem clean_underWay (buffer content : List UInt8) (k : Nat) : (underWay buffer content k).Clean (.recvfrom k false) := by
  have hframe : (underWay buffer content k).delivery.frames[k]? = some (k, dataFrame k.toUInt8 (piece content k)) := by
    simp only [underWay, ← range_map_succ]
    exact getElem?_numbered (fun i => (i, dataFrame i.toUInt8 (piece content i))) k
  intro _ frame hf
  obtain rfl := Option.some.inj (hf.symm.trans hframe)
  refine ⟨?_, ?_⟩
  · have hnumbers : (underWay buffer content k).delivery.numbers = List.range k := by
      simp only [underWay, delivered, Delivery.numbers, List.map_map]
      exact List.map_id _
    rw [hnumbers]
    exact fun hmem => Nat.lt_irrefl k (List.mem_range.1 hmem)
  · rw [dataFrame, length_frame]
    have hlen : (piece content k).length ≤ payloadSize := length_chunk_le
    have hsize : payloadSize ≤ messageSize := by decide
    omega

/-- A round, if what `user2` has in its buffer does not begin with `EOF`. -/
theorem exec_round (hlen : payloadSize * k < content.length) (hroute : route (piece content k) = .framed)
    (hquiet : beginsEof (bufferAfter buffer content (k + 1)) = false) :
    Meets Copying.step Copying.Clean (afterRounds buffer content k) [.fread, .transmit, .recvfrom k false, .acknowledge k] ∧
      exec Copying.step (afterRounds buffer content k) [.fread, .transmit, .recvfrom k false, .acknowledge k] =
        some (afterRounds buffer content (k + 1)) := by
  obtain ⟨hrun, hclean⟩ := exec_underWay hlen hroute
  have htakes := step_underWay buffer content k
  rw [takes_message rfl, if_neg (by exact Bool.eq_false_iff.1 hquiet)] at htakes
  have hack : ((List.range (k + 1)).map fun i => (i, ackFrame i.toUInt8))[k]? = some (k, ackFrame k.toUInt8) := by
    rw [← range_map_succ]
    exact getElem?_numbered (fun i => (i, ackFrame i.toUInt8)) k
  have hmine : acknowledges (ackFrame k.toUInt8) k.toUInt8 = true := acknowledges_ackFrame.2 rfl
  have hsplit : ([.fread, .transmit, .recvfrom k false, .acknowledge k] : List CopyMove) =
      [.fread, .transmit] ++ [.recvfrom k false, .acknowledge k] := rfl
  constructor
  · rw [hsplit]
    refine hclean.append fun y hy => ?_
    obtain rfl := Option.some.inj (hrun.symm.trans hy)
    refine (meets_cons_iff htakes).2 ⟨clean_underWay buffer content k, ?_, fun _ _ => trivial⟩
    intro ack hfound _
    obtain rfl := Option.some.inj (hfound.symm.trans hack)
    exact Or.inl rfl
  · rw [hsplit, exec_append, hrun]
    refine exec_cons_eq_some.2 ⟨_, htakes, exec_cons_eq_some.2 ⟨_, step_acknowledge rfl hack hmine, ?_⟩⟩
    have hseq : k.toUInt8 + 1 = (k + 1).toUInt8 := by
      rw [Nat.toUInt8_eq, Nat.toUInt8_eq, UInt8.ofNat_add]
      rfl
    simp only [exec, underWay, afterRounds, delivered, Delivery.complete, hseq, piece, take_chunk, bufferAfter]

/-- Rounds in which nothing goes wrong. -/
theorem exec_rounds_clean {N : Nat} (h : ∀ n < N, payloadSize * n < content.length ∧ route (piece content n) = .framed ∧
      beginsEof (bufferAfter buffer content (n + 1)) = false) (hk : k ≤ N) :
    Meets Copying.step Copying.Clean (.begin buffer content) (rounds k) ∧
      ∃ y, exec Copying.step (.begin buffer content) (rounds k) = some y ∧ y = afterRounds buffer content k := by
  refine exec_rounds (Q := fun n y => y = afterRounds buffer content n) (N := N) rfl (fun _ => rfl) rfl ?_ hk
  rintro n hn _ rfl
  obtain ⟨hlen, hroute, hquiet⟩ := h n hn
  obtain ⟨hclean, hrun⟩ := exec_round hlen hroute hquiet
  exact ⟨hclean, _, hrun, rfl⟩

/-- What `user2` does if what it has in its buffer then begins with `EOF`. -/
theorem exec_early (hlen : payloadSize * k < content.length) (hroute : route (piece content k) = .framed)
    (hb : beginsEof (bufferAfter buffer content (k + 1)) = true) :
    Meets Copying.step Copying.Clean (afterRounds buffer content k) ([.fread, .transmit] ++ [.recvfrom k false]) ∧
      ∃ y, exec Copying.step (afterRounds buffer content k) ([.fread, .transmit] ++ [.recvfrom k false]) = some y ∧
        y.left = true ∧ y.closing = false := by
  obtain ⟨hhalf, hclean⟩ := exec_underWay hlen hroute
  obtain ⟨y, hy, hleft, hclosing⟩ : ∃ y, (underWay buffer content k).step (.recvfrom k false) = some y ∧ y.left = true ∧
      y.closing = false := by
    have htakes := step_underWay buffer content k
    rw [takes_message rfl, if_pos (by exact hb)] at htakes
    exact ⟨_, htakes, rfl, rfl⟩
  constructor
  · refine hclean.append fun z hz => ?_
    obtain rfl := Option.some.inj (hhalf.symm.trans hz)
    exact ⟨clean_underWay buffer content k, fun _ _ => trivial⟩
  · refine ⟨y, ?_, hleft, hclosing⟩
    rw [exec_append, hhalf]
    exact exec_cons_eq_some.2 ⟨y, hy, rfl⟩

/-- Where a message of the file in the buffer begins with `EOF`, `user2` leaves before `user1`, in a run in which nothing else goes
wrong. -/
theorem exists_early (h : ¬NoEarlyEof buffer content) : ∃ ms x, Meets Copying.step Copying.Clean (.begin buffer content) ms ∧
    exec Copying.step (.begin buffer content) ms = some x ∧ x.left = true ∧ x.closing = false := by
  classical
  have hex : ∃ k, payloadSize * k < content.length ∧ (∀ i ≤ k, route (piece content i) = .framed) ∧
      beginsEof (bufferAfter buffer content (k + 1)) = true := by
    unfold NoEarlyEof at h
    push Not at h
    obtain ⟨k, hk, hroute, hb⟩ := h
    exact ⟨k, hk, hroute, by simpa using hb⟩
  obtain ⟨hlen, hroute, hb⟩ := Nat.find_spec hex
  -- before the first such message there are rounds in which nothing goes wrong
  have hbefore : ∀ n < Nat.find hex, payloadSize * n < content.length ∧ route (piece content n) = .framed ∧
      beginsEof (bufferAfter buffer content (n + 1)) = false := by
    intro n hn
    have hshort : payloadSize * n < content.length := Nat.lt_of_le_of_lt (Nat.mul_le_mul_left _ (Nat.le_of_lt hn)) hlen
    have hframed : ∀ i ≤ n, route (piece content i) = .framed := fun i hi => hroute i (hi.trans (Nat.le_of_lt hn))
    exact ⟨hshort, hframed n (Nat.le_refl n), Bool.eq_false_iff.2 fun htrue => Nat.find_min hex hn ⟨hshort, hframed, htrue⟩⟩
  obtain ⟨hclean, _, hrun, rfl⟩ := exec_rounds_clean hbefore (Nat.le_refl _)
  obtain ⟨hm, x, hx, hleft, hclosing⟩ := exec_early hlen (hroute _ (Nat.le_refl _)) hb
  refine ⟨rounds (Nat.find hex) ++ ([.fread, .transmit] ++ [.recvfrom (Nat.find hex) false]), x, hclean.append fun y hy => ?_, ?_,
    hleft, hclosing⟩
  · obtain rfl := Option.some.inj (hrun.symm.trans hy)
    exact hm
  · rw [exec_append, hrun]
    exact hx

/-- What `user1` has passed to `k_sendto` has been written when `k_sendto` has returned. For every file and every buffer of `user2`: in
every run whose steps go well on the way between the programs, what has been written is a beginning of the file, it is all of it as
soon as `user1` has left its loop, and `user2` leaves its loop after that only, if and only if none of the messages up to the first one
that is sent as it is begins, in the buffer as it was before, with `EOF`. -/
theorem file_written_iff (buffer content : List UInt8) :
    (∀ ms x, Meets Copying.step Copying.Clean (.begin buffer content) ms →
      exec Copying.step (.begin buffer content) ms = some x → x.Right content) ↔ NoEarlyEof buffer content := by
  constructor
  · intro hall
    by_contra hno
    obtain ⟨ms, x, hm, hx, hleft, hclosing⟩ := exists_early hno
    have := (hall ms x hm hx).left hleft
    rw [hclosing] at this
    cases this
  · intro hno ms x hm hx
    exact right_of_inv hno (exec_invariant (fun _ _ _ hi hc hs => copying_step hi hc hs) (copying_begin buffer content) hm hx)

end NetLabs.StopWait
