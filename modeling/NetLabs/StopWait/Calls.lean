import NetLabs.Lib.Buffer
import NetLabs.Lib.CText

/-!
# The calls of the stop-and-wait sockets

`k_sendto` sends control texts and acknowledgements as they are. Every other message goes out in a frame, again and again, until an
acknowledgement with the frame's number comes in. `k_recvfrom` hands control texts over as they are; a data frame it answers with an
acknowledgement and hands over what the frame carries. `sendto`, `select` and `recvfrom` are taken not to fail.
-/

namespace NetLabs.StopWait

open Buffer Prog CText

/-! ## The code -/

def messageSize : Nat := 512

/-- `PAYLOAD_SIZE`: the header takes four bytes. -/
def payloadSize : Nat := messageSize - 4

def frameData : UInt8 := 0

def frameAck : UInt8 := 1

/-- A frame: type, number, length (low byte first) and payload. -/
def frame (type seq : UInt8) (payload : List UInt8) : List UInt8 :=
  [type, seq, payload.length.toUInt8, (payload.length / 256).toUInt8] ++ payload

def dataFrame (seq : UInt8) (message : List UInt8) : List UInt8 := frame frameData seq message

def ackFrame (seq : UInt8) : List UInt8 := frame frameAck seq (text "ACK")

/-- The messages that bypass the reliability logic. -/
def isControl (message : List UInt8) : Bool :=
  (message.length == 4 && startsWith message (text "EOF")) || (7 ≤ message.length && startsWith message (text "EOF_ACK")) ||
    (message.length == 3 && startsWith message (text "FIN")) || (7 ≤ message.length && startsWith message (text "FIN_ACK"))

/-- A message of seven bytes whose first one is that of an acknowledgement. -/
def looksAck (message : List UInt8) : Bool := message.length == 7 && message.head? == some frameAck

/-- What `k_sendto` does with a message. -/
inductive Route where
  | raw
  | tooLarge
  | framed
  deriving DecidableEq

def route (message : List UInt8) : Route :=
  if isControl message || looksAck message then .raw else if payloadSize < message.length then .tooLarge else .framed

/-- What `k_sendto` takes, while it waits, for the acknowledgement of frame `seq`. -/
def acknowledges (datagram : List UInt8) (seq : UInt8) : Bool := 4 ≤ datagram.length && datagram.take 2 == [frameAck, seq]

/-- What a call of `k_recvfrom` returns, stores and sends. -/
structure Received where
  value : Int
  stored : List UInt8
  reply : Option (List UInt8)
  deriving DecidableEq

/-- One of the texts is what the buffer begins with. -/
def beginsWithOne : List (List UInt8) → Prog Bool
  | [] => pure false
  | p :: ps => do
    let found ← beginsAt 0 p
    if found then pure true else beginsWithOne ps

def controlTexts : List (List UInt8) := [text "EOF", text "EOF_ACK", text "FIN", text "FIN_ACK"]

/-- `memcpy` of the first `n` bytes from `i` on, or of as many as the caller's buffer holds. -/
def deliver (i n length : Nat) (reply : Option (List UInt8)) : Prog Received := do
  let stored ← bytes i (min n length)
  pure ⟨(min n length : Nat), stored, reply⟩

/-- `k_recvfrom` with a frame: an acknowledgement goes out for a data frame. -/
def recvFrame (n length : Nat) : Prog Received := do
  let type ← byte 0
  if type ≠ frameData then deliver 0 n length none
  else do
    let seq ← byte 1
    let lo ← byte 2
    let hi ← byte 3
    deliver 4 (lo.toNat + 256 * hi.toNat) length (some (ackFrame seq))

/-- `k_recvfrom` once a datagram of `n` bytes is in `recv_buffer`; `dropped` is what `dropMessage` says. -/
def kRecvfrom (n : Nat) (dropped : Bool) (length : Nat) : Prog Received := do
  let control ← if 3 ≤ n then beginsWithOne controlTexts else pure false
  if control then deliver 0 n length none
  else if dropped ∨ n < 4 then pure ⟨-1, [], none⟩
  else recvFrame n length

/-- `k_recvfrom` with a datagram in an otherwise unknown `recv_buffer`; `none` where it reads behind the datagram. -/
def received (datagram : List UInt8) (dropped : Bool) (length : Nat) : Option Received :=
  ((kRecvfrom (datagram.take messageSize).length dropped length).runKnown (only (datagram.take messageSize))).map Prod.fst

/-! ## What is received -/

variable {l message datagram : List UInt8} {seq seq' : UInt8} {dropped : Bool} {length n i : Nat} {known : Nat → Option UInt8}
  {reply : Option (List UInt8)}

theorem runKnown_deliver (h : Holds known l) (hn : i + min n length ≤ l.length) :
    (deliver i n length reply).runKnown known = some (⟨(min n length : Nat), (l.drop i).take (min n length), reply⟩, known) := by
  rw [deliver, runKnown_bind, runKnown_bytes h hn]
  rfl

/-- Two of the four texts decide; the other two begin with them. -/
theorem runKnown_control (h : Holds known l) (hl : 3 ≤ l.length) :
    (beginsWithOne controlTexts).runKnown known = some (startsWith l (text "EOF") || startsWith l (text "FIN"), known) := by
  have hlen : ∀ p : List UInt8, p.length = 3 → 0 + p.length ≤ l.length := fun p hp => by omega
  have heofAck : text "EOF_ACK" = text "EOF" ++ text "_ACK" := rfl
  have hfinAck : text "FIN_ACK" = text "FIN" ++ text "_ACK" := rfl
  rw [controlTexts, beginsWithOne, runKnown_bind, runKnown_beginsAt h (hlen _ rfl), List.drop_zero, Option.bind_some, startsWith]
  cases heof : (text "EOF").isPrefixOf l with
  | true => rfl
  | false =>
    rw [if_neg Bool.false_ne_true, beginsWithOne, runKnown_bind, heofAck, runKnown_beginsAt_false h (hlen _ rfl) heof, Option.bind_some,
      if_neg Bool.false_ne_true, beginsWithOne, runKnown_bind, runKnown_beginsAt h (hlen _ rfl), List.drop_zero, Option.bind_some,
      Bool.false_or, startsWith]
    cases hfin : (text "FIN").isPrefixOf l with
    | true => rfl
    | false =>
      rw [if_neg Bool.false_ne_true, beginsWithOne, runKnown_bind, hfinAck, runKnown_beginsAt_false h (hlen _ rfl) hfin]
      rfl

/-- The test for a control text. -/
def beginsControl (datagram : List UInt8) : Bool := startsWith datagram (text "EOF") || startsWith datagram (text "FIN")

/-- The call up to what it does with a frame. -/
theorem runKnown_kRecvfrom (hl : 3 ≤ l.length) : (kRecvfrom l.length dropped length).runKnown (only l) =
    if beginsControl l then (deliver 0 l.length length none).runKnown (only l)
    else if dropped ∨ l.length < 4 then some (⟨-1, [], none⟩, only l)
    else (recvFrame l.length length).runKnown (only l) := by
  rw [kRecvfrom, if_pos hl, runKnown_bind, runKnown_control (holds_only l) hl, Option.bind_some, ← beginsControl]
  cases beginsControl l with
  | true => rfl
  | false =>
    simp only [Bool.false_eq_true, if_false]
    split
    · rfl
    · rfl

theorem received_eq (hl : 3 ≤ datagram.length) (hsize : datagram.length ≤ messageSize) : received datagram dropped length =
    if beginsControl datagram then some ⟨(min datagram.length length : Nat), datagram.take (min datagram.length length), none⟩
    else if dropped ∨ datagram.length < 4 then some ⟨-1, [], none⟩
    else ((recvFrame datagram.length length).runKnown (only datagram)).map Prod.fst := by
  rw [received, List.take_of_length_le hsize, runKnown_kRecvfrom hl, runKnown_deliver (holds_only datagram) (by omega), List.drop_zero,
    apply_ite (Option.map Prod.fst), apply_ite (Option.map Prod.fst), Option.map_some, Option.map_some]

/-- A control text is handed over as it is, whatever `dropMessage` says. -/
theorem received_control (hl : 3 ≤ datagram.length) (hsize : datagram.length ≤ messageSize) (hc : beginsControl datagram = true) :
    received datagram dropped length =
      some ⟨(min datagram.length length : Nat), datagram.take (min datagram.length length), none⟩ := by
  rw [received_eq hl hsize, if_pos hc]

theorem length_frame (type seq : UInt8) (payload : List UInt8) : (frame type seq payload).length = payload.length + 4 := by
  rw [frame, List.length_append, Nat.add_comm]
  rfl

/-- The number in a header of a length that fits in it. -/
theorem length_field (h : n < 65536) : n.toUInt8.toNat + 256 * (n / 256).toUInt8.toNat = n := by
  simp only [Nat.toUInt8_eq, UInt8.toNat_ofNat']
  omega

/-- A data frame that is not dropped is acknowledged and its payload handed over. -/
theorem received_dataFrame (hm : message.length ≤ payloadSize) : received (dataFrame seq message) dropped length =
    if dropped then some ⟨-1, [], none⟩
    else some ⟨(min message.length length : Nat), message.take (min message.length length), some (ackFrame seq)⟩ := by
  have hlen : (dataFrame seq message).length = message.length + 4 := length_frame ..
  have hsize : message.length + 4 ≤ messageSize := by
    unfold payloadSize messageSize at *
    omega
  have hno : beginsControl (dataFrame seq message) = false := rfl
  have hfour : ¬message.length + 4 < 4 := by omega
  have hfield : message.length.toUInt8.toNat + 256 * (message.length / 256).toUInt8.toNat = message.length :=
    length_field (by unfold messageSize at hsize; omega)
  have hread : ∀ i b, (dataFrame seq message)[i]? = some b →
      (byte i).runKnown (only (dataFrame seq message)) = some (b, only (dataFrame seq message)) :=
    fun i b hb => runKnown_byte (holds_only _) hb
  have hframe : (recvFrame (message.length + 4) length).runKnown (only (dataFrame seq message)) =
      some (⟨(min message.length length : Nat), message.take (min message.length length), some (ackFrame seq)⟩,
        only (dataFrame seq message)) := by
    rw [recvFrame, runKnown_bind, hread 0 frameData rfl, Option.bind_some, if_neg (fun h => h rfl), runKnown_bind, hread 1 seq rfl,
      Option.bind_some, runKnown_bind, hread 2 _ rfl, Option.bind_some, runKnown_bind, hread 3 _ rfl, Option.bind_some, hfield,
      runKnown_deliver (holds_only _) (by omega)]
    rfl
  rw [received_eq (by omega) (by omega), hno, if_neg Bool.false_ne_true, hlen, hframe]
  simp only [hfour, or_false, Option.map_some]

/-- An acknowledgement that is not dropped is handed over like a message. -/
theorem received_ackFrame : received (ackFrame seq) dropped length =
    if dropped then some ⟨-1, [], none⟩ else some ⟨(min 7 length : Nat), (ackFrame seq).take (min 7 length), none⟩ := by
  have hlen : (ackFrame seq).length = 7 := rfl
  have hno : beginsControl (ackFrame seq) = false := rfl
  have hframe : (recvFrame 7 length).runKnown (only (ackFrame seq)) =
      some (⟨(min 7 length : Nat), (ackFrame seq).take (min 7 length), none⟩, only (ackFrame seq)) := by
    rw [recvFrame, runKnown_bind, runKnown_byte (holds_only _) (b := frameAck) rfl, Option.bind_some,
      if_pos (show frameAck ≠ frameData by decide), runKnown_deliver (holds_only _) (by rw [hlen]; omega), List.drop_zero]
  rw [received_eq (by rw [hlen]; decide) (by rw [hlen]; decide), hno, if_neg Bool.false_ne_true, hlen, hframe]
  simp only [Nat.reduceLT, or_false, Option.map_some]

/-! ## What is acknowledged -/

theorem acknowledges_ackFrame : acknowledges (ackFrame seq') seq = true ↔ seq' = seq := by
  have hlen : decide (4 ≤ (ackFrame seq').length) = true := rfl
  have htake : (ackFrame seq').take 2 = [frameAck, seq'] := rfl
  rw [acknowledges, hlen, htake, Bool.true_and, beq_iff_eq, List.cons_eq_cons, List.cons_eq_cons]
  simp

end NetLabs.StopWait
