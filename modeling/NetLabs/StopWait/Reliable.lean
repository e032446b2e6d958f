import NetLabs.StopWait.Closing

/-!
# One call of `k_sendto`

The whole call, from the check of the descriptor to what it returns, against whatever the system answers to its calls. A message that
goes out in a frame is reported as sent only once an acknowledgement of its number has come in. Which messages do not go out in a frame
is decided by their bytes, and these need not be those of a control text.
-/

namespace NetLabs.StopWait

open CText Function

/-! ## The code -/

def maxKtpSockets : Nat := 10

/-- An entry of `ksocket_table`: whether it is bound, whether its `dest_ip` is an address, and `next_seq`. -/
structure KSocket where
  isBound : Bool
  hasDestination : Bool
  nextSeq : UInt8
  deriving DecidableEq

/-- What the system answers in one turn of the reliability loop. -/
inductive Turn where
  | sendFails
  | timeout
  | selectFails
  | recvFails
  | reply (datagram : List UInt8)
  deriving DecidableEq

/-- What the system answers during a call: the `sendto` of a raw message and `malloc` may fail, and the turns of the loop go as they go. -/
structure Answers where
  sends : Bool
  mallocs : Bool
  turns : List Turn
  deriving DecidableEq

/-- What goes over the socket. -/
inductive Traffic where
  | sent (datagram : List UInt8)
  | got (datagram : List UInt8)
  deriving DecidableEq

/-- What a call returns, the table after it and what has gone over the socket. -/
structure Returned where
  value : Int
  table : Nat → KSocket
  log : List Traffic

/-- The reliability loop: whether it ends with an acknowledgement. It still runs (`none`) when the turns are used up. -/
def sendLoop (frame : List UInt8) (seq : UInt8) : List Traffic → List Turn → Option (Bool × List Traffic)
  | _, [] => none
  | log, .sendFails :: _ => some (false, log)
  | log, .timeout :: turns => sendLoop frame seq (log ++ [.sent frame]) turns
  | log, .selectFails :: _ => some (false, log ++ [.sent frame])
  | log, .recvFails :: turns => sendLoop frame seq (log ++ [.sent frame]) turns
  | log, .reply datagram :: turns =>
    if acknowledges (datagram.take messageSize) seq then some (true, log ++ [.sent frame, .got (datagram.take messageSize)])
    else sendLoop frame seq (log ++ [.sent frame, .got (datagram.take messageSize)]) turns

/-- `ks->next_seq++`. -/
def advance (table : Nat → KSocket) (i : Nat) : Nat → KSocket := update table i { table i with nextSeq := (table i).nextSeq + 1 }

/-- `k_sendto`. -/
def kSendto (table : Nat → KSocket) (sockfd : Int) (message : List UInt8) (answers : Answers) : Option Returned :=
  if sockfd < 0 ∨ sockfd ≥ maxKtpSockets then some ⟨-1, table, []⟩
  else if (table sockfd.toNat).isBound = false then some ⟨-1, table, []⟩
  else if (table sockfd.toNat).hasDestination = false then some ⟨-1, table, []⟩
  else match route message with
    | .raw => if answers.sends then some ⟨message.length, table, [.sent message]⟩ else some ⟨-1, table, []⟩
    | .tooLarge => some ⟨-1, table, []⟩
    | .framed =>
      if answers.mallocs = false then some ⟨-1, table, []⟩
      else (sendLoop (dataFrame (table sockfd.toNat).nextSeq message) (table sockfd.toNat).nextSeq [] answers.turns).map fun r =>
        if r.1 then ⟨message.length, advance table sockfd.toNat, r.2⟩ else ⟨-1, table, r.2⟩

/-! ## What a call promises -/

/-- The message has gone out in the data frame of that number, and then an acknowledgement of the number has come in. -/
def Acknowledged (log : List Traffic) (seq : UInt8) (message : List UInt8) : Prop :=
  ∃ before after ack, log = before ++ .sent (dataFrame seq message) :: after ∧ .got ack ∈ after ∧ acknowledges ack seq = true

/-- Whatever the table and the system: a call that reports the message as sent has seen it acknowledged under the number it went out with,
and the next message has the next number. -/
def NoBypass (message : List UInt8) : Prop :=
  ∀ table sockfd answers r, kSendto table sockfd message answers = some r → 0 ≤ r.value →
    Acknowledged r.log (table sockfd.toNat).nextSeq message ∧
      (r.table sockfd.toNat).nextSeq = (table sockfd.toNat).nextSeq + 1

/-- Four bytes that begin with `EOF`, three that are `FIN`, seven that begin with 1, and what begins with `EOF_ACK` or `FIN_ACK`. -/
def Bypasses (message : List UInt8) : Prop :=
  message.length = 4 ∧ text "EOF" <+: message ∨ text "EOF_ACK" <+: message ∨ message = text "FIN" ∨ text "FIN_ACK" <+: message ∨
    message.length = 7 ∧ message.head? = some 1

variable {table : Nat → KSocket} {sockfd : Int} {message frame : List UInt8} {answers : Answers} {r : Returned} {seq : UInt8}
  {log log' : List Traffic} {turns : List Turn} {done : Bool}

/-! ## The loop -/

/-- A loop that ends with an acknowledgement has sent the frame and then got one of its number. -/
theorem sendLoop_acknowledged (h : sendLoop frame seq log turns = some (true, log')) :
    ∃ before ack, log' = before ++ [.sent frame, .got ack] ∧ acknowledges ack seq = true := by
  induction turns generalizing log with
  | nil => cases h
  | cons turn turns ih =>
    cases turn with
    | sendFails => cases h
    | timeout => exact ih h
    | selectFails => cases h
    | recvFails => exact ih h
    | reply datagram =>
      rw [sendLoop] at h
      split at h
      · rename_i hack
        cases h
        exact ⟨log, datagram.take messageSize, rfl, hack⟩
      · exact ih h

/-! ## Which messages bypass it -/

theorem seven_le_length {p : List UInt8} (hp : 7 ≤ p.length) (h : p <+: message) : 7 ≤ message.length := Nat.le_trans hp h.length_le

theorem bypasses_iff : Bypasses message ↔ route message = .raw := by
  have hroute : route message = .raw ↔ isControl message = true ∨ looksAck message = true := by
    rw [route, ← Bool.or_eq_true]
    split
    · simp [*]
    · split <;> simp [*]
  have hfin : message.length = 3 ∧ text "FIN" <+: message ↔ message = text "FIN" := by
    constructor
    · rintro ⟨hlen, hpre⟩
      exact (hpre.eq_of_length hlen.symm).symm
    · rintro rfl
      exact ⟨rfl, List.prefix_rfl⟩
  have heofAck : 7 ≤ message.length ∧ text "EOF_ACK" <+: message ↔ text "EOF_ACK" <+: message :=
    and_iff_right_of_imp (seven_le_length (Nat.le_refl 7))
  have hfinAck : 7 ≤ message.length ∧ text "FIN_ACK" <+: message ↔ text "FIN_ACK" <+: message :=
    and_iff_right_of_imp (seven_le_length (Nat.le_refl 7))
  rw [hroute, isControl, looksAck]
  simp only [Bool.or_eq_true, Bool.and_eq_true, beq_iff_eq, decide_eq_true_eq, startsWith_iff, hfin, heofAck, hfinAck, frameAck, Bypasses,
    or_assoc]

theorem kSendto_framed (hroute : route message = .framed) (h : kSendto table sockfd message answers = some r) (hv : 0 ≤ r.value) :
    ∃ log, sendLoop (dataFrame (table sockfd.toNat).nextSeq message) (table sockfd.toNat).nextSeq [] answers.turns = some (true, log) ∧
      r = ⟨message.length, advance table sockfd.toNat, log⟩ := by
  -- every return before the loop is -1
  have hfail : ∀ log, r ≠ ⟨-1, table, log⟩ := by
    intro log hr
    rw [hr] at hv
    exact absurd hv (show ¬(0 : Int) ≤ -1 by decide)
  have hreturn : ∀ log, ¬some ⟨-1, table, log⟩ = some r := fun log hr => hfail log (Option.some.inj hr).symm
  unfold kSendto at h
  split at h
  · exact absurd h (hreturn [])
  · split at h
    · exact absurd h (hreturn [])
    · split at h
      · exact absurd h (hreturn [])
      · rw [hroute] at h
        simp only at h
        split at h
        · exact absurd h (hreturn [])
        · obtain ⟨⟨done, log⟩, hloop, hr⟩ := Option.map_eq_some_iff.1 h
          cases done with
          | true => exact ⟨log, hloop, hr.symm⟩
          | false => exact absurd hr.symm (hfail log)

/-- A message that goes out in a frame is reliable. -/
theorem noBypass_framed (hroute : route message = .framed) : NoBypass message := by
  intro table sockfd answers r h hv
  obtain ⟨log, hloop, rfl⟩ := kSendto_framed hroute h hv
  obtain ⟨before, ack, hlog, hack⟩ := sendLoop_acknowledged hloop
  refine ⟨⟨before, [.got ack], ack, hlog, List.mem_singleton_self _, hack⟩, ?_⟩
  simp only [advance, update_self]

/-- A message that is sent as it is has been reported as sent with nothing received, and the number stays. -/
theorem not_noBypass_raw (hroute : route message = .raw) : ¬NoBypass message := by
  intro h
  obtain ⟨⟨before, after, ack, hlog, hgot, -⟩, -⟩ := h (fun _ => ⟨true, true, 0⟩) 0 ⟨true, true, []⟩
    ⟨message.length, fun _ => ⟨true, true, 0⟩, [.sent message]⟩ (by rw [kSendto, hroute]; rfl) (Int.natCast_nonneg _)
  have hmem : Traffic.got ack ∈ [Traffic.sent message] := by
    change [Traffic.sent message] = _ at hlog
    rw [hlog]
    exact List.mem_append_right before (List.mem_cons_of_mem _ hgot)
  cases List.mem_singleton.1 hmem

/-- A message that fits in a frame is reliable exactly when its bytes are none of those that bypass the loop. -/
theorem noBypass_iff (message : List UInt8) (hlen : message.length ≤ payloadSize) : NoBypass message ↔ ¬Bypasses message := by
  rw [bypasses_iff]
  constructor
  · intro h hraw
    exact not_noBypass_raw hraw h
  · intro hraw
    refine noBypass_framed ?_
    cases hroute : route message with
    | raw => exact absurd hroute hraw
    | framed => rfl
    | tooLarge =>
      rw [route] at hroute
      split at hroute
      · cases hroute
      · split at hroute
        · exact absurd hlen (by omega)
        · cases hroute

/-- Four bytes of data. -/
theorem noBypass_data : NoBypass (text "data") :=
  (noBypass_iff (text "data") (by decide)).2 (by rw [bypasses_iff]; decide)

/-- Not every message other than the four control texts is reliable. -/
theorem control_by_content : ¬∀ message : List UInt8, 1 ≤ message.length → message.length ≤ payloadSize →
    message ∉ [eof, eofAck, fin, finAck] → NoBypass message := by
  intro h
  have hraw : route (text "EOFX") = .raw := by decide
  exact not_noBypass_raw hraw (h (text "EOFX") (by decide) (by decide) (by decide))

/-- A timeout, an acknowledgement of another number, then that of its own. -/
example : (kSendto (fun _ => ⟨true, true, 7⟩) 3 (text "data")
    ⟨true, true, [.timeout, .reply (ackFrame 6), .reply (ackFrame 7)]⟩).map (fun r => (r.value, (r.table 3).nextSeq)) = some (4, 8) := by
  decide

end NetLabs.StopWait
