import NetLabs.Lib.Machine
import NetLabs.StopWait.Calls

/-!
# The closing handshake

`user1` sends `EOF` until it receives `EOF_ACK` and then answers `FIN` with `FIN_ACK`; `user2` answers the first `EOF` and sends `FIN`
until it receives `FIN_ACK`. With their NUL the texts have 4, 8, 4 and 8 bytes, so all but `FIN` go out as they are, and `FIN` goes in a
data frame that `k_sendto` repeats until it is acknowledged. `k_recvfrom` waits without a limit. Datagrams may be lost on the way and
stay in order otherwise; when the closing begins none is under way.
-/

namespace NetLabs.StopWait

open CText Machine

/-! ## The code -/

def eof : List UInt8 := text "EOF" ++ [0]

def eofAck : List UInt8 := text "EOF_ACK" ++ [0]

def fin : List UInt8 := text "FIN" ++ [0]

def finAck : List UInt8 := text "FIN_ACK" ++ [0]

example : route eof = .raw ∧ route eofAck = .raw ∧ route fin = .framed ∧ route finAck = .raw := by decide

/-- The next call of `user1`. -/
inductive User1 where
  | sendEof
  | awaitEofAck
  | awaitFin
  | sendFinAck
  | closed
  deriving DecidableEq

/-- The next call of `user2`; while it sends `FIN`, where `k_sendto` stands. -/
inductive User2 where
  | receiving
  | sendEofAck
  | transmitting
  | waiting
  | awaitFinAck
  | closed
  deriving DecidableEq

/-- The two programs, the `next_seq` of `user2`'s socket, and the datagrams under way to each of them, in order. -/
structure Closing where
  user1 : User1
  user2 : User2
  nextSeq : UInt8
  toUser1 : List (List UInt8)
  toUser2 : List (List UInt8)
  deriving DecidableEq

def Closing.begin (nextSeq : UInt8) : Closing := ⟨.sendEof, .receiving, nextSeq, [], []⟩

/-- What can happen next; `dropped` is what `dropMessage` says if the call asks it. -/
inductive Move where
  | user1 (dropped : Bool)
  | user2 (dropped : Bool)
  | timeout
  | loseToUser1 (i : Nat)
  | loseToUser2 (i : Nat)

/-- Something has been received and it begins with `p`. -/
def Received.begins (r : Received) (p : List UInt8) : Bool := 0 < r.value && startsWith r.stored p

/-- `k_recvfrom` of `user1`, into a buffer of 64 bytes. -/
def Closing.recvfrom1 (x : Closing) (dropped : Bool) (next : Received → User1) : Option Closing :=
  match x.toUser1 with
  | [] => none
  | datagram :: rest => (received datagram dropped 64).map fun r =>
      { x with user1 := next r, toUser1 := rest, toUser2 := x.toUser2 ++ r.reply.toList }

/-- `k_recvfrom` of `user2`, into a buffer of 512 bytes. -/
def Closing.recvfrom2 (x : Closing) (dropped : Bool) (next : Received → User2) : Option Closing :=
  match x.toUser2 with
  | [] => none
  | datagram :: rest => (received datagram dropped messageSize).map fun r =>
      { x with user2 := next r, toUser2 := rest, toUser1 := x.toUser1 ++ r.reply.toList }

def Closing.step1 (x : Closing) (dropped : Bool) : Option Closing :=
  match x.user1 with
  | .sendEof => some { x with user1 := .awaitEofAck, toUser2 := x.toUser2 ++ [eof] }
  | .awaitEofAck => x.recvfrom1 dropped fun r => if r.begins (text "EOF_ACK") then .awaitFin else .sendEof
  | .awaitFin => x.recvfrom1 dropped fun r => if r.begins (text "FIN") then .sendFinAck else .awaitFin
  | .sendFinAck => some { x with user1 := .closed, toUser2 := x.toUser2 ++ [finAck] }
  | .closed => none

def Closing.step2 (x : Closing) (dropped : Bool) : Option Closing :=
  match x.user2 with
  | .receiving => x.recvfrom2 dropped fun r => if r.begins (text "EOF") then .sendEofAck else .receiving
  | .sendEofAck => some { x with user2 := .transmitting, toUser1 := x.toUser1 ++ [eofAck] }
  | .transmitting => some { x with user2 := .waiting, toUser1 := x.toUser1 ++ [dataFrame x.nextSeq fin] }
  | .waiting =>
    match x.toUser2 with
    | [] => none
    | datagram :: rest =>
      if acknowledges datagram x.nextSeq then some { x with user2 := .awaitFinAck, nextSeq := x.nextSeq + 1, toUser2 := rest }
      else some { x with user2 := .transmitting, toUser2 := rest }
  | .awaitFinAck => x.recvfrom2 dropped fun r => if r.begins (text "FIN_ACK") then .closed else .transmitting
  | .closed => none

def Closing.step (x : Closing) : Move → Option Closing
  | .user1 dropped => x.step1 dropped
  | .user2 dropped => x.step2 dropped
  | .timeout => if x.user2 = .waiting then some { x with user2 := .transmitting } else none
  | .loseToUser1 i => if i < x.toUser1.length then some { x with toUser1 := x.toUser1.eraseIdx i } else none
  | .loseToUser2 i => if i < x.toUser2.length then some { x with toUser2 := x.toUser2.eraseIdx i } else none

/-- Both programs have left their loops and closed their sockets. -/
def Closing.Done (x : Closing) : Prop := x.user1 = .closed ∧ x.user2 = .closed

/-- Some continuation closes both programs. -/
def Closing.CanClose (x : Closing) : Prop := CanReach Closing.step Closing.Done x

/-- Of the datagrams only frames with `FIN` are lost. -/
def OnlyFinLost (x : Closing) : Move → Prop
  | .user1 _ | .user2 _ | .timeout => True
  | .loseToUser1 i => x.toUser1[i]? ≠ some eofAck
  | .loseToUser2 _ => False

instance decidableOnlyFinLost (x : Closing) : (m : Move) → Decidable (OnlyFinLost x m)
  | .user1 _ | .user2 _ | .timeout => isTrue trivial
  | .loseToUser1 i => inferInstanceAs (Decidable (x.toUser1[i]? ≠ some eofAck))
  | .loseToUser2 _ => isFalse id

/-! ## The states from which both can close -/

/-- `user2` is in `k_sendto`. -/
inductive User2.Sending : User2 → Prop where
  | transmitting : Sending .transmitting
  | waiting : Sending .waiting

/-- The acknowledgement of `FIN` is the next thing `user2` receives, or the last one it has received; `rest` is what comes after it. -/
inductive Acked (rest : List (List UInt8)) : User2 → UInt8 → List (List UInt8) → Prop where
  | coming {u : User2} {n : UInt8} (hu : u.Sending) : Acked rest u n (ackFrame n :: rest)
  | taken {n : UInt8} : Acked rest .awaitFinAck n rest

/-- The states of a handshake in which nothing but frames with `FIN` has been lost. -/
inductive Closing.Good : Closing → Prop where
  | start {n : UInt8} : Good ⟨.sendEof, .receiving, n, [], []⟩
  | eofSent {n : UInt8} : Good ⟨.awaitEofAck, .receiving, n, [], [eof]⟩
  | eofTaken {n : UInt8} : Good ⟨.awaitEofAck, .sendEofAck, n, [], []⟩
  | eofAcked {u : User2} {n : UInt8} {k : Nat} (hu : u.Sending) :
      Good ⟨.awaitEofAck, u, n, eofAck :: List.replicate k (dataFrame n fin), []⟩
  | awaitFin {u : User2} {n : UInt8} {k : Nat} (hu : u.Sending) : Good ⟨.awaitFin, u, n, List.replicate k (dataFrame n fin), []⟩
  | finTaken {u : User2} {n : UInt8} {q1 q2 : List (List UInt8)} (hq : eofAck ∉ q1) (ha : Acked [] u n q2) :
      Good ⟨.sendFinAck, u, n, q1, q2⟩
  | finAcked {u : User2} {n : UInt8} {q1 q2 : List (List UInt8)} (hq : eofAck ∉ q1) (ha : Acked [finAck] u n q2) :
      Good ⟨.closed, u, n, q1, q2⟩
  | done {n : UInt8} {q1 : List (List UInt8)} (hq : eofAck ∉ q1) : Good ⟨.closed, .closed, n, q1, []⟩

/-! ## The texts and the frames -/

variable {x x' : Closing} {u1 : User1} {u : User2} {n seq : UInt8} {k : Nat} {q1 q2 rest : List (List UInt8)} {dropped : Bool}

theorem received_eof : received eof dropped messageSize = some ⟨4, eof, none⟩ :=
  received_control (by decide) (by decide) (by decide)

theorem received_eofAck : received eofAck dropped 64 = some ⟨8, eofAck, none⟩ :=
  received_control (by decide) (by decide) (by decide)

theorem received_finAck : received finAck dropped messageSize = some ⟨8, finAck, none⟩ :=
  received_control (by decide) (by decide) (by decide)

theorem received_fin : received (dataFrame seq fin) dropped 64 =
    if dropped then some ⟨-1, [], none⟩ else some ⟨4, fin, some (ackFrame seq)⟩ :=
  received_dataFrame (by decide)

theorem dataFrame_ne_eofAck : dataFrame seq fin ≠ eofAck := by
  intro h
  have hhead := congrArg List.head? h
  exact absurd (Option.some.inj hhead) (by decide)

theorem not_acknowledges_finAck : acknowledges finAck seq = false := rfl

/-! ## What a step leaves -/

theorem good_step1 (hg : x.Good) (h : x.step (.user1 dropped) = some x') : x'.Good := by
  cases hg with
  | start =>
    cases h
    exact .eofSent
  | eofSent | eofTaken | finAcked | done => cases h
  | eofAcked hu =>
    simp only [Closing.step, Closing.step1, Closing.recvfrom1, received_eofAck] at h
    cases h
    exact .awaitFin hu
  | @awaitFin u n k hu =>
    cases k with
    | zero => cases h
    | succ k =>
      simp only [Closing.step, Closing.step1, Closing.recvfrom1, List.replicate_succ, received_fin] at h
      cases dropped with
      | true =>
        cases h
        exact .awaitFin hu
      | false =>
        cases h
        exact .finTaken (fun hmem => dataFrame_ne_eofAck (List.eq_of_mem_replicate hmem).symm) (.coming hu)
  | finTaken hq ha =>
    cases h
    cases ha with
    | coming hu => exact .finAcked hq (.coming hu)
    | taken => exact .finAcked hq .taken

/-- `user2` in `k_sendto` with nothing coming. -/
theorem step2_sending (hu : u.Sending) (h : Closing.step ⟨u1, u, n, q1, []⟩ (.user2 dropped) = some x') :
    x' = ⟨u1, .waiting, n, q1 ++ [dataFrame n fin], []⟩ := by
  cases hu with
  | transmitting =>
    cases h
    rfl
  | waiting => cases h

/-- `user2` with the acknowledgement coming or taken. -/
theorem step2_acked (ha : Acked rest u n q2) (h : Closing.step ⟨u1, u, n, q1, q2⟩ (.user2 dropped) = some x') :
    x' = ⟨u1, .waiting, n, q1 ++ [dataFrame n fin], q2⟩ ∧ Acked rest .waiting n q2 ∨
      x' = ⟨u1, .awaitFinAck, n + 1, q1, rest⟩ ∨
      u = .awaitFinAck ∧ q2 = rest := by
  cases ha with
  | coming hu =>
    cases hu with
    | transmitting =>
      cases h
      exact Or.inl ⟨rfl, .coming .waiting⟩
    | waiting =>
      simp only [Closing.step, Closing.step2, if_pos (acknowledges_ackFrame.2 rfl)] at h
      cases h
      exact Or.inr (Or.inl rfl)
  | taken => exact Or.inr (Or.inr ⟨rfl, rfl⟩)

theorem eofAck_not_mem_append (hq : eofAck ∉ q1) : eofAck ∉ q1 ++ [dataFrame n fin] := by
  intro hmem
  rcases List.mem_append.1 hmem with hmem | hmem
  · exact hq hmem
  · exact dataFrame_ne_eofAck (List.mem_singleton.1 hmem).symm

theorem good_step2 (hg : x.Good) (h : x.step (.user2 dropped) = some x') : x'.Good := by
  cases hg with
  | start | done => cases h
  | eofSent =>
    simp only [Closing.step, Closing.step2, Closing.recvfrom2, received_eof] at h
    cases h
    exact .eofTaken
  | eofTaken =>
    cases h
    exact .eofAcked (k := 0) .transmitting
  | @eofAcked u n k hu =>
    obtain rfl := step2_sending hu h
    rw [List.cons_append, ← List.replicate_succ']
    exact .eofAcked .waiting
  | @awaitFin u n k hu =>
    obtain rfl := step2_sending hu h
    rw [← List.replicate_succ']
    exact .awaitFin .waiting
  | finTaken hq ha =>
    rcases step2_acked ha h with ⟨rfl, ha⟩ | rfl | ⟨rfl, rfl⟩
    · exact .finTaken (eofAck_not_mem_append hq) ha
    · exact .finTaken hq .taken
    · cases h
  | finAcked hq ha =>
    rcases step2_acked ha h with ⟨rfl, ha⟩ | rfl | ⟨rfl, rfl⟩
    · exact .finAcked (eofAck_not_mem_append hq) ha
    · exact .finAcked hq .taken
    · simp only [Closing.step, Closing.step2, Closing.recvfrom2, received_finAck] at h
      cases h
      exact .done (by rw [Option.toList_none, List.append_nil]; exact hq)

theorem good_timeout (hg : x.Good) (h : x.step .timeout = some x') : x'.Good := by
  obtain ⟨hw, h⟩ := Option.ite_none_right_eq_some.1 h
  cases h
  cases hg with
  | start | eofSent | eofTaken | done => cases hw
  | eofAcked hu => exact .eofAcked .transmitting
  | awaitFin hu => exact .awaitFin .transmitting
  | finTaken hq ha =>
    cases ha with
    | coming hu => exact .finTaken hq (.coming .transmitting)
    | taken => cases hw
  | finAcked hq ha =>
    cases ha with
    | coming hu => exact .finAcked hq (.coming .transmitting)
    | taken => cases hw

theorem eraseIdx_replicate {α : Type*} {a : α} {i : Nat} (h : i < k) : (List.replicate k a).eraseIdx i = List.replicate (k - 1) a := by
  refine List.eq_replicate_iff.2 ⟨?_, fun b hb => ?_⟩
  · rw [List.length_eraseIdx_of_lt (by rw [List.length_replicate]; exact h), List.length_replicate]
  · exact List.eq_of_mem_replicate (List.mem_of_mem_eraseIdx hb)

/-- On the way to `user1` frames with `FIN` may be lost. -/
theorem good_loseToUser1 {i : Nat} (hg : x.Good) (hm : x.toUser1[i]? ≠ some eofAck) (h : x.step (.loseToUser1 i) = some x') :
    x'.Good := by
  obtain ⟨hlt, h⟩ := Option.ite_none_right_eq_some.1 h
  cases h
  cases hg with
  | start | eofSent | eofTaken => cases hlt
  | @eofAcked u n k hu =>
    cases i with
    | zero => exact absurd rfl hm
    | succ i =>
      have hi : i < k := by
        simp only [List.length_cons, List.length_replicate] at hlt
        exact Nat.lt_of_succ_lt_succ hlt
      rw [List.eraseIdx_cons_succ, eraseIdx_replicate hi]
      exact .eofAcked hu
  | awaitFin hu =>
    rw [List.length_replicate] at hlt
    rw [eraseIdx_replicate hlt]
    exact .awaitFin hu
  | finTaken hq ha => exact .finTaken (fun hmem => hq (List.mem_of_mem_eraseIdx hmem)) ha
  | finAcked hq ha => exact .finAcked (fun hmem => hq (List.mem_of_mem_eraseIdx hmem)) ha
  | done hq => exact .done fun hmem => hq (List.mem_of_mem_eraseIdx hmem)

theorem good_step {m : Move} (hg : x.Good) (hm : OnlyFinLost x m) (h : x.step m = some x') : x'.Good := by
  cases m with
  | user1 dropped => exact good_step1 hg h
  | user2 dropped => exact good_step2 hg h
  | timeout => exact good_timeout hg h
  | loseToUser1 i => exact good_loseToUser1 hg hm h
  | loseToUser2 i => exact hm.elim

/-! ## The way to the end -/

/-- With the acknowledgement and `FIN_ACK` coming `user2` closes. -/
theorem canClose_finAcked (ha : Acked [finAck] u n q2) : Closing.CanClose ⟨.closed, u, n, q1, q2⟩ := by
  have htaken : ∀ n q1, Closing.CanClose ⟨.closed, .awaitFinAck, n, q1, [finAck]⟩ := by
    intro n q1
    have hs : Closing.step ⟨.closed, .awaitFinAck, n, q1, [finAck]⟩ (.user2 false) = some ⟨.closed, .closed, n, q1 ++ [], []⟩ := by
      simp only [Closing.step, Closing.step2, Closing.recvfrom2, received_finAck]
      rfl
    exact .of_step hs (.here ⟨rfl, rfl⟩)
  have hwaiting : ∀ q1, Closing.CanClose ⟨.closed, .waiting, n, q1, [ackFrame n, finAck]⟩ := by
    intro q1
    have hs : Closing.step ⟨.closed, .waiting, n, q1, [ackFrame n, finAck]⟩ (.user2 false) =
        some ⟨.closed, .awaitFinAck, n + 1, q1, [finAck]⟩ := if_pos (acknowledges_ackFrame.2 rfl)
    exact .of_step hs (htaken _ _)
  cases ha with
  | coming hu =>
    cases hu with
    | transmitting => exact .of_step (e := .user2 false) rfl (hwaiting _)
    | waiting => exact hwaiting q1
  | taken => exact htaken n q1

theorem canClose_finTaken (ha : Acked [] u n q2) : Closing.CanClose ⟨.sendFinAck, u, n, q1, q2⟩ := by
  cases ha with
  | coming hu => exact .of_step (e := .user1 false) rfl (canClose_finAcked (.coming hu))
  | taken => exact .of_step (e := .user1 false) rfl (canClose_finAcked .taken)

/-- `user1` takes a `FIN`; if none is under way, `user2` sends one. -/
theorem canClose_awaitFin (hu : u.Sending) : Closing.CanClose ⟨.awaitFin, u, n, List.replicate k (dataFrame n fin), []⟩ := by
  have htake : ∀ u q1, u.Sending → Closing.CanClose ⟨.awaitFin, u, n, dataFrame n fin :: q1, []⟩ := by
    intro u q1 hu
    have hs : Closing.step ⟨.awaitFin, u, n, dataFrame n fin :: q1, []⟩ (.user1 false) =
        some ⟨.sendFinAck, u, n, q1, [ackFrame n]⟩ := by
      simp only [Closing.step, Closing.step1, Closing.recvfrom1, received_fin]
      rfl
    exact .of_step hs (canClose_finTaken (.coming hu))
  cases k with
  | zero =>
    have hsend : Closing.CanClose ⟨.awaitFin, .transmitting, n, [], []⟩ :=
      .of_step (e := .user2 false) rfl (htake .waiting [] .waiting)
    cases hu with
    | transmitting => exact hsend
    | waiting => exact .of_step (e := .timeout) rfl hsend
  | succ k => exact htake u _ hu

theorem canClose_eofAcked (hu : u.Sending) :
    Closing.CanClose ⟨.awaitEofAck, u, n, eofAck :: List.replicate k (dataFrame n fin), []⟩ := by
  have hs : Closing.step ⟨.awaitEofAck, u, n, eofAck :: List.replicate k (dataFrame n fin), []⟩ (.user1 false) =
      some ⟨.awaitFin, u, n, List.replicate k (dataFrame n fin), []⟩ := by
    simp only [Closing.step, Closing.step1, Closing.recvfrom1, received_eofAck]
    rfl
  exact .of_step hs (canClose_awaitFin hu)

theorem canClose_eofTaken : Closing.CanClose ⟨.awaitEofAck, .sendEofAck, n, [], []⟩ :=
  .of_step (e := .user2 false) rfl (canClose_eofAcked (k := 0) .transmitting)

theorem canClose_eofSent : Closing.CanClose ⟨.awaitEofAck, .receiving, n, [], [eof]⟩ := by
  have hs : Closing.step ⟨.awaitEofAck, .receiving, n, [], [eof]⟩ (.user2 false) = some ⟨.awaitEofAck, .sendEofAck, n, [], []⟩ := by
    simp only [Closing.step, Closing.step2, Closing.recvfrom2, received_eof]
    rfl
  exact .of_step hs canClose_eofTaken

theorem canClose_of_good (hg : x.Good) : x.CanClose := by
  cases hg with
  | start => exact .of_step (e := .user1 false) rfl canClose_eofSent
  | eofSent => exact canClose_eofSent
  | eofTaken => exact canClose_eofTaken
  | eofAcked hu => exact canClose_eofAcked hu
  | awaitFin hu => exact canClose_awaitFin hu
  | finTaken hq ha => exact canClose_finTaken ha
  | finAcked hq ha => exact canClose_finAcked ha
  | done hq => exact .here ⟨rfl, rfl⟩

/-! ## The traps -/

/-- `EOF` is lost: both wait for a datagram and none is under way. -/
structure Closing.EofLost (x : Closing) : Prop where
  user1 : x.user1 = .awaitEofAck
  user2 : x.user2 = .receiving
  toUser1 : x.toUser1 = []
  toUser2 : x.toUser2 = []

/-- `EOF_ACK` is lost: `user1` waits for it, and only `FIN` will come. -/
structure Closing.EofAckLost (x : Closing) : Prop where
  user1 : x.user1 = .sendEof ∨ x.user1 = .awaitEofAck
  user2 : x.user2.Sending ∨ x.user2 = .awaitFinAck
  toUser1 : ∀ datagram ∈ x.toUser1, ∃ seq, datagram = dataFrame seq fin
  toUser2 : ∀ datagram ∈ x.toUser2, datagram = eof ∨ ∃ seq, datagram = ackFrame seq

/-- The acknowledgement of `FIN` is lost: `user2` waits for it, and only `FIN_ACK` will come. -/
structure Closing.AckLost (x : Closing) : Prop where
  user1 : x.user1 = .sendFinAck ∨ x.user1 = .closed
  user2 : x.user2.Sending
  toUser2 : ∀ datagram ∈ x.toUser2, datagram = finAck

/-- `FIN_ACK` is lost: `user2` waits for it and `user1` is gone. -/
structure Closing.FinAckLost (x : Closing) : Prop where
  user1 : x.user1 = .closed
  user2 : x.user2.Sending ∨ x.user2 = .awaitFinAck
  toUser2 : ∀ datagram ∈ x.toUser2, ∃ seq, datagram = ackFrame seq

variable {m : Move}

/-- A move of the clock or the network. -/
def Move.outside : Move → Bool
  | .user1 _ | .user2 _ => false
  | .timeout | .loseToUser1 _ | .loseToUser2 _ => true

/-- What the clock and the network do: they end a `select`, and nothing new is under way afterwards. -/
theorem outside_step (hm : m.outside = true) (h : x.step m = some x') : x'.user1 = x.user1 ∧
    (x'.user2 = x.user2 ∨ x'.user2 = .transmitting) ∧ x'.toUser1 ⊆ x.toUser1 ∧ x'.toUser2 ⊆ x.toUser2 := by
  cases m with
  | user1 | user2 => cases hm
  | timeout =>
    obtain ⟨-, ⟨⟩⟩ := Option.ite_none_right_eq_some.1 h
    exact ⟨rfl, Or.inr rfl, List.Subset.refl _, List.Subset.refl _⟩
  | loseToUser1 i =>
    obtain ⟨-, ⟨⟩⟩ := Option.ite_none_right_eq_some.1 h
    exact ⟨rfl, Or.inl rfl, List.eraseIdx_subset, List.Subset.refl _⟩
  | loseToUser2 i =>
    obtain ⟨-, ⟨⟩⟩ := Option.ite_none_right_eq_some.1 h
    exact ⟨rfl, Or.inl rfl, List.Subset.refl _, List.eraseIdx_subset⟩

/-- `user2` in `k_sendto`, whatever comes in. -/
theorem step2_of_sending (hu : u.Sending) (h : Closing.step ⟨u1, u, n, q1, q2⟩ (.user2 dropped) = some x') :
    x' = ⟨u1, .waiting, n, q1 ++ [dataFrame n fin], q2⟩ ∨ ∃ datagram rest, q2 = datagram :: rest ∧
      (acknowledges datagram n = true ∧ x' = ⟨u1, .awaitFinAck, n + 1, q1, rest⟩ ∨
        acknowledges datagram n = false ∧ x' = ⟨u1, .transmitting, n, q1, rest⟩) := by
  cases hu with
  | transmitting =>
    cases h
    exact Or.inl rfl
  | waiting =>
    cases q2 with
    | nil => cases h
    | cons datagram rest =>
      refine Or.inr ⟨datagram, rest, rfl, ?_⟩
      cases ha : acknowledges datagram n with
      | true =>
        simp only [Closing.step, Closing.step2, if_pos ha] at h
        cases h
        exact Or.inl ⟨rfl, rfl⟩
      | false =>
        simp only [Closing.step, Closing.step2, ha, Bool.false_eq_true, if_false] at h
        cases h
        exact Or.inr ⟨rfl, rfl⟩

/-- `user2` waits for `FIN_ACK` and receives something else. -/
theorem step2_of_awaitFinAck (hq : ∀ datagram ∈ q2, datagram = eof ∨ ∃ seq, datagram = ackFrame seq)
    (h : Closing.step ⟨u1, .awaitFinAck, n, q1, q2⟩ (.user2 dropped) = some x') :
    ∃ datagram rest, q2 = datagram :: rest ∧ x' = ⟨u1, .transmitting, n, q1 ++ [], rest⟩ := by
  cases q2 with
  | nil => cases h
  | cons datagram rest =>
    refine ⟨datagram, rest, rfl, ?_⟩
    rcases hq datagram List.mem_cons_self with rfl | ⟨seq, rfl⟩
    · simp only [Closing.step, Closing.step2, Closing.recvfrom2, received_eof] at h
      cases h
      rfl
    · simp only [Closing.step, Closing.step2, Closing.recvfrom2, received_ackFrame] at h
      cases dropped with
      | true | false =>
        cases h
        rfl

theorem forall_append_singleton {α : Type*} {p : α → Prop} {l : List α} {a : α} (h : ∀ a ∈ l, p a) (ha : p a) :
    ∀ b ∈ l ++ [a], p b :=
  fun b hb => (List.mem_append.1 hb).elim (h b) fun hb => List.mem_singleton.1 hb ▸ ha

theorem eofLost_step (hx : x.EofLost) (h : x.step m = some x') : x'.EofLost := by
  obtain ⟨u1, u2, n, q1, q2⟩ := x
  obtain ⟨rfl, rfl, rfl, rfl⟩ := hx
  cases m with
  | user1 | user2 | timeout | loseToUser1 | loseToUser2 => cases h

theorem eofAckLost_step (hx : x.EofAckLost) (h : x.step m = some x') : x'.EofAckLost := by
  obtain ⟨u1, u2, n, q1, q2⟩ := x
  obtain ⟨h1, h2, hq1, hq2⟩ := hx
  cases m with
  | user1 dropped =>
    rcases h1 with rfl | rfl
    · cases h
      exact ⟨Or.inr rfl, h2, hq1, forall_append_singleton hq2 (Or.inl rfl)⟩
    · cases q1 with
      | nil => cases h
      | cons datagram rest =>
        obtain ⟨hd, hrest⟩ := List.forall_mem_cons.1 hq1
        obtain ⟨seq, rfl⟩ := hd
        simp only [Closing.step, Closing.step1, Closing.recvfrom1, received_fin] at h
        cases dropped with
        | true =>
          cases h
          exact ⟨Or.inl rfl, h2, hrest, by simpa using hq2⟩
        | false =>
          cases h
          exact ⟨Or.inl rfl, h2, hrest, forall_append_singleton hq2 (Or.inr ⟨seq, rfl⟩)⟩
  | user2 dropped =>
    rcases h2 with h2 | rfl
    · rcases step2_of_sending h2 h with rfl | ⟨datagram, rest, rfl, ⟨-, rfl⟩ | ⟨-, rfl⟩⟩
      · exact ⟨h1, Or.inl .waiting, forall_append_singleton hq1 ⟨n, rfl⟩, hq2⟩
      · exact ⟨h1, Or.inr rfl, hq1, (List.forall_mem_cons.1 hq2).2⟩
      · exact ⟨h1, Or.inl .transmitting, hq1, (List.forall_mem_cons.1 hq2).2⟩
    · obtain ⟨datagram, rest, rfl, rfl⟩ := step2_of_awaitFinAck hq2 h
      exact ⟨h1, Or.inl .transmitting, by rw [List.append_nil]; exact hq1, (List.forall_mem_cons.1 hq2).2⟩
  | timeout | loseToUser1 | loseToUser2 =>
    obtain ⟨hu1, hu2, hs1, hs2⟩ := outside_step rfl h
    refine ⟨by rw [hu1]; exact h1, ?_, fun d hd => hq1 d (hs1 hd), fun d hd => hq2 d (hs2 hd)⟩
    rcases hu2 with hu2 | hu2 <;> rw [hu2]
    · exact h2
    · exact Or.inl .transmitting

/-- `user1` past its loops. -/
theorem step1_of_past (h1 : u1 = .sendFinAck ∨ u1 = .closed) (h : Closing.step ⟨u1, u, n, q1, q2⟩ (.user1 dropped) = some x') :
    x' = ⟨.closed, u, n, q1, q2 ++ [finAck]⟩ ∧ u1 = .sendFinAck := by
  rcases h1 with rfl | rfl
  · cases h
    exact ⟨rfl, rfl⟩
  · cases h

theorem ackLost_step (hx : x.AckLost) (h : x.step m = some x') : x'.AckLost := by
  obtain ⟨u1, u2, n, q1, q2⟩ := x
  obtain ⟨h1, h2, hq2⟩ := hx
  cases m with
  | user1 dropped =>
    obtain ⟨rfl, -⟩ := step1_of_past h1 h
    exact ⟨Or.inr rfl, h2, forall_append_singleton hq2 rfl⟩
  | user2 dropped =>
    rcases step2_of_sending h2 h with rfl | ⟨datagram, rest, rfl, ⟨ha, -⟩ | ⟨-, rfl⟩⟩
    · exact ⟨h1, .waiting, hq2⟩
    · rw [hq2 datagram List.mem_cons_self, not_acknowledges_finAck] at ha
      cases ha
    · exact ⟨h1, .transmitting, (List.forall_mem_cons.1 hq2).2⟩
  | timeout | loseToUser1 | loseToUser2 =>
    obtain ⟨hu1, hu2, -, hs2⟩ := outside_step rfl h
    refine ⟨by rw [hu1]; exact h1, ?_, fun d hd => hq2 d (hs2 hd)⟩
    rcases hu2 with hu2 | hu2 <;> rw [hu2]
    · exact h2
    · exact .transmitting

theorem finAckLost_step (hx : x.FinAckLost) (h : x.step m = some x') : x'.FinAckLost := by
  obtain ⟨u1, u2, n, q1, q2⟩ := x
  obtain ⟨rfl, h2, hq2⟩ := hx
  cases m with
  | user1 dropped => cases h
  | user2 dropped =>
    rcases h2 with h2 | rfl
    · rcases step2_of_sending h2 h with rfl | ⟨datagram, rest, rfl, ⟨-, rfl⟩ | ⟨-, rfl⟩⟩
      · exact ⟨rfl, Or.inl .waiting, hq2⟩
      · exact ⟨rfl, Or.inr rfl, (List.forall_mem_cons.1 hq2).2⟩
      · exact ⟨rfl, Or.inl .transmitting, (List.forall_mem_cons.1 hq2).2⟩
    · obtain ⟨datagram, rest, rfl, rfl⟩ := step2_of_awaitFinAck (fun d hd => Or.inr (hq2 d hd)) h
      exact ⟨rfl, Or.inl .transmitting, (List.forall_mem_cons.1 hq2).2⟩
  | timeout | loseToUser1 | loseToUser2 =>
    obtain ⟨hu1, hu2, -, hs2⟩ := outside_step rfl h
    refine ⟨hu1, ?_, fun d hd => hq2 d (hs2 hd)⟩
    rcases hu2 with hu2 | hu2 <;> rw [hu2]
    · exact h2
    · exact Or.inl .transmitting

theorem not_canClose_of_eofLost (hx : x.EofLost) : ¬x.CanClose :=
  not_canReach (fun _ _ _ hx h => eofLost_step hx h) (fun x hx hdone => by cases hx.user1.symm.trans hdone.1) hx

theorem not_canClose_of_eofAckLost (hx : x.EofAckLost) : ¬x.CanClose := by
  refine not_canReach (fun _ _ _ hx h => eofAckLost_step hx h) (fun x hx hdone => ?_) hx
  rcases hx.user1 with h1 | h1 <;> cases h1.symm.trans hdone.1

theorem not_canClose_of_ackLost (hx : x.AckLost) : ¬x.CanClose := by
  refine not_canReach (fun _ _ _ hx h => ackLost_step hx h) (fun x hx hdone => ?_) hx
  have hsending := hx.user2
  rw [hdone.2] at hsending
  cases hsending

theorem not_canClose_of_finAckLost (hx : x.FinAckLost) : ¬x.CanClose := by
  refine not_canReach (fun _ _ _ hx h => finAckLost_step hx h) (fun x hx hdone => ?_) hx
  rcases hx.user2 with hsending | hwait
  · rw [hdone.2] at hsending
    cases hsending
  · cases hwait.symm.trans hdone.2

/-! ## Every run -/

/-- A step that loses anything else than a frame with `FIN` ends in a trap. -/
theorem trapped_step (hg : x.Good) (hm : ¬OnlyFinLost x m) (h : x.step m = some x') : ¬x'.CanClose := by
  cases m with
  | user1 | user2 | timeout => exact absurd trivial hm
  | loseToUser1 i =>
    have hlost : x.toUser1[i]? = some eofAck := not_not.1 hm
    obtain ⟨-, ⟨⟩⟩ := Option.ite_none_right_eq_some.1 h
    cases hg with
    | start | eofSent | eofTaken => cases hlost
    | @eofAcked u n k hu =>
      cases i with
      | zero => exact not_canClose_of_eofAckLost ⟨Or.inr rfl, Or.inl hu, fun d hd => ⟨n, List.eq_of_mem_replicate hd⟩, nofun⟩
      | succ i => exact absurd (List.eq_of_mem_replicate (List.mem_of_getElem? hlost)).symm dataFrame_ne_eofAck
    | awaitFin hu => exact absurd (List.eq_of_mem_replicate (List.mem_of_getElem? hlost)).symm dataFrame_ne_eofAck
    | finTaken hq | finAcked hq | done hq => exact absurd (List.mem_of_getElem? hlost) hq
  | loseToUser2 i =>
    obtain ⟨hlt, ⟨⟩⟩ := Option.ite_none_right_eq_some.1 h
    cases hg with
    | start | eofTaken | eofAcked | awaitFin | done => cases hlt
    | eofSent =>
      obtain rfl : i = 0 := Nat.lt_one_iff.1 hlt
      exact not_canClose_of_eofLost ⟨rfl, rfl, rfl, rfl⟩
    | finTaken hq ha =>
      cases ha with
      | coming hu =>
        obtain rfl : i = 0 := Nat.lt_one_iff.1 hlt
        exact not_canClose_of_ackLost ⟨Or.inl rfl, hu, nofun⟩
      | taken => cases hlt
    | @finAcked u n q1 q2 hq ha =>
      cases ha with
      | coming hu =>
        cases i with
        | zero => exact not_canClose_of_ackLost ⟨Or.inr rfl, hu, fun d hd => List.mem_singleton.1 hd⟩
        | succ i =>
          obtain rfl : i = 0 := Nat.lt_one_iff.1 (Nat.lt_of_succ_lt_succ hlt)
          exact not_canClose_of_finAckLost ⟨rfl, Or.inl hu, fun d hd => ⟨n, List.mem_singleton.1 hd⟩⟩
      | taken =>
        obtain rfl : i = 0 := Nat.lt_one_iff.1 hlt
        exact not_canClose_of_finAckLost ⟨rfl, Or.inr rfl, nofun⟩

/-- The closing handshake. Along a run both programs can still be closed at every moment exactly when nothing but frames with `FIN` is
lost in it. -/
theorem canClose_iff (nextSeq : UInt8) (moves : List Move) (x : Closing) (h : exec Closing.step (.begin nextSeq) moves = some x) :
    Always Closing.step Closing.CanClose (.begin nextSeq) moves ↔ Meets Closing.step OnlyFinLost (.begin nextSeq) moves := by
  refine always_iff_meets_while (I := Closing.Good) (fun x m x' hg _ hm hs => ?_) (fun x m x' hg _ hm hs => trapped_step hg hm hs) .start
    (canClose_of_good .start) h
  have hg' : x'.Good := good_step hg hm hs
  exact ⟨hg', canClose_of_good hg'⟩

/-- A run in which a frame with `FIN` is lost and sent again. -/
theorem canClose_fin_lost : Always Closing.step Closing.CanClose (.begin 0)
    [.user1 false, .user2 false, .user2 false, .user2 false, .user1 false, .loseToUser1 0, .timeout, .user2 false] := by
  have hrun : (exec Closing.step (.begin 0)
      [.user1 false, .user2 false, .user2 false, .user2 false, .user1 false, .loseToUser1 0, .timeout, .user2 false]).isSome = true := by
    decide +kernel
  obtain ⟨x, hx⟩ := Option.isSome_iff_exists.1 hrun
  exact (canClose_iff 0 _ x hx).2 (by decide +kernel)

/-- `EOF` is lost. -/
theorem eof_lost : ¬∀ moves, Always Closing.step Closing.CanClose (.begin 0) moves := by
  intro h
  exact not_canClose_of_eofLost ⟨rfl, rfl, rfl, rfl⟩
    (h [.user1 false, .loseToUser2 0] _ (List.prefix_refl _) ⟨.awaitEofAck, .receiving, 0, [], []⟩ rfl)

end NetLabs.StopWait
