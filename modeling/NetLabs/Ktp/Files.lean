import NetLabs.Lib.CText
import NetLabs.Lib.Fifo
import Mathlib.Data.List.Range
import Mathlib.Data.Nat.Find

/-!
# Sending a file over KTP

`user1` sends `input.txt` in messages of up to 509 bytes and after it the message `"EOF"`; `user2` writes what it receives into
`output.txt` until the buffer it receives into begins with `EOF`. The buffer is not cleared between messages, so a short message counts
together with what an earlier one, or nothing at all, has left behind it. The layer between them is taken to be a channel that delivers
each message once and in order.
-/

namespace NetLabs.Ktp

open CText Fifo Machine

/-! ## The code -/

/-- `"EOF"` with its NUL. -/
def endMarker : List UInt8 := text "EOF" ++ [0]

/-- Where `user1` is: before `fread`, or in the loop that tries `k_sendto` until it succeeds. -/
inductive User1 where
  | reading (rest : List UInt8)
  | sending (message rest : List UInt8)
  | ending
  | finished
  deriving DecidableEq

/-- The two programs and the messages between them; `left` says that `user2` has left its loop. -/
structure Transfer where
  user1 : User1
  channel : Channel (List UInt8)
  buffer : List UInt8
  output : List UInt8
  left : Bool

/-- The input file has been opened; `buffer` is not initialised. -/
def Transfer.begin (buffer content : List UInt8) : Transfer := ⟨.reading content, ⟨[], []⟩, buffer, [], false⟩

/-- A call of one of the programs; the calls of the layer may fail. -/
inductive UserCall where
  | fread
  | sendto (ok : Bool)
  | recvfrom (ok : Bool)

/-- The bytes of a message in a buffer that is not cleared before. -/
def lay (message buffer : List UInt8) : List UInt8 := message ++ buffer.drop message.length

/-- `strncmp(buffer, "EOF", 3) == 0`. -/
def beginsEof (buffer : List UInt8) : Bool := startsWith buffer (text "EOF")

/-- `user2` with a message. -/
def Transfer.receive (x : Transfer) (message : List UInt8) : Transfer :=
  if beginsEof (lay message x.buffer) then { x with buffer := lay message x.buffer, left := true }
  else { x with buffer := lay message x.buffer, output := x.output ++ message }

def Transfer.step (x : Transfer) : UserCall → Option Transfer
  | .fread =>
    match x.user1 with
    | .reading rest => some { x with user1 := if rest = [] then .ending else .sending (rest.take 509) (rest.drop 509) }
    | _ => none
  | .sendto ok =>
    match x.user1 with
    | .sending message rest =>
      if ok then (x.channel.step (.push message)).map fun c => { x with user1 := .reading rest, channel := c } else some x
    | .ending => if ok then (x.channel.step (.push endMarker)).map fun c => { x with user1 := .finished, channel := c } else some x
    | _ => none
  | .recvfrom ok =>
    if x.left then none
    else if ok then
      match x.channel.pushed[x.channel.popped.length]? with
      | none => none
      | some message => (x.channel.step .pop).map fun c => { x with channel := c }.receive message
    else some x

/-- `user2` has left its loop when it has taken the end marker, which comes last, and only then; and then it has the file. -/
structure Transfer.Right (content : List UInt8) (x : Transfer) : Prop where
  left_iff : x.left = true ↔ x.user1 = .finished ∧ x.channel.popped = x.channel.pushed
  output : x.left = true → x.output = content

/-! ## The chunks of the file -/

/-- The `k`-th message. -/
def chunk (content : List UInt8) (k : Nat) : List UInt8 := (content.drop (509 * k)).take 509

/-- The buffer of `user2` after `k` messages. -/
def bufferAfter (buffer content : List UInt8) : Nat → List UInt8
  | 0 => buffer
  | k + 1 => lay (chunk content k) (bufferAfter buffer content k)

/-- No message of the file, in the buffer as it was before, begins with `EOF`. -/
def NoEarlyEof (buffer content : List UInt8) : Prop :=
  ∀ k, 509 * k < content.length → beginsEof (bufferAfter buffer content (k + 1)) = false

/-- The messages of the first `k` chunks. -/
def chunks (content : List UInt8) (k : Nat) : List (List UInt8) := (List.range k).map (chunk content)

variable {buffer content : List UInt8} {x x' : Transfer} {k j : Nat}

theorem length_chunks : (chunks content k).length = k := by
  rw [chunks, List.length_map, List.length_range]

theorem chunks_succ : chunks content (k + 1) = chunks content k ++ [chunk content k] := by
  rw [chunks, List.range_succ, List.map_append]
  rfl

theorem getElem?_chunks (h : j < k) : (chunks content k)[j]? = some (chunk content j) := by
  rw [chunks, List.getElem?_map, List.getElem?_range h]
  rfl

theorem take_chunk : content.take (509 * k) ++ chunk content k = content.take (509 * (k + 1)) := by
  rw [chunk, Nat.mul_succ, List.take_add]

/-- The end marker is recognised, whatever was in the buffer. -/
theorem beginsEof_endMarker (buffer : List UInt8) : beginsEof (lay endMarker buffer) = true := by
  rw [beginsEof, startsWith_iff, lay, endMarker, List.append_assoc]
  exact List.prefix_append _ _

/-! ## The invariant -/

/-- `user1` has sent the first `k` chunks, and the marker when it has finished. -/
inductive User1.Sent (content : List UInt8) (k : Nat) : User1 → List (List UInt8) → Prop where
  | reading : Sent content k (.reading (content.drop (509 * k))) (chunks content k)
  | sending (h : 509 * k < content.length) :
      Sent content k (.sending (chunk content k) (content.drop (509 * (k + 1)))) (chunks content k)
  | ending (h : content.length ≤ 509 * k) : Sent content k .ending (chunks content k)
  | finished (h : content.length ≤ 509 * k) : Sent content k .finished (chunks content k ++ [endMarker])

/-- What `user2` has done: taken the first `j` chunks, or left its loop with everything. -/
inductive Transfer.Taken (buffer content : List UInt8) (k : Nat) (x : Transfer) : Prop where
  | chunks (j : Nat) (hj : j ≤ k) (left : x.left = false) (popped : x.channel.popped = chunks content j)
      (buffer : x.buffer = bufferAfter buffer content j) (output : x.output = content.take (509 * j))
  | all (left : x.left = true) (user1 : x.user1 = .finished) (popped : x.channel.popped = x.channel.pushed) (output : x.output = content)

/-- Where a transfer stands that goes as it should. -/
def Transfer.Inv (buffer content : List UInt8) (x : Transfer) : Prop :=
  ∃ k, (∀ i < k, 509 * i < content.length) ∧ User1.Sent content k x.user1 x.channel.pushed ∧ x.Taken buffer content k

/-- What `user2` has done does not depend on what `user1` does while it has not finished. -/
theorem Transfer.Taken.of_user1 {u : User1} {c : Channel (List UInt8)} {k' : Nat} (h : x.Taken buffer content k)
    (hu : x.user1 ≠ .finished) (hk : k ≤ k') (hc : c.popped = x.channel.popped) :
    Transfer.Taken buffer content k' { x with user1 := u, channel := c } := by
  cases h with
  | chunks j hj left popped buffer output => exact .chunks j (Nat.le_trans hj hk) left (hc.trans popped) buffer output
  | all left user1 => exact absurd user1 hu

theorem inv_fread (hi : x.Inv buffer content) (h : x.step .fread = some x') : x'.Inv buffer content := by
  obtain ⟨k, hk, hsent, htaken⟩ := hi
  cases hu : x.user1 with
  | reading rest =>
    simp only [Transfer.step, hu] at h
    cases h
    refine ⟨k, hk, ?_, htaken.of_user1 (by rw [hu]; exact nofun) (Nat.le_refl k) rfl⟩
    rw [hu] at hsent
    generalize x.channel.pushed = pushed at hsent
    cases hsent
    change User1.Sent content k (if content.drop (509 * k) = [] then .ending else _) _
    split
    · rename_i hrest
      exact .ending (List.drop_eq_nil_iff.1 hrest)
    · rename_i hrest
      rw [List.drop_drop, ← Nat.mul_succ]
      exact .sending (Nat.not_le.1 fun hle => hrest (List.drop_eq_nil_iff.2 hle))
  | sending message rest | ending | finished =>
    simp only [Transfer.step, hu] at h
    cases h

theorem inv_sendto {ok : Bool} (hi : x.Inv buffer content) (h : x.step (.sendto ok) = some x') : x'.Inv buffer content := by
  obtain ⟨k, hk, hsent, htaken⟩ := hi
  cases hu : x.user1 with
  | sending message rest =>
    simp only [Transfer.step, hu] at h
    cases ok with
    | false =>
      cases h
      exact ⟨k, hk, hsent, htaken⟩
    | true =>
      cases h
      rw [hu] at hsent
      obtain ⟨hlen, hmessage, hrest, hpushed⟩ : 509 * k < content.length ∧ message = chunk content k ∧
          rest = content.drop (509 * (k + 1)) ∧ x.channel.pushed = chunks content k := by
        generalize x.channel.pushed = pushed at hsent
        cases hsent with
        | sending hlen => exact ⟨hlen, rfl, rfl, rfl⟩
      refine ⟨k + 1, ?_, ?_, htaken.of_user1 (by rw [hu]; exact nofun) (Nat.le_succ k) rfl⟩
      · intro i hik
        rcases Nat.lt_succ_iff_lt_or_eq.1 hik with hik | rfl
        · exact hk i hik
        · exact hlen
      · change User1.Sent content (k + 1) (.reading rest) (x.channel.pushed ++ [message])
        rw [hrest, hpushed, hmessage, ← chunks_succ]
        exact .reading
  | ending =>
    simp only [Transfer.step, hu] at h
    cases ok with
    | false =>
      cases h
      exact ⟨k, hk, hsent, htaken⟩
    | true =>
      cases h
      rw [hu] at hsent
      obtain ⟨hlen, hpushed⟩ : content.length ≤ 509 * k ∧ x.channel.pushed = chunks content k := by
        generalize x.channel.pushed = pushed at hsent
        cases hsent with
        | ending hlen => exact ⟨hlen, rfl⟩
      refine ⟨k, hk, ?_, htaken.of_user1 (by rw [hu]; exact nofun) (Nat.le_refl k) rfl⟩
      change User1.Sent content k .finished (x.channel.pushed ++ [endMarker])
      rw [hpushed]
      exact .finished hlen
  | reading rest | finished =>
    simp only [Transfer.step, hu] at h
    cases h

/-- The message `user2` takes is the next chunk, or the end marker once there is no other. -/
theorem Transfer.Inv.next {message : List UInt8} (hk : ∀ i < k, 509 * i < content.length)
    (hsent : User1.Sent content k x.user1 x.channel.pushed) (hj : j ≤ k) (hm : x.channel.pushed[j]? = some message) :
    j < k ∧ message = chunk content j ∧ 509 * j < content.length ∨
      j = k ∧ message = endMarker ∧ x.user1 = .finished ∧ x.channel.pushed = chunks content k ++ [endMarker] ∧
        content.length ≤ 509 * k := by
  by_cases hjk : j < k
  · left
    refine ⟨hjk, ?_, hk j hjk⟩
    have hchunk : x.channel.pushed[j]? = some (chunk content j) := by
      generalize x.user1 = user1 at hsent
      generalize x.channel.pushed = pushed at hsent
      cases hsent with
      | reading | sending _ | ending _ => exact getElem?_chunks hjk
      | finished hlen => rw [List.getElem?_append_left (by rw [length_chunks]; exact hjk), getElem?_chunks hjk]
    exact Option.some.inj (hm.symm.trans hchunk)
  · right
    obtain rfl : j = k := by omega
    have hnone : (chunks content j)[j]? = none := List.getElem?_eq_none (Nat.le_of_eq length_chunks)
    generalize x.user1 = user1 at hsent ⊢
    generalize x.channel.pushed = pushed at hsent hm ⊢
    cases hsent with
    | reading | sending _ | ending _ =>
      rw [hnone] at hm
      cases hm
    | finished hlen =>
      rw [List.getElem?_append_right (Nat.le_of_eq length_chunks), length_chunks, Nat.sub_self] at hm
      exact ⟨rfl, (Option.some.inj hm).symm, rfl, rfl, hlen⟩

@[simp] theorem receive_user1 (x : Transfer) (message : List UInt8) : (x.receive message).user1 = x.user1 := by
  unfold Transfer.receive
  split <;> rfl

@[simp] theorem receive_channel (x : Transfer) (message : List UInt8) : (x.receive message).channel = x.channel := by
  unfold Transfer.receive
  split <;> rfl

/-- A `k_recvfrom` that returns a message. -/
theorem recvfrom_some (h : x.step (.recvfrom true) = some x') : x.left = false ∧ ∃ message,
    x.channel.pushed[x.channel.popped.length]? = some message ∧
      x' = Transfer.receive { x with channel := { x.channel with popped := x.channel.popped ++ [message] } } message := by
  simp only [Transfer.step] at h
  obtain ⟨hleft, h⟩ := Option.ite_none_left_eq_some.1 h
  refine ⟨Bool.eq_false_iff.2 hleft, ?_⟩
  rw [if_pos trivial] at h
  split at h
  · cases h
  · rename_i message hm
    have hpop : x.channel.step .pop = some { x.channel with popped := x.channel.popped ++ [message] } := by
      simp only [Channel.step, hm]
    rw [hpop] at h
    cases h
    exact ⟨message, hm, rfl⟩

theorem inv_recvfrom {ok : Bool} (hc : NoEarlyEof buffer content) (hi : x.Inv buffer content) (h : x.step (.recvfrom ok) = some x') :
    x'.Inv buffer content := by
  obtain ⟨k, hk, hsent, htaken⟩ := hi
  cases ok with
  | false =>
    simp only [Transfer.step] at h
    obtain ⟨_, ⟨⟩⟩ := Option.ite_none_left_eq_some.1 h
    exact ⟨k, hk, hsent, htaken⟩
  | true =>
    obtain ⟨hleft, message, hm, rfl⟩ := recvfrom_some h
    refine ⟨k, hk, by rw [receive_user1, receive_channel]; exact hsent, ?_⟩
    cases htaken with
    | all left =>
      rw [left] at hleft
      cases hleft
    | chunks j hj left popped hbuffer output =>
      rw [popped, length_chunks] at hm
      rcases Transfer.Inv.next hk hsent hj hm with ⟨hjk, rfl, hcontent⟩ | ⟨rfl, rfl, huser1, hpushed, hcontent⟩
      · -- a chunk, which does not look like the end
        have hno : beginsEof (lay (chunk content j) x.buffer) = false := by
          rw [hbuffer]
          exact hc j hcontent
        rw [Transfer.receive, if_neg (by rw [hno]; exact Bool.false_ne_true)]
        refine .chunks (j + 1) hjk left ?_ ?_ ?_
        · rw [chunks_succ, ← popped]
        · rw [bufferAfter, ← hbuffer]
        · rw [← take_chunk, ← output]
      · rw [Transfer.receive, if_pos (beginsEof_endMarker x.buffer)]
        refine .all rfl huser1 ?_ ?_
        · rw [hpushed, ← popped]
        · rw [output, List.take_of_length_le hcontent]

/-! ## Every run -/

theorem right_of_inv (hi : x.Inv buffer content) : x.Right content := by
  obtain ⟨k, hk, hsent, htaken⟩ := hi
  cases htaken with
  | chunks j hj left popped =>
    have hleft : ¬x.left = true := Bool.eq_false_iff.1 left
    refine ⟨⟨fun h => absurd h hleft, ?_⟩, fun h => absurd h hleft⟩
    rintro ⟨huser1, heq⟩
    -- the marker has been sent but not taken
    rw [huser1] at hsent
    have hlen : x.channel.pushed.length = k + 1 := by
      generalize x.channel.pushed = pushed at hsent
      cases hsent with
      | finished hcontent => rw [List.length_append, length_chunks]; rfl
    rw [← heq, popped, length_chunks] at hlen
    omega
  | all left user1 popped output => exact ⟨⟨fun _ => ⟨user1, popped⟩, fun _ => left⟩, fun _ => output⟩

theorem transfer_begin_inv (buffer content : List UInt8) : (Transfer.begin buffer content).Inv buffer content :=
  ⟨0, nofun, .reading, .chunks 0 (Nat.le_refl 0) rfl rfl rfl rfl⟩

theorem transfer_step_inv (hc : NoEarlyEof buffer content) (hi : x.Inv buffer content) (c : UserCall) (h : x.step c = some x') :
    x'.Inv buffer content := by
  cases c with
  | fread => exact inv_fread hi h
  | sendto ok => exact inv_sendto hi h
  | recvfrom ok => exact inv_recvfrom hc hi h

/-! ## The run in which `user2` leaves too early -/

/-- `user1` sends a chunk and `user2` takes it at once, `k` times. -/
def lockstep : Nat → List UserCall
  | 0 => []
  | k + 1 => lockstep k ++ [.fread, .sendto true, .recvfrom true]

/-- After `k` chunks in lockstep. -/
def afterLockstep (buffer content : List UInt8) (k : Nat) : Transfer :=
  ⟨.reading (content.drop (509 * k)), ⟨chunks content k, chunks content k⟩, bufferAfter buffer content k, content.take (509 * k), false⟩

/-- One more chunk. -/
theorem exec_lockstep_one (buffer : List UInt8) (hk : 509 * k < content.length) :
    exec Transfer.step (afterLockstep buffer content k) [.fread, .sendto true, .recvfrom true] =
      some ({ afterLockstep buffer content k with
        user1 := .reading (content.drop (509 * (k + 1)))
        channel := ⟨chunks content (k + 1), chunks content (k + 1)⟩ }.receive (chunk content k)) := by
  have hne : content.drop (509 * k) ≠ [] := fun hnil => absurd (List.drop_eq_nil_iff.1 hnil) (Nat.not_le.2 hk)
  have hread : (afterLockstep buffer content k).step .fread =
      some { afterLockstep buffer content k with user1 := .sending (chunk content k) (content.drop (509 * (k + 1))) } := by
    rw [Nat.mul_succ, ← List.drop_drop]
    simp only [Transfer.step, afterLockstep, if_neg hne]
    rfl
  have hnext : (chunks content k ++ [chunk content k])[(chunks content k).length]? = some (chunk content k) := by
    rw [List.getElem?_append_right (Nat.le_refl _), Nat.sub_self]
    rfl
  rw [exec_cons, hread, chunks_succ]
  simp only [Option.bind_some, exec, Transfer.step, afterLockstep, Channel.step, if_true, Option.map_some, hnext, Bool.false_eq_true,
    if_false]

theorem exec_lockstep (hk : ∀ i < k, 509 * i < content.length ∧ beginsEof (bufferAfter buffer content (i + 1)) = false) :
    exec Transfer.step (.begin buffer content) (lockstep k) = some (afterLockstep buffer content k) := by
  induction k with
  | zero => rfl
  | succ k ih =>
    obtain ⟨hlen, hno⟩ := hk k (Nat.lt_succ_self k)
    rw [lockstep, exec_append, ih fun i hi => hk i (Nat.lt_succ_of_lt hi), Option.bind_some, exec_lockstep_one buffer hlen,
      Transfer.receive, if_neg (by rw [bufferAfter] at hno; exact Bool.eq_false_iff.1 hno)]
    simp only [afterLockstep, bufferAfter, take_chunk]

/-- Where a message in the buffer begins with `EOF`, `user2` leaves before `user1` has finished. -/
theorem exists_early (h : ¬NoEarlyEof buffer content) : ∃ calls x, exec Transfer.step (.begin buffer content) calls = some x ∧
    x.left = true ∧ x.user1 ≠ .finished := by
  classical
  have hex : ∃ k, 509 * k < content.length ∧ beginsEof (bufferAfter buffer content (k + 1)) = true := by
    unfold NoEarlyEof at h
    push Not at h
    obtain ⟨k, hk, hb⟩ := h
    exact ⟨k, hk, by simpa using hb⟩
  obtain ⟨hlen, hb⟩ := Nat.find_spec hex
  -- the first such message, reached in lockstep
  have hbefore : ∀ i < Nat.find hex, 509 * i < content.length ∧ beginsEof (bufferAfter buffer content (i + 1)) = false := by
    intro i hi
    have hlt : 509 * i < content.length := Nat.lt_of_le_of_lt (Nat.mul_le_mul_left 509 (Nat.le_of_lt hi)) hlen
    refine ⟨hlt, Bool.eq_false_iff.2 fun htrue => Nat.find_min hex hi ⟨hlt, htrue⟩⟩
  have hrun : exec Transfer.step (.begin buffer content) (lockstep (Nat.find hex) ++ [.fread, .sendto true, .recvfrom true]) =
      exec Transfer.step (afterLockstep buffer content (Nat.find hex)) [.fread, .sendto true, .recvfrom true] := by
    rw [exec_append, exec_lockstep hbefore, Option.bind_some]
  refine ⟨_, _, hrun.trans (exec_lockstep_one buffer hlen), ?_, ?_⟩
  · rw [Transfer.receive, if_pos (by rw [bufferAfter] at hb; exact hb)]
  · rw [receive_user1]
    exact nofun

/-- The transfer. Whatever was in the buffer of `user2`: in every run it leaves its loop exactly when it has taken the end marker, and
then has the file, exactly when no message of the file, in the buffer as it was before, begins with `EOF`. -/
theorem transfer_right_iff (buffer content : List UInt8) :
    (∀ calls, Always Transfer.step (Transfer.Right content) (.begin buffer content) calls) ↔ NoEarlyEof buffer content := by
  constructor
  · intro hall
    by_contra hc
    obtain ⟨calls, x, hx, hleft, huser1⟩ := exists_early hc
    exact huser1 ((hall calls calls (List.prefix_refl calls) x hx).left_iff.1 hleft).1
  · intro hc calls
    exact (always_of_kept (fun _ c _ hi hs => transfer_step_inv hc hi c hs) (transfer_begin_inv buffer content)).imp
      fun _ => right_of_inv

/-- A file that begins with `EOF`. -/
theorem eof_in_file :
    ¬∀ calls, Always Transfer.step (Transfer.Right (text "EOF")) (.begin (List.replicate 509 0) (text "EOF")) calls := by
  intro hall
  have hrun : (exec Transfer.step (.begin (List.replicate 509 0) (text "EOF")) [.fread, .sendto true, .recvfrom true]).any
      (fun x => x.left && decide (x.user1 = .reading [])) = true := by decide +kernel
  obtain ⟨x, hx, hstate⟩ := (Option.any_eq_true _ _).1 hrun
  obtain ⟨hleft, huser1⟩ := Bool.and_eq_true_iff.1 hstate
  have hfinished := ((hall _ _ (List.prefix_refl _) x hx).left_iff.1 hleft).1
  rw [of_decide_eq_true huser1] at hfinished
  cases hfinished

end NetLabs.Ktp
