import NetLabs.Ktp.Delivery
import NetLabs.Ktp.Files

/-!
# A file over two sockets

`user1` and `user2` with the two sockets, the threads of the daemon and the network between them. As long as the order is kept, the
programs do not see more of the link than a channel would show them, so what they do together is a run of `Transfer`. The end marker
is sent with its NUL, and comes back without it.
-/

namespace NetLabs.Ktp

open CText Fifo Function Machine

/-! ## The code -/

/-- The programs, the link between them, what `user2` has in its buffer and in `output.txt`, and whether it has left its loop. -/
structure Copying where
  user1 : User1
  link : Link
  buffer : List UInt8
  output : List UInt8
  left : Bool

/-- A call of one of the programs, as the process it is, or what the threads of the daemon and the network do. -/
inductive CopyMove where
  | fread
  | sendto (self : Nat) (junk : Message)
  | recvfrom (self : Nat)
  | daemon (e : Action)

/-- What is not a call of one of the programs. -/
def Action.ofDaemon : Action → Bool
  | .send _ _ _ | .recv _ => false
  | _ => true

/-- `user1` calls `k_sendto`, and goes on when it has succeeded. -/
def Copying.sends (x : Copying) (self : Nat) (junk : Message) (message : List UInt8) (after : User1) : Option Copying :=
  (x.link.step (.send self junk message)).map fun l =>
    { x with user1 := if (kSendto x.link.a self junk message).1.isSome then after else x.user1, link := l }

/-- `user2` with what `k_recvfrom` has returned: -1, no byte, too many for its buffer, the end, or more of the file. -/
def Copying.takes (x : Copying) : Option (List UInt8) → Option Copying
  | none => some x
  | some message =>
    if message = [] then some x
    else if 509 < message.length then none
    else if beginsEof (lay message x.buffer) then some { x with buffer := lay message x.buffer, left := true }
    else some { x with buffer := lay message x.buffer, output := x.output ++ message }

def Copying.step (x : Copying) : CopyMove → Option Copying
  | .fread =>
    match x.user1 with
    | .reading rest => some { x with user1 := if rest = [] then .ending else .sending (rest.take 509) (rest.drop 509) }
    | _ => none
  | .sendto self junk =>
    match x.user1 with
    | .sending message rest => x.sends self junk message (.reading rest)
    | .ending => x.sends self junk endMarker .finished
    | _ => none
  | .recvfrom self =>
    if x.left then none
    else (x.link.step (.recv self)).bind fun l => { x with link := l }.takes (kRecvfrom x.link.b self).1
  | .daemon e => if e.ofDaemon then (x.link.step e).map fun l => { x with link := l } else none

/-- The two files are open, and the sockets bound to each other. -/
def Copying.begin (a b : Entry) (buffer content : List UInt8) : Copying := ⟨.reading content, .begin a b, buffer, [], false⟩

/-- What keeps the order, of the moves that can break it. -/
def Copying.KeepsOrder (x : Copying) : CopyMove → Prop
  | .fread | .sendto _ _ => True
  | .recvfrom self => Ktp.KeepsOrder x.link (.recv self)
  | .daemon e => Ktp.KeepsOrder x.link e

variable {x x' : Copying} {y y' : Transfer} {l l' : Link} {e : Action} {self : Nat} {junk : Message} {m : CopyMove}
  {buffer content message : List UInt8} {j k : Nat}

/-! ## The transfer, whatever is in the file -/

/-- `user1` has sent a number of chunks, and `user2` has written some; while it is in its loop, all that it has taken. -/
structure Transfer.Partly (content : List UInt8) (y : Transfer) : Prop where
  sent : ∃ k, (∀ i < k, 509 * i < content.length) ∧ User1.Sent content k y.user1 y.channel.pushed
  output : ∃ j, y.output = content.take (509 * j) ∧ (y.left = false → y.channel.popped.length = j)

/-- What `user1` sends it sends without looking at `user2`: it could be one that has not begun. -/
theorem sent_step {c : UserCall} (hc : ∀ ok, c ≠ .recvfrom ok)
    (h : ∃ k, (∀ i < k, 509 * i < content.length) ∧ User1.Sent content k y.user1 y.channel.pushed) (hs : y.step c = some y') :
    ∃ k, (∀ i < k, 509 * i < content.length) ∧ User1.Sent content k y'.user1 y'.channel.pushed := by
  obtain ⟨k, hk, hsent⟩ := h
  have hi : Transfer.Inv [] content ⟨y.user1, ⟨y.channel.pushed, []⟩, [], [], false⟩ :=
    ⟨k, hk, hsent, .chunks 0 (Nat.zero_le k) rfl rfl rfl rfl⟩
  have hs' : Transfer.step ⟨y.user1, ⟨y.channel.pushed, []⟩, [], [], false⟩ c =
      some ⟨y'.user1, ⟨y'.channel.pushed, []⟩, [], [], false⟩ := by
    cases c with
    | fread =>
      simp only [Transfer.step] at hs ⊢
      split at hs
      · cases hs
        rfl
      · cases hs
    | sendto ok =>
      simp only [Transfer.step] at hs ⊢
      split at hs
      · cases ok <;> cases hs <;> rfl
      · cases ok <;> cases hs <;> rfl
      · cases hs
    | recvfrom ok => exact absurd rfl (hc ok)
  have hi' : Transfer.Inv [] content ⟨y'.user1, ⟨y'.channel.pushed, []⟩, [], [], false⟩ := by
    cases c with
    | fread => exact inv_fread hi hs'
    | sendto ok => exact inv_sendto hi hs'
    | recvfrom ok => exact absurd rfl (hc ok)
  obtain ⟨k', hk', hsent', -⟩ := hi'
  exact ⟨k', hk', hsent'⟩

/-- `user1` has sent no more than the chunks and the marker. -/
theorem length_sent_le {u : User1} {pushed : List (List UInt8)} (h : User1.Sent content k u pushed) : pushed.length ≤ k + 1 := by
  cases h with
  | reading | sending _ | ending _ => exact length_chunks.le.trans (Nat.le_succ k)
  | finished _ =>
    rw [List.length_append, length_chunks]
    exact Nat.le_refl _

/-- What `user2` takes next: the chunk that comes next in the file, or the end marker. -/
theorem Transfer.Partly.next (h : y.Partly content) (hleft : y.left = false)
    (hm : y.channel.pushed[y.channel.popped.length]? = some message) :
    y.output = content.take (509 * y.channel.popped.length) ∧
      (message = chunk content y.channel.popped.length ∧ 509 * y.channel.popped.length < content.length ∨
        message = endMarker ∧ content.length ≤ 509 * y.channel.popped.length) := by
  obtain ⟨⟨k, hk, hsent⟩, j, houtput, hj⟩ := h
  obtain rfl := hj hleft
  have hlt := (List.getElem?_eq_some_iff.1 hm).1
  have hle := length_sent_le hsent
  refine ⟨houtput, ?_⟩
  rcases Transfer.Inv.next hk hsent (by omega) hm with ⟨-, hchunk, hlen⟩ | ⟨heq, hmarker, -, -, hlen⟩
  · exact Or.inl ⟨hchunk, hlen⟩
  · exact Or.inr ⟨hmarker, heq ▸ hlen⟩

theorem partly_step (h : y.Partly content) (c : UserCall) (hs : y.step c = some y') : y'.Partly content := by
  cases c with
  | fread =>
    refine ⟨sent_step (fun _ hc => by cases hc) h.sent hs, ?_⟩
    simp only [Transfer.step] at hs
    split at hs
    · cases hs
      exact h.output
    · cases hs
  | sendto ok =>
    refine ⟨sent_step (fun _ hc => by cases hc) h.sent hs, ?_⟩
    simp only [Transfer.step] at hs
    split at hs
    · cases ok <;> cases hs <;> exact h.output
    · cases ok <;> cases hs <;> exact h.output
    · cases hs
  | recvfrom ok =>
    cases ok with
    | false =>
      simp only [Transfer.step] at hs
      obtain ⟨-, ⟨⟩⟩ := Option.ite_none_left_eq_some.1 hs
      exact h
    | true =>
      obtain ⟨hleft, message, hm, rfl⟩ := recvfrom_some hs
      obtain ⟨houtput, hnext⟩ := h.next hleft hm
      refine ⟨by rw [receive_user1, receive_channel]; exact h.sent, ?_⟩
      unfold Transfer.receive
      split
      · rename_i hend
        exact ⟨_, houtput, fun hf => by cases hf⟩
      · rename_i hno
        rcases hnext with ⟨rfl, -⟩ | ⟨rfl, -⟩
        · refine ⟨y.channel.popped.length + 1, ?_, fun _ => ?_⟩
          · exact (congrArg (· ++ _) houtput).trans take_chunk
          · rw [List.length_append]
            rfl
        · exact absurd (beginsEof_endMarker y.buffer) hno

/-! ## The messages -/

/-- A message and its NUL, in a slot: what the array has held decides about nothing else. -/
theorem frame_concat_nul (junk : Message) (n : Nat) (i : Slot) (message : List UInt8) :
    frame junk n i (message ++ [0]) = frame (fun t => if t.val = message.length + 3 then 0 else junk t) n i message := by
  funext t
  simp only [frame, List.length_append, List.length_singleton]
  split_ifs with h0 h1 h2 h3 h4 h5 h6 <;> try omega
  · rfl
  · rfl
  · rw [List.getD_eq_getElem?_getD, List.getElem?_append_left (by omega), ← List.getD_eq_getElem?_getD]
  · rw [show t.val - 2 = message.length by omega]
    simp
  · rfl
  · rfl

/-- The end marker is queued as its three letters would be. -/
theorem kSendto_endMarker (e : Entry) (self : Nat) (junk : Message) : ∃ junk',
    (kSendto e self junk endMarker).1.isSome = (kSendto e self junk' (text "EOF")).1.isSome ∧
      (kSendto e self junk endMarker).2 = (kSendto e self junk' (text "EOF")).2 := by
  refine ⟨fun t => if t.val = (text "EOF").length + 3 then 0 else junk t, ?_⟩
  have hqueue : queueMessage e.toSendSide junk endMarker =
      queueMessage e.toSendSide (fun t => if t.val = (text "EOF").length + 3 then 0 else junk t) (text "EOF") := by
    have hlong : ¬512 - 3 < endMarker.length := by decide
    have hshort : ¬512 - 3 < (text "EOF").length := by decide
    rw [queueMessage, queueMessage, if_neg hlong, if_neg hshort]
    cases firstFree e.sbuffFree with
    | none => rfl
    | some i =>
      simp only [fillSlot, endMarker, frame_concat_nul]
  simp only [kSendto, hqueue]
  split
  · exact ⟨rfl, rfl⟩
  · split
    · exact ⟨rfl, rfl⟩
    · exact ⟨rfl, rfl⟩

/-! ## The link -/

/-- The link as those see it who read messages as strings. -/
def Link.strings (x : Link) : Link := { x with sent := x.sent.map cstr }

/-- Nobody but `k_sendto` looks at what has been sent. -/
theorem step_sent (sent : List (List UInt8)) (he : ∀ self junk message, e ≠ .send self junk message) :
    { l with sent := sent }.step e = (l.step e).map fun l' => { l' with sent := sent } := by
  cases e with
  | send self junk message => exact absurd rfl (he self junk message)
  | wakeA scan stamp | wakeB scan stamp =>
    simp only [Link.step]
    split <;> rfl
  | deliverA i dropped | deliverB i dropped =>
    simp only [Link.step]
    split
    · rfl
    · split <;> rfl
  | _ => rfl

/-- The threads and the network send and return nothing. -/
theorem daemon_same (he : e.ofDaemon = true) (h : l.step e = some l') : l'.sent = l.sent ∧ l'.returned = l.returned := by
  cases e with
  | send self junk message | recv self => cases he
  | wakeA scan stamp =>
    obtain ⟨_, _, -, rfl⟩ := Link.wakeA_some h
    exact ⟨rfl, rfl⟩
  | wakeB scan stamp =>
    obtain ⟨_, _, -, rfl⟩ := Link.wakeB_some h
    exact ⟨rfl, rfl⟩
  | deliverA i dropped =>
    obtain ⟨_, _, _, -, -, rfl⟩ := Link.deliverA_some h
    exact ⟨rfl, rfl⟩
  | deliverB i dropped =>
    obtain ⟨_, _, _, -, -, rfl⟩ := Link.deliverB_some h
    exact ⟨rfl, rfl⟩
  | _ =>
    cases h
    exact ⟨rfl, rfl⟩

/-- A delivering link keeps delivering, with the messages as strings. -/
theorem strings_step (hd : Delivering l.strings) (he : ∀ self junk message, e ≠ .send self junk message)
    (hg : Ktp.KeepsOrder l e) (h : l.step e = some l') : Delivering { l' with sent := l.strings.sent } := by
  have hs : l.strings.step e = some { l' with sent := l.strings.sent } := by
    rw [Link.strings, step_sent _ he, h]
    rfl
  have hg' : Ktp.KeepsOrder l.strings e := by
    cases e with
    | send self junk message => exact absurd rfl (he self junk message)
    | _ => exact hg
  exact delivering_step _ e _ hd hg' hs

/-- What `k_recvfrom` does on a delivering link: it returns nothing and nothing changes that the programs see, or it returns the next
message, as a string. -/
theorem recv_string (hd : Delivering l.strings) (hg : Ktp.KeepsOrder l (.recv self)) (h : l.step (.recv self) = some l') :
    Delivering l'.strings ∧ l'.sent = l.sent ∧
      ((kRecvfrom l.b self).1 = none ∧ l'.returned = l.returned ∨
        ∃ message, l.sent[l.returned.length]? = some message ∧ (kRecvfrom l.b self).1 = some (cstr message) ∧
          l'.returned = l.returned ++ [cstr message]) := by
  have hsent : l'.sent = l.sent := by
    cases h
    rfl
  have hreturned : l'.returned = l.returned ++ (kRecvfrom l.b self).1.toList := by
    cases h
    rfl
  have hs : l.strings.step (.recv self) = some l'.strings := by
    rw [Link.strings, step_sent _ (fun _ _ _ hc => by cases hc), h, Link.strings, hsent]
    rfl
  have hg' : Ktp.KeepsOrder l.strings (.recv self) := hg
  refine ⟨delivering_step _ _ _ hd hg' hs, hsent, ?_⟩
  have hnext : l'.strings.returned = l.strings.returned ∨
      ∃ m, l.strings.sent[l.strings.returned.length]? = some m ∧ l'.strings.returned = l.strings.returned ++ [m] := by
    rcases hd with ⟨k, hd⟩ | hd
    · exact (hd.recv hg' hs).2
    · exact Or.inl (wrapped_step _ hd hg' hs).2
  rcases hnext with hsame | ⟨m, hm, hone⟩
  · left
    have hnil : (kRecvfrom l.b self).1.toList = [] := by
      rw [← List.append_cancel_left_eq l.returned, ← hreturned, List.append_nil]
      exact hsame
    exact ⟨Option.toList_eq_nil_iff.1 hnil, hsame⟩
  · right
    have hget : (l.sent[l.returned.length]?).map cstr = some m := (List.getElem?_map ..).symm.trans hm
    obtain ⟨message, hmessage, rfl⟩ := Option.map_eq_some_iff.1 hget
    have hlist : (kRecvfrom l.b self).1.toList = [cstr message] := by
      rw [← List.append_cancel_left_eq l.returned, ← hreturned]
      exact hone
    exact ⟨message, hmessage, Option.toList_eq_singleton_iff.1 hlist, hone⟩

/-- A `k_sendto` that does with a message what it would do with a string is one of that string. -/
theorem send_string {junk' : Message} (hd : Delivering l.strings) (hplain : (0 : UInt8) ∉ cstr message)
    (hsome : (kSendto l.a self junk message).1.isSome = (kSendto l.a self junk' (cstr message)).1.isSome)
    (hsame : (kSendto l.a self junk message).2 = (kSendto l.a self junk' (cstr message)).2)
    (h : l.step (.send self junk message) = some l') : Delivering l'.strings := by
  have hs : l.strings.step (.send self junk' (cstr message)) = some l'.strings := by
    cases h
    cases hok : (kSendto l.a self junk' (cstr message)).1.isSome with
    | false => simp [Link.step, Link.strings, hok, hsome.trans hok, hsame]
    | true => simp [Link.step, Link.strings, hok, hsome.trans hok, hsame]
  have hg : Ktp.KeepsOrder l.strings (.send self junk' (cstr message)) := hplain
  exact delivering_step _ _ _ hd hg hs

/-! ## The copy is a transfer -/

/-- The transfer that a copy is seen as: the same to the programs, and as many messages taken. -/
structure Copying.Follows (x : Copying) (y : Transfer) : Prop where
  user1 : y.user1 = x.user1
  pushed : y.channel.pushed = x.link.sent
  popped : y.channel.popped.length = x.link.returned.length
  buffer : x.left = false → y.buffer = x.buffer
  output : y.output = x.output
  left : y.left = x.left

/-- The link delivers, and the copy follows a transfer of the file. -/
structure Copying.Inv (buffer content : List UInt8) (x : Copying) : Prop where
  delivering : Delivering x.link.strings
  follows : ∃ calls y, exec Transfer.step (.begin buffer content) calls = some y ∧ x.Follows y

theorem inv_begin {a b : Entry} (ha : a.toProtocol = freshProtocol) (hb : b.toProtocol = freshProtocol) :
    (Copying.begin a b buffer content).Inv buffer content :=
  ⟨Or.inl ⟨0, ordered_begin ha hb⟩, [], _, rfl, rfl, rfl, rfl, fun _ => rfl, rfl, rfl⟩

/-- A transfer of the file that goes on. -/
theorem exec_concat {calls : List UserCall} {c : UserCall} (h : exec Transfer.step (.begin buffer content) calls = some y)
    (hs : y.step c = some y') : exec Transfer.step (.begin buffer content) (calls ++ [c]) = some y' := by
  rw [exec_append, h]
  exact exec_cons_eq_some.2 ⟨y', hs, rfl⟩

theorem partly_begin : (Transfer.begin buffer content).Partly content :=
  ⟨⟨0, fun _ hi => absurd hi (Nat.not_lt_zero _), .reading⟩, 0, (List.take_zero ..).symm, fun _ => rfl⟩

/-- Every transfer of a file is one that `Partly` describes. -/
theorem partly_run {calls : List UserCall} (h : exec Transfer.step (.begin buffer content) calls = some y) : y.Partly content :=
  always_of_kept (fun _ c _ hp hs => partly_step hp c hs) partly_begin calls (List.prefix_refl calls) y h

/-- A successful or failing `k_sendto` of `user1`. -/
theorem inv_sends {after : User1} (hi : x.Inv buffer content) (hplain : (0 : UInt8) ∉ cstr message)
    (hstring : ∃ junk', (kSendto x.link.a self junk message).1.isSome = (kSendto x.link.a self junk' (cstr message)).1.isSome ∧
      (kSendto x.link.a self junk message).2 = (kSendto x.link.a self junk' (cstr message)).2)
    (hsend : ∀ y : Transfer, y.user1 = x.user1 → ∀ ok, y.step (.sendto ok) = some (if ok then
      { y with user1 := after, channel := { y.channel with pushed := y.channel.pushed ++ [message] } } else y))
    (hs : x.sends self junk message after = some x') : x'.Inv buffer content := by
  obtain ⟨hd, calls, y, hrun, hf⟩ := hi
  obtain ⟨junk', hsome, hsame⟩ := hstring
  obtain ⟨l, hl, rfl⟩ := Option.map_eq_some_iff.1 hs
  have hcall := exec_concat hrun (hsend y hf.user1 (kSendto x.link.a self junk message).1.isSome)
  refine ⟨send_string hd hplain hsome hsame hl, _, _, hcall, ?_⟩
  cases hl
  cases hok : (kSendto x.link.a self junk message).1.isSome with
  | false =>
    simp only [Bool.false_eq_true, if_false, List.append_nil]
    exact ⟨hf.user1, hf.pushed, hf.popped, hf.buffer, hf.output, hf.left⟩
  | true =>
    simp only [if_true]
    exact ⟨rfl, congrArg (· ++ [message]) hf.pushed, hf.popped, hf.buffer, hf.output, hf.left⟩

/-- The marker is recognised without its NUL too. -/
theorem beginsEof_letters (buffer : List UInt8) : beginsEof (lay (text "EOF") buffer) = true := by
  rw [beginsEof, startsWith_iff, lay]
  exact List.prefix_append _ _

/-- A chunk of a file without NUL is a string that the buffer of `user2` has room for. -/
theorem chunk_fits (hfile : (0 : UInt8) ∉ content) (hj : 509 * j < content.length) :
    cstr (chunk content j) = chunk content j ∧ chunk content j ≠ [] ∧ (chunk content j).length ≤ 509 := by
  refine ⟨cstr_of_not_mem fun hmem => hfile (List.mem_of_mem_drop (List.mem_of_mem_take hmem)), fun hnil => ?_, ?_⟩
  · have hlen : (chunk content j).length = 0 := congrArg List.length hnil
    rw [chunk, List.length_take, List.length_drop] at hlen
    omega
  · rw [chunk, List.length_take]
    omega

/-- What `user2` does with the message that comes next is what it does in the transfer, and its buffer has room for it. -/
theorem follows_takes (hfile : (0 : UInt8) ∉ content) (hf : x.Follows y) (hp : y.Partly content) (hleft : x.left = false)
    (hm : y.channel.pushed[y.channel.popped.length]? = some message) (hsent : l.sent = x.link.sent)
    (hreturned : l.returned.length = x.link.returned.length + 1) :
    ∃ x', { x with link := l }.takes (some (cstr message)) = some x' ∧ x'.link = l ∧
      x'.Follows (Transfer.receive { y with channel := { y.channel with popped := y.channel.popped ++ [message] } } message) := by
  have hbuffer := hf.buffer hleft
  have hpopped : (y.channel.popped ++ [message]).length = l.returned.length := by
    rw [List.length_append, hreturned, hf.popped]
    rfl
  rcases (hp.next (hf.left.trans hleft) hm).2 with ⟨rfl, hlen⟩ | ⟨rfl, -⟩
  · obtain ⟨hcstr, hne, hfits⟩ := chunk_fits hfile hlen
    rw [hcstr, Copying.takes, if_neg hne, if_neg (Nat.not_lt.2 hfits)]
    unfold Transfer.receive
    cases hb : beginsEof (lay (chunk content y.channel.popped.length) x.buffer) with
    | true =>
      rw [if_pos rfl, if_pos (by rw [hbuffer]; exact hb)]
      exact ⟨_, rfl, rfl, hf.user1, hf.pushed.trans hsent.symm, hpopped, (fun hf => by cases hf), hf.output, rfl⟩
    | false =>
      rw [if_neg Bool.false_ne_true, if_neg (by rw [hbuffer, hb]; exact Bool.false_ne_true)]
      exact ⟨_, rfl, rfl, hf.user1, hf.pushed.trans hsent.symm, hpopped, fun _ => by rw [hbuffer],
        congrArg (· ++ _) hf.output, hf.left⟩
  · have hcstr : cstr endMarker = text "EOF" := cstr_append_zero (by decide) []
    have hne : text "EOF" ≠ [] := by decide
    have hfits : ¬509 < (text "EOF").length := by decide
    rw [hcstr, Copying.takes, if_neg hne, if_neg hfits, if_pos (beginsEof_letters x.buffer), Transfer.receive,
      if_pos (beginsEof_endMarker y.buffer)]
    exact ⟨_, rfl, rfl, hf.user1, hf.pushed.trans hsent.symm, hpopped, (fun hf => by cases hf), hf.output, rfl⟩

/-- Every move that keeps the order. -/
theorem copying_step (hfile : (0 : UInt8) ∉ content) (hi : x.Inv buffer content) (hg : x.KeepsOrder m) (hs : x.step m = some x') :
    x'.Inv buffer content := by
  obtain ⟨hd, calls, y, hrun, hf⟩ := hi
  have hpartly := partly_run hrun
  cases m with
  | fread =>
    refine ⟨?_, ?_⟩
    · simp only [Copying.step] at hs
      split at hs
      · cases hs
        exact hd
      · cases hs
    · simp only [Copying.step] at hs
      split at hs
      · rename_i rest hu
        cases hs
        have hread : y.step .fread = some { y with user1 := if rest = [] then .ending else .sending (rest.take 509) (rest.drop 509) } := by
          simp only [Transfer.step, hf.user1, hu]
        exact ⟨_, _, exec_concat hrun hread, rfl, hf.pushed, hf.popped, hf.buffer, hf.output, hf.left⟩
      · cases hs
  | sendto self junk =>
    simp only [Copying.step] at hs
    split at hs
    · rename_i message rest hu
      have hplain : (0 : UInt8) ∉ message := by
        obtain ⟨k, -, hsent⟩ := hpartly.sent
        rw [hf.user1, hu] at hsent
        generalize y.channel.pushed = pushed at hsent
        cases hsent
        exact fun hmem => hfile (List.mem_of_mem_drop (List.mem_of_mem_take hmem))
      refine inv_sends ⟨hd, calls, y, hrun, hf⟩ ((cstr_of_not_mem hplain).symm ▸ hplain)
        ⟨junk, by rw [cstr_of_not_mem hplain], by rw [cstr_of_not_mem hplain]⟩ (fun z hz ok => ?_) hs
      rw [hu] at hz
      cases ok <;> simp [Transfer.step, hz, Channel.step]
    · rename_i hu
      have hplain : (0 : UInt8) ∉ text "EOF" := by decide
      have hcstr : cstr endMarker = text "EOF" := cstr_append_zero hplain []
      refine inv_sends ⟨hd, calls, y, hrun, hf⟩ (hcstr ▸ hplain) (hcstr ▸ kSendto_endMarker _ self junk) (fun z hz ok => ?_) hs
      rw [hu] at hz
      cases ok <;> simp [Transfer.step, hz, Channel.step]
    · cases hs
  | recvfrom self =>
    simp only [Copying.step] at hs
    obtain ⟨hleft, hs⟩ := Option.ite_none_left_eq_some.1 hs
    obtain ⟨l, hl, htakes⟩ := Option.bind_eq_some_iff.1 hs
    obtain ⟨hd', hsent, ⟨hnone, hreturned⟩ | ⟨message, hm, hstring, hreturned⟩⟩ := recv_string hd hg hl
    · rw [hnone] at htakes
      cases htakes
      exact ⟨hd', calls, y, hrun, hf.user1, hf.pushed.trans hsent.symm, hf.popped.trans (congrArg List.length hreturned.symm),
        hf.buffer, hf.output, hf.left⟩
    · have hleft' : y.left = false := hf.left.trans (Bool.eq_false_iff.2 hleft)
      have hnext : y.channel.pushed[y.channel.popped.length]? = some message := by
        rw [hf.pushed, hf.popped]
        exact hm
      have htransfer : y.step (.recvfrom true) =
          some (Transfer.receive { y with channel := { y.channel with popped := y.channel.popped ++ [message] } } message) := by
        simp only [Transfer.step, hleft', hnext, Channel.step]
        rfl
      have hlength : l.returned.length = x.link.returned.length + 1 := by
        rw [hreturned, List.length_append]
        rfl
      obtain ⟨x', hx', hlink, hfollows⟩ := follows_takes hfile hf hpartly (Bool.eq_false_iff.2 hleft) hnext hsent hlength
      rw [hstring, hx'] at htakes
      cases htakes
      exact ⟨hlink ▸ hd', _, _, exec_concat hrun htransfer, hfollows⟩
  | daemon e =>
    obtain ⟨he, hs⟩ := Option.ite_none_right_eq_some.1 hs
    obtain ⟨l, hl, rfl⟩ := Option.map_eq_some_iff.1 hs
    obtain ⟨hsent, hreturned⟩ := daemon_same he hl
    have hnot : ∀ self junk message, e ≠ .send self junk message := by
      rintro self junk message rfl
      cases he
    refine ⟨?_, calls, y, hrun, hf.user1, hf.pushed.trans hsent.symm, hf.popped.trans ?_, hf.buffer, hf.output, hf.left⟩
    · have := strings_step hd hnot hg hl
      rw [Link.strings, ← hsent] at this
      exact this
    · exact congrArg List.length hreturned.symm

/-! ## Moves that keep the order -/

/-- A message is taken in when nothing is held, and read when nothing held is at the start of the window or behind it. -/
def Copying.calm (x : Copying) : CopyMove → Bool
  | .fread | .sendto _ _ => true
  | .recvfrom _ => decide (∀ i, x.link.b.rbuffFree i = false → seqByte (x.link.b.recvBuffer i) < x.link.b.rwnd.startSequence)
  | .daemon (.deliverB _ _) => decide (∀ i, x.link.b.rbuffFree i = true)
  | .daemon (.send _ _ _) | .daemon (.recv _) => false
  | .daemon _ => true

theorem keepsOrder_of_calm (x : Copying) (m : CopyMove) (h : x.calm m = true) : x.KeepsOrder m := by
  cases m with
  | fread | sendto self junk => trivial
  | recvfrom self =>
    have hbefore := of_decide_eq_true h
    refine fun _ i hi _ => ⟨hbefore i hi.1, ?_⟩
    rintro q ⟨j, hj, rfl⟩
    exact Nat.le_add_right_of_le (Nat.le_of_lt (hbefore j hj))
  | daemon e =>
    cases e with
    | deliverB i dropped =>
      have hfree := of_decide_eq_true h
      rintro d - - - ⟨j, hj, -⟩
      exact absurd (hfree j) (by rw [hj]; exact Bool.false_ne_true)
    | send self junk message | recv self => cases h
    | _ => trivial

/-! ## Every run -/

/-- `output.txt` is a beginning of `input.txt`; the buffer of `user2` has room for what it is given; and where nothing in the file looks
like its end, `user2` leaves its loop with the whole file, which `user1` has finished sending. -/
structure Copying.Right (buffer content : List UInt8) (x : Copying) : Prop where
  output : x.output <+: content
  room : x.left = false → ∀ self, x.KeepsOrder (.recvfrom self) → (x.step (.recvfrom self)).isSome = true
  whole : NoEarlyEof buffer content → x.left = true → x.user1 = .finished ∧ x.output = content

theorem right_of_copying (hfile : (0 : UInt8) ∉ content) (hi : x.Inv buffer content) : x.Right buffer content := by
  obtain ⟨hd, calls, y, hrun, hf⟩ := hi
  have hp := partly_run hrun
  refine ⟨?_, fun hleft self hg => ?_, fun hno hleft => ?_⟩
  · obtain ⟨j, houtput, -⟩ := hp.output
    rw [← hf.output, houtput]
    exact List.take_prefix _ _
  · obtain ⟨l, hl⟩ : ∃ l, x.link.step (.recv self) = some l := ⟨_, rfl⟩
    obtain ⟨-, hsent, ⟨hnone, -⟩ | ⟨message, hm, hstring, hreturned⟩⟩ := recv_string hd hg hl
    · rw [Copying.step, if_neg (Bool.eq_false_iff.1 hleft), hl, Option.bind_some, hnone]
      rfl
    · obtain ⟨x', hx', -⟩ := follows_takes hfile hf hp hleft (by rw [hf.pushed, hf.popped]; exact hm) hsent
        (by rw [hreturned, List.length_append]; rfl)
      rw [Copying.step, if_neg (Bool.eq_false_iff.1 hleft), hl, Option.bind_some, hstring, hx']
      rfl
  · obtain ⟨k, -, -, htaken⟩ := always_of_kept (fun _ c _ hi hs => transfer_step_inv hno hi c hs)
      (transfer_begin_inv buffer content) calls (List.prefix_refl calls) y hrun
    cases htaken with
    | chunks j hj left => exact absurd ((hf.left.symm.trans left).symm.trans hleft) Bool.false_ne_true
    | all left user1 popped output => exact ⟨hf.user1.symm.trans user1, hf.output.symm.trans output⟩

/-- A file over two sockets. For every file without NUL, whatever was in the buffer of `user2`: in every run of the two programs, the
threads of the daemon and a network that loses, delays and repeats, whose every move keeps the order, what `user2` has written is a
beginning of the file and its buffer is not overrun; and if no message of the file, in the buffer as it was before, begins with `EOF`,
then `user2` leaves its loop with the whole file only. -/
theorem file_copied (a b : Entry) (buffer content : List UInt8) (ha : a.toProtocol = freshProtocol)
    (hb : b.toProtocol = freshProtocol) (hfile : (0 : UInt8) ∉ content) (ms : List CopyMove)
    (hm : Meets Copying.step Copying.KeepsOrder (.begin a b buffer content) ms) (x : Copying)
    (hx : exec Copying.step (.begin a b buffer content) ms = some x) : x.Right buffer content :=
  right_of_copying hfile (exec_invariant (fun _ _ _ hi hg hs => copying_step hfile hi hg hs) (inv_begin ha hb) hm hx)

/-- A file of one message and the end marker, each sent, taken in and returned before the next. -/
def hiMoves : List CopyMove :=
  [.fread, .sendto 7 fun _ => 0, .daemon (.wakeA (fun _ => 100) fun _ => 100), .daemon (.deliverB 0 false), .recvfrom 8,
    .fread, .sendto 7 fun _ => 0, .daemon (.deliverA 0 false), .daemon (.wakeA (fun _ => 200) fun _ => 200),
    .daemon (.deliverB 0 false), .recvfrom 8]

/-- `file_copied` on a file of two letters, to the end of both loops. -/
theorem file_copied_hi :
    ∃ x, exec Copying.step (.begin boundEntry boundPeer [] (text "hi")) hiMoves = some x ∧ x.left = true ∧ x.output = text "hi" := by
  have hrun : (exec Copying.step (.begin boundEntry boundPeer [] (text "hi")) hiMoves).any (fun x => x.left) = true := by
    decide +kernel
  have hcalm : checks Copying.step Copying.calm (.begin boundEntry boundPeer [] (text "hi")) hiMoves = true := by decide +kernel
  have hfile : (0 : UInt8) ∉ text "hi" := by decide
  have hno : NoEarlyEof [] (text "hi") := by
    intro k hk
    have hlen : (text "hi").length = 2 := by decide
    obtain rfl : k = 0 := by omega
    decide
  obtain ⟨x, hx, hleft⟩ := (Option.any_eq_true _ _).1 hrun
  exact ⟨x, hx, hleft, ((file_copied boundEntry boundPeer [] (text "hi") rfl rfl hfile hiMoves
    (meets_of_checks keepsOrder_of_calm hcalm) x hx).whole hno hleft).2⟩

end NetLabs.Ktp
