import NetLabs.Lib.Buffer
import NetLabs.Ktp.Joint

/-!
# The payload of a message

`k_sendto` is given a length and copies that many bytes, but the frame does not carry the length: `k_recvfrom` finds one again with
`strlen`, and copies as much as that, whatever the `length` it is given. So a message comes out as it went in exactly when it has no NUL
(`payload_kept_iff`), and a call stays inside the slot and the caller's buffer exactly when there is a NUL soon enough
(`staysInside_iff`).
-/

namespace NetLabs.Ktp

open Function Buffer Slots Machine

/-- `strlen` at address `a`, of which the first `n` bytes are looked at. -/
def strlenAt : Nat → Nat → Prog Nat
  | 0, _ => .done 0
  | n + 1, a => .read a fun b => if b = 0 then .done 0 else (strlenAt n (a + 1)).bind fun k => .done (k + 1)

/-- `msg_len = strlen(recv_buffer[index] + 2)`, and what `memcpy(buffer, recv_buffer[index] + 2, msg_len)` reads. -/
def copyOut (index : Slot) : Prog (List UInt8) :=
  (strlenAt (5130 - (512 * index.val + 2)) (512 * index.val + 2)).bind fun msgLen => Prog.bytes (512 * index.val + 2) msgLen

/-- `k_recvfrom` with the caller's buffer: what it returns and what the buffer holds then. The code does not look at `length`. -/
def kRecvfromInto (e : Entry) (self : Nat) (buffer : Nat → UInt8) (_length : Nat) : Option Nat × (Nat → UInt8) :=
  match (kRecvfrom e self).1 with
  | none => (none, buffer)
  | some message => (some message.length, Prog.overlay message buffer)

/-- The call takes the message out of slot `i`. -/
def Consumes (e : Entry) (self : Nat) (i : Slot) : Prop :=
  e.rbuffFree i = false ∧ (kRecvfrom e self).2.rbuffFree i = true

theorem Consumes.result {e : Entry} {self : Nat} {i : Slot} (h : Consumes e self i) :
    (kRecvfrom e self).1 = some (slotString e.toRecvSide i) := by
  obtain ⟨hi, hfreed⟩ := h
  rcases kRecvfrom_cases e self with hr | ⟨m, r, ht, -, hr⟩
  · rw [hr, hi] at hfreed
    cases hfreed
  · obtain ⟨j, hj, -, -, rfl, rfl⟩ := takeMessage_some ht
    rw [hr] at hfreed ⊢
    have hfreed : update e.rbuffFree j true i = true := hfreed
    have hij : i = j := by
      by_contra hne
      rw [update_of_ne hne, hi] at hfreed
      cases hfreed
    rw [hij]

/-! ## The string in memory -/

section Strings

variable {mem : Nat → UInt8} {n a t : Nat}

/-- No byte of the string is NUL. -/
theorem cstringAt_plain : (0 : UInt8) ∉ cstringAt mem n a := by
  induction n generalizing a with
  | zero => exact List.not_mem_nil
  | succ n ih =>
    unfold cstringAt
    split
    · exact List.not_mem_nil
    · rename_i hne
      rw [List.mem_cons, not_or]
      exact ⟨fun h => hne h.symm, ih⟩

/-- The string ends at the first NUL: not before it, -/
theorem cstringAt_ends (h : (cstringAt mem n a).length < n) : mem (a + (cstringAt mem n a).length) = 0 := by
  induction n generalizing a with
  | zero => exact absurd h (Nat.not_lt_zero _)
  | succ n ih =>
    unfold cstringAt at h ⊢
    split
    · rename_i hz
      exact hz
    · rename_i hne
      rw [if_neg hne, List.length_cons] at h
      have := ih (Nat.lt_of_succ_lt_succ h)
      rw [List.length_cons, ← Nat.add_assoc, Nat.add_right_comm]
      exact this

/-- and not after one. -/
theorem cstringAt_le (ht : t < n) (hz : mem (a + t) = 0) : (cstringAt mem n a).length ≤ t := by
  induction t generalizing n a with
  | zero =>
    obtain ⟨n, rfl⟩ : ∃ n', n = n' + 1 := ⟨n - 1, by omega⟩
    rw [Nat.add_zero] at hz
    rw [cstringAt, if_pos hz]
    exact Nat.le_refl 0
  | succ t ih =>
    obtain ⟨n, rfl⟩ : ∃ n', n = n' + 1 := ⟨n - 1, by omega⟩
    unfold cstringAt
    split
    · exact Nat.zero_le _
    · have hshift : a + 1 + t = a + (t + 1) := by omega
      exact Nat.succ_le_succ (ih (Nat.lt_of_succ_lt_succ ht) (by rw [hshift]; exact hz))

/-- The string is the bytes from its address on. -/
theorem cstringAt_bytes : (List.range' a (cstringAt mem n a).length).map mem = cstringAt mem n a := by
  induction n generalizing a with
  | zero => rfl
  | succ n ih =>
    unfold cstringAt
    split
    · rfl
    · rw [List.length_cons, List.range'_succ, List.map_cons, ih]

/-- `strlen` gives the length of the string. -/
theorem run_strlenAt {α : Type} (f : Nat → Prog α) : ((strlenAt n a).bind f).run mem = (f (cstringAt mem n a).length).run mem := by
  induction n generalizing a f with
  | zero => rfl
  | succ n ih =>
    by_cases hz : mem a = 0
    · simp [strlenAt, cstringAt, Prog.bind, Prog.run, hz]
    · have hrest : ((strlenAt n (a + 1)).bind fun k => (Prog.done (k + 1)).bind f).run mem = _ := ih _
      rw [← Prog.bind_assoc] at hrest
      simpa [strlenAt, cstringAt, Prog.bind, Prog.run, hz] using hrest

/-- It reads the string and the NUL behind it, as far as it looks. -/
theorem readsFrom_strlenAt {α : Type} (f : Nat → Prog α) :
    ((strlenAt n a).bind f).readsFrom (fun _ => false) mem =
      List.range' a (min ((cstringAt mem n a).length + 1) n) ++ (f (cstringAt mem n a).length).readsFrom (fun _ => false) mem := by
  induction n generalizing a f with
  | zero => rfl
  | succ n ih =>
    by_cases hz : mem a = 0
    · simp [strlenAt, cstringAt, Prog.bind, Prog.readsFrom, hz]
    · have hrest : ((strlenAt n (a + 1)).bind fun k => (Prog.done (k + 1)).bind f).readsFrom (fun _ => false) mem = _ := ih _
      rw [← Prog.bind_assoc] at hrest
      simp only [strlenAt, cstringAt, Prog.bind, Prog.readsFrom, hz, ↓reduceIte, List.length_cons, Bool.false_eq_true]
      rw [Nat.add_min_add_right, List.range'_succ, List.cons_append]
      exact congrArg (a :: ·) hrest

end Strings

section Slots

variable {r : RecvSide} {i : Slot} {a : Nat}

theorem copyOut_run : (copyOut i).run (recvMemory r) = slotString r i := by
  have hbytes := Prog.run_bytes_bind (512 * i.val + 2) (slotString r i).length Prog.done (recvMemory r)
  rw [Prog.bind_right_done] at hbytes
  unfold copyOut
  rw [run_strlenAt]
  exact hbytes.trans cstringAt_bytes

/-- A slot in use: the search for its NUL ends in `rbuff_free`, at the latest at its own flag. -/
theorem slotString_lt (hi : r.rbuffFree i = false) :
    512 * i.val + 2 + (slotString r i).length < 5130 ∧ recvMemory r (512 * i.val + 2 + (slotString r i).length) = 0 := by
  have hlt := i.isLt
  have hflag : recvMemory r (5120 + i.val) = 0 := by
    simp [recvMemory, hi]
  have hat : 512 * i.val + 2 + (5120 + i.val - (512 * i.val + 2)) = 5120 + i.val := by omega
  have hle : (slotString r i).length ≤ 5120 + i.val - (512 * i.val + 2) :=
    cstringAt_le (by omega) (by rw [hat]; exact hflag)
  exact ⟨by omega, cstringAt_ends (by show (slotString r i).length < _; omega)⟩

/-- What the call reads from a slot in use: the string and the NUL behind it. -/
theorem mem_copyOut_reads (hi : r.rbuffFree i = false) :
    a ∈ (copyOut i).reads (recvMemory r) ↔ 512 * i.val + 2 ≤ a ∧ a ≤ 512 * i.val + 2 + (slotString r i).length := by
  have hlt := (slotString_lt hi).1
  have hbytes := Prog.readsFrom_bytes_bind (512 * i.val + 2) (slotString r i).length Prog.done (recvMemory r)
  rw [Prog.bind_right_done] at hbytes
  have hlen : (cstringAt (recvMemory r) (5130 - (512 * i.val + 2)) (512 * i.val + 2)).length = (slotString r i).length := rfl
  unfold copyOut Prog.reads
  rw [readsFrom_strlenAt, hlen, hbytes, Nat.min_eq_left (by omega), List.mem_append, List.mem_append, List.mem_range'_1,
    List.mem_range'_1]
  simp only [Prog.readsFrom, List.not_mem_nil, or_false]
  omega

end Slots

/-! ## Inside the buffers -/

/-- A call that takes the message out of slot `i` reads only bytes of the slot, writes at most `length` bytes to the caller's buffer, from
its start on, and returns how many it has written. -/
structure StaysInside (e : Entry) (self : Nat) (i : Slot) (length : Nat) : Prop where
  reads : ∀ a ∈ (copyOut i).reads (recvMemory e.toRecvSide), 512 * i.val ≤ a ∧ a < 512 * (i.val + 1)
  writes : ∃ written : List UInt8, written.length ≤ length ∧
    ∀ buffer, kRecvfromInto e self buffer length = (some written.length, Prog.overlay written buffer)

/-- Slot `i` has a NUL behind its first two bytes, at most `length` bytes further on. -/
def Terminated (r : RecvSide) (i : Slot) (length : Nat) : Prop :=
  ∃ t : Fin 512, 2 ≤ t.val ∧ t.val ≤ length + 2 ∧ r.recvBuffer i t = 0

instance (r : RecvSide) (i : Slot) (length : Nat) : Decidable (Terminated r i length) :=
  inferInstanceAs (Decidable (∃ t : Fin 512, 2 ≤ t.val ∧ t.val ≤ length + 2 ∧ r.recvBuffer i t = 0))

theorem Consumes.into {e : Entry} {self : Nat} {i : Slot} (h : Consumes e self i) (buffer : Nat → UInt8) (length : Nat) :
    kRecvfromInto e self buffer length =
      (some (slotString e.toRecvSide i).length, Prog.overlay (slotString e.toRecvSide i) buffer) := by
  simp only [kRecvfromInto, h.result]

theorem Consumes.staysInside_iff_terminated {e : Entry} {self : Nat} {i : Slot} (h : Consumes e self i) (length : Nat) :
    StaysInside e self i length ↔ Terminated e.toRecvSide i length := by
  obtain ⟨hlt, hend⟩ := slotString_lt h.1
  constructor
  · rintro ⟨hreads, written, hle, hwritten⟩
    have hinto := hwritten fun _ => 0
    rw [h.into, Prod.mk.injEq, Option.some.injEq] at hinto
    have hlast := hreads (512 * i.val + 2 + (slotString e.toRecvSide i).length)
      ((mem_copyOut_reads h.1).2 ⟨Nat.le_add_right _ _, Nat.le_refl _⟩)
    have hin : 2 + (slotString e.toRecvSide i).length < 512 := by omega
    refine ⟨⟨2 + (slotString e.toRecvSide i).length, hin⟩, Nat.le_add_right _ _, ?_, ?_⟩
    · show 2 + (slotString e.toRecvSide i).length ≤ length + 2
      omega
    · rw [← recvMemory_slot e.toRecvSide i hin, ← Nat.add_assoc]
      exact hend
  · rintro ⟨⟨t, ht⟩, htwo, hle, hz⟩
    have htwo : 2 ≤ t := htwo
    have hle : t ≤ length + 2 := hle
    have hi := i.isLt
    have hat : 512 * i.val + 2 + (t - 2) = 512 * i.val + t := by omega
    have hshort : (slotString e.toRecvSide i).length ≤ t - 2 :=
      cstringAt_le (by omega) (by rw [hat, recvMemory_slot e.toRecvSide i ht, hz])
    refine ⟨fun a ha => ?_, slotString e.toRecvSide i, by omega, fun buffer => h.into buffer length⟩
    have := (mem_copyOut_reads h.1).1 ha
    omega

/-- When `k_recvfrom` stays inside its buffers. In every state an entry can reach, a call that takes the message out of a slot reads only
that slot, writes at most `length` bytes and returns their number, if and only if the slot has a NUL soon enough. -/
theorem staysInside_iff (e : Entry) (es : List Event) (l : Life) : e.toProtocol = freshProtocol →
    exec Life.after (Life.begin e) es = some l → ∀ self i, Consumes l.entry self i → ∀ length,
      (StaysInside l.entry self i length ↔ Terminated l.entry.toRecvSide i length) := by
  intro _ _ self i hcall length
  exact hcall.staysInside_iff_terminated length

/-- `staysInside_iff` on a message of one byte and a buffer of 10. -/
theorem staysInside_iff_one :
    ∃ l, exec Life.after (Life.begin boundEntry) [.datagram (dataDatagram (frame (fun _ => 0) 1 0 [65])) false] = some l ∧
      (StaysInside l.entry 7 0 10 ↔ Terminated l.entry.toRecvSide 0 10) := by
  refine ⟨_, rfl, staysInside_iff boundEntry [.datagram (dataDatagram (frame (fun _ => 0) 1 0 [65])) false] _ rfl rfl 7 0 ⟨rfl, ?_⟩ 10⟩
  decide +kernel

/-- A data datagram under number 1 whose other bytes are all 65. -/
def unterminated : Datagram := dataDatagram fun t => if t.val = 0 then 1 else 65

/-- The call that takes it out reads on behind its slot. -/
theorem read_past_slot :
    ∃ l, exec Life.after (Life.begin boundEntry) [.datagram unterminated false] = some l ∧ Consumes l.entry 7 0 ∧
      ¬StaysInside l.entry 7 0 512 := by
  have hrun : ((exec Life.after (Life.begin boundEntry) [.datagram unterminated false]).any fun l =>
      !l.entry.rbuffFree 0 && (kRecvfrom l.entry 7).2.rbuffFree 0 && !decide (Terminated l.entry.toRecvSide 0 512)) = true := by
    decide +kernel
  obtain ⟨l, hx, hend⟩ := (Option.any_eq_true _ _).1 hrun
  simp only [Bool.and_eq_true, Bool.not_eq_true', decide_eq_false_iff_not] at hend
  obtain ⟨⟨hused, hfreed⟩, hno⟩ := hend
  have hcall : Consumes l.entry 7 0 := ⟨hused, hfreed⟩
  exact ⟨l, hx, hcall, fun h => hno ((hcall.staysInside_iff_terminated 512).1 h)⟩

/-! ## What goes in comes out -/

/-- The `k`th datagram in flight is what thread S sends for a message that `k_sendto` has accepted, and thread R of `b` puts it into
slot `i`. -/
structure PutInto (x y : Link) (k : Nat) (i : Slot) (message : List UInt8) : Prop where
  carried : ∃ d m j, x.toB[k]? = some d ∧ x.sent[m]? = some message ∧ HoldsFrame d.buffer (num m) j message
  step : x.step (.deliverB k false) = some y
  free : x.b.rbuffFree i = true
  used : y.b.rbuffFree i = false

/-- The call returns the length of the message, and the caller's buffer begins with the message and is otherwise as it was. -/
def Receives (e : Entry) (self : Nat) (message : List UInt8) (length : Nat) : Prop :=
  ∀ buffer, kRecvfromInto e self buffer length = (some message.length, Prog.overlay message buffer)

/-- What thread R has put into a slot. -/
theorem PutInto.holds {x y : Link} {k : Nat} {i : Slot} {message : List UInt8} (hx : Joined x) (h : PutInto x y k i message) :
    ∃ q j, HoldsFrame (y.b.recvBuffer i) q j message := by
  obtain ⟨⟨d, m, j, hd, -, hframe⟩, hstep, hfree, hused⟩ := h
  obtain ⟨-, b, p, out, hb, -, rfl, hcase⟩ := hx.dataStep hstep
  obtain rfl : d = dataDatagram b := Option.some.inj (hd.symm.trans hb)
  have hnow : p.rbuffFree i = false := hused
  have hbuffer : p.recvBuffer i = b := by
    rcases hcase with ⟨-, rfl, -⟩ | ⟨-, hstep⟩
    · rw [hfree] at hnow
      cases hnow
    · rcases hstep.stores with ⟨-, n, -, hput, hbuffer⟩ | ⟨-, rfl, -⟩
      · rw [hput, used_take, hfree] at hnow
        obtain rfl : i = n := hnow.resolve_left nofun
        rw [hbuffer, update_self]
      · rw [hfree] at hnow
        cases hnow
  refine ⟨num m, j, ?_⟩
  show HoldsFrame (p.recvBuffer i) (num m) j message
  rw [hbuffer]
  exact hframe

/-- A slot in use before and after an action holds the same message. -/
theorem Joined.slot_kept {x x' : Link} {e : Action} {i : Slot} (h : Joined x) (hs : x.step e = some x')
    (hi : x.b.rbuffFree i = false) (hi' : x'.b.rbuffFree i = false) : x'.b.recvBuffer i = x.b.recvBuffer i := by
  cases e with
  | recv self =>
    rcases Link.recv_some hs with rfl | ⟨m, r, ht, -, rfl⟩
    · rfl
    · obtain ⟨n, -, -, -, -, rfl⟩ := takeMessage_some ht
      exact update_of_ne (used_give.1 hi').2 _ _
  | wakeA scan stamp =>
    obtain ⟨e, out, -, rfl⟩ := Link.wakeA_some hs
    rfl
  | wakeB scan stamp =>
    obtain ⟨e, out, hw, rfl⟩ := Link.wakeB_some hs
    obtain ⟨t, rfl⟩ := threadS_sendTime hw
    rfl
  | updateB =>
    rcases Link.updateB_some hs with rfl | ⟨-, -, rfl⟩
    · rfl
    · rfl
  | deliverA n dropped =>
    obtain ⟨d, p, out, -, -, rfl⟩ := Link.deliverA_some hs
    rfl
  | deliverB n dropped =>
    obtain ⟨-, b, p, out, -, -, rfl, hcase⟩ := h.dataStep hs
    show p.recvBuffer i = x.b.recvBuffer i
    rcases hcase with ⟨-, rfl, -⟩ | ⟨-, hstep⟩
    · rfl
    · rcases hstep.stores with ⟨-, j, hfree, -, hput⟩ | ⟨-, rfl, -⟩
      · have hne : i ≠ j := by
          rintro rfl
          rw [hi] at hfree
          cases hfree
        rw [hput, update_of_ne hne]
      · rfl
  | _ =>
    cases hs
    rfl

/-- As long as a slot stays in use it holds the same message. -/
theorem Joined.slot_kept_run {y z : Link} {es : List Action} {i : Slot} (h : Joined y)
    (hkept : Always Link.step (fun x => x.b.rbuffFree i = false) y es) (hz : exec Link.step y es = some z) :
    z.b.recvBuffer i = y.b.recvBuffer i := by
  induction es generalizing y with
  | nil =>
    obtain rfl : y = z := by simpa using hz
    rfl
  | cons e es ih =>
    obtain ⟨x, hx, hz⟩ := exec_cons_eq_some.1 hz
    rw [ih (joined_step y e x h hx) (hkept.tail hx) hz]
    exact h.slot_kept hx hkept.head (hkept.tail hx).head

/-- A call that takes out what `k_sendto` wrote for a message gives back the message exactly when it has no NUL. -/
theorem Consumes.receives_iff {e : Entry} {self q length : Nat} {i j : Slot} {message : List UInt8} (h : Consumes e self i)
    (hframe : HoldsFrame (e.recvBuffer i) q j message) : Receives e self message length ↔ (0 : UInt8) ∉ message := by
  constructor
  · intro hrec
    have hinto := hrec fun _ => 0
    rw [h.into, Prod.mk.injEq, Option.some.injEq] at hinto
    have hsame : slotString e.toRecvSide i = message := by
      refine List.ext_getElem hinto.1 fun t h1 h2 => ?_
      have hat := congrFun hinto.2 t
      simpa [Prog.overlay, List.getD_eq_getElem?_getD, h1, h2] using hat
    rw [← hsame]
    exact cstringAt_plain
  · intro hplain buffer
    rw [h.into, slotString_frame hframe hplain]

/-- When a message comes out as it went in. In every run of a link in which thread R puts the datagram of a message that `k_sendto` has
accepted into a slot, the slot stays in use, and a call with a buffer long enough then takes it out: the call returns the length of the
message and stores exactly its bytes, if and only if the message has no NUL. -/
theorem payload_kept_iff (a b : Entry) (ha : a.toProtocol = freshProtocol) (hb : b.toProtocol = freshProtocol) (es es' : List Action)
    (x y z : Link) (hx : exec Link.step (Link.begin a b) es = some x) (k : Nat) (i : Slot) (message : List UInt8)
    (hput : PutInto x y k i message) (hz : exec Link.step y es' = some z)
    (hkept : Always Link.step (fun u => u.b.rbuffFree i = false) y es') (self : Nat) (hcall : Consumes z.b self i) :
    ∀ length, message.length ≤ length → (Receives z.b self message length ↔ (0 : UInt8) ∉ message) := by
  intro length _
  have hjx := joined_run ha hb hx
  have hjy : Joined y := joined_step x _ y hjx hput.step
  obtain ⟨q, j, hframe⟩ := hput.holds hjx
  rw [← hjy.slot_kept_run hkept hz] at hframe
  exact hcall.receives_iff hframe

/-- One message is queued and sent. -/
def oneSent (message : List UInt8) : List Action :=
  [.send 7 (fun _ => 0) message, .wakeA (fun _ => 100) (fun _ => 100)]

/-- It arrives in slot `i`, like the slot it has been sent from, and the next call takes it out. -/
def arrivesIn (i : Slot) (message : List UInt8) (x : Link) : Bool :=
  x.carriesAt 0 (frame (fun _ => 0) 1 i message) && x.sent[0]? == some message && x.b.rbuffFree i &&
    (x.step (.deliverB 0 false)).any fun y => !y.b.rbuffFree i && (kRecvfrom y.b 8).2.rbuffFree i

theorem putInto_first (message : List UInt8) (hlen : message.length ≤ 509)
    (hrun : (exec Link.step (Link.begin boundEntry boundPeer) (oneSent message)).any (arrivesIn 0 message) = true) :
    ∃ x y, exec Link.step (Link.begin boundEntry boundPeer) (oneSent message) = some x ∧ PutInto x y 0 0 message ∧
      Consumes y.b 8 0 := by
  obtain ⟨x, hx, hend⟩ := (Option.any_eq_true _ _).1 hrun
  simp only [arrivesIn, Bool.and_eq_true, beq_iff_eq, Link.carriesAt_iff] at hend
  obtain ⟨⟨⟨hcarried, hsent⟩, hfree⟩, hrest⟩ := hend
  obtain ⟨y, hy, hcall⟩ := (Option.any_eq_true _ _).1 hrest
  simp only [Bool.and_eq_true, Bool.not_eq_true'] at hcall
  exact ⟨x, y, hx, ⟨⟨_, 0, 0, hcarried, hsent, hlen, _, rfl⟩, hy, hfree, hcall.1⟩, hcall⟩

/-- `payload_kept_iff` on a message of two bytes. -/
theorem payload_kept_two :
    ∃ x y, exec Link.step (Link.begin boundEntry boundPeer) (oneSent [104, 105]) = some x ∧ PutInto x y 0 0 [104, 105] ∧
      (Receives y.b 8 [104, 105] 100 ↔ (0 : UInt8) ∉ [104, 105]) := by
  obtain ⟨x, y, hx, hput, hcall⟩ := putInto_first [104, 105] (by decide) (by decide +kernel)
  have hkept : Always Link.step (fun u => u.b.rbuffFree 0 = false) y [] := by
    intro pre hpre u hu
    rw [List.prefix_nil.1 hpre] at hu
    obtain rfl : y = u := by simpa using hu
    exact hput.used
  exact ⟨x, y, hx, hput,
    payload_kept_iff boundEntry boundPeer rfl rfl _ [] x y y hx 0 0 _ hput rfl hkept 8 hcall 100 (by decide)⟩

/-- Three bytes, the second of them NUL, are queued, sent and taken in, and one comes out. -/
theorem payload_cut_at_nul :
    ∃ x y, exec Link.step (Link.begin boundEntry boundPeer) (oneSent [65, 0, 66]) = some x ∧ PutInto x y 0 0 [65, 0, 66] ∧
      Consumes y.b 8 0 ∧ ¬Receives y.b 8 [65, 0, 66] 512 := by
  obtain ⟨x, y, hx, hput, hcall⟩ := putInto_first [65, 0, 66] (by decide) (by decide +kernel)
  obtain ⟨q, j, hframe⟩ := hput.holds (joined_run rfl rfl hx)
  exact ⟨x, y, hx, hput, hcall, fun h => (hcall.receives_iff hframe).1 h (by decide)⟩

end NetLabs.Ktp
