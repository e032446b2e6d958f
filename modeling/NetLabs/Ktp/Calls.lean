import NetLabs.Ktp.Entry

/-!
# KTP: the library calls of `ksocket.c`

What each call does to the entry it names, under the lock: `kSendto`, `kRecvfrom`, `kSocket` (one iteration of its search),
`kBind` (the part before the rendezvous with the daemon), `kClose`; and, from `initksocket.c`, the two other writers of the
control fields, `bindServed` (the bind loop of `main`) and `collect` (the garbage collector). A call that returns -1 is `none`.
-/

namespace NetLabs.Ktp

open Function

/-- `is_free == 1 || pid != getpid()`: the test that refuses a call. -/
def Control.refused (c : Control) (self : Nat) : Bool := decide (c.isFree = 1 ∨ c.pid ≠ self)

/-! ## Sending -/

/-- The bytes `k_sendto` writes into a slot: number, slot, message, NUL; the rest is what the local array held. -/
def frame (junk : Message) (seqNum : Nat) (freeIndex : Slot) (message : List UInt8) : Message := fun i =>
  if i.val = 0 then UInt8.ofNat seqNum
  else if i.val = 1 then UInt8.ofNat freeIndex.val
  else if i.val < message.length + 2 then message.getD (i.val - 2) 0
  else if i.val = message.length + 2 then 0
  else junk i

/-- A message goes into slot `i` under the next number. -/
def fillSlot (s : SendSide) (i : Slot) (junk : Message) (message : List UInt8) : SendSide :=
  { s with
    maxSeqNumberYet := next s.maxSeqNumberYet
    swnd := { s.swnd with
      indexSeqNum := update s.swnd.indexSeqNum s.maxSeqNumberYet (i.val : Int)
      validSeqNum := update s.swnd.validSeqNum s.maxSeqNumberYet true }
    sbuffFree := update s.sbuffFree i false
    sendBuffer := update s.sendBuffer i (frame junk s.maxSeqNumberYet i message) }

/-- `k_sendto` after the owner check: a message of at most `MESSAGE_SIZE - 3` bytes goes into the first free slot. -/
def queueMessage (s : SendSide) (junk : Message) (message : List UInt8) : Option SendSide :=
  if 512 - 3 < message.length then none
  else match firstFree s.sbuffFree with
    | none => none
    | some freeIndex => some (fillSlot s freeIndex junk message)

/-- `k_sendto`: the number of bytes queued. -/
def kSendto (e : Entry) (self : Nat) (junk : Message) (message : List UInt8) : Option Nat × Entry :=
  if e.refused self then (none, e)
  else match queueMessage e.toSendSide junk message with
    | none => (none, e)
    | some s => (some message.length, e.withProtocol (e.toProtocol.withSend s))

/-! ## Receiving -/

/-- The memory from `recv_buffer` on: its ten rows, then the bytes of `rbuff_free`. -/
def recvMemory (r : RecvSide) (a : Nat) : UInt8 :=
  if h : a < 5120 then r.recvBuffer ⟨a / 512, by omega⟩ ⟨a % 512, by omega⟩
  else if h : a < 5130 then (if r.rbuffFree ⟨a - 5120, by omega⟩ then 1 else 0)
  else 0

/-- The C string at address `a`: the bytes up to the first NUL, at most `n` of them. -/
def cstringAt (mem : Nat → UInt8) : Nat → Nat → List UInt8
  | 0, _ => []
  | n + 1, a => if mem a = 0 then [] else mem a :: cstringAt mem n (a + 1)

/-- The string at `recv_buffer[index] + 2`, as `strlen` measures it. A slot in use has a zero in `rbuff_free`, so the search
ends there at the latest. -/
def slotString (r : RecvSide) (index : Slot) : List UInt8 :=
  cstringAt (recvMemory r) (5130 - (512 * index.val + 2)) (512 * index.val + 2)

/-- One iteration of the search for the smallest number among the slots in use; `none` is the index -1. -/
def pickStep (r : RecvSide) (x : Option Slot × Nat) (i : Slot) : Option Slot × Nat :=
  if r.rbuffFree i then x
  else match x.1 with
    | some _ => if seqByte (r.recvBuffer i) < x.2 then (some i, seqByte (r.recvBuffer i)) else x
    | none => (some i, seqByte (r.recvBuffer i))

/-- The slot in use with the smallest number, and that number; 257 when every slot is free. -/
def pick (r : RecvSide) : Option Slot × Nat := (List.finRange 10).foldl (pickStep r) (none, 257)

/-- The slot is given back. -/
def freeSlot (r : RecvSide) (index : Slot) (seqNum : Nat) : RecvSide :=
  { r with
    rbuffFree := update r.rbuffFree index true
    recvBuffer := update r.recvBuffer index (fun _ => 0)
    rwnd := { r.rwnd with
      size := if 10 < r.rwnd.size + 1 then 10 else r.rwnd.size + 1
      indexSeqNum := update r.rwnd.indexSeqNum seqNum (-1)
      validSeqNum := update r.rwnd.validSeqNum seqNum true } }

/-- `k_recvfrom` after the owner check: the bytes copied to the caller. -/
def takeMessage (r : RecvSide) : Option (List UInt8 × RecvSide) :=
  if r.rwnd.startSequence < (pick r).2 ∨ (pick r).2 = 257 then none
  else match (pick r).1 with
    | none => none
    | some index => some (slotString r index, freeSlot r index (pick r).2)

/-- `k_recvfrom`: the bytes copied; their number is what the call returns. -/
def kRecvfrom (e : Entry) (self : Nat) : Option (List UInt8) × Entry :=
  if e.refused self then (none, e)
  else match takeMessage e.toRecvSide with
    | none => (none, e)
    | some (message, r) => (some message, e.withProtocol (e.toProtocol.withRecv r))

/-! ## Who owns an entry -/

/-- One iteration of `k_socket`: a free entry is handed to the caller. -/
def kSocket (e : Entry) (self : Nat) : Option Entry :=
  if e.isFree = 1 then
    some { e with
      isFree := 0
      pid := self
      srcIp := []
      srcPort := 0
      destIp := []
      destPort := 0
      swnd := { e.swnd with size := 10 }
      rwnd := { e.rwnd with size := 10 } }
  else none

/-- `strncpy(dst, src, 15); dst[15] = '\0'`. -/
def copyIp (src : CString) : CString := src.take 15

/-- What the caller of `k_bind` passes besides the descriptor. -/
structure BindArgs where
  srcIp : CString
  srcPort : UInt16
  destIp : CString
  destPort : UInt16

/-- `k_bind` up to its first `sem_post(sem_SM)`: the addresses are written and the entry waits to be bound. -/
def kBind (e : Entry) (a : BindArgs) : Option Entry :=
  if e.isFree = 1 then none
  else some (e.withControl { e.toControl with
    srcIp := copyIp a.srcIp
    srcPort := a.srcPort
    destIp := copyIp a.destIp
    destPort := a.destPort
    isFree := 2 })

/-- `k_close`: the entry is marked free. -/
def kClose (e : Entry) (self : Nat) : Option Entry :=
  if e.isFree = 1 then none
  else if e.pid ≠ self then none
  else some (e.withControl { e.toControl with isFree := 1, pid := 0 })

/-- The locked section of the bind loop of `main`: the entry is marked as bound. -/
def bindServed (e : Entry) : Entry := e.withControl { e.toControl with isFree := 0 }

/-- The garbage collector on one entry; `gone` says for which owners `kill(pid, 0)` fails. -/
def collect (gone : Nat → Bool) (e : Entry) : Entry :=
  if e.isFree = 1 then e
  else if gone e.pid then e.withControl { e.toControl with isFree := 1, pid := 0 }
  else e

end NetLabs.Ktp
