import Mathlib.Logic.Function.Basic
import Mathlib.Data.List.FinRange
import NetLabs.Lib.Loop
import NetLabs.Lib.Ring

/-!
# KTP: the shared memory of `ksocket.h`

One `SharedMemoryEntry` per KTP socket, ten of them. The fields of the C structure are grouped here by who uses them: `Control`
(who owns the socket and where it is bound), `SendSide` (what `k_sendto`, the ACK branch of thread R and thread S work on),
`RecvSide` (what the data branch of thread R and `k_recvfrom` work on) and, on its own, `lastAckReceived`, which both branches
of thread R write. A function that takes one side cannot touch the other.

Arrays over the ten message slots are functions on `Slot`; a slot number that comes from `index_seq_num`, a `signed char`, goes
through `slot?`, and an access outside the array is a `Fault`. The 256-entry tables are functions on `Nat`: their indices are
bytes and values of `1 + x % 255`. `rwnd.size` is counted down, so it is an `Int`; `swnd.size` only takes the values 10 and a
window byte, so it is a `Nat`.
-/

namespace NetLabs.Ktp

open Function

/-- A slot of a send or receive buffer. -/
abbrev Slot := Fin 10

/-- A KTP socket descriptor in range (`MAX_KTP_SOCKETS` entries). -/
abbrev Sock := Fin 10

/-- A byte of a message can be written as a numeral. -/
instance messageSize_neZero : NeZero 512 := ⟨by decide⟩

/-- `unsigned char [MESSAGE_SIZE]`. -/
abbrev Message := Fin 512 → UInt8

/-- The characters of a C string, its NUL left out. -/
abbrev CString := List UInt8

/-- What the C code has no defined behaviour for: an array index outside the array, and a loop that does not end. -/
inductive Fault where
  | badIndex (i : Int)
  | endless
  deriving DecidableEq, Repr

/-- `SenderWindow`. -/
structure SenderWindow where
  indexSeqNum : Nat → Int
  size : Nat
  validSeqNum : Nat → Bool
  startSequence : Nat

/-- `ReceiverWindow`. -/
structure ReceiverWindow where
  indexSeqNum : Nat → Int
  size : Int
  validSeqNum : Nat → Bool
  startSequence : Nat

/-- Who owns the socket and where it is bound. `isFree` is 1 for a free entry, 0 for an allocated one and 2 for one that waits to
be bound; `pid` is 0 when there is no owner. -/
structure Control where
  isFree : Nat
  pid : Nat
  udpSocket : Int
  destIp : CString
  destPort : UInt16
  srcIp : CString
  srcPort : UInt16

/-- The sending side of an entry. -/
structure SendSide where
  sendBuffer : Slot → Message
  sbuffFree : Slot → Bool
  swnd : SenderWindow
  maxSeqNumberYet : Nat
  sendTime : Slot → Int

/-- The receiving side of an entry. -/
structure RecvSide where
  recvBuffer : Slot → Message
  rbuffFree : Slot → Bool
  rwnd : ReceiverWindow
  noSpaceFlags : Bool

/-- The protocol fields of an entry. -/
structure Protocol extends SendSide, RecvSide where
  lastAckReceived : Nat

/-- `SharedMemoryEntry`. -/
structure Entry extends Control, Protocol

/-- A datagram as `recvfrom` leaves it: `bytes_received` and the local buffer, whose bytes from `len` on are what it held
before. -/
structure Datagram where
  len : Nat
  buffer : Message

/-! ## Writing the parts of an entry -/

/-- The protocol fields with another sending side. -/
def Protocol.withSend (p : Protocol) (s : SendSide) : Protocol := { p with toSendSide := s }

/-- The protocol fields with another receiving side. -/
def Protocol.withRecv (p : Protocol) (r : RecvSide) : Protocol := { p with toRecvSide := r }

/-- An entry with other protocol fields. -/
def Entry.withProtocol (e : Entry) (p : Protocol) : Entry := { e with toProtocol := p }

/-- An entry with other control fields. -/
def Entry.withControl (e : Entry) (c : Control) : Entry := { e with toControl := c }

section Parts

variable (p : Protocol) (s : SendSide) (r : RecvSide) (e : Entry)

@[simp] theorem Protocol.withSend_toSendSide : (p.withSend s).toSendSide = s := rfl
@[simp] theorem Protocol.withSend_toRecvSide : (p.withSend s).toRecvSide = p.toRecvSide := rfl
@[simp] theorem Protocol.withSend_lastAckReceived : (p.withSend s).lastAckReceived = p.lastAckReceived := rfl
@[simp] theorem Protocol.withRecv_toSendSide : (p.withRecv r).toSendSide = p.toSendSide := rfl
@[simp] theorem Protocol.withRecv_toRecvSide : (p.withRecv r).toRecvSide = r := rfl
@[simp] theorem Protocol.withRecv_lastAckReceived : (p.withRecv r).lastAckReceived = p.lastAckReceived := rfl
@[simp] theorem Protocol.withSend_self : p.withSend p.toSendSide = p := rfl
@[simp] theorem Protocol.withRecv_self : p.withRecv p.toRecvSide = p := rfl
@[simp] theorem Entry.withProtocol_toProtocol : (e.withProtocol p).toProtocol = p := rfl
@[simp] theorem Entry.withProtocol_toControl : (e.withProtocol p).toControl = e.toControl := rfl
@[simp] theorem Entry.withProtocol_self : e.withProtocol e.toProtocol = e := rfl

end Parts

/-! ## Slots and numbers -/

/-- `a[i]` over ten slots, for an index that was read from memory. -/
def slot? (i : Int) : Except Fault Slot :=
  if h : 0 ≤ i ∧ i < 10 then .ok ⟨i.toNat, by omega⟩ else .error (.badIndex i)

@[simp] theorem slot?_coe (j : Slot) : slot? (j.val : Int) = .ok j := by
  have h : (0 : Int) ≤ (j.val : Int) ∧ (j.val : Int) < 10 := by omega
  rw [slot?, dif_pos h]
  simp

/-- A slot number read from memory is that of the slot found. -/
theorem slot?_eq_ok {z : Int} {i : Slot} : slot? z = .ok i ↔ z = (i.val : Int) := by
  constructor
  · intro h
    unfold slot? at h
    split at h
    · rename_i hz
      cases h
      simp only
      omega
    · cases h
  · rintro rfl
    exact slot?_coe i

theorem slot?_neg_one : slot? (-1) = .error (.badIndex (-1)) := rfl

/-- The first slot a flag array marks as free: `for (i = 0; i < 10; i++) if (free[i]) { ...; break; }`. -/
def firstFree (free : Slot → Bool) : Option Slot := (List.finRange 10).find? free

theorem firstFree_eq_some {free : Slot → Bool} {j : Slot} (h : firstFree free = some j) : free j = true :=
  List.find?_some h

theorem firstFree_eq_none {free : Slot → Bool} : firstFree free = none ↔ ∀ j, free j = false := by
  simp [firstFree, List.find?_eq_none]

/-- The sequence number after `x`: `1 + x % 255`. -/
abbrev next (x : Nat) : Nat := Ring.next 255 x

/-- The sequence number of the `m`-th message of a socket, counted from 0. -/
abbrev num (m : Nat) : Nat := Ring.num 255 m

/-- The sequence number a message carries in its first byte. -/
def seqByte (b : Message) : Nat := (b 0).toNat

theorem seqByte_lt (b : Message) : seqByte b < 256 := (b 0).toNat_lt

/-! ## Datagrams -/

/-- The six bytes of an acknowledgement: number, window and `ACK#`. -/
def ackDatagram (seqNum : Nat) (window : Int) : Datagram where
  len := 6
  buffer i :=
    if i.val = 0 then UInt8.ofNat seqNum
    else if i.val = 1 then UInt8.ofInt window
    else if i.val = 2 then 65
    else if i.val = 3 then 67
    else if i.val = 4 then 75
    else if i.val = 5 then 35
    else 0

/-- A message as thread S puts it on the wire: all `MESSAGE_SIZE` bytes of the slot. -/
def dataDatagram (b : Message) : Datagram := { len := 512, buffer := b }

/-- `bytes_received == 6 && buffer[2] == 'A' && buffer[3] == 'C' && buffer[4] == 'K'`. -/
def Datagram.isAckFrame (d : Datagram) : Bool :=
  d.len == 6 && d.buffer 2 == 65 && d.buffer 3 == 67 && d.buffer 4 == 75

@[simp] theorem ackDatagram_isAckFrame (q : Nat) (w : Int) : (ackDatagram q w).isAckFrame = true := by
  simp [Datagram.isAckFrame, ackDatagram]

@[simp] theorem dataDatagram_isAckFrame (b : Message) : (dataDatagram b).isAckFrame = false := by
  simp [Datagram.isAckFrame, dataDatagram]

theorem ackDatagram_number {q : Nat} (hq : q ≤ 255) (w : Int) : ((ackDatagram q w).buffer 0).toNat = q := by
  show (UInt8.ofNat q).toNat = q
  rw [UInt8.toNat_ofNat']
  omega

theorem ackDatagram_window (q : Nat) {w : Int} (h0 : 0 ≤ w) (hw : w ≤ 255) :
    (((ackDatagram q w).buffer 1).toNat : Int) = w := by
  show ((UInt8.ofNat (w % 2 ^ 8).toNat).toNat : Int) = w
  rw [UInt8.toNat_ofNat']
  omega

/-! ## The state `init_ksocket` writes -/

/-- The protocol fields as `init_ksocket` writes them. -/
def freshProtocol : Protocol where
  sendBuffer _ _ := 0
  sbuffFree _ := true
  swnd := { indexSeqNum := fun _ => -1, size := 10, validSeqNum := fun _ => true, startSequence := 1 }
  maxSeqNumberYet := 1
  sendTime _ := -1
  recvBuffer _ _ := 0
  rbuffFree _ := true
  rwnd := { indexSeqNum := fun _ => -1, size := 10, validSeqNum := fun _ => true, startSequence := 1 }
  noSpaceFlags := false
  lastAckReceived := 0

/-- `init_ksocket`: entry `i` is free, has no owner, and holds the UDP socket `socket()` returned for it. -/
def initKsocket (udpSocket : Sock → Int) (i : Sock) : Entry where
  toControl :=
    { isFree := 1, pid := 0, udpSocket := udpSocket i, destIp := [], destPort := 0, srcIp := [], srcPort := 0 }
  toProtocol := freshProtocol

end NetLabs.Ktp
