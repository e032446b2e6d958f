import NetLabs.Lib.Buffer

/-!
# CLDP packets

A packet is an IP header of 20 bytes, a CLDP header of 8 and a payload. The fields are read and written in place; the numbers of the IP
header and the transaction id are in network order, the checksum is computed on words as the (little-endian) machine loads them.
-/

namespace NetLabs.Cldp

open Buffer Prog Function

/-! ## The code -/

/-- An IPv4 address. -/
structure Addr where
  a : UInt8
  b : UInt8
  c : UInt8
  d : UInt8
  deriving DecidableEq

/-- A packet and where it is sent. -/
structure Datagram where
  dest : Addr
  packet : List UInt8
  deriving DecidableEq

def cldpProtocol : UInt8 := 253

def queryType : UInt8 := 2

def responseType : UInt8 := 3

/-- A number as it is stored, low byte first. -/
def word (lo hi : UInt8) : UInt16 := lo.toUInt16 + 256 * hi.toUInt16

def loByte (x : UInt16) : UInt8 := x.toUInt8

def hiByte (x : UInt16) : UInt8 := (x / 256).toUInt8

/-- The sum of the words of a buffer; a last single byte counts by itself. -/
def sumWords : List UInt8 → UInt32 → UInt32
  | lo :: hi :: rest, sum => sumWords rest (sum + (word lo hi).toUInt32)
  | [b], sum => sum + b.toUInt32
  | [], sum => sum

/-- `calculate_checksum`, the same function in both programs. -/
def calculateChecksum (b : List UInt8) : UInt16 :=
  let sum := sumWords b 0
  let sum := (sum >>> 16) + (sum &&& 0xFFFF)
  let sum := sum + (sum >>> 16)
  (~~~sum).toUInt16

/-- The IP header of a packet that is built from nothing: version 4, five words, time to live 64. -/
def ipHeader (totLen id : UInt16) (saddr daddr : Addr) (check : UInt16) : List UInt8 :=
  [0x45, 0, hiByte totLen, loByte totLen, hiByte id, loByte id, 0, 0, 64, cldpProtocol, loByte check, hiByte check,
    saddr.a, saddr.b, saddr.c, saddr.d, daddr.a, daddr.b, daddr.c, daddr.d]

/-- The CLDP header. -/
def cldpHeader (msgType payloadLength : UInt8) (transactionId : UInt16) : List UInt8 :=
  [msgType, payloadLength, hiByte transactionId, loByte transactionId, 0, 0, 0, 0]

/-- A packet that is built from nothing. -/
def cldpPacket (totLen id : UInt16) (saddr daddr : Addr) (msgType payloadLength : UInt8) (transactionId : UInt16)
    (payload : List UInt8) : List UInt8 :=
  ipHeader totLen id saddr daddr (calculateChecksum (ipHeader totLen id saddr daddr 0)) ++
    cldpHeader msgType payloadLength transactionId ++ payload

/-- A field of 16 bits as the machine loads it. -/
def loadWord (i : Nat) : Prog UInt16 := do
  let lo ← byte i
  let hi ← byte (i + 1)
  pure (word lo hi)

def storeWord (i : Nat) (x : UInt16) : Prog Unit := do
  setByte i (loByte x)
  setByte (i + 1) (hiByte x)

/-- `ntohs` of a field. -/
def loadNet (i : Nat) : Prog UInt16 := do
  let hi ← byte i
  let lo ← byte (i + 1)
  pure (word lo hi)

def storeNet (i : Nat) (x : UInt16) : Prog Unit := do
  setByte i (hiByte x)
  setByte (i + 1) (loByte x)

def loadAddr (i : Nat) : Prog Addr := do
  let a ← byte i
  let b ← byte (i + 1)
  let c ← byte (i + 2)
  let d ← byte (i + 3)
  pure ⟨a, b, c, d⟩

def storeAddr (i : Nat) (x : Addr) : Prog Unit := do
  setByte i x.a
  setByte (i + 1) x.b
  setByte (i + 2) x.c
  setByte (i + 3) x.d

/-- The check of a received header, which leaves its checksum field zero. -/
def headerVerifies : Prog Bool := do
  let received ← loadWord 10
  storeWord 10 0
  let header ← bytes 0 20
  pure (decide (received = calculateChecksum header))

/-! ## The fields of a list of bytes -/

def wordAt (l : List UInt8) (i : Nat) : UInt16 := word (l.getD i 0) (l.getD (i + 1) 0)

def netAt (l : List UInt8) (i : Nat) : UInt16 := word (l.getD (i + 1) 0) (l.getD i 0)

def addrAt (l : List UInt8) (i : Nat) : Addr := ⟨l.getD i 0, l.getD (i + 1) 0, l.getD (i + 2) 0, l.getD (i + 3) 0⟩

def putWord (l : List UInt8) (i : Nat) (x : UInt16) : List UInt8 := (l.set i (loByte x)).set (i + 1) (hiByte x)

def putNet (l : List UInt8) (i : Nat) (x : UInt16) : List UInt8 := (l.set i (hiByte x)).set (i + 1) (loByte x)

def putAddr (l : List UInt8) (i : Nat) (x : Addr) : List UInt8 :=
  (((l.set i x.a).set (i + 1) x.b).set (i + 2) x.c).set (i + 3) x.d

/-- The checksum of a packet's header is right. -/
def Verifies (l : List UInt8) : Prop := wordAt l 10 = calculateChecksum ((putWord l 10 0).take 20)

instance (l : List UInt8) : Decidable (Verifies l) := inferInstanceAs (Decidable (_ = _))

variable {known : Nat → Option UInt8} {l : List UInt8} {i : Nat} {x : UInt16}

@[simp] theorem word_lo_hi (x : UInt16) : word (loByte x) (hiByte x) = x := by
  apply UInt16.toNat_inj.1
  have hx := x.toNat_lt
  simp only [word, loByte, hiByte, UInt16.toNat_add, UInt16.toNat_mul, UInt8.toNat_toUInt16, UInt16.toNat_toUInt8, UInt16.toNat_div,
    UInt16.reduceToNat]
  omega

@[simp] theorem length_putWord : (putWord l i x).length = l.length := by
  simp [putWord]

@[simp] theorem length_putNet : (putNet l i x).length = l.length := by
  simp [putNet]

@[simp] theorem length_putAddr {x : Addr} : (putAddr l i x).length = l.length := by
  simp [putAddr]

/-- After the check of the header, the fields behind the checksum are as they were. -/
theorem getD_putWord {i j : Nat} (h : j + 1 < i) (x : UInt16) : (putWord l j x).getD i 0 = l.getD i 0 := by
  rw [List.getD_eq_getElem?_getD, putWord, List.getElem?_set_ne (by omega), List.getElem?_set_ne (by omega),
    List.getD_eq_getElem?_getD]

/-- An address is its four bytes. -/
theorem addrAt_congr {l l' : List UInt8} (h : ∀ j, i ≤ j → j < i + 4 → l.getD j 0 = l'.getD j 0) : addrAt l i = addrAt l' i := by
  rw [addrAt, h i (by omega) (by omega), h (i + 1) (by omega) (by omega), h (i + 2) (by omega) (by omega),
    h (i + 3) (by omega) (by omega)]
  rfl

theorem addrAt_putWord {i j : Nat} (h : j + 1 < i) (x : UInt16) : addrAt (putWord l j x) i = addrAt l i :=
  addrAt_congr fun _ hk _ => getD_putWord (by omega) x

theorem drop_putWord {i j : Nat} (h : j + 1 < i) (x : UInt16) : (putWord l j x).drop i = l.drop i := by
  rw [putWord, List.drop_set_of_lt (by omega), List.drop_set_of_lt (by omega)]

/-! ## The fields of a packet that is built -/

section Built

variable {totLen id transactionId : UInt16} {saddr daddr : Addr} {msgType payloadLength : UInt8} {payload : List UInt8}

theorem length_cldpPacket :
    (cldpPacket totLen id saddr daddr msgType payloadLength transactionId payload).length = 28 + payload.length := by
  simp only [cldpPacket, ipHeader, cldpHeader, List.length_append, List.length_cons, List.length_nil]

theorem protocol_cldpPacket :
    (cldpPacket totLen id saddr daddr msgType payloadLength transactionId payload).getD 9 0 = cldpProtocol := rfl

theorem saddr_cldpPacket : addrAt (cldpPacket totLen id saddr daddr msgType payloadLength transactionId payload) 12 = saddr := rfl

theorem daddr_cldpPacket : addrAt (cldpPacket totLen id saddr daddr msgType payloadLength transactionId payload) 16 = daddr := rfl

theorem msgType_cldpPacket :
    (cldpPacket totLen id saddr daddr msgType payloadLength transactionId payload).getD 20 0 = msgType := rfl

theorem payloadLength_cldpPacket :
    (cldpPacket totLen id saddr daddr msgType payloadLength transactionId payload).getD 21 0 = payloadLength := rfl

theorem transactionId_cldpPacket :
    netAt (cldpPacket totLen id saddr daddr msgType payloadLength transactionId payload) 22 = transactionId :=
  word_lo_hi transactionId

theorem payload_cldpPacket : (cldpPacket totLen id saddr daddr msgType payloadLength transactionId payload).drop 28 = payload := rfl

/-- Its checksum is right. -/
theorem verifies_cldpPacket : Verifies (cldpPacket totLen id saddr daddr msgType payloadLength transactionId payload) :=
  word_lo_hi (calculateChecksum (ipHeader totLen id saddr daddr 0))

end Built

/-! ## Where a field is known -/

theorem loadWord_known (h : Holds known l) (hi : i + 2 ≤ l.length) :
    (loadWord i).runKnown known = some (wordAt l i, known) := by
  rw [loadWord, runKnown_bind, byte_known h (by omega), Option.bind_some, runKnown_bind, byte_known h (by omega)]
  rfl

theorem loadNet_known (h : Holds known l) (hi : i + 2 ≤ l.length) : (loadNet i).runKnown known = some (netAt l i, known) := by
  rw [loadNet, runKnown_bind, byte_known h (by omega), Option.bind_some, runKnown_bind, byte_known h (by omega)]
  rfl

theorem loadAddr_known (h : Holds known l) (hi : i + 4 ≤ l.length) : (loadAddr i).runKnown known = some (addrAt l i, known) := by
  rw [loadAddr, runKnown_bind, byte_known h (by omega), Option.bind_some, runKnown_bind, byte_known h (by omega), Option.bind_some,
    runKnown_bind, byte_known h (by omega), Option.bind_some, runKnown_bind, byte_known h (by omega)]
  rfl

theorem storeWord_known (h : Holds known l) (i : Nat) (x : UInt16) :
    ∃ known', (storeWord i x).runKnown known = some ((), known') ∧ Holds known' (putWord l i x) :=
  ⟨_, rfl, (h.write i _).write (i + 1) _⟩

theorem storeNet_known (h : Holds known l) (i : Nat) (x : UInt16) :
    ∃ known', (storeNet i x).runKnown known = some ((), known') ∧ Holds known' (putNet l i x) :=
  ⟨_, rfl, (h.write i _).write (i + 1) _⟩

theorem storeAddr_known (h : Holds known l) (i : Nat) (x : Addr) :
    ∃ known', (storeAddr i x).runKnown known = some ((), known') ∧ Holds known' (putAddr l i x) :=
  ⟨_, rfl, (((h.write i _).write (i + 1) _).write (i + 2) _).write (i + 3) _⟩

theorem only_set {b : UInt8} (hi : i < l.length) : update (only l) i (some b) = only (l.set i b) := by
  funext j
  by_cases hj : j = i
  · subst hj
    rw [update_self, only, List.getElem?_set_self hi]
  · rw [update_of_ne hj, only, only, List.getElem?_set_ne (Ne.symm hj)]

/-- A word that is stored within what is known. -/
theorem storeWord_only (hi : i + 2 ≤ l.length) : (storeWord i x).runKnown (only l) = some ((), only (putWord l i x)) := by
  rw [putWord, ← only_set (by rw [List.length_set]; omega), ← only_set (by omega)]
  rfl

/-- The check of a header that is there. -/
theorem headerVerifies_known (hl : 20 ≤ l.length) :
    headerVerifies.runKnown (only l) = some (decide (Verifies l), only (putWord l 10 0)) := by
  rw [headerVerifies, runKnown_bind, loadWord_known (holds_only l) (by omega), Option.bind_some, runKnown_bind,
    storeWord_only (by omega), Option.bind_some, runKnown_bind, runKnown_bytes (holds_only _) (by rw [length_putWord]; omega)]
  rfl

/-! ## Where it is not -/

theorem byte_unknown (hi : l.length ≤ i) : (byte i).runKnown (only l) = none := by
  have hnone : only l i = none := List.getElem?_eq_none hi
  simp only [byte, runKnown, hnone]

/-- A read that is followed by a read of nothing known. -/
theorem byte_bind_unknown {α : Type} {f : UInt8 → Prog α}
    (h : i < l.length → (f (l.getD i 0)).runKnown (only l) = none) : (byte i >>= f).runKnown (only l) = none := by
  rw [runKnown_bind]
  by_cases hi : i < l.length
  · rw [byte_known (holds_only l) hi]
    exact h hi
  · rw [byte_unknown (Nat.not_lt.1 hi)]
    rfl

theorem loadWord_unknown (hi : l.length < i + 2) : (loadWord i).runKnown (only l) = none := by
  refine byte_bind_unknown fun _ => byte_bind_unknown fun hlt => ?_
  omega

theorem loadNet_unknown (hi : l.length < i + 2) : (loadNet i).runKnown (only l) = none := by
  refine byte_bind_unknown fun _ => byte_bind_unknown fun hlt => ?_
  omega

theorem loadAddr_unknown (hi : l.length < i + 4) : (loadAddr i).runKnown (only l) = none := by
  refine byte_bind_unknown fun _ => byte_bind_unknown fun _ => byte_bind_unknown fun _ => byte_bind_unknown fun hlt => ?_
  omega

theorem bytes_unknown {n : Nat} (hn : 0 < n) (hi : l.length < i + n) : (bytes i n).runKnown (only l) = none := by
  obtain ⟨n, rfl⟩ := Nat.exists_eq_add_of_lt hn
  exact runKnown_bytes_none (Nat.lt_succ_self _) (List.getElem?_eq_none (by omega))

/-- The check of a header that is not all there. -/
theorem headerVerifies_unknown (hl : l.length < 20) : headerVerifies.runKnown (only l) = none := by
  rw [headerVerifies, runKnown_bind]
  by_cases hshort : l.length < 12
  · rw [loadWord_unknown (by omega)]
    rfl
  · rw [loadWord_known (holds_only l) (by omega), Option.bind_some, runKnown_bind, storeWord_only (by omega), Option.bind_some,
      runKnown_bind, bytes_unknown (by decide) (by rw [length_putWord]; omega)]
    rfl

end NetLabs.Cldp
