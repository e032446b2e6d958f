import NetLabs.Lib.CText
import NetLabs.Cldp.Packet

/-!
# The CLDP server

What `main` of `cldp_server.c` does with a packet it has received. The reply is made in the buffer that holds the query: the header is
edited where it stands and the metadata is copied over the payload.
-/

namespace NetLabs.Cldp

open Buffer Prog CText

/-! ## The code -/

/-- A metadata string as the lookups leave it in their buffer: no NUL, and at most 255 bytes before the one that ends it. -/
structure Metadata where
  bytes : List UInt8
  noNul : (0 : UInt8) ∉ bytes
  short : bytes.length ≤ 255

/-- What `get_hostname`, `get_system_time` and `get_cpu_load` find. -/
structure Host where
  hostname : Metadata
  systemTime : Metadata
  cpuLoad : Metadata

def invalidQuery : Metadata := ⟨text "Invalid query", by decide, by decide⟩

/-- The value for a metadata type. -/
def Host.value (h : Host) (metadataType : UInt8) : Metadata :=
  if metadataType = 1 then h.hostname
  else if metadataType = 2 then h.systemTime
  else if metadataType = 3 then h.cpuLoad
  else invalidQuery

/-- The address the server was given and its `transaction_id`. -/
structure Server where
  ip : Addr
  transactionId : UInt16
  deriving DecidableEq

/-- `transaction_id`, which the HELLO messages carry, is that of the first query that is answered. -/
def Server.takeTransactionId (s : Server) : Prog Server :=
  if s.transactionId = 0 then do
    let t ← loadWord 22
    pure { s with transactionId := t }
  else pure s

/-- The answer to a query; `id` is drawn for the IP header. -/
def Server.answer (s : Server) (host : Host) (id : UInt16) : Prog (Server × Option Datagram) := do
  let metadataType ← byte 28
  let m := (host.value metadataType).bytes
  let saddr ← loadAddr 12
  storeAddr 16 saddr
  storeAddr 12 s.ip
  storeNet 2 (28 + m.length.toUInt16)
  storeNet 4 id
  -- the checksum field is zero since the header was verified
  let header ← bytes 0 20
  storeWord 10 (calculateChecksum header)
  setByte 20 responseType
  setByte 21 m.length.toUInt8
  let s' ← s.takeTransactionId
  setBytes 28 m
  let dest ← loadAddr 16
  let totLen ← loadNet 2
  let packet ← bytes 0 totLen.toNat
  pure (s', some ⟨dest, packet⟩)

/-- What the server does with a packet. -/
def Server.handle (s : Server) (host : Host) (id : UInt16) : Prog (Server × Option Datagram) := do
  let protocol ← byte 9
  if protocol ≠ cldpProtocol then pure (s, none)
  else do
    let verified ← headerVerifies
    if verified = false then pure (s, none)
    else do
      let msgType ← byte 20
      -- HELLO, RESPONSE and unknown types are left alone
      if msgType ≠ queryType then pure (s, none)
      else do
        let daddr ← loadAddr 16
        if s.ip ≠ daddr then pure (s, none)
        else s.answer host id

/-! ## The reply -/

/-- The headers of the reply, made of the bytes of the query. -/
def Server.replyHeader (s : Server) (id : UInt16) (l : List UInt8) (len : Nat) : List UInt8 :=
  let ip := putNet (putNet (putAddr (putAddr l 16 (addrAt l 12)) 12 s.ip) 2 (28 + len.toUInt16)) 4 id
  (((putWord ip 10 (calculateChecksum (ip.take 20))).set 20 responseType).set 21 len.toUInt8).take 28

variable {s : Server} {host : Host} {id : UInt16} {known : Nat → Option UInt8} {l : List UInt8} {len : Nat}

theorem length_replyHeader (hl : 28 ≤ l.length) : (s.replyHeader id l len).length = 28 := by
  simp [Server.replyHeader, hl]

/-- A byte of the reply's headers that is not followed up. -/
theorem getD_replyHeader {i : Nat} (hl : 28 ≤ l.length) (hi : i < 28) (x : List UInt8) :
    (s.replyHeader id l len ++ x).getD i 0 = (s.replyHeader id l len).getD i 0 := by
  rw [List.getD_eq_getElem?_getD, List.getElem?_append_left (by rw [length_replyHeader hl]; exact hi), List.getD_eq_getElem?_getD]

/-- The reply goes where the query came from. -/
theorem addrAt_replyHeader (hl : 28 ≤ l.length) (x : List UInt8) : addrAt (s.replyHeader id l len ++ x) 16 = addrAt l 12 := by
  have h16 : 16 < l.length := by omega
  have h17 : 17 < l.length := by omega
  have h18 : 18 < l.length := by omega
  have h19 : 19 < l.length := by omega
  simp only [addrAt, getD_replyHeader hl (by decide : 16 < 28), getD_replyHeader hl (by decide : 16 + 1 < 28),
    getD_replyHeader hl (by decide : 16 + 2 < 28), getD_replyHeader hl (by decide : 16 + 3 < 28)]
  simp [Server.replyHeader, putWord, putNet, putAddr, addrAt, h16, h17, h18, h19]

/-- `tot_len` is the length of the reply. -/
theorem netAt_replyHeader (hl : 28 ≤ l.length) (x : List UInt8) : netAt (s.replyHeader id l len ++ x) 2 = 28 + len.toUInt16 := by
  have h2 : 2 < l.length := by omega
  have h3 : 3 < l.length := by omega
  simp only [netAt, getD_replyHeader hl (by decide : 2 < 28), getD_replyHeader hl (by decide : 2 + 1 < 28)]
  simp [Server.replyHeader, putWord, putNet, putAddr, h2, h3]

theorem length_reply (hlen : len ≤ 255) : (28 + len.toUInt16 : UInt16).toNat = 28 + len := by
  simp [UInt16.toNat_add, Nat.toUInt16]
  omega

theorem takeTransactionId_known (s : Server) (h : Holds known l) (hl : 24 ≤ l.length) :
    ∃ s', s.takeTransactionId.runKnown known = some (s', known) := by
  unfold Server.takeTransactionId
  split
  · rw [runKnown_bind, loadWord_known h (by omega)]
    exact ⟨_, rfl⟩
  · exact ⟨s, rfl⟩

/-- The answer to a query that is all there. -/
theorem answer_known (s : Server) (host : Host) (id : UInt16) (h : Holds known l) (hl : 29 ≤ l.length) :
    ∃ s' known', (s.answer host id).runKnown known = some
      ((s', some ⟨addrAt l 12, s.replyHeader id l (host.value (l.getD 28 0)).bytes.length ++ (host.value (l.getD 28 0)).bytes⟩),
        known') := by
  generalize hm : (host.value (l.getD 28 0)).bytes = m
  have hshort : m.length ≤ 255 := hm ▸ (host.value (l.getD 28 0)).short
  obtain ⟨k1, hk1, h1⟩ := storeAddr_known h 16 (addrAt l 12)
  obtain ⟨k2, hk2, h2⟩ := storeAddr_known h1 12 s.ip
  obtain ⟨k3, hk3, h3⟩ := storeNet_known h2 2 (28 + m.length.toUInt16)
  obtain ⟨k4, hk4, h4⟩ := storeNet_known h3 4 id
  generalize hip : putNet (putNet (putAddr (putAddr l 16 (addrAt l 12)) 12 s.ip) 2 (28 + m.length.toUInt16)) 4 id = ip at h4
  have hlip : ip.length = l.length := by simp [← hip]
  obtain ⟨k5, hk5, h5⟩ := storeWord_known h4 10 (calculateChecksum (ip.take 20))
  have h6 := (h5.write 20 responseType).write 21 m.length.toUInt8
  obtain ⟨k7, hk7, h7⟩ := h6.setBytes (by simp [hlip]; omega : 28 ≤ _) m
  have hreply : s.replyHeader id l m.length = ((((putWord ip 10 (calculateChecksum (ip.take 20))).set 20 responseType).set 21
      m.length.toUInt8).take 28) := by
    rw [Server.replyHeader, hip]
  rw [← hreply] at h7
  have hlen : (s.replyHeader id l m.length ++ m).length = 28 + m.length := by
    rw [List.length_append, length_replyHeader (by omega)]
  have hdest := loadAddr_known h7 (by omega : 16 + 4 ≤ _)
  have htot := loadNet_known h7 (by omega : 2 + 2 ≤ _)
  rw [addrAt_replyHeader (by omega)] at hdest
  rw [netAt_replyHeader (by omega)] at htot
  have hsend : (bytes 0 (28 + m.length.toUInt16 : UInt16).toNat).runKnown k7 = some (s.replyHeader id l m.length ++ m, k7) := by
    rw [length_reply hshort, runKnown_bytes h7 (by omega), List.drop_zero, ← hlen, List.take_length]
  obtain ⟨s', htid⟩ := takeTransactionId_known s h6 (by simp [hlip]; omega)
  refine ⟨s', k7, ?_⟩
  simp only [Server.answer, runKnown_bind, byte_known h (by omega : 28 < l.length), Option.bind_some, hm,
    loadAddr_known h (by omega : 12 + 4 ≤ l.length), hk1, hk2, hk3, hk4, runKnown_bytes h4 (by omega : 0 + 20 ≤ ip.length),
    List.drop_zero, hk5, runKnown_setByte, htid, hk7, hdest, htot, hsend]
  rfl

/-- A query that passes every test is answered. -/
theorem handle_query (s : Server) (host : Host) (id : UInt16) (hl : 29 ≤ l.length) (hp : l.getD 9 0 = cldpProtocol) (hv : Verifies l)
    (ht : l.getD 20 0 = queryType) (hd : addrAt l 16 = s.ip) : ∃ s' known', (s.handle host id).runKnown (only l) =
      some ((s', some ⟨addrAt l 12, s.replyHeader id (putWord l 10 0) (host.value (l.getD 28 0)).bytes.length ++
        (host.value (l.getD 28 0)).bytes⟩), known') := by
  have h := holds_only l
  have h1 := holds_only (putWord l 10 0)
  have hl1 : 29 ≤ (putWord l 10 0).length := by rw [length_putWord]; exact hl
  obtain ⟨s', known', hanswer⟩ := answer_known s host id h1 hl1
  rw [getD_putWord (by decide), addrAt_putWord (by decide)] at hanswer
  have htype := byte_known h1 (by omega : 20 < _)
  rw [getD_putWord (by decide), ht] at htype
  have hdaddr := loadAddr_known h1 (by omega : 16 + 4 ≤ _)
  rw [addrAt_putWord (by decide), hd] at hdaddr
  refine ⟨s', known', ?_⟩
  rw [Server.handle, runKnown_bind, byte_known h (by omega), Option.bind_some, hp, if_neg (not_not.2 rfl), runKnown_bind,
    headerVerifies_known (by omega), Option.bind_some, decide_eq_true hv, if_neg (nofun : ¬true = false), runKnown_bind, htype,
    Option.bind_some, if_neg (not_not.2 rfl), runKnown_bind, hdaddr, Option.bind_some, if_neg (not_not.2 rfl)]
  exact hanswer

end NetLabs.Cldp
