import NetLabs.Lib.CText
import NetLabs.Cldp.Packet

/-!
# The CLDP client

`send_query`, which asks every server of the list, and `process_response`, which looks at a packet it has received and prints the
metadata in it.
-/

namespace NetLabs.Cldp

open Buffer Prog CText

/-! ## The code -/

/-- A server of the list: the transaction id of the queries to it, 0 before the first, and its address. -/
structure Node where
  tid : UInt16
  addr : Addr
  deriving DecidableEq

/-- The address the client was given and the list of servers. -/
structure Client where
  ip : Addr
  nodes : List Node
  deriving DecidableEq

/-- The transaction id of a query: the server's, or one that is drawn. -/
def Node.queryId (n : Node) (drawn : UInt16) : UInt16 := if n.tid = 0 then drawn else n.tid

/-- `send_query`; `draws` has, for each place in the list, what is drawn for the IP header and for a transaction id. -/
def Client.sendQuery (c : Client) (metadataType : UInt8) (draws : Nat → UInt16 × UInt16) : Client × List Datagram :=
  ({ c with nodes := c.nodes.mapIdx fun i n => { n with tid := n.queryId (draws i).2 } },
    c.nodes.mapIdx fun i n =>
      ⟨n.addr, cldpPacket 29 (draws i).1 c.ip n.addr queryType 1 (n.queryId (draws i).2) [metadataType]⟩)

/-- What `process_response` prints. -/
inductive Output where
  | unknownProtocol
  | checksumFailed
  | serverNotFound (src : Addr)
  | metadata (server : Addr) (value : List UInt8)
  deriving DecidableEq

/-- `process_response`. The transaction id is read, but nothing is done with it. -/
def Client.processResponse (c : Client) : Prog (List Output) := do
  let daddr ← loadAddr 16
  if daddr ≠ c.ip then pure []
  else do
    let protocol ← byte 9
    if protocol ≠ cldpProtocol then pure [.unknownProtocol]
    else do
      let verified ← headerVerifies
      if verified = false then pure [.checksumFailed]
      else do
        let saddr ← loadAddr 12
        let msgType ← byte 20
        let payloadLength ← byte 21
        let _tid ← loadNet 22
        if c.ip = saddr then pure []
        else if saddr ∉ c.nodes.map Node.addr then pure [.serverNotFound saddr]
        else if msgType = responseType then do
          let metadataValue ← bytes 28 payloadLength.toNat
          pure [.metadata saddr (cstr metadataValue)]
        else pure []

/-! ## A response -/

variable {c : Client} {l : List UInt8}

/-- A response of a server of the list is printed. -/
theorem processResponse_response (c : Client) (hd : addrAt l 16 = c.ip) (hp : l.getD 9 0 = cldpProtocol) (hv : Verifies l)
    (hs : addrAt l 12 ≠ c.ip) (hn : addrAt l 12 ∈ c.nodes.map Node.addr) (ht : l.getD 20 0 = responseType)
    (hl : 28 + (l.getD 21 0).toNat ≤ l.length) : c.processResponse.runKnown (only l) =
      some ([.metadata (addrAt l 12) (cstr ((l.drop 28).take (l.getD 21 0).toNat))], only (putWord l 10 0)) := by
  have h := holds_only l
  have h1 := holds_only (putWord l 10 0)
  have hl1 : 28 + (l.getD 21 0).toNat ≤ (putWord l 10 0).length := by rw [length_putWord]; exact hl
  have hsaddr := loadAddr_known h1 (by omega : 12 + 4 ≤ _)
  rw [addrAt_putWord (by decide)] at hsaddr
  have htype := byte_known h1 (by omega : 20 < _)
  rw [getD_putWord (by decide), ht] at htype
  have hlen := byte_known h1 (by omega : 21 < _)
  rw [getD_putWord (by decide)] at hlen
  have hvalue := runKnown_bytes h1 hl1
  rw [drop_putWord (by decide)] at hvalue
  rw [Client.processResponse, runKnown_bind, loadAddr_known h (by omega), Option.bind_some, hd, if_neg (not_not.2 rfl), runKnown_bind,
    byte_known h (by omega), Option.bind_some, hp, if_neg (not_not.2 rfl), runKnown_bind, headerVerifies_known (by omega),
    Option.bind_some, decide_eq_true hv, if_neg (nofun : ¬true = false), runKnown_bind, hsaddr, Option.bind_some, runKnown_bind, htype,
    Option.bind_some, runKnown_bind, hlen, Option.bind_some, runKnown_bind, loadNet_known h1 (by omega), Option.bind_some,
    if_neg (Ne.symm hs), if_neg (not_not.2 hn), if_pos rfl, runKnown_bind, hvalue]
  rfl

end NetLabs.Cldp
