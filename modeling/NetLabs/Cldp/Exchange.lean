import NetLabs.Cldp.Discovery
import NetLabs.Cldp.Server

/-!
# A query and its response

The packet `send_query` builds for a server is answered by the server that has its address, and the client prints the metadata of the
answer. The reply has the form of a packet built from nothing, though the server makes it out of the query.
-/

namespace NetLabs.Cldp

open Buffer Prog CText

variable {s : Server} {totLen id id' tid check : UInt16} {saddr daddr ip : Addr} {len : Nat}

/-! ## The headers of the reply -/

theorem putWord_ipHeader (check' : UInt16) (rest : List UInt8) :
    putWord (ipHeader totLen id saddr daddr check ++ rest) 10 check' = ipHeader totLen id saddr daddr check' ++ rest := rfl

/-- The header of a query with its addresses exchanged, and a new length and number. -/
theorem putAddr_ipHeader (len' : UInt16) (rest : List UInt8) :
    putNet (putNet (putAddr (putAddr (ipHeader totLen id saddr daddr check ++ rest) 16 saddr) 12 ip) 2 len') 4 id' =
      ipHeader len' id' ip saddr check ++ rest := rfl

theorem replyHeader_query (payload : List UInt8) :
    s.replyHeader id' (ipHeader totLen id saddr daddr 0 ++ (cldpHeader queryType 1 tid ++ payload)) len =
      ipHeader (28 + len.toUInt16) id' s.ip saddr (calculateChecksum (ipHeader (28 + len.toUInt16) id' s.ip saddr 0)) ++
        cldpHeader responseType len.toUInt8 tid := by
  have haddr : addrAt (ipHeader totLen id saddr daddr 0 ++ (cldpHeader queryType 1 tid ++ payload)) 12 = saddr := rfl
  have htake : ∀ rest, (ipHeader (28 + len.toUInt16) id' s.ip saddr 0 ++ rest).take 20 =
      ipHeader (28 + len.toUInt16) id' s.ip saddr 0 := fun _ => rfl
  unfold Server.replyHeader
  dsimp only
  rw [haddr, putAddr_ipHeader, htake, putWord_ipHeader]
  rfl

/-! ## There and back -/

/-- The answer to a query that has been built from nothing. -/
theorem handle_cldpPacket (s : Server) (host : Host) (totLen id id' tid : UInt16) (saddr : Addr) (metadataType : UInt8)
    (before : Nat → UInt8) : ∃ s',
    (s.handle host id').run (overlay (cldpPacket totLen id saddr s.ip queryType 1 tid [metadataType]) before) =
      (s', some ⟨saddr, cldpPacket (28 + (host.value metadataType).bytes.length.toUInt16) id' s.ip saddr responseType
        (host.value metadataType).bytes.length.toUInt8 tid (host.value metadataType).bytes⟩) := by
  generalize hquery : cldpPacket totLen id saddr s.ip queryType 1 tid [metadataType] = query
  have hlen : query.length = 29 := by rw [← hquery, length_cldpPacket]; rfl
  have htype : query.getD 28 0 = metadataType := by rw [← hquery]; rfl
  obtain ⟨s', known', hrun⟩ := handle_query s host id' (l := query) (by omega) (by rw [← hquery, protocol_cldpPacket])
    (by rw [← hquery]; exact verifies_cldpPacket) (by rw [← hquery, msgType_cldpPacket]) (by rw [← hquery, daddr_cldpPacket])
  refine ⟨s', ?_⟩
  rw [run_overlay hrun, htype, ← hquery, saddr_cldpPacket]
  unfold cldpPacket
  rw [List.append_assoc, putWord_ipHeader, replyHeader_query]

/-- A response that has been built from nothing, and with `m` in it, makes a client that knows the server print `m`. -/
theorem processResponse_cldpPacket {c : Client} (m : Metadata) (hne : saddr ≠ c.ip) (hn : saddr ∈ c.nodes.map Node.addr)
    (before : Nat → UInt8) :
    c.processResponse.run (overlay (cldpPacket totLen id saddr c.ip responseType m.bytes.length.toUInt8 tid m.bytes) before) =
      [.metadata saddr m.bytes] := by
  have hbyte : m.bytes.length.toUInt8.toNat = m.bytes.length := by
    have := m.short
    simp [Nat.toUInt8]
    omega
  generalize hreply : cldpPacket totLen id saddr c.ip responseType m.bytes.length.toUInt8 tid m.bytes = reply
  have hsaddr : addrAt reply 12 = saddr := by rw [← hreply, saddr_cldpPacket]
  have hlen : (reply.getD 21 0).toNat = m.bytes.length := by rw [← hreply, payloadLength_cldpPacket, hbyte]
  have htotal : reply.length = 28 + m.bytes.length := by rw [← hreply, length_cldpPacket]
  have hrun := processResponse_response c (l := reply) (by rw [← hreply, daddr_cldpPacket])
    (by rw [← hreply, protocol_cldpPacket]) (by rw [← hreply]; exact verifies_cldpPacket) (by rw [hsaddr]; exact hne)
    (by rw [hsaddr]; exact hn) (by rw [← hreply, msgType_cldpPacket]) (by omega)
  have hpayload : reply.drop 28 = m.bytes := by rw [← hreply, payload_cldpPacket]
  rw [run_overlay hrun, hsaddr, hlen, hpayload, List.take_length, cstr_of_not_mem m.noNul]

/-- The packet `send_query` makes for a server of the list is answered by the server with that address, the reply goes to the client
and has the transaction id of the query, and the client prints the metadata of the server's host. -/
theorem query_answered (c : Client) (s : Server) (host : Host) (metadataType : UInt8) (draws : Nat → UInt16 × UInt16) (id : UInt16)
    (before before' : Nat → UInt8) {i : Nat} {n : Node} (hi : c.nodes[i]? = some n) (hip : n.addr = s.ip) (hne : s.ip ≠ c.ip) :
    ∃ query reply s', (c.sendQuery metadataType draws).2[i]? = some ⟨s.ip, query⟩ ∧
      (s.handle host id).run (overlay query before) = (s', some ⟨c.ip, reply⟩) ∧
      netAt reply 22 = netAt query 22 ∧ netAt query 22 = n.queryId (draws i).2 ∧
      (c.sendQuery metadataType draws).1.processResponse.run (overlay reply before') =
        [.metadata s.ip (host.value metadataType).bytes] := by
  obtain ⟨s', hanswer⟩ := handle_cldpPacket s host 29 (draws i).1 id (n.queryId (draws i).2) c.ip metadataType before
  have hknown : s.ip ∈ (c.sendQuery metadataType draws).1.nodes.map Node.addr := by
    rw [map_addr_sendQuery, ← hip]
    exact List.mem_map_of_mem (List.mem_of_getElem? hi)
  refine ⟨_, _, s', ?_, hanswer, ?_, transactionId_cldpPacket, ?_⟩
  · rw [Client.sendQuery, List.getElem?_mapIdx, hi, ← hip]
    rfl
  · rw [transactionId_cldpPacket, transactionId_cldpPacket]
  · have hsame : (c.sendQuery metadataType draws).1.ip = c.ip := rfl
    generalize (c.sendQuery metadataType draws).1 = c' at hknown hsame
    rw [← hsame] at hne ⊢
    exact processResponse_cldpPacket _ hne hknown before'

/-- `query_answered` for a client at 127.0.0.2 that has found a server at 127.0.0.1. -/
theorem query_answered_hostname : ∃ query reply s',
    ((⟨⟨127, 0, 0, 2⟩, [⟨0, ⟨127, 0, 0, 1⟩⟩]⟩ : Client).sendQuery 1 fun _ => (7, 9)).2[0]? = some ⟨⟨127, 0, 0, 1⟩, query⟩ ∧
      ((⟨⟨127, 0, 0, 1⟩, 0⟩ : Server).handle ⟨invalidQuery, invalidQuery, invalidQuery⟩ 5).run (overlay query fun _ => 0) =
        (s', some ⟨⟨127, 0, 0, 2⟩, reply⟩) ∧
      netAt reply 22 = netAt query 22 ∧ netAt query 22 = 9 ∧
      ((⟨⟨127, 0, 0, 2⟩, [⟨0, ⟨127, 0, 0, 1⟩⟩]⟩ : Client).sendQuery 1 fun _ => (7, 9)).1.processResponse.run
        (overlay reply fun _ => 0) = [.metadata ⟨127, 0, 0, 1⟩ invalidQuery.bytes] :=
  query_answered ⟨⟨127, 0, 0, 2⟩, [⟨0, ⟨127, 0, 0, 1⟩⟩]⟩ ⟨⟨127, 0, 0, 1⟩, 0⟩ ⟨invalidQuery, invalidQuery, invalidQuery⟩ 1
    (fun _ => (7, 9)) 5 (fun _ => 0) (fun _ => 0) (i := 0) (n := ⟨0, ⟨127, 0, 0, 1⟩⟩) rfl rfl (by decide)

end NetLabs.Cldp
