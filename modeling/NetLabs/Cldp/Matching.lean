import NetLabs.Cldp.Discovery
import NetLabs.Cldp.Truncation

/-!
# Responses and the queries they answer

`send_query` keeps the transaction id of the queries to each server, for `process_response` to tell a response to them from any other
packet. `process_response` reads the id of a response and then compares nothing with it: what passes its other tests (`Accepts`) is
printed, from a server that has not been asked and with any id.
-/

namespace NetLabs.Cldp

open Buffer Prog CText

/-- The buffer after a packet has been received: the packet, and behind it what was there before. -/
def received (packet : List UInt8) (before : Nat → UInt8) : List UInt8 := (List.range bufferSize).map (overlay packet before)

/-- The tests of `process_response`: a RESPONSE to the client with a right checksum, from a server of the list that is not the client. -/
def Client.Accepts (c : Client) (buffer : List UInt8) : Prop :=
  addrAt buffer 16 = c.ip ∧ buffer.getD 9 0 = cldpProtocol ∧ Verifies buffer ∧ addrAt buffer 12 ≠ c.ip ∧
    addrAt buffer 12 ∈ c.nodes.map Node.addr ∧ buffer.getD 20 0 = responseType

/-- After calls of `send_query`, metadata is printed only of a packet that comes from a server of the list and carries the transaction id
`send_query` has recorded for it. -/
def Client.PrintsMatched (c : Client) (calls : List Call) (packet : List UInt8) (before : Nat → UInt8) : Prop :=
  ∀ server value, Output.metadata server value ∈ (c.asks calls).1.processResponse.run (overlay packet before) →
    24 ≤ packet.length ∧ addrAt packet 12 = server ∧ server ∈ c.nodes.map Node.addr ∧ calls ≠ [] ∧
      ⟨netAt packet 22, server⟩ ∈ (c.asks calls).1.nodes

variable {c : Client} {l packet : List UInt8} {before : Nat → UInt8} {calls : List Call} {server : Addr} {value : List UInt8} {i : Nat}

/-! ## The ids that are recorded -/

/-- The id recorded for a server is the one in the last query to it. -/
theorem recorded_iff (c : Client) (calls : List Call) (server : Addr) (tid : UInt16) :
    (calls ≠ [] ∧ ⟨tid, server⟩ ∈ (c.asks calls).1.nodes) ↔
      ∃ query ∈ (c.asks calls).2, query.dest = server ∧ netAt query.packet 22 = tid := by
  rcases List.eq_nil_or_concat' calls with rfl | ⟨earlier, q, rfl⟩
  · constructor
    · rintro ⟨hne, -⟩
      exact absurd rfl hne
    · rintro ⟨query, hquery, -⟩
      cases hquery
  · rw [asks_snoc]
    constructor
    · rintro ⟨-, hn⟩
      obtain ⟨i, hi, hnode⟩ := List.mem_mapIdx.1 hn
      refine ⟨_, List.mem_mapIdx.2 ⟨i, hi, rfl⟩, congrArg Node.addr hnode, ?_⟩
      exact transactionId_cldpPacket.trans (congrArg Node.tid hnode)
    · rintro ⟨query, hquery, rfl, rfl⟩
      obtain ⟨n, -, drawn, id, hn, rfl⟩ := mem_sendQuery hquery
      rw [transactionId_cldpPacket]
      exact ⟨List.append_ne_nil_of_right_ne_nil _ (List.cons_ne_nil _ _), hn⟩

/-! ## What is printed -/

/-- A packet that fails one of the tests makes the client print no metadata. -/
theorem processResponse_other (server : Addr) (value : List UInt8) (hl : 28 ≤ l.length) (hno : ¬c.Accepts l) :
    ∃ r, c.processResponse.runKnown (only l) = some r ∧ Output.metadata server value ∉ r.1 := by
  have h := holds_only l
  have h1 := holds_only (putWord l 10 0)
  have hl1 : 28 ≤ (putWord l 10 0).length := by rw [length_putWord]; exact hl
  rw [Client.processResponse, runKnown_bind, loadAddr_known h (by omega), Option.bind_some]
  by_cases hd : addrAt l 16 = c.ip
  · rw [if_neg (not_not.2 hd), runKnown_bind, byte_known h (by omega), Option.bind_some]
    by_cases hp : l.getD 9 0 = cldpProtocol
    · rw [if_neg (not_not.2 hp), runKnown_bind, headerVerifies_known (by omega), Option.bind_some]
      by_cases hv : Verifies l
      · rw [decide_eq_true hv, if_neg (Ne.symm Bool.false_ne_true), runKnown_bind, loadAddr_known h1 (by omega), Option.bind_some,
          addrAt_putWord (by decide), runKnown_bind, byte_known h1 (by omega), Option.bind_some, getD_putWord (by decide), runKnown_bind,
          byte_known h1 (by omega), Option.bind_some, runKnown_bind, loadNet_known h1 (by omega), Option.bind_some]
        by_cases hs : c.ip = addrAt l 12
        · rw [if_pos hs]
          exact ⟨_, rfl, List.not_mem_nil⟩
        · rw [if_neg hs]
          by_cases hn : addrAt l 12 ∈ c.nodes.map Node.addr
          · have ht : l.getD 20 0 ≠ responseType := fun ht => hno ⟨hd, hp, hv, Ne.symm hs, hn, ht⟩
            rw [if_neg (not_not.2 hn), if_neg ht]
            exact ⟨_, rfl, List.not_mem_nil⟩
          · rw [if_pos hn]
            exact ⟨_, rfl, by simp⟩
      · rw [decide_eq_false hv, if_pos rfl]
        exact ⟨_, rfl, by simp⟩
    · rw [if_pos hp]
      exact ⟨_, rfl, by simp⟩
  · rw [if_pos hd]
    exact ⟨_, rfl, List.not_mem_nil⟩

/-- Metadata is printed of exactly the packets that pass the tests. -/
theorem metadata_iff (hl : 28 + 255 ≤ l.length) (c : Client) (before : Nat → UInt8) (server : Addr) :
    (∃ value, Output.metadata server value ∈ c.processResponse.run (overlay l before)) ↔ c.Accepts l ∧ server = addrAt l 12 := by
  constructor
  · rintro ⟨value, hv⟩
    by_cases ha : c.Accepts l
    · obtain ⟨hd, hp, hver, hs, hn, ht⟩ := ha
      have hbyte : (l.getD 21 0).toNat < 256 := (l.getD 21 0).toNat_lt
      rw [run_overlay (processResponse_response c hd hp hver hs hn ht (by omega)), List.mem_singleton, Output.metadata.injEq] at hv
      exact ⟨⟨hd, hp, hver, hs, hn, ht⟩, hv.1⟩
    · obtain ⟨r, hr, hnone⟩ := processResponse_other server value (by omega) ha
      rw [run_overlay hr] at hv
      exact absurd hv hnone
  · rintro ⟨⟨hd, hp, hver, hs, hn, ht⟩, rfl⟩
    have hbyte : (l.getD 21 0).toNat < 256 := (l.getD 21 0).toNat_lt
    rw [run_overlay (processResponse_response c hd hp hver hs hn ht (by omega))]
    exact ⟨_, List.mem_singleton_self _⟩

theorem overlay_received (packet : List UInt8) (before : Nat → UInt8) :
    overlay (received packet before) (overlay packet before) = overlay packet before := by
  funext i
  have hlen : (received packet before).length = bufferSize := by rw [received, List.length_map, List.length_range]
  by_cases hi : i < bufferSize
  · rw [overlay, received, List.getD_eq_getElem?_getD, List.getElem?_map, List.getElem?_range hi]
    rfl
  · rw [overlay, List.getD_eq_getElem?_getD, List.getElem?_eq_none (by omega)]
    rfl

/-- What is read of the buffer within the packet is the packet's. -/
theorem getD_received (hi : i < packet.length) (hsize : i < bufferSize) : (received packet before).getD i 0 = packet.getD i 0 := by
  rw [received, List.getD_eq_getElem?_getD, List.getElem?_map, List.getElem?_range hsize, Option.map_some, Option.getD_some, overlay,
    List.getD_eq_getElem?_getD, List.getD_eq_getElem?_getD, List.getElem?_eq_getElem hi]
  rfl

theorem saddr_received (h : 24 ≤ packet.length) : addrAt (received packet before) 12 = addrAt packet 12 :=
  addrAt_congr fun _ _ hj => getD_received (by omega) (hj.trans (by decide))

theorem metadata_received_iff (c : Client) (packet : List UInt8) (before : Nat → UInt8) (server : Addr) :
    (∃ value, Output.metadata server value ∈ c.processResponse.run (overlay packet before)) ↔
      c.Accepts (received packet before) ∧ server = addrAt (received packet before) 12 := by
  have hlen : 28 + 255 ≤ (received packet before).length := by
    rw [received, List.length_map, List.length_range]
    decide
  rw [← metadata_iff hlen c (overlay packet before) server, overlay_received]

/-- The tests do not depend on what has been asked. -/
theorem accepts_asks : (c.asks calls).1.Accepts l ↔ c.Accepts l := by
  obtain ⟨hip, haddrs⟩ := asks_same c calls
  rw [Client.Accepts, Client.Accepts, hip, haddrs]

/-! ## Every packet -/

/-- Metadata is printed only of responses to what has been asked exactly when a packet that passes the tests is one: it has the
transaction id of the last query to the server it comes from. -/
theorem printsMatched_iff (c : Client) (calls : List Call) (packet : List UInt8) (before : Nat → UInt8) :
    c.PrintsMatched calls packet before ↔ (c.Accepts (received packet before) → 24 ≤ packet.length ∧
      ∃ query ∈ (c.asks calls).2, query.dest = addrAt packet 12 ∧ netAt query.packet 22 = netAt packet 22) := by
  constructor
  · intro hmatched ha
    obtain ⟨value, hprinted⟩ := (metadata_received_iff (c.asks calls).1 packet before _).2 ⟨accepts_asks.2 ha, rfl⟩
    obtain ⟨hlen, hsaddr, -, hrecorded⟩ := hmatched _ _ hprinted
    rw [← hsaddr] at hrecorded
    exact ⟨hlen, (recorded_iff c calls _ _).1 hrecorded⟩
  · intro hanswers server value hprinted
    obtain ⟨ha, rfl⟩ := (metadata_received_iff (c.asks calls).1 packet before server).1 ⟨value, hprinted⟩
    rw [accepts_asks] at ha
    obtain ⟨hlen, hquery⟩ := hanswers ha
    have hlisted := ha.2.2.2.2.1
    rw [saddr_received hlen] at hlisted ⊢
    exact ⟨hlen, rfl, hlisted, (recorded_iff c calls _ _).2 hquery⟩

/-- The response of 127.0.0.1 with number 10, when it has been asked with number 9, is printed. -/
theorem forged_response_printed : ¬(⟨⟨127, 0, 0, 2⟩, [⟨0, ⟨127, 0, 0, 1⟩⟩]⟩ : Client).PrintsMatched [⟨1, fun _ => (7, 9)⟩]
    (cldpPacket 29 7 ⟨127, 0, 0, 1⟩ ⟨127, 0, 0, 2⟩ responseType 1 10 [120]) (fun _ => 0) := by
  intro h
  have hprinted : Output.metadata ⟨127, 0, 0, 1⟩ [120] ∈
      ((⟨⟨127, 0, 0, 2⟩, [⟨0, ⟨127, 0, 0, 1⟩⟩]⟩ : Client).asks [⟨1, fun _ => (7, 9)⟩]).1.processResponse.run
        (overlay (cldpPacket 29 7 ⟨127, 0, 0, 1⟩ ⟨127, 0, 0, 2⟩ responseType 1 10 [120]) fun _ => 0) := by decide +kernel
  have hrecorded := (h _ _ hprinted).2.2.2.2
  revert hrecorded
  decide

end NetLabs.Cldp
