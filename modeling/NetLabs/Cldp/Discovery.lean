import Mathlib.Data.List.Induction
import Mathlib.Data.List.Nodup
import NetLabs.Cldp.Client

/-!
# The servers a client finds, and the queries it sends them

`discover_servers` reads packets for ten seconds and puts the source of every HELLO on the list, once. `send_query` then goes through the
list: a query for each server, with the transaction id the server has, or a new one that is kept for the next time.
-/

namespace NetLabs.Cldp

open Buffer

/-! ## The code -/

def helloType : UInt8 := 1

/-- What `recvfrom` has room for. -/
def bufferSize : Nat := 2048

/-- `discover_servers`, one packet of its loop; a new server is put before the others, with no transaction id. -/
def discoverPacket (head : List Node) (packet : List UInt8) : List Node :=
  let buffer := packet.take bufferSize
  if buffer.length < 20 + 8 then head
  else if buffer.getD 9 0 ≠ cldpProtocol ∨ buffer.getD 20 0 ≠ helloType then head
  else if addrAt buffer 12 ∈ head.map Node.addr then head
  else ⟨0, addrAt buffer 12⟩ :: head

/-- `discover_servers`, for the packets that are received before the time is over. -/
def discoverServers (packets : List (List UInt8)) : List Node := packets.foldl discoverPacket []

/-- A call of `send_query`: the metadata type, and what is drawn for each place in the list. -/
structure Call where
  metadataType : UInt8
  draws : Nat → UInt16 × UInt16

/-- Calls of `send_query` one after another: the client after them, and what the last one has sent. -/
def Client.asks (c : Client) (calls : List Call) : Client × List Datagram :=
  calls.foldl (fun s q => s.1.sendQuery q.metadataType q.draws) (c, [])

/-- A packet that puts its source on the list. -/
def IsHello (packet : List UInt8) : Prop :=
  28 ≤ packet.length ∧ packet.getD 9 0 = cldpProtocol ∧ packet.getD 20 0 = helloType

variable {head : List Node} {packet : List UInt8} {packets : List (List UInt8)} {a : Addr} {c : Client} {q : Call} {calls : List Call}

/-! ## What is found -/

/-- What the client reads of a packet is within what `recvfrom` has room for. -/
theorem getD_take_bufferSize {i : Nat} (hi : i < bufferSize) : (packet.take bufferSize).getD i 0 = packet.getD i 0 := by
  rw [List.getD_eq_getElem?_getD, List.getElem?_take_of_lt hi, List.getD_eq_getElem?_getD]

theorem addrAt_take_bufferSize : addrAt (packet.take bufferSize) 12 = addrAt packet 12 :=
  addrAt_congr fun _ _ hj => getD_take_bufferSize (hj.trans (by decide))

/-- One packet: the source of a HELLO that is not on the list is put on it. -/
theorem discoverPacket_cases (head : List Node) (packet : List UInt8) :
    (¬IsHello packet ∧ discoverPacket head packet = head) ∨
      (IsHello packet ∧ addrAt packet 12 ∈ head.map Node.addr ∧ discoverPacket head packet = head) ∨
      (IsHello packet ∧ addrAt packet 12 ∉ head.map Node.addr ∧ discoverPacket head packet = ⟨0, addrAt packet 12⟩ :: head) := by
  have hlen : (packet.take bufferSize).length < 20 + 8 ↔ packet.length < 28 := by
    rw [List.length_take, bufferSize]
    omega
  unfold discoverPacket IsHello
  dsimp only
  rw [getD_take_bufferSize (by decide), getD_take_bufferSize (by decide), addrAt_take_bufferSize]
  by_cases hshort : packet.length < 28
  · left
    exact ⟨fun h => by omega, if_pos (hlen.2 hshort)⟩
  · rw [if_neg fun h => hshort (hlen.1 h)]
    by_cases hother : packet.getD 9 0 ≠ cldpProtocol ∨ packet.getD 20 0 ≠ helloType
    · left
      rcases hother with hp | ht
      · exact ⟨fun h => hp h.2.1, if_pos (Or.inl hp)⟩
      · exact ⟨fun h => ht h.2.2, if_pos (Or.inr ht)⟩
    · right
      rw [if_neg hother]
      rw [not_or, not_not, not_not] at hother
      have hhello : 28 ≤ packet.length ∧ packet.getD 9 0 = cldpProtocol ∧ packet.getD 20 0 = helloType :=
        ⟨Nat.not_lt.1 hshort, hother⟩
      by_cases hknown : addrAt packet 12 ∈ head.map Node.addr
      · exact Or.inl ⟨hhello, hknown, if_pos hknown⟩
      · exact Or.inr ⟨hhello, hknown, if_neg hknown⟩

theorem mem_discoverPacket : a ∈ (discoverPacket head packet).map Node.addr ↔
    a ∈ head.map Node.addr ∨ IsHello packet ∧ addrAt packet 12 = a := by
  rcases discoverPacket_cases head packet with ⟨hno, heq⟩ | ⟨hyes, hknown, heq⟩ | ⟨hyes, hnew, heq⟩
  · rw [heq]
    exact ⟨Or.inl, fun h => h.resolve_right fun h => hno h.1⟩
  · rw [heq]
    refine ⟨Or.inl, ?_⟩
    rintro (h | ⟨-, rfl⟩)
    · exact h
    · exact hknown
  · rw [heq, List.map_cons, List.mem_cons, or_comm, and_iff_right hyes, eq_comm]

theorem nodup_discoverPacket (h : (head.map Node.addr).Nodup) : ((discoverPacket head packet).map Node.addr).Nodup := by
  rcases discoverPacket_cases head packet with ⟨-, heq⟩ | ⟨-, -, heq⟩ | ⟨-, hnew, heq⟩
  · rw [heq]
    exact h
  · rw [heq]
    exact h
  · rw [heq, List.map_cons]
    exact List.nodup_cons.2 ⟨hnew, h⟩

theorem discoverServers_snoc : discoverServers (packets ++ [packet]) = discoverPacket (discoverServers packets) packet := by
  rw [discoverServers, List.foldl_append]
  rfl

/-- The list holds the sources of the HELLOs and nothing else. -/
theorem mem_discoverServers :
    a ∈ (discoverServers packets).map Node.addr ↔ ∃ p ∈ packets, IsHello p ∧ addrAt p 12 = a := by
  induction packets using List.reverseRecOn with
  | nil => exact ⟨nofun, nofun⟩
  | append_singleton packets packet ih =>
    rw [discoverServers_snoc, mem_discoverPacket, ih]
    constructor
    · rintro (⟨p, hp, h⟩ | h)
      · exact ⟨p, List.mem_append_left _ hp, h⟩
      · exact ⟨packet, List.mem_append_right _ (List.mem_singleton_self _), h⟩
    · rintro ⟨p, hp, h⟩
      rcases List.mem_append.1 hp with hp | hp
      · exact Or.inl ⟨p, hp, h⟩
      · rw [List.mem_singleton.1 hp] at h
        exact Or.inr h

/-- ... each once. -/
theorem nodup_discoverServers (packets : List (List UInt8)) : ((discoverServers packets).map Node.addr).Nodup := by
  induction packets using List.reverseRecOn with
  | nil => exact List.nodup_nil
  | append_singleton packets packet ih =>
    rw [discoverServers_snoc]
    exact nodup_discoverPacket ih

/-! ## What is asked -/

theorem map_addr_sendQuery (c : Client) (metadataType : UInt8) (draws : Nat → UInt16 × UInt16) :
    (c.sendQuery metadataType draws).1.nodes.map Node.addr = c.nodes.map Node.addr := by
  apply List.ext_getElem?
  intro i
  rw [List.getElem?_map, List.getElem?_map, Client.sendQuery, List.getElem?_mapIdx, Option.map_map]
  rfl

/-- A query goes to every server of the list, in the order of the list. -/
theorem map_dest_sendQuery (c : Client) (metadataType : UInt8) (draws : Nat → UInt16 × UInt16) :
    (c.sendQuery metadataType draws).2.map Datagram.dest = c.nodes.map Node.addr := by
  apply List.ext_getElem?
  intro i
  rw [List.getElem?_map, List.getElem?_map, Client.sendQuery, List.getElem?_mapIdx, Option.map_map]
  rfl

/-- What is sent: the query to a server of the list, in whose place there is afterwards the server with the query's id. -/
theorem mem_sendQuery {d : Datagram} (h : d ∈ (c.sendQuery q.metadataType q.draws).2) : ∃ n ∈ c.nodes, ∃ drawn id,
    (⟨n.queryId drawn, n.addr⟩ : Node) ∈ (c.sendQuery q.metadataType q.draws).1.nodes ∧
      d = ⟨n.addr, cldpPacket 29 id c.ip n.addr queryType 1 (n.queryId drawn) [q.metadataType]⟩ := by
  obtain ⟨i, hi, hd⟩ := List.mem_mapIdx.1 h
  refine ⟨c.nodes[i], List.getElem_mem hi, (q.draws i).2, (q.draws i).1, ?_, hd.symm⟩
  exact List.mem_mapIdx.2 ⟨i, hi, rfl⟩

theorem asks_snoc : c.asks (calls ++ [q]) = (c.asks calls).1.sendQuery q.metadataType q.draws := by
  rw [Client.asks, List.foldl_append]
  rfl

/-- Asking changes neither the client's address nor the servers of the list. -/
theorem asks_same (c : Client) (calls : List Call) :
    (c.asks calls).1.ip = c.ip ∧ (c.asks calls).1.nodes.map Node.addr = c.nodes.map Node.addr := by
  induction calls using List.reverseRecOn with
  | nil => exact ⟨rfl, rfl⟩
  | append_singleton calls q ih =>
    rw [asks_snoc]
    exact ⟨ih.1, (map_addr_sendQuery _ _ _).trans ih.2⟩

/-- A server of the list that has a transaction id is asked with it. -/
theorem transactionId_sendQuery {d : Datagram} {n : Node} (hnodup : (c.nodes.map Node.addr).Nodup)
    (hd : d ∈ (c.sendQuery q.metadataType q.draws).2) (hn : n ∈ c.nodes) (ha : n.addr = d.dest) (ht : n.tid ≠ 0) :
    netAt d.packet 22 = n.tid := by
  obtain ⟨n', hn', drawn, id, -, rfl⟩ := mem_sendQuery hd
  have hsame : n' = n := List.inj_on_of_nodup_map hnodup hn' hn ha.symm
  rw [transactionId_cldpPacket, hsame, Node.queryId, if_neg ht]

/-- The list after `discover_servers` is the sources of the HELLOs it has received, each once; and a call of `send_query`, whatever calls
there have been before, sends one query to each of them, from the client, with a right checksum, and with the server's transaction id where
it has one. -/
theorem discovered_servers_asked (ip : Addr) (packets : List (List UInt8)) (calls : List Call) (q : Call) :
    ((discoverServers packets).map Node.addr).Nodup ∧
      (∀ a, a ∈ (discoverServers packets).map Node.addr ↔ ∃ p ∈ packets, IsHello p ∧ addrAt p 12 = a) ∧
      ((((⟨ip, discoverServers packets⟩ : Client).asks calls).1.sendQuery q.metadataType q.draws).2.map Datagram.dest =
        (discoverServers packets).map Node.addr) ∧
      ∀ d ∈ (((⟨ip, discoverServers packets⟩ : Client).asks calls).1.sendQuery q.metadataType q.draws).2,
        addrAt d.packet 12 = ip ∧ addrAt d.packet 16 = d.dest ∧ Verifies d.packet ∧
          ∀ n ∈ ((⟨ip, discoverServers packets⟩ : Client).asks calls).1.nodes, n.addr = d.dest → n.tid ≠ 0 →
            netAt d.packet 22 = n.tid := by
  obtain ⟨hip, haddrs⟩ := asks_same ⟨ip, discoverServers packets⟩ calls
  have hnodup := nodup_discoverServers packets
  refine ⟨hnodup, fun a => mem_discoverServers, ?_, ?_⟩
  · rw [map_dest_sendQuery, haddrs]
  · intro d hd
    have hid := fun n hn ha ht => transactionId_sendQuery (n := n) (haddrs.symm ▸ hnodup) hd hn ha ht
    obtain ⟨n, -, drawn, id, -, rfl⟩ := mem_sendQuery hd
    exact ⟨saddr_cldpPacket.trans hip, daddr_cldpPacket, verifies_cldpPacket, hid⟩

end NetLabs.Cldp
