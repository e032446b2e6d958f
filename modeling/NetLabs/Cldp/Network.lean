import Mathlib.Logic.Function.Basic
import NetLabs.Cldp.Exchange
import NetLabs.Cldp.Matching
import NetLabs.Lib.Machine

/-!
# A network of CLDP servers and clients

Servers announce themselves, clients look for them, ask them and print what comes back, over a network that delivers whatever has been
sent to anyone, in any order, any number of times or never, and that nobody else sends on. The values that a host gives can be
different each time. A client uses no transaction id to tell responses apart (`PrintsMatched`), but on such a network the addresses
are enough: whatever it prints has been given by that server, for a query of this client. -/

namespace NetLabs.Cldp

open Buffer Prog Function Machine

/-! ## The code -/

/-- `255.255.255.255`. -/
def broadcast : Addr := ⟨255, 255, 255, 255⟩

/-- The two bytes of a word exchanged. -/
def swapBytes (x : UInt16) : UInt16 := word (hiByte x) (loByte x)

/-- `send_hello`: `transaction_id` is stored as it was read from the first query, without `htons`. -/
def Server.sendHello (s : Server) (id drawn : UInt16) : Datagram :=
  ⟨broadcast, cldpPacket 28 id s.ip broadcast helloType 0 (if s.transactionId ≠ 0 then swapBytes s.transactionId else drawn) []⟩

/-! ## The network -/

/-- A client that runs: whether it still waits for HELLOs, and what it has printed. -/
structure Station where
  client : Client
  searching : Bool
  printed : List Output

/-- A query that has been answered, and what the host gave then. -/
structure Answer where
  server : Addr
  client : Addr
  metadataType : UInt8
  host : Host

/-- The servers and the clients that run, by their address, all that has been sent, who has asked whom for what, and the answers. -/
structure Net where
  servers : Addr → Option Server
  stations : Addr → Option Station
  air : List Datagram
  asked : List (Addr × Addr × UInt8)
  answered : List Answer

/-- Nobody runs. -/
def Net.begin : Net where
  servers _ := none
  stations _ := none
  air := []
  asked := []
  answered := []

/-- A program starts at an address; a server sends a HELLO; a server, a client in its search or a client after it receives the `k`th
of what has been sent, into a buffer that may hold anything; a client ends its search; a client calls `send_query`. -/
inductive NetEvent where
  | runServer (a : Addr)
  | runClient (a : Addr)
  | hello (a : Addr) (id drawn : UInt16)
  | serve (a : Addr) (k : Nat) (host : Host) (id : UInt16) (before : Nat → UInt8)
  | discover (a : Addr) (k : Nat)
  | found (a : Addr)
  | query (a : Addr) (q : Call)
  | receive (a : Addr) (k : Nat) (before : Nat → UInt8)

/-- A packet that a server has received: the answer goes out, and is noted. -/
def Net.served (n : Net) (a : Addr) (packet : List UInt8) (host : Host) : Server × Option Datagram → Net
  | (s, none) => { n with servers := update n.servers a (some s) }
  | (s, some d) => { n with
      servers := update n.servers a (some s)
      air := n.air ++ [d]
      answered := n.answered ++ [⟨s.ip, addrAt packet 12, packet.getD 28 0, host⟩] }

/-- One event. -/
def Net.step (n : Net) : NetEvent → Option Net
  | .runServer a => if n.servers a = none then some { n with servers := update n.servers a (some ⟨a, 0⟩) } else none
  | .runClient a =>
    if (n.stations a).isNone then some { n with stations := update n.stations a (some ⟨⟨a, []⟩, true, []⟩) } else none
  | .hello a id drawn => (n.servers a).map fun s => { n with air := n.air ++ [s.sendHello id drawn] }
  | .serve a k host id before =>
    match n.servers a, n.air[k]? with
    | some s, some d => some (n.served a d.packet host ((s.handle host id).run (overlay d.packet before)))
    | _, _ => none
  | .discover a k =>
    match n.stations a, n.air[k]? with
    | some t, some d =>
      if t.searching then
        some { n with
          stations := update n.stations a (some { t with client := { t.client with nodes := discoverPacket t.client.nodes d.packet } }) }
      else none
    | _, _ => none
  | .found a => (n.stations a).map fun t => { n with stations := update n.stations a (some { t with searching := false }) }
  | .query a q =>
    match n.stations a with
    | some t =>
      if t.searching then none
      else some { n with
        stations := update n.stations a (some { t with client := (t.client.sendQuery q.metadataType q.draws).1 })
        air := n.air ++ (t.client.sendQuery q.metadataType q.draws).2
        asked := n.asked ++ t.client.nodes.map fun x => (t.client.ip, x.addr, q.metadataType) }
    | none => none
  | .receive a k before =>
    match n.stations a, n.air[k]? with
    | some t, some d =>
      if t.searching then none
      else some { n with
        stations := update n.stations a (some { t with printed := t.printed ++ t.client.processResponse.run (overlay d.packet before) }) }
    | _, _ => none

/-- Whatever metadata a client has printed is of another address that it has found, where a server runs that has given this value in
answer to a query of this client. -/
def Net.Honest (n : Net) : Prop :=
  ∀ a t server value, n.stations a = some t → .metadata server value ∈ t.printed →
    server ≠ a ∧ server ∈ t.client.nodes.map Node.addr ∧ (n.servers server).isSome = true ∧
      ∃ r ∈ n.answered, r.server = server ∧ r.client = a ∧ (a, server, r.metadataType) ∈ n.asked ∧
        value = (r.host.value r.metadataType).bytes

/-- What a packet on the network can be. -/
inductive Origin (n : Net) : List UInt8 → Prop where
  | hello (server : Addr) (id tid : UInt16) (h : (n.servers server).isSome = true) :
      Origin n (cldpPacket 28 id server broadcast helloType 0 tid [])
  | query (client server : Addr) (id tid : UInt16) (metadataType : UInt8) (h : (client, server, metadataType) ∈ n.asked) :
      Origin n (cldpPacket 29 id client server queryType 1 tid [metadataType])
  | response (r : Answer) (totLen id tid : UInt16) (h : r ∈ n.answered) :
      Origin n (cldpPacket totLen id r.server r.client responseType (r.host.value r.metadataType).bytes.length.toUInt8 tid
        (r.host.value r.metadataType).bytes)

/-- The invariant of the network. -/
structure Net.Inv (n : Net) : Prop where
  servers : ∀ a s, n.servers a = some s → s.ip = a
  stations : ∀ a t, n.stations a = some t → t.client.ip = a
  air : ∀ d ∈ n.air, Origin n d.packet
  answered : ∀ r ∈ n.answered, (n.servers r.server).isSome = true ∧ (r.client, r.server, r.metadataType) ∈ n.asked
  listed : ∀ a t, n.stations a = some t → ∀ server ∈ t.client.nodes.map Node.addr, (n.servers server).isSome = true
  honest : n.Honest

variable {n n' : Net} {e : NetEvent} {s : Server} {c : Client} {t t' : Station} {a server : Addr} {value : List UInt8} {host : Host}
  {totLen id tid : UInt16} {saddr daddr : Addr} {msgType payloadLength : UInt8} {payload : List UInt8} {packet : List UInt8}

/-! ## What the programs do with a packet of another program -/

/-- A server leaves a packet alone that is no query or not for its address. -/
theorem handle_other (s : Server) (host : Host) (id' : UInt16) (before : Nat → UInt8) (h : ¬(msgType = queryType ∧ daddr = s.ip)) :
    (s.handle host id').run (overlay (cldpPacket totLen id saddr daddr msgType payloadLength tid payload) before) = (s, none) := by
  generalize hpacket : cldpPacket totLen id saddr daddr msgType payloadLength tid payload = l
  have hlen : 28 ≤ l.length := by
    rw [← hpacket, length_cldpPacket]
    omega
  have hp : l.getD 9 0 = cldpProtocol := by rw [← hpacket, protocol_cldpPacket]
  have hv : Verifies l := by
    rw [← hpacket]
    exact verifies_cldpPacket
  have ht : l.getD 20 0 = msgType := by rw [← hpacket, msgType_cldpPacket]
  have hd : addrAt l 16 = daddr := by rw [← hpacket, daddr_cldpPacket]
  have h0 := holds_only l
  have h1 := holds_only (putWord l 10 0)
  have hlen1 : 28 ≤ (putWord l 10 0).length := by rw [length_putWord]; exact hlen
  have htype := byte_known h1 (by omega : 20 < _)
  rw [getD_putWord (by decide), ht] at htype
  have hdaddr := loadAddr_known h1 (by omega : 16 + 4 ≤ _)
  rw [addrAt_putWord (by decide), hd] at hdaddr
  have hrun : (s.handle host id').runKnown (only l) = some ((s, none), only (putWord l 10 0)) := by
    rw [Server.handle, runKnown_bind, byte_known h0 (by omega), Option.bind_some, hp, if_neg (not_not.2 rfl), runKnown_bind,
      headerVerifies_known (by omega), Option.bind_some, decide_eq_true hv, if_neg (Ne.symm Bool.false_ne_true), runKnown_bind, htype,
      Option.bind_some]
    by_cases hquery : msgType = queryType
    · have hother : s.ip ≠ daddr := fun heq => h ⟨hquery, heq.symm⟩
      rw [if_neg (not_not.2 hquery), runKnown_bind, hdaddr, Option.bind_some, if_pos hother]
      rfl
    · rw [if_pos hquery]
      rfl
  rw [run_overlay hrun]

/-- A client prints metadata of a response only, and of one that is for its address and from another that it has found. -/
theorem accepts_of_printed (before : Nat → UInt8)
    (h : Output.metadata server value ∈
      c.processResponse.run (overlay (cldpPacket totLen id saddr daddr msgType payloadLength tid payload) before)) :
    msgType = responseType ∧ daddr = c.ip ∧ saddr ≠ c.ip ∧ saddr ∈ c.nodes.map Node.addr := by
  by_contra hno
  have hlen : 28 ≤ (cldpPacket totLen id saddr daddr msgType payloadLength tid payload).length := by
    rw [length_cldpPacket]
    omega
  obtain ⟨r, hr, hnone⟩ := processResponse_other (c := c) server value hlen fun ha => by
    obtain ⟨hd, -, -, hs, hn, ht⟩ := ha
    rw [daddr_cldpPacket] at hd
    rw [saddr_cldpPacket] at hs hn
    rw [msgType_cldpPacket] at ht
    exact hno ⟨ht, hd, hs, hn⟩
  rw [run_overlay hr] at h
  exact hnone h

/-- A server keeps its address, whatever it receives. -/
theorem returns_handle (s : Server) (host : Host) (id' : UInt16) : (s.handle host id').Returns fun r => r.1.ip = s.ip := by
  have htake : s.takeTransactionId.Returns fun s' => s'.ip = s.ip := by
    unfold Server.takeTransactionId
    split
    · exact returns_of_rest fun _ => .done _ rfl
    · exact .done s rfl
  have hanswer : (s.answer host id').Returns fun r => r.1.ip = s.ip := by
    unfold Server.answer
    refine returns_of_rest fun metadataType => ?_
    dsimp only
    iterate 9 refine returns_of_rest fun _ => ?_
    refine returns_bind htake fun s' hs' => ?_
    iterate 4 refine returns_of_rest fun _ => ?_
    exact .done _ hs'
  unfold Server.handle
  refine returns_of_rest fun protocol => ?_
  split
  · exact .done _ rfl
  · refine returns_of_rest fun verified => ?_
    split
    · exact .done _ rfl
    · refine returns_of_rest fun type => ?_
      split
      · exact .done _ rfl
      · refine returns_of_rest fun daddr => ?_
        split
        · exact .done _ rfl
        · exact hanswer

/-! ## One event -/

/-- What an event leaves as it was, or makes more of. -/
structure Net.Grows (n n' : Net) : Prop where
  servers : ∀ a, (n.servers a).isSome = true → (n'.servers a).isSome = true
  asked : ∀ x ∈ n.asked, x ∈ n'.asked
  answered : ∀ r ∈ n.answered, r ∈ n'.answered

theorem Origin.grow (hg : n.Grows n') (h : Origin n packet) : Origin n' packet := by
  cases h with
  | hello server id tid h => exact .hello server id tid (hg.servers server h)
  | query client server id tid metadataType h => exact .query client server id tid metadataType (hg.asked _ h)
  | response r totLen id tid h => exact .response r totLen id tid (hg.answered r h)

/-- What was printed stays so. -/
theorem Net.Honest.grow (h : n.Honest) (hg : n.Grows n')
    (hs : ∀ a t', n'.stations a = some t' → (∃ t, n.stations a = some t ∧ t.printed = t'.printed ∧
      ∀ x ∈ t.client.nodes.map Node.addr, x ∈ t'.client.nodes.map Node.addr) ∨ t'.printed = []) : n'.Honest := by
  intro a t' server value ht' hprinted
  rcases hs a t' ht' with ⟨t, ht, hsame, hnodes⟩ | hnone
  · obtain ⟨hne, hlisted, hruns, r, hr, hserver, hclient, hasked, hvalue⟩ := h a t server value ht (hsame ▸ hprinted)
    exact ⟨hne, hnodes server hlisted, hg.servers server hruns, r, hg.answered r hr, hserver, hclient, hg.asked _ hasked, hvalue⟩
  · rw [hnone] at hprinted
    cases hprinted

/-- What a server does with what is on the network: nothing, or it answers a query that is for its address. -/
theorem handle_origin (ho : Origin n packet) (s : Server) (host : Host) (id' : UInt16) (before : Nat → UInt8) :
    ∃ s' reply, (s.handle host id').run (overlay packet before) = (s', reply) ∧ s'.ip = s.ip ∧ ∀ d, reply = some d →
      (addrAt packet 12, s.ip, packet.getD 28 0) ∈ n.asked ∧ ∃ totLen id tid, d.packet = cldpPacket totLen id s.ip (addrAt packet 12)
        responseType (host.value (packet.getD 28 0)).bytes.length.toUInt8 tid (host.value (packet.getD 28 0)).bytes := by
  have hip := returns_run (returns_handle s host id') (overlay packet before)
  cases ho with
  | hello server id tid h =>
    have hnone : ¬(helloType = queryType ∧ broadcast = s.ip) := fun h => absurd h.1 (by decide)
    exact ⟨s, none, handle_other s host id' before hnone, rfl, by simp⟩
  | response r totLen id tid h =>
    have hnone : ¬(responseType = queryType ∧ r.client = s.ip) := fun h => absurd h.1 (by decide)
    exact ⟨s, none, handle_other s host id' before hnone, rfl, by simp⟩
  | query client server id tid metadataType h =>
    by_cases hown : server = s.ip
    · subst hown
      obtain ⟨s', hrun⟩ := handle_cldpPacket s host 29 id id' tid client metadataType before
      rw [hrun] at hip
      refine ⟨s', _, hrun, hip, ?_⟩
      intro d hd
      obtain rfl := Option.some.inj hd
      exact ⟨h, _, _, _, rfl⟩
    · exact ⟨s, none, handle_other s host id' before fun h => hown h.2, rfl, by simp⟩

/-- A client prints metadata of a response that is for it only, and that response has been given. -/
theorem printed_origin (ho : Origin n packet) (before : Nat → UInt8)
    (h : Output.metadata server value ∈ c.processResponse.run (overlay packet before)) :
    server ≠ c.ip ∧ server ∈ c.nodes.map Node.addr ∧
      ∃ r ∈ n.answered, r.server = server ∧ r.client = c.ip ∧ value = (r.host.value r.metadataType).bytes := by
  cases ho with
  | hello server' id tid h' => exact absurd (accepts_of_printed before h).1 (by decide)
  | query client server' id tid metadataType h' => exact absurd (accepts_of_printed before h).1 (by decide)
  | response r totLen id tid hr =>
    obtain ⟨-, hclient, hne, hlisted⟩ := accepts_of_printed before h
    rw [hclient] at h
    rw [processResponse_cldpPacket (r.host.value r.metadataType) hne hlisted before, List.mem_singleton, Output.metadata.injEq] at h
    rw [h.1, h.2]
    exact ⟨hne, hlisted, r, hr, rfl, hclient, rfl⟩

/-- A HELLO that a client hears is one of a server that runs. -/
theorem hello_origin (ho : Origin n packet) (hhello : IsHello packet) : (n.servers (addrAt packet 12)).isSome = true := by
  cases ho with
  | hello server id tid h => exact h
  | query client server id tid metadataType h =>
    have htype : queryType = helloType := msgType_cldpPacket.symm.trans hhello.2.2
    exact absurd htype (by decide)
  | response r totLen id tid h =>
    have htype : responseType = helloType := msgType_cldpPacket.symm.trans hhello.2.2
    exact absurd htype (by decide)

theorem isSome_update {α : Type} {f : Addr → Option α} {b : Addr} (x : α) (h : (f b).isSome = true) :
    (update f a (some x) b).isSome = true := by
  by_cases hab : b = a
  · subst hab
    rw [update_self]
    rfl
  · rw [update_of_ne hab]
    exact h

/-- A change of one client keeps the invariant if the client does: its address, servers that run on its list, and what it has printed.
-/
theorem inv_station (hi : n.Inv) (ht : n.stations a = some t) (hip : t'.client.ip = t.client.ip)
    (hnodes : ∀ x ∈ t.client.nodes.map Node.addr, x ∈ t'.client.nodes.map Node.addr)
    (hlisted : ∀ x ∈ t'.client.nodes.map Node.addr, (n.servers x).isSome = true)
    (hprinted : ∀ server value, .metadata server value ∈ t'.printed → .metadata server value ∈ t.printed ∨
      server ≠ a ∧ server ∈ t.client.nodes.map Node.addr ∧
        ∃ r ∈ n.answered, r.server = server ∧ r.client = a ∧ value = (r.host.value r.metadataType).bytes) :
    ({ n with stations := update n.stations a (some t') } : Net).Inv := by
  have hgrows : n.Grows { n with stations := update n.stations a (some t') } := ⟨fun _ h => h, fun _ h => h, fun _ h => h⟩
  refine ⟨hi.servers, ?_, fun d hd => (hi.air d hd).grow hgrows, hi.answered, ?_, ?_⟩
  · intro b u hu
    dsimp only at hu
    by_cases hab : b = a
    · subst hab
      rw [update_self] at hu
      obtain rfl := Option.some.inj hu
      exact hip.trans (hi.stations b t ht)
    · rw [update_of_ne hab] at hu
      exact hi.stations b u hu
  · intro b u hu
    dsimp only at hu
    by_cases hab : b = a
    · subst hab
      rw [update_self] at hu
      obtain rfl := Option.some.inj hu
      exact hlisted
    · rw [update_of_ne hab] at hu
      exact hi.listed b u hu
  · intro b u server value hu hmem
    dsimp only at hu
    by_cases hab : b = a
    · subst hab
      rw [update_self] at hu
      obtain rfl := Option.some.inj hu
      rcases hprinted server value hmem with hold | ⟨hne, hserver, r, hr, hrserver, hclient, hvalue⟩
      · obtain ⟨hne, hserver, hrest⟩ := hi.honest b t server value ht hold
        exact ⟨hne, hnodes server hserver, hrest⟩
      · obtain ⟨hruns, hasked⟩ := hi.answered r hr
        rw [hrserver] at hruns hasked
        rw [hclient] at hasked
        exact ⟨hne, hnodes server hserver, hruns, r, hr, hrserver, hclient, hasked, hvalue⟩
    · rw [update_of_ne hab] at hu
      exact hi.honest b u server value hu hmem

/-- More on the network, and more that has been asked, keeps the invariant. -/
theorem inv_sent (ds : List Datagram) (qs : List (Addr × Addr × UInt8)) (hi : n.Inv)
    (hds : ∀ d ∈ ds, Origin { n with air := n.air ++ ds, asked := n.asked ++ qs } d.packet) :
    ({ n with air := n.air ++ ds, asked := n.asked ++ qs } : Net).Inv := by
  have hgrows : n.Grows { n with air := n.air ++ ds, asked := n.asked ++ qs } :=
    ⟨fun _ h => h, fun _ h => List.mem_append_left _ h, fun _ h => h⟩
  refine ⟨hi.servers, hi.stations, ?_, ?_, hi.listed, ?_⟩
  · intro d hd
    rcases List.mem_append.1 hd with hd | hd
    · exact (hi.air d hd).grow hgrows
    · exact hds d hd
  · intro r hr
    obtain ⟨hruns, hasked⟩ := hi.answered r hr
    exact ⟨hruns, List.mem_append_left _ hasked⟩
  · exact hi.honest.grow hgrows fun b u hu => Or.inl ⟨u, hu, rfl, fun _ hx => hx⟩

/-- A server receives a packet. -/
theorem inv_served {before : Nat → UInt8} {id' : UInt16} (hi : n.Inv) (hs : n.servers a = some s) (ho : Origin n packet) :
    (n.served a packet host ((s.handle host id').run (overlay packet before))).Inv := by
  obtain ⟨s', reply, hrun, hip, hreply⟩ := handle_origin ho s host id' before
  rw [hrun]
  have hown : s.ip = a := hi.servers a s hs
  have hservers : ∀ b u, update n.servers a (some s') b = some u → u.ip = b := by
    intro b u hu
    by_cases hab : b = a
    · subst hab
      rw [update_self] at hu
      obtain rfl := Option.some.inj hu
      exact hip.trans hown
    · rw [update_of_ne hab] at hu
      exact hi.servers b u hu
  cases reply with
  | none =>
    have hgrows : n.Grows (n.served a packet host (s', none)) := ⟨fun _ h => isSome_update s' h, fun _ h => h, fun _ h => h⟩
    refine ⟨hservers, hi.stations, fun d hd => (hi.air d hd).grow hgrows, ?_,
      fun b u hu x hx => isSome_update s' (hi.listed b u hu x hx), ?_⟩
    · intro r hr
      obtain ⟨hruns, hasked⟩ := hi.answered r hr
      exact ⟨isSome_update s' hruns, hasked⟩
    · exact hi.honest.grow hgrows fun b u hu => Or.inl ⟨u, hu, rfl, fun _ hx => hx⟩
  | some d =>
    obtain ⟨hasked, totLen, id, tid, hpacket⟩ := hreply d rfl
    have hgrows : n.Grows (n.served a packet host (s', some d)) :=
      ⟨fun _ h => isSome_update s' h, fun _ h => h, fun _ h => List.mem_append_left _ h⟩
    have hnew : (⟨s'.ip, addrAt packet 12, packet.getD 28 0, host⟩ : Answer) ∈ (n.served a packet host (s', some d)).answered :=
      List.mem_append_right _ (List.mem_singleton_self _)
    refine ⟨hservers, hi.stations, ?_, ?_, fun b u hu x hx => isSome_update s' (hi.listed b u hu x hx), ?_⟩
    · intro d' hd'
      rcases List.mem_append.1 hd' with hd' | hd'
      · exact (hi.air d' hd').grow hgrows
      · obtain rfl := List.mem_singleton.1 hd'
        rw [hpacket, ← hip]
        have hresponse := Origin.response ⟨s'.ip, addrAt packet 12, packet.getD 28 0, host⟩ totLen id tid hnew
        exact hresponse
    · intro r hr
      rcases List.mem_append.1 hr with hr | hr
      · obtain ⟨hruns, hasked⟩ := hi.answered r hr
        exact ⟨isSome_update s' hruns, hasked⟩
      · obtain rfl := List.mem_singleton.1 hr
        refine ⟨?_, hip ▸ hasked⟩
        change (update n.servers a (some s') s'.ip).isSome = true
        rw [hip, hown, update_self]
        rfl
    · exact hi.honest.grow hgrows fun b u hu => Or.inl ⟨u, hu, rfl, fun _ hx => hx⟩

/-- Every event keeps the invariant. -/
theorem net_step (hi : n.Inv) (h : n.step e = some n') : n'.Inv := by
  cases e with
  | runServer a =>
    obtain ⟨hnone, ⟨⟩⟩ := Option.ite_none_right_eq_some.1 h
    have hgrows : n.Grows { n with servers := update n.servers a (some ⟨a, 0⟩) } :=
      ⟨fun _ h => isSome_update _ h, fun _ h => h, fun _ h => h⟩
    refine ⟨?_, hi.stations, fun d hd => (hi.air d hd).grow hgrows, ?_, fun b u hu x hx => isSome_update _ (hi.listed b u hu x hx),
      hi.honest.grow hgrows fun b u hu => Or.inl ⟨u, hu, rfl, fun _ hx => hx⟩⟩
    · intro b u hu
      dsimp only at hu
      by_cases hab : b = a
      · subst hab
        rw [update_self] at hu
        obtain rfl := Option.some.inj hu
        rfl
      · rw [update_of_ne hab] at hu
        exact hi.servers b u hu
    · intro r hr
      obtain ⟨hruns, hasked⟩ := hi.answered r hr
      exact ⟨isSome_update _ hruns, hasked⟩
  | runClient a =>
    obtain ⟨hnone, ⟨⟩⟩ := Option.ite_none_right_eq_some.1 h
    have hgrows : n.Grows { n with stations := update n.stations a (some ⟨⟨a, []⟩, true, []⟩) } :=
      ⟨fun _ h => h, fun _ h => h, fun _ h => h⟩
    -- the new client has found and printed nothing
    have hcases : ∀ b u, update n.stations a (some ⟨⟨a, []⟩, true, []⟩) b = some u →
        (b = a ∧ u = ⟨⟨a, []⟩, true, []⟩) ∨ n.stations b = some u := by
      intro b u hu
      by_cases hab : b = a
      · subst hab
        rw [update_self] at hu
        exact Or.inl ⟨rfl, (Option.some.inj hu).symm⟩
      · rw [update_of_ne hab] at hu
        exact Or.inr hu
    refine ⟨hi.servers, ?_, fun d hd => (hi.air d hd).grow hgrows, hi.answered, ?_, hi.honest.grow hgrows ?_⟩
    · intro b u hu
      rcases hcases b u hu with ⟨rfl, rfl⟩ | hold
      · rfl
      · exact hi.stations b u hold
    · intro b u hu x hx
      rcases hcases b u hu with ⟨rfl, rfl⟩ | hold
      · cases hx
      · exact hi.listed b u hold x hx
    · intro b u hu
      rcases hcases b u hu with ⟨rfl, rfl⟩ | hold
      · exact Or.inr rfl
      · exact Or.inl ⟨u, hold, rfl, fun _ hx => hx⟩
  | hello a id drawn =>
    obtain ⟨s, hs, rfl⟩ := Option.map_eq_some_iff.1 h
    have hsent := inv_sent [s.sendHello id drawn] [] hi ?_
    · rw [List.append_nil] at hsent
      exact hsent
    · intro d hd
      obtain rfl := List.mem_singleton.1 hd
      exact .hello s.ip id _ (by rw [hi.servers a s hs, hs]; rfl)
  | serve a k host id before =>
    simp only [Net.step] at h
    split at h
    · rename_i s d hs hd
      cases h
      exact inv_served hi hs (hi.air d (List.mem_of_getElem? hd))
    · cases h
  | discover a k =>
    simp only [Net.step] at h
    split at h
    · rename_i t d ht hd
      obtain ⟨-, ⟨⟩⟩ := Option.ite_none_right_eq_some.1 h
      have ho := hi.air d (List.mem_of_getElem? hd)
      refine inv_station hi ht rfl (fun x hx => mem_discoverPacket.2 (Or.inl hx)) ?_ (fun _ _ hp => Or.inl hp)
      intro x hx
      rcases mem_discoverPacket.1 hx with hold | ⟨hhello, rfl⟩
      · exact hi.listed a t ht x hold
      · exact hello_origin ho hhello
    · cases h
  | found a =>
    obtain ⟨t, ht, rfl⟩ := Option.map_eq_some_iff.1 h
    exact inv_station hi ht rfl (fun _ hx => hx) (hi.listed a t ht) (fun _ _ hp => Or.inl hp)
  | query a q =>
    simp only [Net.step] at h
    split at h
    · rename_i t ht
      obtain ⟨-, ⟨⟩⟩ := Option.ite_none_left_eq_some.1 h
      have hsent := inv_sent (t.client.sendQuery q.metadataType q.draws).2
        (t.client.nodes.map fun x => (t.client.ip, x.addr, q.metadataType)) hi ?_
      · refine inv_station hsent ht rfl ?_ ?_ (fun _ _ hp => Or.inl hp)
        · intro x hx
          rw [map_addr_sendQuery]
          exact hx
        · intro x hx
          rw [map_addr_sendQuery] at hx
          exact hi.listed a t ht x hx
      · intro d hd
        obtain ⟨x, hx, drawn, id, -, rfl⟩ := mem_sendQuery hd
        exact .query t.client.ip x.addr _ _ q.metadataType (List.mem_append_right _ (List.mem_map.2 ⟨x, hx, rfl⟩))
    · cases h
  | receive a k before =>
    simp only [Net.step] at h
    split at h
    · rename_i t d ht hd
      obtain ⟨-, ⟨⟩⟩ := Option.ite_none_left_eq_some.1 h
      have ho := hi.air d (List.mem_of_getElem? hd)
      refine inv_station hi ht rfl (fun _ hx => hx) (hi.listed a t ht) ?_
      intro server value hp
      rcases List.mem_append.1 hp with hp | hp
      · exact Or.inl hp
      · obtain ⟨hne, hlisted, r, hr, hserver, hclient, hvalue⟩ := printed_origin ho before hp
        have hip := hi.stations a t ht
        exact Or.inr ⟨hip ▸ hne, hlisted, r, hr, hserver, hclient.trans hip, hvalue⟩
    · cases h

theorem net_begin : Net.begin.Inv := by
  refine ⟨?_, ?_, fun d hd => absurd hd List.not_mem_nil, fun r hr => absurd hr List.not_mem_nil, ?_, ?_⟩
  · intro a s hs
    cases hs
  · intro a t ht
    cases ht
  · intro a t ht
    cases ht
  · intro a t server value ht
    cases ht

/-- What clients print is what servers have given. In every run of a network of servers and clients, with loss, duplicates and any
order, and values that change: all metadata that a client has printed is of another address that it has found, where a server runs
that has given this value in answer to a query of this client for it. -/
theorem printed_given (es : List NetEvent) : Always Net.step Net.Honest .begin es :=
  (always_of_kept (fun _ _ _ => net_step) net_begin).imp fun _ hi => hi.honest

end NetLabs.Cldp
