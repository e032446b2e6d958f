import NetLabs.Cldp.Network

/-!
# Which servers a client can still print

A client looks for servers once, at its beginning. While it does, any server can get on its list; afterwards it can print the metadata
of those on the list, and of no other, whatever else happens on the network. Its own address it never prints. -/

namespace NetLabs.Cldp

open Buffer Prog Function Machine

/-- Some run leads to a state in which client `a` has printed metadata of `server`. -/
def Net.CanPrint (n : Net) (a server : Addr) : Prop :=
  CanReach Net.step (fun n => ∃ t value, n.stations a = some t ∧ .metadata server value ∈ t.printed) n

variable {n n' : Net} {e : NetEvent} {t : Station} {a server : Addr}

/-! ## A client that has ended its search -/

/-- Client `a` has ended its search without `server`. -/
def Net.Missed (n : Net) (a server : Addr) : Prop :=
  ∃ t, n.stations a = some t ∧ t.searching = false ∧ server ∉ t.client.nodes.map Node.addr

/-- A change of another client, or one that leaves the list and the search as they are, is none for it. -/
theorem missed_update {b : Addr} {u u' : Station} (h : n.Missed a server) (hu : n.stations b = some u)
    (hs : n'.stations = update n.stations b (some u')) (hsearch : u'.searching = false ∨ u'.searching = u.searching)
    (hnodes : u.searching = false → u'.client.nodes.map Node.addr = u.client.nodes.map Node.addr) : n'.Missed a server := by
  obtain ⟨t, ht, hdone, hmissed⟩ := h
  rw [Net.Missed, hs]
  by_cases hab : a = b
  · subst hab
    obtain rfl := Option.some.inj (ht.symm.trans hu)
    refine ⟨u', update_self .., ?_, by rw [hnodes hdone]; exact hmissed⟩
    rcases hsearch with hsearch | hsearch
    · exact hsearch
    · exact hsearch.trans hdone
  · exact ⟨t, by rw [update_of_ne hab]; exact ht, hdone, hmissed⟩

theorem missed_step (hm : n.Missed a server) (h : n.step e = some n') : n'.Missed a server := by
  cases e with
  | runServer b =>
    obtain ⟨-, ⟨⟩⟩ := Option.ite_none_right_eq_some.1 h
    exact hm
  | runClient b =>
    obtain ⟨hnone, ⟨⟩⟩ := Option.ite_none_right_eq_some.1 h
    obtain ⟨t, ht, hrest⟩ := hm
    have hab : a ≠ b := by
      rintro rfl
      rw [ht] at hnone
      cases hnone
    exact ⟨t, (update_of_ne hab _ _).trans ht, hrest⟩
  | hello b id drawn =>
    obtain ⟨s, -, rfl⟩ := Option.map_eq_some_iff.1 h
    exact hm
  | serve b k host id before =>
    simp only [Net.step] at h
    split at h
    · cases h
      rename_i s d _ _
      generalize (s.handle host id).run (overlay d.packet before) = r
      obtain ⟨s', reply⟩ := r
      cases reply <;> exact hm
    · cases h
  | discover b k =>
    simp only [Net.step] at h
    split at h
    · rename_i u d hu hd
      obtain ⟨hsearching, ⟨⟩⟩ := Option.ite_none_right_eq_some.1 h
      refine missed_update hm hu rfl (Or.inr rfl) fun hdone => ?_
      rw [hsearching] at hdone
      cases hdone
    · cases h
  | found b =>
    obtain ⟨u, hu, rfl⟩ := Option.map_eq_some_iff.1 h
    exact missed_update hm hu rfl (Or.inl rfl) fun _ => rfl
  | query b q =>
    simp only [Net.step] at h
    split at h
    · rename_i u hu
      obtain ⟨-, ⟨⟩⟩ := Option.ite_none_left_eq_some.1 h
      exact missed_update hm hu rfl (Or.inr rfl) fun _ => map_addr_sendQuery u.client q.metadataType q.draws
    · cases h
  | receive b k before =>
    simp only [Net.step] at h
    split at h
    · rename_i u d hu hd
      obtain ⟨-, ⟨⟩⟩ := Option.ite_none_left_eq_some.1 h
      exact missed_update hm hu rfl (Or.inr rfl) fun _ => rfl
    · cases h

/-- It never prints that server. -/
theorem not_canPrint_of_missed (hi : n.Inv) (hm : n.Missed a server) : ¬n.CanPrint a server := by
  refine not_canReach (I := fun n => n.Inv ∧ n.Missed a server)
    (fun n e n' hi h => ⟨net_step hi.1 h, missed_step hi.2 h⟩) ?_ ⟨hi, hm⟩
  rintro n ⟨hi, t, ht, -, hmissed⟩ ⟨u, value, hu, hprinted⟩
  obtain rfl := Option.some.inj (ht.symm.trans hu)
  exact hmissed (hi.honest a t server value ht hprinted).2.1

/-- No client prints its own address. -/
theorem not_canPrint_self (hi : n.Inv) : ¬n.CanPrint a a := by
  refine not_canReach (fun n e n' hi h => net_step hi h) ?_ hi
  rintro n hi ⟨u, value, hu, hprinted⟩
  exact (hi.honest a u a value hu hprinted).1 rfl

/-! ## A client that can -/

/-- What a host may give. -/
def someHost : Host := ⟨invalidQuery, invalidQuery, invalidQuery⟩

/-- A client that has ended its search asks a server that it has found, the server answers, and the client prints that. -/
theorem canPrint_of_found (hi : n.Inv) (ht : n.stations a = some t) (hdone : t.searching = false)
    (hlisted : server ∈ t.client.nodes.map Node.addr) (hne : server ≠ a) : n.CanPrint a server := by
  have hip := hi.stations a t ht
  obtain ⟨s, hs⟩ := Option.isSome_iff_exists.1 (hi.listed a t ht server hlisted)
  have hown := hi.servers server s hs
  -- the query
  let q : Call := ⟨1, fun _ => (1, 1)⟩
  obtain ⟨x, hx, hxaddr⟩ := List.mem_map.1 hlisted
  obtain ⟨i, hlt, hi'⟩ := List.getElem_of_mem hx
  let u : Station := { t with client := (t.client.sendQuery q.metadataType q.draws).1 }
  let n1 : Net := { n with
    stations := update n.stations a (some u)
    air := n.air ++ (t.client.sendQuery q.metadataType q.draws).2
    asked := n.asked ++ t.client.nodes.map fun x => (t.client.ip, x.addr, q.metadataType) }
  have hquery : n.step (.query a q) = some n1 := by
    simp only [Net.step, ht, hdone, Bool.false_eq_true, if_false, n1, u]
  have hair : n1.air[n.air.length + i]? = some ⟨server, cldpPacket 29 1 a server queryType 1 (x.queryId 1) [1]⟩ := by
    change (n.air ++ (t.client.sendQuery q.metadataType q.draws).2)[n.air.length + i]? = _
    rw [List.getElem?_append_right (Nat.le_add_right _ _), Nat.add_sub_cancel_left, Client.sendQuery, List.getElem?_mapIdx,
      List.getElem?_eq_getElem hlt, hi', ← hip, ← hxaddr]
    rfl
  -- the answer
  obtain ⟨s', hhandle⟩ := handle_cldpPacket s someHost 29 1 1 (x.queryId 1) a 1 fun _ => 0
  rw [hown] at hhandle
  generalize hreply : (⟨a, cldpPacket (28 + (someHost.value 1).bytes.length.toUInt16) 1 server a responseType
    (someHost.value 1).bytes.length.toUInt8 (x.queryId 1) (someHost.value 1).bytes⟩ : Datagram) = reply at hhandle
  let n2 : Net := n1.served server (cldpPacket 29 1 a server queryType 1 (x.queryId 1) [1]) someHost (s', some reply)
  have hserve : n1.step (.serve server (n.air.length + i) someHost 1 fun _ => 0) = some n2 := by
    have hs1 : n1.servers server = some s := hs
    simp only [Net.step, hs1, hair, hhandle, n2]
  have hair2 : n2.air[n1.air.length]? = some reply := by
    change (n1.air ++ [reply])[n1.air.length]? = _
    rw [List.getElem?_concat_length]
  have hu : n2.stations a = some u := update_self ..
  -- the output
  have hprints : u.client.processResponse.run (overlay reply.packet fun _ => 0) = [.metadata server (someHost.value 1).bytes] := by
    have huip : u.client.ip = a := hip
    have hulisted : server ∈ u.client.nodes.map Node.addr := by
      rw [map_addr_sendQuery]
      exact hlisted
    rw [← hreply, ← huip]
    exact processResponse_cldpPacket (someHost.value 1) (huip ▸ hne) hulisted _
  have hreceive : n2.step (.receive a n1.air.length fun _ => 0) = some { n2 with
      stations := update n2.stations a (some { u with printed := u.printed ++ [.metadata server (someHost.value 1).bytes] }) } := by
    have hudone : u.searching = false := hdone
    simp only [Net.step, hu, hair2, hudone, Bool.false_eq_true, if_false, hprints]
  refine .of_step hquery (.of_step hserve (.of_step hreceive (.here ?_)))
  exact ⟨_, _, update_self .., List.mem_append_right _ (List.mem_singleton_self _)⟩

/-- A server that runs gets on the list of a client that still searches. -/
theorem canPrint_of_running {s : Server} (hi : n.Inv) (ht : n.stations a = some t) (hsearching : t.searching = true)
    (hs : n.servers server = some s) (hne : server ≠ a) : n.CanPrint a server := by
  have hown := hi.servers server s hs
  let n1 : Net := { n with air := n.air ++ [s.sendHello 1 1] }
  have hhello : n.step (.hello server 1 1) = some n1 := by
    simp only [Net.step, hs, Option.map_some, n1]
  have hair : n1.air[n.air.length]? = some (s.sendHello 1 1) := List.getElem?_concat_length ..
  let u : Station := { t with client := { t.client with nodes := discoverPacket t.client.nodes (s.sendHello 1 1).packet } }
  let n2 : Net := { n1 with stations := update n1.stations a (some u) }
  have hdiscover : n1.step (.discover a n.air.length) = some n2 := by
    have ht1 : n1.stations a = some t := ht
    simp only [Net.step, ht1, hair, hsearching, if_true, n2, u]
  let v : Station := { u with searching := false }
  let n3 : Net := { n2 with stations := update n2.stations a (some v) }
  have hfound : n2.step (.found a) = some n3 := by
    have hu : n2.stations a = some u := update_self ..
    simp only [Net.step, hu, Option.map_some, n3, v]
  have hlisted : server ∈ v.client.nodes.map Node.addr := by
    have hpacket : IsHello (s.sendHello 1 1).packet := ⟨Nat.le_refl _, rfl, rfl⟩
    exact mem_discoverPacket.2 (Or.inr ⟨hpacket, hown⟩)
  have hi3 : n3.Inv := net_step (net_step (net_step hi hhello) hdiscover) hfound
  exact .of_step hhello (.of_step hdiscover (.of_step hfound (canPrint_of_found hi3 (update_self ..) rfl hlisted hne)))

/-- Which metadata a client can still print. In every state that the network can reach, for every client and every address: the client
can come to print metadata of it exactly when that is not its own address and it still searches or has found it. -/
theorem canPrint_iff (es : List NetEvent) (n : Net) (hx : exec Net.step .begin es = some n) (a server : Addr) (t : Station)
    (ht : n.stations a = some t) :
    n.CanPrint a server ↔ server ≠ a ∧ (t.searching = true ∨ server ∈ t.client.nodes.map Node.addr) := by
  have hi : n.Inv := always_of_kept (fun _ _ _ => net_step) net_begin es (List.prefix_refl es) n hx
  constructor
  · intro hprint
    refine ⟨fun heq => not_canPrint_self hi (heq ▸ hprint), ?_⟩
    by_contra hnot
    rw [not_or, Bool.not_eq_true] at hnot
    exact not_canPrint_of_missed hi ⟨t, ht, hnot⟩ hprint
  · rintro ⟨hne, hcan⟩
    by_cases hsearching : t.searching = true
    · cases hs : n.servers server with
      | some s => exact canPrint_of_running hi ht hsearching hs hne
      | none =>
        have hrun : n.step (.runServer server) = some { n with servers := update n.servers server (some ⟨server, 0⟩) } := if_pos hs
        exact .of_step hrun (canPrint_of_running (net_step hi hrun) ht hsearching (update_self ..) hne)
    · exact canPrint_of_found hi ht (Bool.not_eq_true _ ▸ hsearching) (hcan.resolve_left hsearching) hne

/-- `canPrint_iff` on a client that has ended its search before any server has started. -/
theorem canPrint_late :
    ∃ n, exec Net.step .begin [.runClient ⟨127, 0, 0, 2⟩, .found ⟨127, 0, 0, 2⟩, .runServer ⟨127, 0, 0, 1⟩] = some n ∧
      ¬n.CanPrint ⟨127, 0, 0, 2⟩ ⟨127, 0, 0, 1⟩ := by
  refine ⟨_, rfl, fun hprint => ?_⟩
  obtain ⟨-, hsearching | hlisted⟩ := (canPrint_iff
    [.runClient ⟨127, 0, 0, 2⟩, .found ⟨127, 0, 0, 2⟩, .runServer ⟨127, 0, 0, 1⟩] _ rfl
    ⟨127, 0, 0, 2⟩ ⟨127, 0, 0, 1⟩ ⟨⟨⟨127, 0, 0, 2⟩, []⟩, false, []⟩ rfl).1 hprint
  · cases hsearching
  · cases hlisted

end NetLabs.Cldp
