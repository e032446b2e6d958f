import NetLabs.Crypt.Service

/-!
# Whose key a file is encrypted with

The first `recv` of a connection decides it: with `n` bytes of the key, the other letters are those that an earlier connection has left
in the array, and the bytes that were not read come with the file. From then on nothing that another client does has a part in what the
client gets, and it gets its own file under its own key exactly if `n` is 26.
-/

namespace NetLabs.Crypt

open CText Function Marker Machine

/-- From the key on: what the server makes of `body` with `key` is on its way back, or has come; or the server waits for more of it, for
ever if it has stored the marker, which it does not see behind a NUL. -/
inductive Session.Served (key body : List UInt8) (s : Session) : Prop where
  | upload (file : List UInt8) (e : Exchange) (server : s.server = .upload key file) (current : s.client.current = [e])
      (written : s.client.written = []) (stream : file ++ (s.toServer ++ s.client.pending) = body ++ eofMarker)
      (toClient : s.toClient = []) (reset : s.reset = false) (encs : s.encs = [])
  | reply (rest enc : List UInt8) (e : Exchange) (server : s.server = .reply rest) (client : s.client = .receiving e enc)
      (toServer : s.toServer = []) (stream : enc ++ (s.toClient ++ rest) = encryptFile key body) (reset : s.reset = false)
      (encs : s.encs = [])
  | answered (enc : List UInt8) (e : Exchange) (server : s.server = .closed) (client : s.client = .receiving e enc)
      (stream : enc ++ s.toClient = encryptFile key body) (reset : s.reset = false) (encs : s.encs = [])
  | finished (server : s.server = .closed) (encs : s.encs.head? = some (encryptFile key body))

/-- The client `j` does not end, and a chunk of it has the marker in it exactly if it is the last one, at its end. Of the other clients
nothing is asked. -/
def Service.undisturbed (w : Service) (j : Nat) : Event → Prop
  | .leave i _ => i ≠ j
  | .serve m => w.serving = some j → (w.sessions j).sound m
  | _ => True

instance (w : Service) (j : Nat) (ev : Event) : Decidable (w.undisturbed j ev) :=
  match ev with
  | .leave i _ => inferInstanceAs (Decidable (i ≠ j))
  | .serve m => inferInstanceAs (Decidable (w.serving = some j → (w.sessions j).sound m))
  | .connect _ | .client _ _ | .accept | .serveEnd | .sigpipe => isTrue trivial

variable {s s' : Session} {e : Exchange} {m : Move} {w w' : Service} {ev : Event} {i j n : Nat} {key body before : List UInt8}

/-! ## The exchange -/

theorem served_send {sigpipe : Bool} (hs : s.Served key body) (h : s.step (.send sigpipe) = some s') : s'.Served key body := by
  cases sigpipe with
  | true =>
    simp only [Session.step, if_true] at h
    obtain ⟨⟨hreset, -⟩, h⟩ := Option.ite_none_right_eq_some.1 h
    cases h
    cases hs with
    | upload file e server current written stream toClient reset | reply rest enc e server client toServer stream reset
    | answered enc e server client stream reset =>
      rw [reset] at hreset
      cases hreset
    | finished server encs => exact .finished server encs
  | false =>
    obtain ⟨bytes, c, rfl, hpending, hcur, -, hwritten, -, -, hreceiving⟩ := clientSend_some h
    cases hs with
    | upload file e server current written stream toClient reset encs =>
      rw [put_open (by rw [server]; simp)]
      have hsame : s.toServer ++ bytes ++ c.pending = s.toServer ++ s.client.pending := by rw [List.append_assoc, ← hpending]
      refine .upload file e server (hcur.trans current) hwritten ?_ toClient reset encs
      change file ++ (s.toServer ++ bytes ++ c.pending) = _
      rw [hsame]
      exact stream
    | reply rest enc e server client => exact absurd client (hreceiving e enc)
    | answered enc e server client => exact absurd client (hreceiving e enc)
    | finished server encs =>
      rw [put_closed server]
      exact .finished server encs

theorem served_recv (hs : s.Served key body) (h : s.step (.recv n) = some s') : s'.Served key body := by
  simp only [Session.step] at h
  split at h
  · rename_i e enc hc
    obtain ⟨⟨hpos, -, hlen⟩, h⟩ := Option.ite_none_right_eq_some.1 h
    cases h
    cases hs with
    | upload file e' server current written stream toClient =>
      rw [toClient] at hlen
      exact absurd hlen (Nat.not_le.2 hpos)
    | reply rest enc' e' server client toServer stream reset encs =>
      obtain ⟨rfl, rfl⟩ := receiving_inj hc client
      refine .reply rest _ e server rfl toServer ?_ reset encs
      change enc ++ s.toClient.take n ++ (s.toClient.drop n ++ rest) = _
      rw [List.append_assoc, ← List.append_assoc (s.toClient.take n), List.take_append_drop]
      exact stream
    | answered enc' e' server client stream reset encs =>
      obtain ⟨rfl, rfl⟩ := receiving_inj hc client
      refine .answered _ e server rfl ?_ reset encs
      change enc ++ s.toClient.take n ++ s.toClient.drop n = _
      rw [List.append_assoc, List.take_append_drop]
      exact stream
    | finished server encs => exact .finished server encs
  · cases h

/-- The end of the exchange: the `.enc` file has all that was sent. -/
theorem served_recvEnd (hs : s.Served key body) (h : s.step .recvEnd = some s') : s'.Served key body := by
  simp only [Session.step] at h
  split at h
  · rename_i e enc hc hserver
    obtain ⟨hend, h⟩ := Option.ite_none_right_eq_some.1 h
    cases h
    cases hs with
    | upload file e' server | reply rest enc' e' server => cases hserver.symm.trans server
    | answered enc' e' server client stream reset encs =>
      obtain ⟨rfl, rfl⟩ := receiving_inj hc client
      have hempty : s.toClient = [] := hend.resolve_right (by rw [reset]; simp)
      rw [hempty, List.append_nil] at stream
      refine .finished hserver ?_
      change (s.encs ++ [enc]).head? = _
      rw [encs, stream]
      rfl
    | finished server encs =>
      refine .finished hserver ?_
      change (s.encs ++ [enc]).head? = _
      rw [List.head?_append, encs]
      rfl
  · cases h

theorem served_client (hs : s.Served key body) (hm : m.isServer = false) (h : s.step m = some s') : s'.Served key body := by
  cases m with
  | start =>
    simp only [Session.step] at h
    split at h
    · rename_i e todo hc _
      cases h
      cases hs with
      | upload file e' server current =>
        rw [hc] at current
        cases current
      | reply rest enc e' server client | answered enc e' server client => cases hc.symm.trans client
      | finished server encs => exact .finished server encs
    · cases h
  | send sigpipe => exact served_send hs h
  | recv n => exact served_recv hs h
  | recvEnd => exact served_recvEnd hs h
  | serverKey n | serverRecv n | serverSend => cases hm

/-- A chunk that is cut where it should be. -/
theorem served_serverRecv (hs : s.Served key body) (hg : s.sound (.serverRecv n))
    (h : s.step (.serverRecv n) = some s') : s'.Served key body := by
  simp only [Session.step] at h
  split at h
  · rename_i key' file hserver
    obtain ⟨⟨-, -, hlen⟩, h⟩ := Option.ite_none_right_eq_some.1 h
    cases h
    cases hs with
    | upload file' e server current written stream toClient reset encs =>
      obtain ⟨rfl, rfl⟩ := Server.upload.inj (hserver.symm.trans server)
      have hsplit : file ++ s.toServer.take n ++ (s.toServer.drop n ++ s.client.pending) = body ++ eofMarker := by
        rw [List.append_assoc, ← List.append_assoc (s.toServer.take n), List.take_append_drop]
        exact stream
      have hfind : find eofMarker (s.toServer.take n) = _ := hg
      have htake : (s.toServer.take n).length = n := List.length_take_of_le hlen
      by_cases hstore : storeChunk file (s.toServer.take n) = (file ++ s.toServer.take n, false)
      · rw [hstore]
        exact .upload _ e rfl current written hsplit toClient reset encs
      · -- the last chunk, and no NUL in it
        have hrest : s.toServer.drop n ++ s.client.pending = [] := by
          by_contra hrest
          rw [if_neg hrest] at hfind
          exact hstore (storeChunk_none hfind)
        rw [if_pos hrest] at hfind
        have hchunk : (0 : UInt8) ∉ s.toServer.take n := fun hz => hstore (storeChunk_hidden hz (by rw [htake]; exact hfind))
        rw [hrest, List.append_nil] at hsplit
        rw [storeChunk_some hchunk (by rw [htake]; exact hfind) hsplit]
        have hclient := receiving_of_pending current (List.append_eq_nil_iff.1 hrest).2
        rw [written] at hclient
        refine .reply (encryptFile key' body) [] e rfl hclient (List.append_eq_nil_iff.1 hrest).1 ?_ reset encs
        change [] ++ (s.toClient ++ encryptFile key' body) = _
        rw [toClient]
        rfl
    | reply rest enc e server | answered enc e server | finished server => cases hserver.symm.trans server
  · cases h

theorem served_server (hs : s.Served key body) (hm : m.isServer = true) (hg : s.sound m)
    (h : s.step m = some s') : s'.Served key body := by
  cases m with
  | start | send sigpipe | recv n | recvEnd => cases hm
  | serverKey n =>
    simp only [Session.step] at h
    split at h
    · rename_i old hserver
      cases hs with
      | upload file e server | reply rest enc e server | answered enc e server | finished server => cases hserver.symm.trans server
    · cases h
  | serverRecv n => exact served_serverRecv hs hg h
  | serverSend =>
    simp only [Session.step] at h
    split at h
    · rename_i rest hserver
      cases hs with
      | upload file e server | answered enc e server | finished server => cases hserver.symm.trans server
      | reply rest' enc e server client toServer stream reset encs =>
        obtain rfl := Server.reply.inj (hserver.symm.trans server)
        split at h
        · rename_i hnil
          cases h
          rw [hnil, List.append_nil] at stream
          refine .answered enc e rfl client stream ?_ encs
          change (s.reset || !s.toServer.isEmpty) = false
          rw [reset, toServer]
          rfl
        · cases h
          refine .reply _ enc e rfl client toServer ?_ reset encs
          change enc ++ (s.toClient ++ rest.take 100 ++ rest.drop 100) = _
          rw [List.append_assoc, List.take_append_drop]
          exact stream
    · cases h

/-! ## The service -/

/-- Where the service stands with client `j` since its key was taken. -/
structure Service.ServedAt (j : Nat) (key body : List UInt8) (w : Service) : Prop where
  inv : w.Inv
  made : j < w.count
  there : j ∉ w.gone
  served : (w.sessions j).Served key body

/-- What the server has taken the key of no longer waits. -/
theorem Service.ServedAt.not_waiting (hs : w.ServedAt j key body) : j ∉ w.waiting := by
  intro hw
  have hkey := hs.inv.unread j hw
  cases hs.served with
  | upload file e server | reply rest enc e server | answered enc e server | finished server => cases hkey.symm.trans server

/-- No other client and nothing that the server does for one has a part in it. -/
theorem servedAt_step (hs : w.ServedAt j key body) (hg : w.undisturbed j ev) (h : w.step ev = some w') :
    w'.ServedAt j key body := by
  have hinv := service_step_inv hs.inv ev h
  have hwait := hs.not_waiting
  have hother : ∀ {i : Nat} {s : Session}, j ≠ i → (update w.sessions i s j).Served key body := by
    intro i s hij
    rw [update_of_ne hij]
    exact hs.served
  cases ev with
  | connect todo =>
    obtain ⟨-, h⟩ := Option.ite_none_right_eq_some.1 h
    cases h
    exact ⟨hinv, Nat.lt_succ_of_lt hs.made, hs.there, hother (Nat.ne_of_lt hs.made)⟩
  | leave i arriving =>
    obtain ⟨-, h⟩ := Option.ite_none_right_eq_some.1 h
    cases h
    have hij : j ≠ i := fun e => hg e.symm
    refine ⟨hinv, hs.made, fun hgone => ?_, hother hij⟩
    rcases Finset.mem_insert.1 hgone with e | hgone
    · exact hij e
    · exact hs.there hgone
  | client i m =>
    obtain ⟨⟨-, -, hm⟩, h⟩ := Option.ite_none_right_eq_some.1 h
    obtain ⟨s, hstep, rfl⟩ := Option.map_eq_some_iff.1 h
    refine ⟨hinv, hs.made, hs.there, ?_⟩
    by_cases hij : j = i
    · subst hij
      dsimp only
      rw [update_self]
      exact served_client hs.served hm hstep
    · exact hother hij
  | accept =>
    simp only [Service.step] at h
    split at h
    · rename_i i rest _ hw
      cases h
      refine ⟨hinv, hs.made, hs.there, hother ?_⟩
      rintro rfl
      exact hwait (hw ▸ List.mem_cons_self)
    · cases h
  | serve m =>
    simp only [Service.step] at h
    split at h
    · rename_i i hserving
      obtain ⟨hm, h⟩ := Option.ite_none_right_eq_some.1 h
      obtain ⟨s, hstep, rfl⟩ := Option.map_eq_some_iff.1 h
      refine ⟨hinv, hs.made, hs.there, ?_⟩
      by_cases hij : j = i
      · subst hij
        change (update w.sessions j s j).Served key body
        rw [update_self]
        exact served_server hs.served hm (hg hserving) hstep
      · exact hother hij
    · cases h
  | serveEnd =>
    simp only [Service.step] at h
    split at h
    · rename_i i hserving
      obtain ⟨⟨hgone, -⟩, h⟩ := Option.ite_none_right_eq_some.1 h
      obtain ⟨s, -, rfl⟩ := Option.map_eq_some_iff.1 h
      refine ⟨hinv, hs.made, hs.there, hother ?_⟩
      rintro rfl
      exact hs.there hgone
    · cases h
  | sigpipe =>
    simp only [Service.step] at h
    split at h
    · rename_i i hserving
      split at h
      · obtain ⟨hgone, h⟩ := Option.ite_none_right_eq_some.1 h
        cases h
        refine ⟨hinv, hs.made, hs.there, ?_⟩
        have hnot : ¬w.Holds j := by
          rintro (hj | hj)
          · obtain rfl := Option.some.inj (hserving.symm.trans hj)
            exact hs.there hgone
          · exact hwait hj
        dsimp only
        rw [if_neg hnot]
        exact hs.served
      · cases h
    · cases h

/-- The first `recv` of a connection. -/
theorem servedAt_serverKey (hi : w.Inv) (hj : w.serving = some j) (hthere : j ∉ w.gone) (h : w.step (.serve (.serverKey n)) = some w') :
    ∃ e, (w.sessions j).client.current = [e] ∧ n ≤ 26 ∧
      w'.ServedAt j (receiveKey w.key (e.key.take n)) (e.key.drop n ++ e.file) := by
  have hinv := service_step_inv hi _ h
  have hopen := hi.opened j (Or.inl hj)
  simp only [Service.step, hj] at h
  obtain ⟨s, hstep, rfl⟩ := Option.map_eq_some_iff.1 ((Option.ite_none_right_eq_some.1 h).2)
  simp only [Session.step] at hstep
  split at hstep
  · rename_i old hserver
    obtain ⟨⟨hpos, hle, hlen⟩, hstep⟩ := Option.ite_none_right_eq_some.1 hstep
    cases hstep
    obtain rfl := hi.array j hj old hserver
    obtain ⟨idle, asks, toClient, encs⟩ := hopen.untaken hthere w.key hserver
    have hready : (w.sessions j).client ≠ .ready := by
      intro hready
      rw [idle hready] at hlen
      exact absurd hlen (Nat.not_le.2 hpos)
    obtain ⟨e, current, written, stream⟩ := asks hready
    have hkey : n ≤ e.key.length := by rw [e.key_length]; exact hle
    have hsplit : (w.sessions j).toServer.take n ++ ((w.sessions j).toServer.drop n ++ (w.sessions j).client.pending) =
        e.key.take n ++ (e.key.drop n ++ (e.file ++ eofMarker)) := by
      rw [← List.append_assoc, List.take_append_drop, ← List.append_assoc (e.key.take n), List.take_append_drop]
      exact stream
    obtain ⟨htake, hrest⟩ := List.append_inj hsplit (by rw [List.length_take_of_le hlen, List.length_take_of_le hkey])
    refine ⟨e, current, hle, hinv, hi.made j (Or.inl hj), hthere, ?_⟩
    change (update w.sessions j _ j).Served _ _
    rw [update_self, htake]
    refine .upload [] e rfl current written ?_ toClient hopen.reset encs
    rw [List.append_assoc]
    exact hrest
  · cases hstep

/-- What the client has, once it has its file. -/
theorem Service.ServedAt.enc_eq {enc : List UInt8} (hs : w.ServedAt j key body) (henc : enc ∈ (w.sessions j).encs.head?) :
    enc = encryptFile key body := by
  cases hs.served with
  | upload file e server current written stream toClient reset encs | reply rest enc' e server client toServer stream reset encs
  | answered enc' e server client stream reset encs =>
    rw [encs] at henc
    cases henc
  | finished server encs =>
    rw [encs] at henc
    exact (Option.some.inj henc).symm

/-- It is its own file under its own key only if no byte of the key has come with the file. -/
theorem own_file_iff {old : List UInt8} (hn : n ≤ 26)
    (hnul : (0 : UInt8) ∉ (e.key.drop n ++ e.file).map (substitute (receiveKey old (e.key.take n)))) :
    encryptFile (receiveKey old (e.key.take n)) (e.key.drop n ++ e.file) = e.encrypted ↔ n = 26 := by
  rw [encryptFile_eq hnul, Exchange.encrypted]
  constructor
  · intro h
    have hlen := congrArg List.length h
    rw [List.length_map, List.length_map, List.length_append, List.length_drop, e.key_length] at hlen
    omega
  · rintro rfl
    have hsub : substitute (receiveKey old (e.key.take 26)) = substitute e.key := by
      refine substitute_take ?_
      rw [receiveKey, List.take_set, List.set_eq_of_length_le (by rw [List.length_take]; omega),
        List.take_append_of_le_length (by rw [List.length_take_of_le (by rw [e.key_length])]), List.take_take, Nat.min_self]
    rw [hsub, List.drop_eq_nil_of_le (by rw [e.key_length]), List.nil_append]

/-- Every run. When the first `recv` of client `j`'s connection returns `n` bytes, the `.enc` file it gets is what its first `n` letters
and the array's others make of the rest of the key and the file, whatever the other clients do; and, where that has no NUL, it is its own
exactly if `n` is 26. -/
theorem enc_from_key {es fs : List Event} {w₁ w₂ : Service} (hx : exec Service.step (.begin before) es = some w)
    (hj : w.serving = some j) (hthere : j ∉ w.gone) (hkey : w.step (.serve (.serverKey n)) = some w₁)
    (hm : Meets Service.step (fun w => w.undisturbed j) w₁ fs) (hx' : exec Service.step w₁ fs = some w₂) :
    ∃ e, (w.sessions j).client.current = [e] ∧ ∀ enc ∈ (w₂.sessions j).encs.head?,
      enc = encryptFile (receiveKey w.key (e.key.take n)) (e.key.drop n ++ e.file) ∧
        ((0 : UInt8) ∉ (e.key.drop n ++ e.file).map (substitute (receiveKey w.key (e.key.take n))) →
          (enc = e.encrypted ↔ n = 26)) := by
  have hi : w.Inv := always_of_kept (fun _ ev _ hi hs => service_step_inv hi ev hs) (service_begin_inv before) es (List.prefix_refl es)
    w hx
  obtain ⟨e, current, hle, hserved⟩ := servedAt_serverKey hi hj hthere hkey
  refine ⟨e, current, fun enc henc => ?_⟩
  have hend := exec_invariant (fun _ _ _ hs hg h => servedAt_step hs hg h) hserved hm hx'
  obtain rfl := hend.enc_eq henc
  exact ⟨rfl, own_file_iff hle⟩

/-- The letter Z with the key that leaves every letter as it is. -/
def letterZ : Exchange := ⟨text "Z", text "ABCDEFGHIJKLMNOPQRSTUVWXYZ", by decide⟩

/-- A first client sends its key and ends; a second one has sent its own. -/
def keyLeft : List Event :=
  [.connect [letterA], .connect [letterZ], .client 0 .start, .client 0 (.send false), .accept, .serve (.serverKey 26), .leave 0 0,
    .serveEnd, .serve .serverSend, .client 1 .start, .client 1 (.send false), .accept]

/-- The rest of its exchange. -/
def ownFile : List Event :=
  [.client 1 (.send false), .client 1 (.send false), .serve (.serverRecv 2), .serve (.serverRecv 10), .serve .serverSend,
    .client 1 (.recv 2), .serve .serverSend, .client 1 .recvEnd]

/-- Before the key of the second client is read, and from there on. -/
def keyLeftCheck (w : Service) : Bool :=
  decide (w.serving = some 1 ∧ 1 ∉ w.gone ∧ w.key = letterA.key ++ [0] ∧
    (w.sessions 1).client.current.map (fun e => (e.key, e.file)) = [(letterZ.key, letterZ.file)]) &&
  (w.step (.serve (.serverKey 25))).any fun w₁ =>
    checks Service.step (fun w ev => decide (w.undisturbed 1 ev)) w₁ ownFile &&
    (exec Service.step w₁ ownFile).any fun w₂ => decide ((w₂.sessions 1).encs = [text "AA"])

/-- `enc_from_key` there: with 25 bytes of the second key, the last letter is the first client's, and the file is AA, not Z. -/
theorem enc_from_key_left : ∃ w w₁ w₂, exec Service.step (.begin (List.replicate 27 0)) keyLeft = some w ∧
    w.step (.serve (.serverKey 25)) = some w₁ ∧ exec Service.step w₁ ownFile = some w₂ ∧
    ∃ e, (w.sessions 1).client.current = [e] ∧ (w₂.sessions 1).encs.head? = some (text "AA") ∧
      text "AA" = encryptFile (receiveKey w.key (e.key.take 25)) (e.key.drop 25 ++ e.file) ∧ text "AA" ≠ e.encrypted := by
  have hrun : (exec Service.step (.begin (List.replicate 27 0)) keyLeft).any keyLeftCheck = true := by decide +kernel
  obtain ⟨w, hx, hcheck⟩ := (Option.any_eq_true _ _).1 hrun
  obtain ⟨hw, hrest⟩ := Bool.and_eq_true_iff.1 hcheck
  obtain ⟨hj, hthere, hkey, hexchange⟩ := of_decide_eq_true hw
  obtain ⟨w₁, hstep, hrest⟩ := (Option.any_eq_true _ _).1 hrest
  obtain ⟨hchecks, hrest⟩ := Bool.and_eq_true_iff.1 hrest
  obtain ⟨w₂, hx', hencs⟩ := (Option.any_eq_true _ _).1 hrest
  have hm : Meets Service.step (fun w => w.undisturbed 1) w₁ ownFile := meets_of_checks (fun _ _ h => of_decide_eq_true h) hchecks
  have hhead : (w₂.sessions 1).encs.head? = some (text "AA") := by
    rw [of_decide_eq_true hencs]
    rfl
  obtain ⟨e, current, henc⟩ := enc_from_key hx hj hthere hstep hm hx'
  rw [current] at hexchange
  obtain ⟨hek, hef⟩ := Prod.mk.inj (List.singleton_inj.1 hexchange)
  have hboth := henc (text "AA") hhead
  refine ⟨w, w₁, w₂, hx, hstep, hx', e, current, hhead, hboth.1, fun hown => ?_⟩
  have hn := (hboth.2 (by rw [hek, hef, hkey]; decide +kernel)).1 hown
  exact absurd hn (by decide)

end NetLabs.Crypt
