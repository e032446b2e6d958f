import NetLabs.Lib.Machine
import NetLabs.Crypt.Cipher
import NetLabs.Crypt.Upload

/-!
# A session of the encryption client

The client has one connection and goes through the exchanges its user wants: it sends a key, a file and the marker, and writes what it
receives into an `.enc` file until `recv` reports the end. The server does one exchange for each connection: it replies and closes. So
the first exchange comes to its end, and every later one is sent to a connection that has been closed.
-/

namespace NetLabs.Crypt

open CText Marker Machine

/-! ## The code -/

/-- A file and a key the user gives; a key of another length is refused. -/
structure Exchange where
  file : List UInt8
  key : List UInt8
  key_length : key.length = 26

/-- What the `.enc` file is to be. -/
def Exchange.encrypted (e : Exchange) : List UInt8 := e.file.map (substitute e.key)

/-- Where the client is: at the prompt, before the `send` of the key, in `send_file` with what it has not read of the file, in
`receive_file` with what it has written; or ended by SIGPIPE. -/
inductive Client where
  | ready
  | sendKey (e : Exchange)
  | sendFile (e : Exchange) (rest : List UInt8)
  | receiving (e : Exchange) (enc : List UInt8)
  | killed

/-- Where the server is with the connection: before the `recv` of the key, with what its array holds; in the receive loop; with what it
has not sent of the encrypted file; or done with it. -/
inductive Server where
  | key (old : List UInt8)
  | upload (key file : List UInt8)
  | reply (rest : List UInt8)
  | closed

/-- The two programs, the bytes on the connection in either direction, whether a reset is on its way to the client, and the `.enc` files
written, in order. -/
structure Session where
  todo : List Exchange
  client : Client
  server : Server
  toServer : List UInt8
  toClient : List UInt8
  reset : Bool
  encs : List (List UInt8)

/-- The connection has been accepted. -/
def Session.begin (old : List UInt8) (todo : List Exchange) : Session := ⟨todo, .ready, .key old, [], [], false, []⟩

/-- What happens next. A `send` may end the client where a reset has come; `recv` returns any part of what is there. -/
inductive Move where
  | start
  | send (sigpipe : Bool)
  | serverKey (n : Nat)
  | serverRecv (n : Nat)
  | serverSend
  | recv (n : Nat)
  | recvEnd

/-- What the client sends; a closed connection answers with a reset. -/
def Session.put (s : Session) (bytes : List UInt8) : Session :=
  match s.server with
  | .closed => { s with reset := true }
  | _ => { s with toServer := s.toServer ++ bytes }

/-- The next `send` of the client: the key, what `fread` returns of the file, or at its end the marker. -/
def Session.clientSend (s : Session) : Option Session :=
  match s.client with
  | .sendKey e => some { s.put e.key with client := .sendFile e e.file }
  | .sendFile e rest =>
    if rest = [] then some { s.put eofMarker with client := .receiving e [] }
    else some { s.put (rest.take 100) with client := .sendFile e (rest.drop 100) }
  | _ => none

def Session.step (s : Session) : Move → Option Session
  | .start =>
    match s.client, s.todo with
    | .ready, e :: todo => some { s with client := .sendKey e, todo := todo }
    | _, _ => none
  | .send sigpipe =>
    if sigpipe then
      if s.reset ∧ s.clientSend.isSome then some { s with client := .killed } else none
    else s.clientSend
  | .serverKey n =>
    match s.server with
    | .key old =>
      if 0 < n ∧ n ≤ 26 ∧ n ≤ s.toServer.length then
        some { s with server := .upload (receiveKey old (s.toServer.take n)) [], toServer := s.toServer.drop n }
      else none
    | _ => none
  | .serverRecv n =>
    match s.server with
    | .upload key file =>
      if 0 < n ∧ n ≤ 100 ∧ n ≤ s.toServer.length then
        let r := storeChunk file (s.toServer.take n)
        some { s with
          server := if r.2 then .reply (encryptFile key r.1) else .upload key r.1
          toServer := s.toServer.drop n }
      else none
    | _ => none
  | .serverSend =>
    match s.server with
    | .reply rest =>
      -- a socket that is closed with bytes it has not read resets the connection
      if rest = [] then some { s with server := .closed, reset := s.reset || !s.toServer.isEmpty }
      else some { s with server := .reply (rest.drop 100), toClient := s.toClient ++ rest.take 100 }
    | _ => none
  | .recv n =>
    match s.client with
    | .receiving e enc =>
      if 0 < n ∧ n ≤ 100 ∧ n ≤ s.toClient.length then
        some { s with client := .receiving e (enc ++ s.toClient.take n), toClient := s.toClient.drop n }
      else none
    | _ => none
  | .recvEnd =>
    match s.client, s.server with
    | .receiving _ enc, .closed =>
      if s.toClient = [] ∨ s.reset then some { s with client := .ready, toClient := [], encs := s.encs ++ [enc] } else none
    | _, _ => none

/-! ## What a session is to do -/

/-- The bytes the client has yet to send in its exchange. -/
def Client.pending : Client → List UInt8
  | .sendKey e => e.key ++ (e.file ++ eofMarker)
  | .sendFile _ rest => rest ++ eofMarker
  | _ => []

/-- The exchange the client is in. -/
def Client.current : Client → List Exchange
  | .sendKey e | .sendFile e _ | .receiving e _ => [e]
  | _ => []

/-- What it has written into the `.enc` file of this exchange. -/
def Client.written : Client → List UInt8
  | .receiving _ enc => enc
  | _ => []

/-- Of the exchanges `all`, those that have been done have their `.enc` files, the client has not been ended, and it is done or something
can happen. -/
structure Session.Good (all : List Exchange) (s : Session) : Prop where
  encs : s.encs <+: all.map Exchange.encrypted
  count : s.client = .ready → s.encs.length + s.todo.length = all.length
  alive : s.client ≠ .killed
  goes_on : s.client = .ready ∧ s.todo = [] ∨ ∃ m s', s.step m = some s'

/-- The first file is encrypted to a text without a NUL and the others are empty; no send meets a reset; the key arrives whole; and a
chunk has the marker in it exactly if it is the last one, at its end. -/
def Session.sound (s : Session) : Move → Prop
  | .start => ∀ e ∈ s.todo.head?, if s.encs = [] then (0 : UInt8) ∉ e.encrypted else e.file = []
  | .send sigpipe => sigpipe = false
  | .serverKey n => n = 26
  | .serverRecv n => find eofMarker (s.toServer.take n) = if s.toServer.drop n ++ s.client.pending = [] then some (n - 10) else none
  | _ => True

instance (s : Session) (m : Move) : Decidable (s.sound m) :=
  match m with
  | .start => inferInstanceAs (Decidable (∀ e ∈ s.todo.head?, if s.encs = [] then (0 : UInt8) ∉ e.encrypted else e.file = []))
  | .send sigpipe => inferInstanceAs (Decidable (sigpipe = false))
  | .serverKey n => inferInstanceAs (Decidable (n = 26))
  | .serverRecv _ => inferInstanceAs (Decidable (_ = _))
  | .serverSend | .recv _ | .recvEnd => isTrue trivial

/-! ## Where the two programs stand -/

/-- The first exchange goes through the stages; the later ones find the connection closed. -/
inductive Session.Stage (s : Session) : Prop where
  | fresh (old : List UInt8) (server : s.server = .key old) (client : s.client = .ready) (toServer : s.toServer = [])
      (toClient : s.toClient = []) (reset : s.reset = false) (encs : s.encs = [])
  | key (old : List UInt8) (e : Exchange) (server : s.server = .key old) (current : s.client.current = [e])
      (written : s.client.written = []) (stream : s.toServer ++ s.client.pending = e.key ++ (e.file ++ eofMarker))
      (noNul : (0 : UInt8) ∉ e.encrypted) (toClient : s.toClient = []) (reset : s.reset = false) (encs : s.encs = [])
  | upload (key file : List UInt8) (e : Exchange) (server : s.server = .upload key file) (current : s.client.current = [e])
      (written : s.client.written = []) (hkey : key.take 26 = e.key)
      (stream : file ++ (s.toServer ++ s.client.pending) = e.file ++ eofMarker) (more : s.toServer ++ s.client.pending ≠ [])
      (noNul : (0 : UInt8) ∉ e.encrypted) (toClient : s.toClient = []) (reset : s.reset = false) (encs : s.encs = [])
  | reply (rest enc : List UInt8) (e : Exchange) (server : s.server = .reply rest) (client : s.client = .receiving e enc)
      (toServer : s.toServer = []) (stream : enc ++ (s.toClient ++ rest) = e.encrypted) (reset : s.reset = false)
      (encs : s.encs = [])
  | answered (enc : List UInt8) (e : Exchange) (server : s.server = .closed) (client : s.client = .receiving e enc)
      (stream : enc ++ s.toClient = e.encrypted) (reset : s.reset = false) (encs : s.encs = [])
  | later (server : s.server = .closed) (toClient : s.toClient = []) (encs : s.encs ≠ [])
      (current : ∀ e ∈ s.client.current, e.file = [] ∧ s.client.written = [])

/-- The exchanges are those that are done, the one under way and those to come. -/
structure Session.Inv (all : List Exchange) (s : Session) : Prop where
  past : s.encs ++ (s.client.current ++ s.todo).map Exchange.encrypted = all.map Exchange.encrypted
  alive : s.client ≠ .killed
  stage : s.Stage

variable {s s' : Session} {e : Exchange} {all : List Exchange} {n : Nat} {file chunk rest key : List UInt8}

/-! ## The server -/

/-- A chunk without the marker is stored. -/
theorem storeChunk_none (h : find eofMarker chunk = none) : storeChunk file chunk = (file ++ chunk, false) := by
  have htext : find eofMarker (cstr chunk) = none :=
    find_eq_none_iff.2 fun hin => find_eq_none_iff.1 h (hin.trans (List.takeWhile_prefix _).isInfix)
  rw [storeChunk, htext]

/-- A chunk that ends with the marker, and has it nowhere before, ends the file. -/
theorem storeChunk_some {content : List UInt8} (hnul : (0 : UInt8) ∉ chunk) (h : find eofMarker chunk = some (chunk.length - 10))
    (hstream : file ++ chunk = content ++ eofMarker) : storeChunk file chunk = (content, true) := by
  have hpre := prefix_of_find h
  have hten : eofMarker.length = 10 := rfl
  have hlen := hpre.length_le
  rw [List.length_drop, hten] at hlen
  have hend : chunk.drop (chunk.length - 10) = eofMarker :=
    (hpre.eq_of_length (by rw [List.length_drop, hten]; omega)).symm
  have hwhole : file ++ chunk.take (chunk.length - 10) ++ eofMarker = content ++ eofMarker := by
    rw [List.append_assoc, ← hend, List.take_append_drop, hend]
    exact hstream
  have hcut : file ++ chunk.take (chunk.length - 10) = content := List.append_cancel_right hwhole
  rw [storeChunk, cstr_of_not_mem hnul, h]
  exact Prod.mk.injEq .. ▸ ⟨hcut, rfl⟩

/-- The marker at the end of a chunk is not seen behind a NUL. -/
theorem storeChunk_hidden (hnul : (0 : UInt8) ∈ chunk) (h : find eofMarker chunk = some (chunk.length - 10)) :
    storeChunk file chunk = (file ++ chunk, false) := by
  obtain ⟨y, hy⟩ := exists_eq_cstr_append hnul
  have htext : find eofMarker (cstr chunk) = none := by
    refine find_eq_none_iff.2 fun hin => ?_
    -- it would be found at the same place in the whole chunk, before the NUL
    have hsame : find eofMarker (cstr chunk) = some (chunk.length - 10) := by
      rw [← find_append_left hin (0 :: y), ← hy]
      exact h
    have hplace := (prefix_of_find hsame).length_le
    have hlen := congrArg List.length hy
    have hten : eofMarker.length = 10 := rfl
    rw [List.length_drop] at hplace
    rw [List.length_append, List.length_cons] at hlen
    omega
  rw [storeChunk, htext]

/-- With the client's key the server writes what the client expects. -/
theorem encryptFile_encrypted (hkey : key.take 26 = e.key) (hnul : (0 : UInt8) ∉ e.encrypted) :
    encryptFile key e.file = e.encrypted := by
  have hsub : substitute key = substitute e.key := by
    refine substitute_take ?_
    rw [hkey, ← e.key_length, List.take_length]
  rw [encryptFile_eq (by rw [hsub]; exact hnul), hsub]
  rfl

theorem noNul_file (hnul : (0 : UInt8) ∉ e.encrypted) : (0 : UInt8) ∉ e.file ++ eofMarker := by
  intro hz
  rcases List.mem_append.1 hz with hz | hz
  · exact hnul (substitute_zero e.key ▸ List.mem_map_of_mem hz)
  · exact zero_not_mem_eofMarker hz

/-- Nothing is pending when the client receives. -/
theorem receiving_of_pending (hcur : s.client.current = [e]) (hpending : s.client.pending = []) :
    s.client = .receiving e s.client.written := by
  cases hc : s.client with
  | ready | killed =>
    rw [hc] at hcur
    cases hcur
  | sendKey e' =>
    rw [hc] at hpending
    exact absurd (List.append_eq_nil_iff.1 (List.append_eq_nil_iff.1 hpending).2).2 (by decide)
  | sendFile e' rest =>
    rw [hc] at hpending
    exact absurd (List.append_eq_nil_iff.1 hpending).2 (by decide)
  | receiving e' enc =>
    rw [hc] at hcur
    cases hcur
    rfl

/-! ## One move -/

theorem put_open (h : s.server ≠ .closed) (bytes : List UInt8) : s.put bytes = { s with toServer := s.toServer ++ bytes } := by
  unfold Session.put
  split
  · rename_i hc
    exact absurd hc h
  · rfl

theorem put_closed (h : s.server = .closed) (bytes : List UInt8) : s.put bytes = { s with reset := true } := by
  unfold Session.put
  rw [h]

/-- A `send` takes some bytes off what is pending and puts them on the connection. -/
theorem clientSend_some (h : s.clientSend = some s') : ∃ bytes c, s' = { s.put bytes with client := c } ∧
    s.client.pending = bytes ++ c.pending ∧ c.current = s.client.current ∧ s.client.written = [] ∧ c.written = [] ∧
    c ≠ .killed ∧ s.client ≠ .ready ∧ ∀ e enc, s.client ≠ .receiving e enc := by
  unfold Session.clientSend at h
  cases hc : s.client with
  | ready | killed | receiving e enc =>
    rw [hc] at h
    cases h
  | sendKey e =>
    rw [hc] at h
    cases h
    exact ⟨e.key, .sendFile e e.file, rfl, rfl, rfl, rfl, rfl, nofun, nofun, nofun⟩
  | sendFile e rest =>
    rw [hc] at h
    dsimp only at h
    split at h
    · rename_i hrest
      cases h
      exact ⟨eofMarker, .receiving e [], rfl, by rw [hrest]; rfl, rfl, rfl, rfl, nofun, nofun, nofun⟩
    · cases h
      refine ⟨rest.take 100, .sendFile e (rest.drop 100), rfl, ?_, rfl, rfl, rfl, nofun, nofun, nofun⟩
      rw [Client.pending, Client.pending, ← List.append_assoc, List.take_append_drop]

theorem inv_send (hi : s.Inv all) (h : s.clientSend = some s') : s'.Inv all := by
  obtain ⟨bytes, c, rfl, hpending, hcur, hwritten, hwritten', halive, hready, hreceiving⟩ := clientSend_some h
  have hpast : s.encs ++ (c.current ++ s.todo).map Exchange.encrypted = all.map Exchange.encrypted := by rw [hcur]; exact hi.past
  cases hi.stage with
  | fresh old server client => exact absurd client hready
  | key old e server current written stream noNul toClient reset encs =>
    rw [put_open (by rw [server]; exact nofun)]
    refine ⟨hpast, halive, .key old e server (hcur.trans current) hwritten' ?_ noNul toClient reset encs⟩
    change s.toServer ++ bytes ++ c.pending = _
    rw [List.append_assoc, ← hpending]
    exact stream
  | upload key file e server current written hkey stream more noNul toClient reset encs =>
    rw [put_open (by rw [server]; exact nofun)]
    have hsame : s.toServer ++ bytes ++ c.pending = s.toServer ++ s.client.pending := by rw [List.append_assoc, ← hpending]
    refine ⟨hpast, halive, .upload key file e server (hcur.trans current) hwritten' hkey ?_ ?_ noNul toClient reset encs⟩
    · change file ++ (s.toServer ++ bytes ++ c.pending) = _
      rw [hsame]
      exact stream
    · change s.toServer ++ bytes ++ c.pending ≠ []
      rw [hsame]
      exact more
  | reply rest enc e server client => exact absurd client (hreceiving e enc)
  | answered enc e server client => exact absurd client (hreceiving e enc)
  | later server toClient encs current =>
    rw [put_closed server]
    refine ⟨hpast, halive, .later server toClient encs fun e he => ?_⟩
    exact ⟨(current e (hcur ▸ he)).1, hwritten'⟩

theorem inv_start (hi : s.Inv all) (hg : s.sound .start) (h : s.step .start = some s') : s'.Inv all := by
  simp only [Session.step] at h
  split at h
  · rename_i e todo hc htodo
    cases h
    have hfirst : if s.encs = [] then (0 : UInt8) ∉ e.encrypted else e.file = [] := hg e (by rw [htodo]; rfl)
    have hpast : s.encs ++ (e :: todo).map Exchange.encrypted = all.map Exchange.encrypted := by
      have hold := hi.past
      rw [hc, htodo] at hold
      exact hold
    cases hi.stage with
    | fresh old server client toServer toClient reset encs =>
      rw [if_pos encs] at hfirst
      refine ⟨hpast, nofun, .key old e server rfl rfl ?_ hfirst toClient reset encs⟩
      change s.toServer ++ _ = _
      rw [toServer]
      rfl
    | key old e' server current =>
      rw [hc] at current
      cases current
    | upload key file e' server current =>
      rw [hc] at current
      cases current
    | reply rest enc e' server client | answered enc e' server client =>
      cases hc.symm.trans client
    | later server toClient encs current =>
      rw [if_neg encs] at hfirst
      refine ⟨hpast, nofun, .later server toClient encs fun e' he' => ?_⟩
      obtain rfl := List.mem_singleton.1 he'
      exact ⟨hfirst, rfl⟩
  · cases h

theorem inv_serverKey (hi : s.Inv all) (hg : s.sound (.serverKey n)) (h : s.step (.serverKey n) = some s') : s'.Inv all := by
  obtain rfl : n = 26 := hg
  simp only [Session.step] at h
  split at h
  · rename_i old hserver
    obtain ⟨⟨_, _, hlen⟩, h⟩ := Option.ite_none_right_eq_some.1 h
    cases h
    cases hi.stage with
    | key old' e server current written stream noNul toClient reset encs =>
      -- the first 26 bytes of the stream are the key
      have hsplit : s.toServer.take 26 ++ (s.toServer.drop 26 ++ s.client.pending) = e.key ++ (e.file ++ eofMarker) := by
        rw [← List.append_assoc, List.take_append_drop]
        exact stream
      have htake : (s.toServer.take 26).length = 26 := List.length_take_of_le hlen
      obtain ⟨hkey, hrest⟩ := List.append_inj hsplit (by rw [htake, e.key_length])
      refine ⟨hi.past, hi.alive, .upload _ [] e rfl current written ?_ hrest ?_ noNul toClient reset encs⟩
      · rw [receiveKey, List.take_set, List.set_eq_of_length_le (by rw [List.length_take]; omega),
          List.take_append_of_le_length (by omega), List.take_of_length_le (by omega)]
        exact hkey
      · rw [hrest]
        exact fun hnil => absurd (List.append_eq_nil_iff.1 hnil).2 (by decide)
    | fresh old' server client toServer =>
      rw [toServer] at hlen
      exact absurd hlen (by decide)
    | upload key file e server | reply rest enc e server | answered enc e server | later server =>
      cases hserver.symm.trans server
  · cases h

/-- A chunk of the file, or the last one with the marker. -/
theorem inv_serverRecv (hi : s.Inv all) (hg : s.sound (.serverRecv n)) (h : s.step (.serverRecv n) = some s') : s'.Inv all := by
  simp only [Session.step] at h
  split at h
  · rename_i key file hserver
    obtain ⟨⟨_, _, hlen⟩, h⟩ := Option.ite_none_right_eq_some.1 h
    cases h
    cases hi.stage with
    | upload key' file' e server current written hkey stream more noNul toClient reset encs =>
      obtain ⟨rfl, rfl⟩ : key = key' ∧ file = file' := by
        have hsame := hserver.symm.trans server
        injection hsame with hk hf
        exact ⟨hk, hf⟩
      have hsplit : file ++ s.toServer.take n ++ (s.toServer.drop n ++ s.client.pending) = e.file ++ eofMarker := by
        rw [List.append_assoc, ← List.append_assoc (s.toServer.take n), List.take_append_drop]
        exact stream
      have hchunk : (0 : UInt8) ∉ s.toServer.take n := by
        intro hz
        refine noNul_file noNul ?_
        rw [← hsplit]
        exact List.mem_append_left _ (List.mem_append_right _ hz)
      have hfind : find eofMarker (s.toServer.take n) = _ := hg
      by_cases hrest : s.toServer.drop n ++ s.client.pending = []
      · -- the last chunk
        have htake : (s.toServer.take n).length = n := List.length_take_of_le hlen
        rw [if_pos hrest] at hfind
        rw [hrest, List.append_nil] at hsplit
        rw [storeChunk_some hchunk (by rw [htake]; exact hfind) hsplit]
        have hclient := receiving_of_pending current (List.append_eq_nil_iff.1 hrest).2
        rw [written] at hclient
        refine ⟨hi.past, hi.alive, .reply (encryptFile key e.file) [] e rfl hclient (List.append_eq_nil_iff.1 hrest).1 ?_ reset encs⟩
        change [] ++ (s.toClient ++ encryptFile key e.file) = _
        rw [toClient]
        exact encryptFile_encrypted hkey noNul
      · rw [if_neg hrest] at hfind
        rw [storeChunk_none hfind]
        exact ⟨hi.past, hi.alive, .upload key _ e rfl current written hkey hsplit hrest noNul toClient reset encs⟩
    | fresh old server | key old e server | reply rest enc e server | answered enc e server | later server =>
      cases hserver.symm.trans server
  · cases h

theorem inv_serverSend (hi : s.Inv all) (h : s.step .serverSend = some s') : s'.Inv all := by
  simp only [Session.step] at h
  split at h
  · rename_i rest hserver
    cases hi.stage with
    | reply rest' enc e server client toServer stream reset encs =>
      obtain rfl : rest = rest' := by
        have hsame := hserver.symm.trans server
        injection hsame
      split at h
      · rename_i hnil
        cases h
        rw [hnil, List.append_nil] at stream
        refine ⟨hi.past, hi.alive, .answered enc e rfl client stream ?_ encs⟩
        change (s.reset || !s.toServer.isEmpty) = false
        rw [reset, toServer]
        rfl
      · cases h
        refine ⟨hi.past, hi.alive, .reply _ enc e rfl client toServer ?_ reset encs⟩
        change enc ++ (s.toClient ++ rest.take 100 ++ rest.drop 100) = _
        rw [List.append_assoc, List.take_append_drop]
        exact stream
    | fresh old server | key old e server | upload key file e server | answered enc e server | later server =>
      cases hserver.symm.trans server
  · cases h

/-- A client receives for one exchange at a time. -/
theorem receiving_inj {c : Client} {e e' : Exchange} {enc enc' : List UInt8} (h : c = .receiving e enc) (h' : c = .receiving e' enc') :
    e = e' ∧ enc = enc' := by
  have hsame := h.symm.trans h'
  injection hsame with he henc
  exact ⟨he, henc⟩

/-- Bytes come to the client only in the first exchange. -/
theorem inv_recv (hi : s.Inv all) (h : s.step (.recv n) = some s') : s'.Inv all := by
  simp only [Session.step] at h
  split at h
  · rename_i e enc hc
    obtain ⟨⟨hpos, _, hlen⟩, h⟩ := Option.ite_none_right_eq_some.1 h
    cases h
    have hsome : s.toClient ≠ [] := by
      intro hnil
      rw [hnil] at hlen
      exact absurd hlen (Nat.not_le.2 hpos)
    have hpast : s.encs ++ ([e] ++ s.todo).map Exchange.encrypted = all.map Exchange.encrypted := by
      have hold := hi.past
      rw [hc] at hold
      exact hold
    cases hi.stage with
    | reply rest enc' e' server client toServer stream reset encs =>
      obtain ⟨rfl, rfl⟩ := receiving_inj hc client
      refine ⟨hpast, nofun, .reply rest _ e server rfl toServer ?_ reset encs⟩
      change enc ++ s.toClient.take n ++ (s.toClient.drop n ++ rest) = _
      rw [List.append_assoc, ← List.append_assoc (s.toClient.take n), List.take_append_drop]
      exact stream
    | answered enc' e' server client stream reset encs =>
      obtain ⟨rfl, rfl⟩ := receiving_inj hc client
      refine ⟨hpast, nofun, .answered _ e server rfl ?_ reset encs⟩
      change enc ++ s.toClient.take n ++ s.toClient.drop n = _
      rw [List.append_assoc, List.take_append_drop]
      exact stream
    | fresh old server client toServer toClient | key old e server current written stream noNul toClient
    | upload key file e server current written hkey stream more noNul toClient | later server toClient =>
      exact absurd toClient hsome
  · cases h

/-- The end of an exchange. -/
theorem inv_recvEnd (hi : s.Inv all) (h : s.step .recvEnd = some s') : s'.Inv all := by
  simp only [Session.step] at h
  split at h
  · rename_i e enc hc hserver
    obtain ⟨hend, h⟩ := Option.ite_none_right_eq_some.1 h
    cases h
    have hnext : enc = e.encrypted → (s.encs ++ [enc]) ++ s.todo.map Exchange.encrypted = all.map Exchange.encrypted := by
      intro henc
      have hold := hi.past
      rw [hc] at hold
      rw [henc, List.append_assoc]
      exact hold
    have hsome : s.encs ++ [enc] ≠ [] := by simp
    cases hi.stage with
    | answered enc' e' server client stream reset encs =>
      obtain ⟨rfl, rfl⟩ := receiving_inj hc client
      have hempty : s.toClient = [] := hend.resolve_right (by rw [reset]; exact nofun)
      rw [hempty, List.append_nil] at stream
      exact ⟨hnext stream, nofun, .later hserver rfl hsome nofun⟩
    | later server toClient encs current =>
      obtain ⟨hfile, hwritten⟩ := current e (by rw [hc]; exact List.mem_singleton_self e)
      rw [hc] at hwritten
      have henc : enc = e.encrypted := by
        rw [Exchange.encrypted, hfile]
        exact hwritten
      exact ⟨hnext henc, nofun, .later hserver rfl hsome nofun⟩
    | fresh old server | key old e server | upload key file e server | reply rest enc e server =>
      cases hserver.symm.trans server
  · cases h

theorem session_step_inv (hi : s.Inv all) (m : Move) (hg : s.sound m) (h : s.step m = some s') : s'.Inv all := by
  cases m with
  | start => exact inv_start hi hg h
  | send sigpipe =>
    obtain rfl : sigpipe = false := hg
    exact inv_send hi h
  | serverKey n => exact inv_serverKey hi hg h
  | serverRecv n => exact inv_serverRecv hi hg h
  | serverSend => exact inv_serverSend hi h
  | recv n => exact inv_recv hi h
  | recvEnd => exact inv_recvEnd hi h

/-! ## Every run -/

/-- Wherever the session stands, it is done or something can happen. -/
theorem session_goes_on (hi : s.Inv all) : s.client = .ready ∧ s.todo = [] ∨ ∃ m s', s.step m = some s' := by
  cases hc : s.client with
  | ready =>
    cases htodo : s.todo with
    | nil => exact Or.inl ⟨rfl, rfl⟩
    | cons e todo => exact Or.inr ⟨.start, _, by simp only [Session.step, hc, htodo]; rfl⟩
  | killed => exact absurd hc hi.alive
  | sendKey e => exact Or.inr ⟨.send false, _, by simp only [Session.step, Session.clientSend, hc]; rfl⟩
  | sendFile e rest =>
    refine Or.inr ⟨.send false, ?_⟩
    by_cases hrest : rest = []
    · exact ⟨_, by simp only [Session.step, Session.clientSend, hc, if_pos hrest]; rfl⟩
    · exact ⟨_, by simp only [Session.step, Session.clientSend, hc, if_neg hrest]; rfl⟩
  | receiving e enc =>
    right
    have hpending : s.client.pending = [] := by rw [hc]; rfl
    cases hi.stage with
    | fresh old server client => cases hc.symm.trans client
    | key old e' server current written stream =>
      rw [hpending, List.append_nil] at stream
      have hlen : 26 ≤ s.toServer.length := by
        rw [stream, List.length_append, e'.key_length]
        omega
      exact ⟨.serverKey 26, _, by simp only [Session.step, server]; exact if_pos ⟨by decide, Nat.le_refl 26, hlen⟩⟩
    | upload key file e' server current written hkey stream more =>
      rw [hpending, List.append_nil] at more
      have hlen : 1 ≤ s.toServer.length := List.length_pos_iff.2 more
      exact ⟨.serverRecv 1, _, by simp only [Session.step, server]; exact if_pos ⟨by decide, by decide, hlen⟩⟩
    | reply rest enc' e' server =>
      by_cases hrest : rest = []
      · exact ⟨.serverSend, _, by simp only [Session.step, server]; exact if_pos hrest⟩
      · exact ⟨.serverSend, _, by simp only [Session.step, server]; exact if_neg hrest⟩
    | answered enc' e' server =>
      by_cases hempty : s.toClient = []
      · exact ⟨.recvEnd, _, by simp only [Session.step, hc, server]; exact if_pos (Or.inl hempty)⟩
      · have hlen : 1 ≤ s.toClient.length := List.length_pos_iff.2 hempty
        exact ⟨.recv 1, _, by simp only [Session.step, hc]; exact if_pos ⟨by decide, by decide, hlen⟩⟩
    | later server toClient => exact ⟨.recvEnd, _, by simp only [Session.step, hc, server]; exact if_pos (Or.inl toClient)⟩

theorem good_of_inv (hi : s.Inv all) : s.Good all := by
  refine ⟨⟨_, hi.past⟩, fun hready => ?_, hi.alive, session_goes_on hi⟩
  have hlen := congrArg List.length hi.past
  rw [hready] at hlen
  simpa [Client.current] using hlen

theorem session_begin_inv (old : List UInt8) (all : List Exchange) : (Session.begin old all).Inv all :=
  ⟨rfl, nofun, .fresh old rfl rfl rfl rfl rfl rfl⟩

/-- The session. As long as the moves are sound, the `.enc` files are those the user wants, in order, and there is a way on. -/
theorem session_good (old : List UInt8) (all : List Exchange) (moves : List Move)
    (hm : Meets Session.step Session.sound (.begin old all) moves) : Always Session.step (Session.Good all) (.begin old all) moves :=
  (always_of_invariant (fun _ m _ hi hg hs => session_step_inv hi m hg hs) (session_begin_inv old all) hm).imp fun _ => good_of_inv

/-- The letter A with a key that moves each letter by one. -/
def letterA : Exchange := ⟨text "A", text "BCDEFGHIJKLMNOPQRSTUVWXYZA", by decide⟩

/-- One exchange: the key and the file arrive by themselves. -/
def oneExchange : List Move :=
  [.start, .send false, .serverKey 26, .send false, .serverRecv 1, .send false, .serverRecv 10, .serverSend, .serverSend, .recv 1,
    .recvEnd]

/-- `session_good` on it. -/
theorem session_good_one : Always Session.step (Session.Good [letterA]) (.begin (List.replicate 27 0) [letterA]) oneExchange :=
  session_good _ _ _ (by decide +kernel)

/-- A second exchange, on the connection that the server has closed. -/
def twoExchanges : List Move := oneExchange ++ [.start, .send false, .send false, .send false, .recvEnd]

/-- Its `.enc` file is empty. -/
theorem second_file_empty :
    ¬Always Session.step (Session.Good [letterA, letterA]) (.begin (List.replicate 27 0) [letterA, letterA]) twoExchanges := by
  intro hall
  have hrun : (exec Session.step (.begin (List.replicate 27 0) [letterA, letterA]) twoExchanges).any
      (fun s => decide (s.encs = [text "B", []])) = true := by decide +kernel
  obtain ⟨s, hs, hencs⟩ := (Option.any_eq_true _ _).1 hrun
  have hgood := (hall _ (List.prefix_refl _) s hs).encs
  rw [of_decide_eq_true hencs] at hgood
  revert hgood
  decide

end NetLabs.Crypt
