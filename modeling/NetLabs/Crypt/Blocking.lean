import NetLabs.Crypt.Service
import Mathlib.Logic.Relation

/-!
# Who waits for whom

The server has one connection at a time, so a client that waits depends on every client before it. As long as none of them ends, it
comes to be served exactly if each of them goes on: one that has not sent its key has a file to send, and one whose file is being
received has the whole marker before it. A marker that has been cut stops everybody behind.
-/

namespace NetLabs.Crypt

open CText Function Marker Machine

/-- The service as long as no client ends. -/
def Service.staying (w : Service) : Event → Option Service
  | .leave _ _ | .sigpipe => none
  | ev => w.step ev

/-- A connection that goes on by itself: its client is no longer there, or it has an exchange to make, or the marker is still to be
received. -/
def Session.GoesOn (there : Prop) (s : Session) : Prop :=
  there → match s.server with
    | .key _ => s.client ≠ .ready ∨ s.todo ≠ []
    | .upload _ _ => eofMarker <:+: s.toServer ++ s.client.pending
    | .reply _ | .closed => True

/-- The file that is being received. -/
def Server.file? : Server → Option (List UInt8)
  | .upload _ file => some file
  | _ => none

/-- Connection `i` is served now, or comes before `j` among those that wait. -/
def Service.Ahead (w : Service) (j i : Nat) : Prop := w.serving = some i ∨ ∃ a b, w.waiting = a ++ i :: b ∧ j ∈ b

/-- What the two programs can do to a connection whose client does not end now. -/
inductive Session.Act (there : Prop) (s s' : Session) : Prop where
  | client (m : Move) (ht : there) (hm : m.isServer = false) (h : s.step m = some s')
  | server (m : Move) (hm : m.isServer = true) (h : s.step m = some s')
  | lost (ht : ¬there) (hnil : s.toServer = []) (h : s.lost = some s')

/-- The connection can come to its end. -/
def Session.CanEnd (there : Prop) (s : Session) : Prop := ∃ s', Relation.ReflTransGen (Session.Act there) s s' ∧ s'.server = .closed

variable {s s' : Session} {m : Move} {w w' : Service} {ev : Event} {i j n : Nat} {key file rest before : List UInt8} {there : Prop}

/-! ## One connection -/

theorem Session.CanEnd.of_act (ha : s.Act there s') (h : s'.CanEnd there) : s.CanEnd there := by
  obtain ⟨t, hr, hclosed⟩ := h
  exact ⟨t, .head ha hr, hclosed⟩

theorem act_serverSend (hs : s.server = .reply rest) (hrest : rest ≠ []) :
    s.Act there { s with server := .reply (rest.drop 100), toClient := s.toClient ++ rest.take 100 } := by
  refine .server .serverSend rfl ?_
  simp only [Session.step, hs, if_neg hrest]

theorem act_closes (hs : s.server = .reply []) :
    s.Act there { s with server := .closed, reset := s.reset || !s.toServer.isEmpty } := by
  refine .server .serverSend rfl ?_
  simp only [Session.step, hs, if_true]

/-- What the server sends comes to its end. -/
theorem canEnd_reply (hs : s.server = .reply rest) : s.CanEnd there := by
  induction hn : rest.length using Nat.strongRecOn generalizing s rest with
  | ind n ih =>
    by_cases hrest : rest = []
    · subst hrest
      exact ⟨_, .single (act_closes hs), rfl⟩
    · have hless : (rest.drop 100).length < n := by
        have hpos := List.length_pos_iff.2 hrest
        rw [List.length_drop]
        omega
      exact .of_act (act_serverSend hs hrest) (ih _ hless rfl rfl)

/-- One byte never has the marker in it. -/
theorem storeChunk_byte (file : List UInt8) (b : UInt8) : storeChunk file [b] = (file ++ [b], false) := by
  refine storeChunk_none (find_eq_none_iff.2 fun hin => ?_)
  have hlen : 10 ≤ 1 := hin.length_le
  exact absurd hlen (by decide)

theorem storeChunk_marker (file : List UInt8) : (storeChunk file eofMarker).2 = true := by
  rw [storeChunk, cstr_of_not_mem zero_not_mem_eofMarker]
  rfl

/-- A byte that is received by itself. -/
theorem act_byte {b : UInt8} {bytes : List UInt8} (hs : s.server = .upload key file) (hb : s.toServer = b :: bytes) :
    s.Act there { s with server := .upload key (file ++ [b]), toServer := bytes } := by
  refine .server (.serverRecv 1) rfl ?_
  have hlen : 0 < 1 ∧ 1 ≤ 100 ∧ 1 ≤ (b :: bytes).length := ⟨by decide, by decide, by rw [List.length_cons]; omega⟩
  simp only [Session.step, hs, hb, if_pos hlen, List.take_succ_cons, List.take_zero, storeChunk_byte, List.drop_succ_cons, List.drop_zero]
  rfl

theorem act_marker {bytes : List UInt8} (hs : s.server = .upload key file) (hb : s.toServer = eofMarker ++ bytes) :
    s.Act there { s with server := .reply (encryptFile key (storeChunk file eofMarker).1), toServer := bytes } := by
  refine .server (.serverRecv 10) rfl ?_
  have hlen : 0 < 10 ∧ 10 ≤ 100 ∧ 10 ≤ (eofMarker ++ bytes).length := by
    refine ⟨by decide, by decide, ?_⟩
    rw [List.length_append]
    exact Nat.le_add_right 10 _
  have htake : (eofMarker ++ bytes).take 10 = eofMarker := List.take_left' rfl
  have hdrop : (eofMarker ++ bytes).drop 10 = bytes := List.drop_left' rfl
  simp only [Session.step, hs, hb, if_pos hlen, htake, hdrop, storeChunk_marker, if_true]

theorem act_lost (ht : ¬there) (hs : s.server = .upload key file) (hnil : s.toServer = []) :
    s.Act there { s with server := .reply (encryptFile key file) } := by
  refine .lost ht hnil ?_
  simp only [Session.lost, hs]

/-- With the whole marker there, the server reads up to it. -/
theorem canEnd_arrived (hs : s.server = .upload key file) (hin : eofMarker <:+: s.toServer) : s.CanEnd there := by
  induction hl : s.toServer generalizing s file with
  | nil =>
    rw [hl, List.infix_nil] at hin
    exact absurd hin (by decide)
  | cons b bytes ih =>
    by_cases hpre : eofMarker <+: s.toServer
    · obtain ⟨t, ht⟩ := hpre
      exact .of_act (act_marker hs ht.symm) (canEnd_reply rfl)
    · rw [hl] at hin hpre
      exact .of_act (act_byte hs hl) (ih rfl ((List.infix_cons_iff.1 hin).resolve_left hpre) rfl)

/-- Of a client that is no longer there the server reads what has come. -/
theorem canEnd_gone (ht : ¬there) (hs : s.server = .upload key file) : s.CanEnd there := by
  induction hl : s.toServer generalizing s file with
  | nil => exact .of_act (act_lost ht hs hl) (canEnd_reply rfl)
  | cons b bytes ih => exact .of_act (act_byte hs hl) (ih rfl rfl)

theorem act_send {bytes : List UInt8} {c : Client} (ht : there) (hopen : s.server ≠ .closed)
    (h : s.clientSend = some { s.put bytes with client := c }) :
    s.Act there { s with client := c, toServer := s.toServer ++ bytes } := by
  rw [put_open hopen] at h
  exact .client (.send false) ht rfl h

theorem sent_file {e : Exchange} (ht : there) (hopen : s.server ≠ .closed) (hc : s.client = .sendFile e rest) :
    Relation.ReflTransGen (Session.Act there) s
      { s with client := .receiving e [], toServer := s.toServer ++ (rest ++ eofMarker) } := by
  induction hn : rest.length using Nat.strongRecOn generalizing s rest with
  | ind n ih =>
    by_cases hrest : rest = []
    · subst hrest
      refine .single (act_send ht hopen ?_)
      simp only [Session.clientSend, hc, if_true]
      rfl
    · have hless : (rest.drop 100).length < n := by
        have hpos := List.length_pos_iff.2 hrest
        rw [List.length_drop]
        omega
      have hsend : s.clientSend = some { s.put (rest.take 100) with client := .sendFile e (rest.drop 100) } := by
        simp only [Session.clientSend, hc, if_neg hrest]
      have hrun := ih _ hless (s := { s with client := .sendFile e (rest.drop 100), toServer := s.toServer ++ rest.take 100 }) hopen rfl rfl
      dsimp only at hrun
      rw [List.append_assoc, ← List.append_assoc (rest.take 100), List.take_append_drop] at hrun
      exact .head (act_send ht hopen hsend) hrun

/-- The client can send all it has yet to send. -/
theorem exists_sent (ht : there) (hopen : s.server ≠ .closed) : ∃ c, Relation.ReflTransGen (Session.Act there) s
    { s with client := c, toServer := s.toServer ++ s.client.pending } := by
  cases hc : s.client with
  | ready | killed | receiving e enc =>
    refine ⟨s.client, ?_⟩
    change Relation.ReflTransGen _ s { s with client := s.client, toServer := s.toServer ++ [] }
    rw [List.append_nil]
  | sendFile e rest => exact ⟨_, sent_file ht hopen hc⟩
  | sendKey e =>
    have hsend : s.clientSend = some { s.put e.key with client := .sendFile e e.file } := by
      simp only [Session.clientSend, hc]
    have hrun := sent_file (s := { s with client := .sendFile e e.file, toServer := s.toServer ++ e.key }) ht hopen rfl
    dsimp only at hrun
    rw [List.append_assoc] at hrun
    exact ⟨_, .head (act_send ht hopen hsend) hrun⟩

theorem Session.CanEnd.of_acts (ha : Relation.ReflTransGen (Session.Act there) s s') (h : s'.CanEnd there) : s.CanEnd there := by
  obtain ⟨t, hr, hclosed⟩ := h
  exact ⟨t, ha.trans hr, hclosed⟩

theorem canEnd_upload (hs : s.server = .upload key file) (hgo : s.GoesOn there) : s.CanEnd there := by
  by_cases ht : there
  · have hin := hgo ht
    rw [hs] at hin
    obtain ⟨c, hrun⟩ := exists_sent (s := s) ht (by rw [hs]; simp)
    exact .of_acts hrun (canEnd_arrived hs hin)
  · exact canEnd_gone ht hs

theorem act_serverKey {old : List UInt8} (hs : s.server = .key old) (hn : 0 < n ∧ n ≤ 26 ∧ n ≤ s.toServer.length) :
    s.Act there { s with server := .upload (receiveKey old (s.toServer.take n)) [], toServer := s.toServer.drop n } := by
  refine .server (.serverKey n) rfl ?_
  simp only [Session.step, hs, if_pos hn]

/-- A client that is in its exchange sends it to the end, and the marker is in it. -/
theorem canEnd_asking {old : List UInt8} (ht : there) (hu : s.Untaken) (hs : s.server = .key old) (hready : s.client ≠ .ready) :
    s.CanEnd there := by
  obtain ⟨e, -, -, stream⟩ := hu.asks hready
  obtain ⟨c, hrun⟩ := exists_sent (s := s) ht (by rw [hs]; simp)
  rw [stream] at hrun
  have hlen : 0 < 26 ∧ 26 ≤ 26 ∧ 26 ≤ (e.key ++ (e.file ++ eofMarker)).length := by
    refine ⟨by decide, Nat.le_refl 26, ?_⟩
    rw [List.length_append, e.key_length]
    exact Nat.le_add_right 26 _
  refine .of_acts hrun (.of_act (act_serverKey hs hlen) (canEnd_arrived rfl ?_))
  change eofMarker <:+: (e.key ++ (e.file ++ eofMarker)).drop 26
  rw [← e.key_length, List.drop_left]
  exact (List.suffix_append e.file eofMarker).isInfix

/-- What goes on can be served to its end. -/
theorem canEnd_of_goesOn (ho : s.Open there) (hgo : s.GoesOn there) : s.CanEnd there := by
  cases hs : s.server with
  | closed => exact absurd hs ho.notClosed
  | reply rest => exact canEnd_reply hs
  | upload key file => exact canEnd_upload hs hgo
  | key old =>
    by_cases ht : there
    · have hu := ho.untaken ht old hs
      by_cases hready : s.client = .ready
      · have hwants := hgo ht
        rw [hs] at hwants
        obtain ⟨e, todo, htodo⟩ := List.exists_cons_of_ne_nil (hwants.resolve_left fun h => h hready)
        have hstart : s.step .start = some { s with client := .sendKey e, todo := todo } := by
          simp only [Session.step, hready, htodo]
        exact .of_act (.client .start ht rfl hstart) (canEnd_asking ht ((open_start ho hstart).1.untaken ht old hs) hs (by simp))
      · exact canEnd_asking ht hu hs hready
    · cases hb : s.toServer with
      | nil =>
        have hlost : s.lost = some { s with server := .upload (receiveKey old []) [] } := by
          simp only [Session.lost, hs]
        exact .of_act (.lost ht hb hlost) (canEnd_gone ht rfl)
      | cons b bytes =>
        have hlen : 0 < 1 ∧ 1 ≤ 26 ∧ 1 ≤ s.toServer.length := ⟨by decide, by decide, by rw [hb, List.length_cons]; omega⟩
        exact .of_act (act_serverKey hs hlen) (canEnd_gone ht rfl)

/-! ## A connection that is stuck -/

/-- Either its client is there and idle, or there is no marker in what is left of its file. -/
theorem not_goesOn_iff : ¬s.GoesOn there ↔ there ∧ ((∃ old, s.server = .key old ∧ s.client = .ready ∧ s.todo = []) ∨
    ∃ key file, s.server = .upload key file ∧ ¬eofMarker <:+: s.toServer ++ s.client.pending) := by
  unfold Session.GoesOn
  rw [Classical.not_imp]
  refine and_congr_right fun _ => ?_
  cases hs : s.server with
  | key old => simp
  | upload key file => simp
  | reply rest | closed => simp

/-- The client cannot change that: it is idle, or has nothing but the rest of its file to send. -/
theorem stuck_client (ho : s.Open there) (hst : ¬s.GoesOn there) (hm : m.isServer = false) (h : s.step m = some s') :
    ¬s'.GoesOn there := by
  obtain ⟨hopen, hserver⟩ := open_client ho hm h
  obtain ⟨ht, ⟨old, hs, hready, htodo⟩ | ⟨key, file, hs, hin⟩⟩ := not_goesOn_iff.1 hst
  · cases m with
    | start => simp [Session.step, htodo] at h
    | send sigpipe => simp [Session.step, Session.clientSend, hready] at h
    | recv n => simp [Session.step, hready] at h
    | recvEnd => simp [Session.step, hready] at h
    | serverKey n | serverRecv n | serverSend => cases hm
  · refine not_goesOn_iff.2 ⟨ht, Or.inr ⟨key, file, hserver.trans hs, ?_⟩⟩
    cases m with
    | start =>
      simp only [Session.step] at h
      split at h
      · rename_i hc _
        have hcur := ho.under_way ht (by rw [hs]; simp)
        rw [hc] at hcur
        exact absurd rfl hcur
      · cases h
    | send sigpipe =>
      cases sigpipe with
      | true =>
        simp only [Session.step, if_true] at h
        rw [ho.reset] at h
        cases h
      | false =>
        obtain ⟨bytes, c, rfl, hpending, -⟩ := clientSend_some h
        rw [put_open ho.notClosed]
        rw [hpending, ← List.append_assoc] at hin
        exact hin
    | recv n =>
      simp only [Session.step] at h
      split at h
      · rename_i hc
        obtain ⟨-, h⟩ := Option.ite_none_right_eq_some.1 h
        cases h
        rw [hc] at hin
        exact hin
      · cases h
    | recvEnd =>
      simp only [Session.step] at h
      split at h
      · rename_i hclosed
        exact absurd hclosed ho.notClosed
      · cases h
    | serverKey n | serverRecv n | serverSend => cases hm

/-- Nor can the server: it waits for bytes, or reads what has no marker in it. -/
theorem stuck_server (ho : s.Open there) (hst : ¬s.GoesOn there) (hm : m.isServer = true) (h : s.step m = some s') :
    ¬s'.GoesOn there ∧ s'.server ≠ .closed := by
  obtain ⟨ht, ⟨old, hs, hready, htodo⟩ | ⟨key, file, hs, hin⟩⟩ := not_goesOn_iff.1 hst
  · have hnil : s.toServer = [] := (ho.untaken ht old hs).idle hready
    cases m with
    | start | send sigpipe | recv n | recvEnd => cases hm
    | serverKey n =>
      simp only [Session.step, hs] at h
      obtain ⟨⟨hpos, -, hlen⟩, -⟩ := Option.ite_none_right_eq_some.1 h
      rw [hnil] at hlen
      exact absurd hlen (Nat.not_le.2 hpos)
    | serverRecv n => simp [Session.step, hs] at h
    | serverSend => simp [Session.step, hs] at h
  · cases m with
    | start | send sigpipe | recv n | recvEnd => cases hm
    | serverKey n => simp [Session.step, hs] at h
    | serverSend => simp [Session.step, hs] at h
    | serverRecv n =>
      simp only [Session.step, hs] at h
      obtain ⟨-, h⟩ := Option.ite_none_right_eq_some.1 h
      have hnone : find eofMarker (s.toServer.take n) = none :=
        find_eq_none_iff.2 fun hchunk => hin ((hchunk.trans (List.take_prefix n _).isInfix).trans (List.prefix_append _ _).isInfix)
      rw [storeChunk_none hnone] at h
      cases h
      refine ⟨not_goesOn_iff.2 ⟨ht, Or.inr ⟨key, _, rfl, fun hrest => hin ?_⟩⟩, by simp⟩
      have hsuffix : s.toServer.drop n ++ s.client.pending <:+ s.toServer ++ s.client.pending := by
        refine ⟨s.toServer.take n, ?_⟩
        rw [← List.append_assoc, List.take_append_drop]
      exact hrest.trans hsuffix.isInfix

/-! ## The queue -/

/-- The connection goes on by itself. -/
def Service.GoesOn (w : Service) (i : Nat) : Prop := (w.sessions i).GoesOn (i ∉ w.gone)

/-- Client `j` can come to be served without any client ending. -/
def Service.CanServe (w : Service) (j : Nat) : Prop := CanReach Service.staying (fun w' => w'.serving = some j) w

/-- Only connection `i` has changed. -/
structure Service.Frame (i : Nat) (w w' : Service) : Prop where
  waiting : w'.waiting = w.waiting
  gone : w'.gone = w.gone
  sessions : ∀ k, k ≠ i → w'.sessions k = w.sessions k

theorem Service.Frame.trans {w'' : Service} (h : Service.Frame i w w') (h' : Service.Frame i w' w'') : Service.Frame i w w'' :=
  ⟨h'.waiting.trans h.waiting, h'.gone.trans h.gone, fun k hk => (h'.sessions k hk).trans (h.sessions k hk)⟩

theorem step_of_staying (h : w.staying ev = some w') : w.step ev = some w' := by
  cases ev with
  | leave i arriving | sigpipe => cases h
  | connect todo | client i m | accept | serve m | serveEnd => exact h

/-- What can be done to the connection that is served can be done by the service. -/
theorem staying_act (hi : w.Inv) (hj : w.serving = some i) (ha : (w.sessions i).Act (i ∉ w.gone) s) :
    ∃ ev w', w.staying ev = some w' ∧ Service.Frame i w w' ∧ w'.sessions i = s ∧
      (s.server ≠ .closed → w'.serving = some i) ∧ (s.server = .closed → w'.serving = none) := by
  have hother : ∀ k, k ≠ i → update w.sessions i s k = w.sessions k := fun k hk => update_of_ne hk s w.sessions
  have hframe : Service.Frame i w (w.served i s) := ⟨rfl, rfl, hother⟩
  have hserving : (s.server ≠ .closed → (w.served i s).serving = some i) ∧
      (s.server = .closed → (w.served i s).serving = none) := by
    unfold Service.served
    cases s.server with
    | closed => exact ⟨fun h => absurd rfl h, fun _ => rfl⟩
    | key old | upload key file | reply rest => exact ⟨fun _ => rfl, by simp⟩
  have hself : update w.sessions i s i = s := update_self i s w.sessions
  cases ha with
  | client m ht hm h =>
    have hopen := hi.opened i (Or.inl hj)
    have hserver := (open_client hopen hm h).2
    refine ⟨.client i m, { w with sessions := update w.sessions i s }, ?_, ⟨rfl, rfl, hother⟩, hself, fun _ => hj,
      fun hclosed => absurd (hserver.symm.trans hclosed) hopen.notClosed⟩
    simp only [Service.staying, Service.step, if_pos (And.intro (hi.made i (Or.inl hj)) (And.intro ht hm)), h, Option.map_some]
  | server m hm h =>
    refine ⟨.serve m, w.served i s, ?_, hframe, hself, hserving⟩
    simp only [Service.staying, Service.step, hj, if_pos hm, h, Option.map_some]
  | lost ht hnil h =>
    refine ⟨.serveEnd, w.served i s, ?_, hframe, hself, hserving⟩
    simp only [Service.staying, Service.step, hj, if_pos (And.intro (not_not.1 ht) hnil), h, Option.map_some]

/-- A connection that can be served to its end lets the server go back to `accept`. -/
theorem serve_out (hi : w.Inv) (hj : w.serving = some i) (hend : (w.sessions i).CanEnd (i ∉ w.gone)) :
    ∃ es w', exec Service.staying w es = some w' ∧ w'.Inv ∧ w'.serving = none ∧ Service.Frame i w w' := by
  obtain ⟨t, hr, hclosed⟩ := hend
  generalize hs : w.sessions i = s at hr
  generalize hthere : (i ∉ w.gone) = there at hr
  induction hr using Relation.ReflTransGen.head_induction_on generalizing w with
  | refl => exact absurd (hs ▸ hclosed) (hi.opened i (Or.inl hj)).notClosed
  | @head _ c ha _ ih =>
    obtain ⟨ev, w', hstep, hframe, hsame, hgoes, hends⟩ := staying_act hi hj (hs ▸ hthere ▸ ha)
    have hi' := service_step_inv hi ev (step_of_staying hstep)
    by_cases hc : c.server = .closed
    · exact ⟨[ev], w', by rw [exec_cons, hstep]; rfl, hi', hends hc, hframe⟩
    · obtain ⟨es, w'', hx, hi'', hnone, hframe'⟩ := ih hi' (hgoes hc) hsame (by rw [hframe.gone, hthere])
      exact ⟨ev :: es, w'', exec_cons_eq_some.2 ⟨w', hstep, hx⟩, hi'', hnone, hframe.trans hframe'⟩

/-- The server at `accept` takes one connection after the other. -/
theorem canServe_of_free (hi : w.Inv) (hfree : w.serving = none) (hj : j ∈ w.waiting) (hgo : ∀ i, w.Ahead j i → w.GoesOn i) :
    w.CanServe j := by
  induction hl : w.waiting generalizing w with
  | nil =>
    rw [hl] at hj
    cases hj
  | cons i rest ih =>
    have haccept : w.staying .accept = some { w with
        serving := some i, waiting := rest, sessions := update w.sessions i { w.sessions i with server := .key w.key } } := by
      simp only [Service.staying, Service.step, hfree, hl]
    have hi' := service_step_inv hi _ (step_of_staying haccept)
    refine CanReach.of_step haccept ?_
    by_cases hij : i = j
    · subst hij
      exact .here rfl
    · have hrest : j ∈ rest := by
        rw [hl] at hj
        rcases List.mem_cons.1 hj with h | h
        · exact absurd h.symm hij
        · exact h
      have hhead : i ∈ w.waiting := hl ▸ List.mem_cons_self
      have hout : i ∉ rest := (List.nodup_cons.1 (hl ▸ hi.nodup)).1
      -- the connection at the head goes on, and accepting it does not change that
      have hgoes : Session.GoesOn (i ∉ w.gone) { w.sessions i with server := .key w.key } := by
        intro ht
        have h := hgo i (Or.inr ⟨[], rest, hl, hrest⟩) ht
        rw [hi.unread i hhead] at h
        exact h
      have hopen := (hi.opened i (Or.inr hhead)).accepted (hi.unread i hhead) w.key
      have hend : (update w.sessions i { w.sessions i with server := .key w.key } i).CanEnd (i ∉ w.gone) := by
        rw [update_self]
        exact canEnd_of_goesOn hopen hgoes
      obtain ⟨es, w', hx, hinv, hnone, hframe⟩ := serve_out hi' rfl hend
      refine CanReach.of_run hx (ih hinv hnone (hframe.waiting ▸ hrest) (fun k hk => ?_) hframe.waiting)
      obtain ⟨a, b, hab, hjb⟩ : ∃ a b, rest = a ++ k :: b ∧ j ∈ b := by
        rcases hk with hk | ⟨a, b, hab, hjb⟩
        · rw [hnone] at hk
          cases hk
        · exact ⟨a, b, hframe.waiting.symm.trans hab, hjb⟩
      have hki : k ≠ i := by
        rintro rfl
        exact hout (hab ▸ List.mem_append_right a List.mem_cons_self)
      have h := hgo k (Or.inr ⟨i :: a, b, by rw [hl, hab]; rfl, hjb⟩)
      unfold Service.GoesOn
      rw [hframe.sessions k hki, hframe.gone]
      change (update w.sessions i _ k).GoesOn (k ∉ w.gone)
      rw [update_of_ne hki]
      exact h

/-- Somebody before `j` is stuck. -/
def Service.Blocked (j : Nat) (w : Service) : Prop := w.Inv ∧ j ∈ w.waiting ∧ ∃ i, w.Ahead j i ∧ ¬w.GoesOn i

/-- The session of the one that is stuck is not touched, or is stuck afterwards as well. -/
theorem blocked_of_same {i : Nat} (hst : ¬w.GoesOn i) (hinv : w'.Inv) (hj : j ∈ w'.waiting) (ha : w'.Ahead j i)
    (hgone : w'.gone = w.gone) (hsame : w'.sessions i = w.sessions i) : w'.Blocked j := by
  refine ⟨hinv, hj, i, ha, ?_⟩
  unfold Service.GoesOn
  rw [hsame, hgone]
  exact hst

theorem blocked_serve (hb : w.Blocked j) (hserving : w.serving = some n) (hinv : (w.served n s).Inv)
    (hstuck : ¬w.GoesOn n → ¬s.GoesOn (n ∉ w.gone) ∧ s.server ≠ .closed) : (w.served n s).Blocked j := by
  obtain ⟨hi, hj, i, ha, hst⟩ := hb
  by_cases hin : i = n
  · subst hin
    obtain ⟨hst', hopen⟩ := hstuck hst
    refine ⟨hinv, hj, i, Or.inl ?_, ?_⟩
    · unfold Service.served
      cases hs : s.server with
      | closed => exact absurd hs hopen
      | key old | upload key file | reply rest => rfl
    · change ¬(update w.sessions i s i).GoesOn (i ∉ w.gone)
      rw [update_self]
      exact hst'
  · have hahead : (w.served n s).Ahead j i := by
      rcases ha with ha | ha
      · exact absurd (Option.some.inj (ha.symm.trans hserving)) hin
      · exact Or.inr ha
    have hsame : update w.sessions n s i = w.sessions i := update_of_ne hin s w.sessions
    exact blocked_of_same hst hinv hj hahead rfl hsame

theorem blocked_step (hb : w.Blocked j) (h : w.staying ev = some w') : w'.Blocked j := by
  have hstep := step_of_staying h
  have hinv := service_step_inv hb.1 ev hstep
  cases ev with
  | leave i arriving | sigpipe => cases h
  | connect todo =>
    obtain ⟨hi, hj, i, ha, hst⟩ := hb
    obtain ⟨-, hstep⟩ := Option.ite_none_right_eq_some.1 hstep
    cases hstep
    have hheld : w.Holds i := by
      rcases ha with ha | ⟨a, b, hab, -⟩
      · exact Or.inl ha
      · exact Or.inr (hab ▸ List.mem_append_right a List.mem_cons_self)
    have hsame : update w.sessions w.count (.begin [] todo) i = w.sessions i :=
      update_of_ne (Nat.ne_of_lt (hi.made i hheld)) _ w.sessions
    refine blocked_of_same hst hinv (List.mem_append_left _ hj) ?_ rfl hsame
    rcases ha with ha | ⟨a, b, hab, hjb⟩
    · exact Or.inl ha
    · refine Or.inr ⟨a, b ++ [w.count], ?_, List.mem_append_left _ hjb⟩
      change w.waiting ++ [w.count] = _
      rw [hab, List.append_assoc]
      rfl
  | client k m =>
    obtain ⟨hi, hj, i, ha, hst⟩ := hb
    obtain ⟨⟨-, -, hm⟩, hstep⟩ := Option.ite_none_right_eq_some.1 hstep
    obtain ⟨s, hs, rfl⟩ := Option.map_eq_some_iff.1 hstep
    by_cases hik : i = k
    · subst hik
      have hheld : w.Holds i := by
        rcases ha with ha | ⟨a, b, hab, -⟩
        · exact Or.inl ha
        · exact Or.inr (hab ▸ List.mem_append_right a List.mem_cons_self)
      refine ⟨hinv, hj, i, ha, ?_⟩
      change ¬(update w.sessions i s i).GoesOn (i ∉ w.gone)
      rw [update_self]
      exact stuck_client (hi.opened i hheld) hst hm hs
    · have hsame : update w.sessions k s i = w.sessions i := update_of_ne hik s w.sessions
      exact blocked_of_same hst hinv hj ha rfl hsame
  | accept =>
    obtain ⟨hi, hj, i, ha, hst⟩ := hb
    simp only [Service.step] at hstep
    split at hstep
    · rename_i k rest hnone hwait
      cases hstep
      obtain ⟨a, b, hab, hjb⟩ : ∃ a b, k :: rest = a ++ i :: b ∧ j ∈ b := by
        rcases ha with ha | ⟨a, b, hab, hjb⟩
        · cases hnone.symm.trans ha
        · exact ⟨a, b, hwait.symm.trans hab, hjb⟩
      cases a with
      | nil =>
        obtain ⟨rfl, rfl⟩ := List.cons.inj hab
        refine ⟨hinv, hjb, k, Or.inl rfl, ?_⟩
        change ¬(update w.sessions k _ k).GoesOn (k ∉ w.gone)
        rw [update_self]
        intro hgo
        refine hst fun ht => ?_
        rw [hi.unread k (hwait ▸ List.mem_cons_self)]
        exact hgo ht
      | cons k' a =>
        obtain ⟨rfl, hrest⟩ := List.cons.inj hab
        have hmem : i ∈ rest := hrest ▸ List.mem_append_right a List.mem_cons_self
        have hne : i ≠ k := by
          rintro rfl
          exact (List.nodup_cons.1 (hwait ▸ hi.nodup)).1 hmem
        have hsame : update w.sessions k { w.sessions k with server := .key w.key } i = w.sessions i :=
          update_of_ne hne _ w.sessions
        refine blocked_of_same hst hinv ?_ (Or.inr ⟨a, b, hrest, hjb⟩) rfl hsame
        exact hrest ▸ List.mem_append_right a (List.mem_cons_of_mem i hjb)
    · cases hstep
  | serve m =>
    simp only [Service.step] at hstep
    split at hstep
    · rename_i n hserving
      obtain ⟨hm, hstep⟩ := Option.ite_none_right_eq_some.1 hstep
      obtain ⟨s, hs, rfl⟩ := Option.map_eq_some_iff.1 hstep
      exact blocked_serve hb hserving hinv fun hst => stuck_server (hb.1.opened n (Or.inl hserving)) hst hm hs
    · cases hstep
  | serveEnd =>
    simp only [Service.step] at hstep
    split at hstep
    · rename_i n hserving
      obtain ⟨⟨hgone, -⟩, hstep⟩ := Option.ite_none_right_eq_some.1 hstep
      obtain ⟨s, hs, rfl⟩ := Option.map_eq_some_iff.1 hstep
      -- a client that is gone stops nobody
      exact blocked_serve hb hserving hinv fun hst => absurd (fun ht => absurd hgone ht) hst
    · cases hstep

/-- Every reachable state: as long as no client ends, one that waits can come to be served if and only if every one before it goes on. -/
theorem canServe_iff {es : List Event} (hx : exec Service.step (.begin before) es = some w) (hj : j ∈ w.waiting) :
    w.CanServe j ↔ ∀ i, w.Ahead j i → w.GoesOn i := by
  have hi : w.Inv := always_of_kept (fun _ ev _ hi hs => service_step_inv hi ev hs) (service_begin_inv before) es (List.prefix_refl es)
    w hx
  constructor
  · intro hcan i ha
    by_contra hst
    refine not_canReach (I := Service.Blocked j) (fun _ _ _ hb h => blocked_step hb h) ?_ ⟨hi, hj, i, ha, hst⟩ hcan
    -- who waits is not served
    rintro w' ⟨hi', hj', -⟩ hserving
    exact hi'.apart j hserving hj'
  · intro hgo
    cases hserving : w.serving with
    | none => exact canServe_of_free hi hserving hj hgo
    | some i =>
      have hend := canEnd_of_goesOn (hi.opened i (Or.inl hserving)) (hgo i (Or.inl hserving))
      obtain ⟨fs, w', hx', hi', hnone, hframe⟩ := serve_out hi hserving hend
      have hj' : j ∈ w'.waiting := hframe.waiting ▸ hj
      refine CanReach.of_run hx' (canServe_of_free hi' hnone hj' fun k hk => ?_)
      obtain ⟨a, b, hab, hjb⟩ : ∃ a b, w.waiting = a ++ k :: b ∧ j ∈ b := by
        rcases hk with hk | ⟨a, b, hab, hjb⟩
        · rw [hnone] at hk
          cases hk
        · exact ⟨a, b, hframe.waiting.symm.trans hab, hjb⟩
      have hki : k ≠ i := by
        rintro rfl
        exact hi.apart k hserving (hab ▸ List.mem_append_right a List.mem_cons_self)
      unfold Service.GoesOn
      rw [hframe.sessions k hki, hframe.gone]
      exact hgo k (Or.inr ⟨a, b, hab, hjb⟩)

/-- The marker of the first client comes in two pieces, and a second client waits. -/
def markerCut : List Event :=
  [.connect [letterA], .connect [letterA], .client 0 .start, .client 0 (.send false), .accept, .serve (.serverKey 26),
    .client 0 (.send false), .client 0 (.send false), .serve (.serverRecv 6)]

/-- `canServe_iff` there: both clients wait for ever. -/
theorem canServe_iff_cut :
    ∃ w, exec Service.step (.begin (List.replicate 27 0)) markerCut = some w ∧ 1 ∈ w.waiting ∧ ¬w.CanServe 1 := by
  have hrun : (exec Service.step (.begin (List.replicate 27 0)) markerCut).any (fun w => decide (w.serving = some 0 ∧ 1 ∈ w.waiting ∧
      0 ∉ w.gone ∧ (w.sessions 0).server.file? = some (text "AEOF_M") ∧
      (w.sessions 0).toServer ++ (w.sessions 0).client.pending = text "ARKER")) = true := by decide +kernel
  obtain ⟨w, hx, hw⟩ := (Option.any_eq_true _ _).1 hrun
  obtain ⟨hserving, hj, hthere, hfile, hrest⟩ := of_decide_eq_true hw
  refine ⟨w, hx, hj, fun hcan => ?_⟩
  have hgo := (canServe_iff hx hj).1 hcan 0 (Or.inl hserving) hthere
  cases hs : (w.sessions 0).server with
  | upload key file =>
    rw [hs, hrest] at hgo
    have hin : eofMarker <:+: text "ARKER" := hgo
    exact absurd hin (by decide)
  | key old | reply rest | closed =>
    rw [hs] at hfile
    cases hfile

end NetLabs.Crypt
