import NetLabs.Lib.Machine
import NetLabs.Mail.Numbering

/-!
# What the mailboxes hold

The sessions of all clients over one disk, and beside each mailbox file the messages that were accepted for it. A mailbox file is these
messages, one after the other (`files_of_accepted`), and what the scanners see of it are the lines of each (`fileLines_accepted`).
-/

namespace NetLabs.Mail

open CText Lines Tokens Machine Function

/-- A line as `handle_client` can find it in what `recv` returned. -/
def IsLine (l : List UInt8) : Prop := l ≠ [] ∧ Inline l ∧ l.length ≤ 1023

instance (l : List UInt8) : Decidable (IsLine l) := inferInstanceAs (Decidable (_ ∧ _))

/-- The sessions, the disk, and the messages accepted for each mailbox file: the session in which `save_email` found each, and its date. -/
structure Service where
  sessions : Nat → Session
  disk : Disk
  accepted : List UInt8 → List (Session × Date)

/-- A client connects, or the server takes the next line of one. -/
inductive Arrival where
  | connect (c : Nat)
  | line (c : Nat) (l : List UInt8)

/-- The beginning: no mailbox, and every session as `main` zeroes it. -/
def Service.begin : Service := ⟨fun _ => .begin, .empty, fun _ => []⟩

/-- A message is accepted with the dot that ends it, and stored if its file can be opened. -/
def Service.nextAccepted (host : Host) (x : Service) (s : Session) (l : List UInt8) : List UInt8 → List (Session × Date) :=
  if s.isDataMode = true ∧ l = dot ∧ host.opens (mailboxName s.recipient) = true then
    update x.accepted (mailboxName s.recipient) (x.accepted (mailboxName s.recipient) ++ [(s, host.today x.disk.saves)])
  else x.accepted

/-- One step. -/
def Service.step (host : Host) (x : Service) : Arrival → Option Service
  | .connect c => some { x with sessions := update x.sessions c .begin }
  | .line c l =>
    if IsLine l then
      match handleLine host (x.sessions c) x.disk l with
      | .error _ => none
      | .ok o =>
        some { sessions := update x.sessions c o.session, disk := o.disk, accepted := x.nextAccepted host (x.sessions c) l }
    else none

/-- The text of some messages in a mailbox file. -/
def mailboxText (ps : List (Session × Date)) : List UInt8 := ps.flatMap fun p => mailRecord p.1 p.2

/-- What the scanners see of the body of a message. -/
def bodyLinesSeen (s : Session) : List (List UInt8) := fileLines 1023 s.dataBuffer

/-- What they see of a message. -/
def seen (p : Session × Date) : List (List UInt8) := fromLine p.1 :: dateLine p.2 :: (bodyLinesSeen p.1 ++ [separator])

/-- A session that a client can bring about: its sender and the lines of its body are parts of lines that arrived. -/
structure SessionOk (s : Session) : Prop where
  sender : SenderOk s
  body : ∃ ls, s.dataBuffer = unlines ls ∧ ∀ l ∈ ls, IsLine l

/-- The invariant: all sessions are such, those of the accepted messages too, and a mailbox file is the messages accepted for it. -/
structure Service.Inv (x : Service) : Prop where
  sessions : ∀ c, SessionOk (x.sessions c)
  accepted : ∀ name, ∀ p ∈ x.accepted name, SessionOk p.1
  files : ∀ name, x.disk.files name = if x.accepted name = [] then none else some (mailboxText (x.accepted name))

variable {host : Host} {x x' : Service} {e : Arrival} {s : Session} {d : Disk} {o : Outcome} {line name content : List UInt8}
  {ps : List (Session × Date)} {p : Session × Date}

/-! ## The sessions -/

theorem sessionOk_begin : SessionOk .begin := by
  refine ⟨⟨⟨?_, ?_⟩, ?_⟩, [], rfl, ?_⟩ <;> simp [Session.begin]

/-- No line makes a body that is not made of lines. -/
theorem handleLine_body (hl : IsLine line) (hs : ∃ ls, s.dataBuffer = unlines ls ∧ ∀ l ∈ ls, IsLine l)
    (h : handleLine host s d line = .ok o) : ∃ ls, o.session.dataBuffer = unlines ls ∧ ∀ l ∈ ls, IsLine l := by
  rw [handleLine] at h
  split at h
  · cases h
    rw [handleDataContent]
    split
    · exact hs
    · split
      · obtain ⟨ls, hbuf, hls⟩ := hs
        refine ⟨ls ++ [line], ?_, ?_⟩
        · simp [hbuf, unlines]
        · intro l hmem
          rcases List.mem_append.1 hmem with hmem | hmem
          · exact hls l hmem
          · rw [List.mem_singleton.1 hmem]
            exact hl
      · exact hs
  · have hchanged := (processCommand_changed h).1
    generalize o.session = s' at hchanged
    cases hchanged with
    | kept => exact hs
    | sender => exact hs
    | recipient => exact hs
    | opened => exact ⟨[], rfl, List.forall_mem_nil _⟩

/-- Every line keeps a session such as a client can bring about. -/
theorem handleLine_sessionOk (hl : IsLine line) (hs : SessionOk s) (h : handleLine host s d line = .ok o) : SessionOk o.session :=
  ⟨handleLine_senderOk hl.2.1.plain hs.sender h, handleLine_body hl hs.body h⟩

/-! ## The files -/

/-- The only line that changes a mailbox file is the dot at the end of a message. -/
theorem handleLine_files (h : handleLine host s d line = .ok o) :
    o.disk.files = if s.isDataMode = true ∧ line = dot then (saveEmail host s d).files else d.files := by
  have hsame : (saveEmail host { s with isDataMode := false } d).files = (saveEmail host s d).files := rfl
  rw [handleLine] at h
  split at h
  · rename_i hmode
    cases h
    rw [handleDataContent]
    by_cases hdot : line = dot
    · rw [if_pos hdot, if_pos ⟨hmode, hdot⟩, hsame]
    · have hcond : ¬(s.isDataMode = true ∧ line = dot) := fun hall => hdot hall.2
      rw [if_neg hdot, if_neg hcond]
      split <;> rfl
  · rename_i hmode
    rw [if_neg fun hall => hmode hall.1]
    exact (processCommand_changed h).2

/-- A message that ends and can be stored is accepted last. -/
theorem nextAccepted_stored (h : s.isDataMode = true ∧ line = dot) (hopens : host.opens (mailboxName s.recipient) = true) :
    x.nextAccepted host s line = update x.accepted (mailboxName s.recipient)
      (x.accepted (mailboxName s.recipient) ++ [(s, host.today x.disk.saves)]) := by
  rw [Service.nextAccepted, if_pos ⟨h.1, h.2, hopens⟩]

/-- Else nothing is. -/
theorem nextAccepted_same (h : ¬((s.isDataMode = true ∧ line = dot) ∧ host.opens (mailboxName s.recipient) = true)) :
    x.nextAccepted host s line = x.accepted := by
  rw [Service.nextAccepted, if_neg fun hall => h ⟨⟨hall.1, hall.2.1⟩, hall.2.2⟩]

/-- What is appended to a file is what is accepted for it. -/
theorem nextAccepted_files (hi : x.Inv) (h : handleLine host s x.disk line = .ok o) (name : List UInt8) :
    o.disk.files name = if x.nextAccepted host s line name = [] then none else some (mailboxText (x.nextAccepted host s line name)) := by
  rw [handleLine_files h]
  by_cases hstored : (s.isDataMode = true ∧ line = dot) ∧ host.opens (mailboxName s.recipient) = true
  · obtain ⟨hdot, hopens⟩ := hstored
    rw [nextAccepted_stored hdot hopens, if_pos hdot, saveEmail_files, if_pos hopens]
    by_cases hn : name = mailboxName s.recipient
    · subst hn
      have hold : (x.disk.files (mailboxName s.recipient)).getD [] = mailboxText (x.accepted (mailboxName s.recipient)) := by
        rw [hi.files]
        split
        · rename_i hnil
          rw [hnil]
          rfl
        · rfl
      rw [update_self, update_self, if_neg (by simp), hold]
      simp [mailboxText]
    · rw [update_of_ne hn, update_of_ne hn]
      exact hi.files name
  · have hsame : (if s.isDataMode = true ∧ line = dot then (saveEmail host s x.disk).files else x.disk.files) = x.disk.files := by
      by_cases hdot : s.isDataMode = true ∧ line = dot
      · rw [if_pos hdot, saveEmail_files, if_neg fun hopens => hstored ⟨hdot, hopens⟩]
      · exact if_neg hdot
    rw [nextAccepted_same hstored, hsame]
    exact hi.files name

/-- Only the session that a message ends in is accepted. -/
theorem mem_nextAccepted (h : p ∈ x.nextAccepted host s line name) : p ∈ x.accepted name ∨ p.1 = s := by
  by_cases hstored : (s.isDataMode = true ∧ line = dot) ∧ host.opens (mailboxName s.recipient) = true
  · rw [nextAccepted_stored hstored.1 hstored.2] at h
    by_cases hn : name = mailboxName s.recipient
    · subst hn
      rw [update_self] at h
      rcases List.mem_append.1 h with h | h
      · exact Or.inl h
      · rw [List.mem_singleton.1 h]
        exact Or.inr rfl
    · rw [update_of_ne hn] at h
      exact Or.inl h
  · rw [nextAccepted_same hstored] at h
    exact Or.inl h

/-- Every step keeps the invariant. -/
theorem service_step_inv (hi : x.Inv) (h : x.step host e = some x') : x'.Inv := by
  have hupdate : ∀ {c : Nat} {s : Session}, SessionOk s → ∀ k, SessionOk (update x.sessions c s k) := by
    intro c s hs k
    by_cases hk : k = c
    · rw [hk, update_self]
      exact hs
    · rw [update_of_ne hk]
      exact hi.sessions k
  cases e with
  | connect c =>
    cases h
    exact ⟨hupdate sessionOk_begin, hi.accepted, hi.files⟩
  | line c l =>
    obtain ⟨hl, h⟩ := Option.ite_none_right_eq_some.1 h
    split at h
    · cases h
    · rename_i o ho
      cases h
      refine ⟨hupdate (handleLine_sessionOk hl (hi.sessions c) ho), ?_, nextAccepted_files hi ho⟩
      intro name p hp
      rcases mem_nextAccepted hp with hp | hp
      · exact hi.accepted name p hp
      · rw [hp]
        exact hi.sessions c

theorem begin_service : Service.begin.Inv := ⟨fun _ => sessionOk_begin, by simp [Service.begin], fun _ => rfl⟩

/-- The invariant holds in every state that a run reaches. -/
theorem service_inv {arrivals : List Arrival} (hx : exec (Service.step host) .begin arrivals = some x) : x.Inv :=
  always_of_kept (fun _ _ _ => service_step_inv) begin_service arrivals (List.prefix_refl _) x hx

/-- The mailbox file of some accepted messages. -/
theorem files_of_accepted (hi : x.Inv) (hf : x.disk.files name = some content) :
    x.accepted name ≠ [] ∧ content = mailboxText (x.accepted name) := by
  rw [hi.files] at hf
  split at hf
  · cases hf
  · rename_i hne
    exact ⟨hne, (Option.some.inj hf).symm⟩

/-- What the scanners see of a body are its lines, in the pieces in which they are read. -/
theorem bodyLinesSeen_unlines {ls : List (List UInt8)} (hbuf : s.dataBuffer = unlines ls) (hls : ∀ l ∈ ls, IsLine l) :
    bodyLinesSeen s = ls.flatMap (pieces 1023) := by
  have hplain : ∀ l ∈ ls, Plain l ∧ l.length ≤ 1023 := fun l hl => ⟨(hls l hl).2.1.plain, (hls l hl).2.2⟩
  have hseen : fileLines 1023 (unlines ls ++ []) = _ := fileLines_unlines hplain (by decide)
  rw [List.append_nil, fileLines_nil, List.append_nil] at hseen
  rw [bodyLinesSeen, hbuf, hseen]

/-- What the scanners see of a sequence of messages. -/
theorem fileLines_accepted (hps : ∀ p ∈ ps, SessionOk p.1) : fileLines 1023 (mailboxText ps) = ps.flatMap seen := by
  induction ps with
  | nil => rfl
  | cons p ps ih =>
    rw [List.forall_mem_cons] at hps
    obtain ⟨ls, hbuf, hls⟩ := hps.1.body
    have hplain : ∀ l ∈ ls, Plain l ∧ l.length ≤ 1023 := fun l hl => ⟨(hls l hl).2.1.plain, (hls l hl).2.2⟩
    have hsep : Plain separator := by unfold Plain; decide
    have hbody := bodyLinesSeen_unlines hbuf hls
    have hsplit : mailboxText (p :: ps) = mailRecord p.1 p.2 ++ mailboxText ps := rfl
    rw [hsplit, fileLines_record hps.1.sender, hbuf, fileLines_unlines hplain (by decide),
      fileLines_line hsep (by decide) (by decide), ih hps.2, List.flatMap_cons, seen, hbody, pieces, if_neg (by decide)]
    simp

/-! ## One message -/

/-- A line of a body that fits. -/
theorem step_bodyLine {c : Nat} (hl : IsLine line) (hmode : (x.sessions c).isDataMode = true) (hdot : line ≠ dot)
    (hfit : (x.sessions c).dataBuffer.length + line.length + 2 < 4096) : x.step host (.line c line) =
      some { x with sessions := update x.sessions c { x.sessions c with dataBuffer := (x.sessions c).dataBuffer ++ line ++ [newline] } } := by
  have hhandle : handleLine host (x.sessions c) x.disk line =
      .ok ⟨{ x.sessions c with dataBuffer := (x.sessions c).dataBuffer ++ line ++ [newline] }, x.disk, []⟩ := by
    rw [handleLine, if_pos hmode, handleDataContent, if_neg hdot, if_pos hfit]
  have hsame : x.nextAccepted host (x.sessions c) line = x.accepted := nextAccepted_same fun hall => hdot hall.1.2
  rw [Service.step, if_pos hl, hhandle, hsame]

/-- All lines of a body that fits. -/
theorem exec_bodyLines {c : Nat} {lines : List (List UInt8)} (hl : ∀ l ∈ lines, IsLine l ∧ l ≠ dot)
    (hmode : (x.sessions c).isDataMode = true) (hfit : (x.sessions c).dataBuffer.length + (unlines lines).length ≤ 4094) :
    exec (Service.step host) x (lines.map (.line c)) =
      some { x with sessions := update x.sessions c { x.sessions c with dataBuffer := (x.sessions c).dataBuffer ++ unlines lines } } := by
  induction lines generalizing x with
  | nil =>
    have hnil : (x.sessions c).dataBuffer ++ unlines [] = (x.sessions c).dataBuffer := List.append_nil _
    rw [hnil, update_eq_self]
    rfl
  | cons l lines ih =>
    rw [List.forall_mem_cons] at hl
    have hcons : unlines (l :: lines) = l ++ [newline] ++ unlines lines := rfl
    have hlen : (unlines (l :: lines)).length = l.length + 1 + (unlines lines).length := by
      rw [hcons, List.length_append, List.length_append, List.length_singleton]
    rw [hlen] at hfit
    rw [List.map_cons, exec_cons, step_bodyLine hl.1.1 hmode hl.1.2 (by omega), Option.bind_some, ih hl.2]
    · simp only [update_self, update_idem, hcons, List.append_assoc]
    · simpa using hmode
    · simp only [update_self, List.length_append, List.length_singleton]
      omega

/-- The dot at the end of a body. -/
theorem step_dot {c : Nat} (hmode : (x.sessions c).isDataMode = true) : x.step host (.line c dot) =
    some {
      sessions := update x.sessions c { x.sessions c with isDataMode := false }
      disk := saveEmail host { x.sessions c with isDataMode := false } x.disk
      accepted := x.nextAccepted host (x.sessions c) dot } := by
  have hl : IsLine dot := by decide
  have hhandle : handleLine host (x.sessions c) x.disk dot = .ok ⟨{ x.sessions c with isDataMode := false },
      saveEmail host { x.sessions c with isDataMode := false } x.disk, [messageStored]⟩ := by
    rw [handleLine, if_pos hmode, handleDataContent, if_pos rfl]
  rw [Service.step, if_pos hl, hhandle]

/-- `a@b` writes some lines to `c@d`. -/
def writes (lines : List (List UInt8)) : List Arrival :=
  [.line 0 (text "MAIL FROM: a@b"), .line 0 (text "RCPT TO: c@d"), .line 0 (text "DATA")] ++ lines.map (.line 0) ++ [.line 0 dot]

/-- The session it is accepted in. -/
def letter (body : List UInt8) : Session := ⟨[], text "a@b", text "c@d", true, body⟩

/-- The message is accepted when its lines fit. -/
theorem exec_writes (lines : List (List UInt8)) (hl : ∀ l ∈ lines, IsLine l ∧ l ≠ dot) (hfit : (unlines lines).length ≤ 4094) :
    ∃ x, exec (Service.step newYear) .begin (writes lines) = some x ∧
      x.accepted (mailboxName (text "c@d")) = [(letter (unlines lines), newYear.today 0)] := by
  obtain ⟨y, hy, hsession, hdisk, haccepted⟩ : ∃ y, exec (Service.step newYear) .begin
      [.line 0 (text "MAIL FROM: a@b"), .line 0 (text "RCPT TO: c@d"), .line 0 (text "DATA")] = some y ∧
      y.sessions 0 = letter [] ∧ y.disk = .empty ∧ y.accepted = fun _ => [] := ⟨_, rfl, rfl, rfl, rfl⟩
  obtain ⟨z, hz, hsession', hdisk', haccepted'⟩ : ∃ z, exec (Service.step newYear) y (lines.map (.line 0)) = some z ∧
      z.sessions 0 = letter (unlines lines) ∧ z.disk = .empty ∧ z.accepted = fun _ => [] := by
    have hbody := @exec_bodyLines newYear y 0 lines hl (by rw [hsession]; rfl) (by rw [hsession]; simpa [letter] using hfit)
    rw [hsession] at hbody
    refine ⟨_, hbody, ?_, hdisk, haccepted⟩
    dsimp only
    rw [update_self]
    rfl
  obtain ⟨x, hx, hstored⟩ : ∃ x, z.step newYear (.line 0 dot) = some x ∧
      x.accepted (mailboxName (text "c@d")) = [(letter (unlines lines), newYear.today 0)] := by
    refine ⟨_, step_dot (by rw [hsession']; rfl), ?_⟩
    dsimp only
    rw [hsession', nextAccepted_stored ⟨rfl, rfl⟩ rfl, haccepted', hdisk']
    exact update_self _ _ _
  refine ⟨x, ?_, hstored⟩
  rw [writes, exec_append, exec_append, hy, Option.bind_some, hz, Option.bind_some]
  exact exec_cons_eq_some.2 ⟨x, hx, rfl⟩

end NetLabs.Mail
