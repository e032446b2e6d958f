import NetLabs.Mail.Mailbox
import NetLabs.Mail.Segments

/-!
# Submitting a message

A message is submitted with `MAIL FROM`, `RCPT TO`, `DATA`, the lines of its body and a dot. `submission_stored` says what the server
has done once it has answered that with 200 four times over: one `save_email`, with the lines of the body that are not empty.
-/

namespace NetLabs.Mail

open CText Lines Tokens Function

/-- A message as a client may submit it: its sender fits into `sender[100]`, and no line of its body is the dot that ends it. -/
structure Message where
  sender : List UInt8
  body : List (List UInt8)
  senderInline : Inline sender
  senderFits : sender.length ≤ 99
  bodyInline : ∀ l ∈ body, Inline l
  noDot : dot ∉ body

/-- The lines of the body that `strtok` finds. -/
def Message.kept (m : Message) : List (List UInt8) := m.body.filter (!·.isEmpty)

/-- The lines before the body. -/
def openingLines (r : List UInt8) (m : Message) : List (List UInt8) :=
  [text "MAIL FROM: " ++ m.sender, text "RCPT TO: " ++ r, text "DATA"]

/-- What the client sends for a message. -/
def submission (r : List UInt8) (m : Message) : List UInt8 := (openingLines r m ++ m.body ++ [dot]).flatMap (· ++ crlf)

/-- The answers to a message that is stored. -/
def storedReplies : List (List UInt8) := [okResponse, okResponse, enterMessage, messageStored]

/-- The session `save_email` is called in. -/
def savedSession (s : Session) (r : List UInt8) (m : Message) : Session := ⟨s.clientId, m.sender, r.take 99, false, unlines m.kept⟩

variable {host : Host} {s : Session} {d : Disk} {r line : List UInt8} {m : Message} {lines chunks : List (List UInt8)} {o : Outcome}

theorem Message.inline_kept (h : line ∈ m.kept) : Inline line := m.bodyInline line (List.mem_of_mem_filter h)

theorem Message.kept_ne_dot (h : line ∈ m.kept) : line ≠ dot := by
  rintro rfl
  exact m.noDot (List.mem_of_mem_filter h)

/-- The lines the server finds in a submission. -/
theorem tokens_submission (hr : Inline r) : tokens isCrlf (submission r m) = openingLines r m ++ (m.kept ++ [dot]) := by
  have hinline : ∀ l ∈ openingLines r m ++ m.body ++ [dot], Inline l := by
    intro l hl
    simp only [List.mem_append, openingLines, List.mem_cons, List.not_mem_nil, or_false] at hl
    have hmailFrom : Inline (text "MAIL FROM: ") := by decide
    have hrcptTo : Inline (text "RCPT TO: ") := by decide
    rcases hl with ((rfl | rfl | rfl) | hl) | rfl
    · exact hmailFrom.append m.senderInline
    · exact hrcptTo.append hr
    · decide
    · exact m.bodyInline l hl
    · decide
  have hopening : (openingLines r m).filter (!·.isEmpty) = openingLines r m := rfl
  rw [submission, tokens_lines hinline, List.filter_append, List.filter_append, hopening, List.append_assoc]
  rfl

/-- A run that begins with a line. -/
theorem runLines_cons (h : runLines host s d (line :: lines) = .ok o) : ∃ o₁ o₂, handleLine host s d line = .ok o₁ ∧
    runLines host o₁.session o₁.disk lines = .ok o₂ ∧ o.disk = o₂.disk ∧ o.sent = o₁.sent ++ o₂.sent := by
  obtain ⟨o₁, o₂, hfirst, hrest, rfl⟩ := andThen_eq_ok h
  exact ⟨o₁, o₂, hfirst, hrest, rfl, rfl⟩

/-- A body that is answered with 200 has been kept line by line, and saved. -/
theorem runLines_body (hmode : s.isDataMode = true) (hdot : ∀ l ∈ lines, l ≠ dot)
    (h : runLines host s d (lines ++ [dot]) = .ok o) (hsent : o.sent = [messageStored]) :
    o.disk = saveEmail host { s with isDataMode := false, dataBuffer := s.dataBuffer ++ unlines lines } d := by
  induction lines generalizing s o with
  | nil =>
    obtain ⟨o₁, o₂, hfirst, hrest, hdisk, _⟩ := runLines_cons h
    cases hrest
    rw [handleLine, hmode, if_pos rfl, handleDataContent, if_pos rfl] at hfirst
    cases hfirst
    rw [hdisk]
    simp [unlines]
  | cons l lines ih =>
    rw [List.forall_mem_cons] at hdot
    obtain ⟨o₁, o₂, hfirst, hrest, hdisk, hsent'⟩ := runLines_cons h
    rw [handleLine, hmode, if_pos rfl, handleDataContent, if_neg hdot.1] at hfirst
    split at hfirst
    · cases hfirst
      have hmode' : { s with dataBuffer := s.dataBuffer ++ l ++ [newline] }.isDataMode = true := hmode
      rw [hdisk, ih hmode' hdot.2 hrest (hsent'.symm.trans hsent)]
      simp [unlines]
    · -- the line does not fit: the answer is 500
      cases hfirst
      rw [hsent] at hsent'
      exact absurd (congrArg List.head? hsent') (by simp [messageStored, serverError, text])

/-- An accepted `MAIL FROM`, and the answers to come. -/
theorem handleLine_mailFrom {sender : List UInt8} {rest more : List (List UInt8)} (hmode : s.isDataMode = false)
    (h : handleLine host s d (text "MAIL FROM: " ++ sender) = .ok o) (hsent : okResponse :: more = o.sent ++ rest) :
    o = ⟨{ s with sender := sender.take 99 }, d, [okResponse]⟩ ∧ rest = more := by
  rw [handleLine, hmode, if_neg Bool.false_ne_true, processCommand_mailFrom, handleMailFrom] at h
  split at h
  · cases h
    exact ⟨rfl, (List.cons.inj hsent).2.symm⟩
  · cases h
    exact absurd (List.cons.inj hsent).1 (by decide)

/-- An accepted `RCPT TO`, and the answers to come. -/
theorem handleLine_rcptTo {rest more : List (List UInt8)} (hmode : s.isDataMode = false)
    (h : handleLine host s d (text "RCPT TO: " ++ r) = .ok o) (hsent : okResponse :: more = o.sent ++ rest) :
    o = ⟨{ s with recipient := r.take 99 }, d, [okResponse]⟩ ∧ validateEmail r = true ∧ rest = more := by
  rw [handleLine, hmode, if_neg Bool.false_ne_true, processCommand_rcptTo, handleRcptTo] at h
  split at h
  · rename_i hvalid
    cases h
    exact ⟨rfl, hvalid, (List.cons.inj hsent).2.symm⟩
  · cases h
    exact absurd (List.cons.inj hsent).1 (by decide)

/-- An accepted `DATA`, and the answers to come. -/
theorem handleLine_data {rest more : List (List UInt8)} (hmode : s.isDataMode = false)
    (h : handleLine host s d (text "DATA") = .ok o) (hsent : enterMessage :: more = o.sent ++ rest) :
    o = ⟨{ s with isDataMode := true, dataBuffer := [] }, d, [enterMessage]⟩ ∧ rest = more := by
  rw [handleLine, hmode, if_neg Bool.false_ne_true, processCommand_data, handleData] at h
  split at h
  · cases h
    exact absurd (List.cons.inj hsent).1 (by decide)
  · cases h
    exact ⟨rfl, (List.cons.inj hsent).2.symm⟩

/-- The run of a submission that is answered with 200 four times over. -/
theorem runLines_submission (hmode : s.isDataMode = false)
    (h : runLines host s d (openingLines r m ++ (m.kept ++ [dot])) = .ok o) (hsent : o.sent = storedReplies) :
    validateEmail r = true ∧ o.disk = saveEmail host (savedSession s r m) d := by
  obtain ⟨o₁, o₂, h₁, hrest₁, hdisk₁, hsent₁⟩ := runLines_cons h
  obtain ⟨rfl, hmore₁⟩ := handleLine_mailFrom hmode h₁ (hsent.symm.trans hsent₁)
  obtain ⟨o₃, o₄, h₃, hrest₂, hdisk₂, hsent₂⟩ := runLines_cons hrest₁
  obtain ⟨rfl, hvalid, hmore₂⟩ := handleLine_rcptTo (s := { s with sender := m.sender.take 99 }) hmode h₃
    (hmore₁.symm.trans hsent₂)
  obtain ⟨o₅, o₆, h₅, hrest₃, hdisk₃, hsent₃⟩ := runLines_cons hrest₂
  obtain ⟨rfl, hmore₃⟩ := handleLine_data (s := { s with sender := m.sender.take 99, recipient := r.take 99 }) hmode h₅
    (hmore₂.symm.trans hsent₃)
  have hbody := runLines_body rfl (fun l hl => m.kept_ne_dot hl) hrest₃ hmore₃
  refine ⟨hvalid, ?_⟩
  have hsender : m.sender.take 99 = m.sender := List.take_of_length_le m.senderFits
  rw [hdisk₁, hdisk₂, hdisk₃, hbody, savedSession]
  simp only [hsender, List.nil_append]

/-- A submission whose lines arrive whole and that is answered with 200 four times over has been saved, and its lines fit into the
buffers of the server. -/
theorem submission_stored (hr : Inline r) (hmode : s.isDataMode = false) (hrecv : Received chunks) (hwhole : Whole chunks)
    (hflat : chunks.flatten = submission r m) (h : serve host s d chunks = .ok o) (hsent : o.sent = storedReplies) :
    validateEmail r = true ∧ o.disk = saveEmail host (savedSession s r m) d ∧ ∀ l ∈ m.kept, l.length ≤ 1023 := by
  rw [serve_whole hrecv hwhole, hflat, tokens_submission hr] at h
  obtain ⟨hvalid, hdisk⟩ := runLines_submission hmode h hsent
  refine ⟨hvalid, hdisk, fun l hl => ?_⟩
  refine length_le_of_whole hrecv hwhole ?_
  rw [hflat, tokens_submission hr]
  simp [hl]

end NetLabs.Mail
