import NetLabs.Mail.Mailbox
import NetLabs.Mail.Segments

/-!
# LIST and GET_MAIL agree

`LIST` and `GET_MAIL` number the messages of a mailbox file alike exactly when no two `From: ` lines of it come without a separator
between them, every such line and the date after it fit into the buffers of `handle_list`, and every message fits into the one of
`handle_get_mail`. Nothing in `save_email` sees to any of it: the body of a message may have a `From: ` line of its own.
-/

namespace NetLabs.Mail

open CText Lines Function

variable {host : Host} {s : Session} {d : Disk} {ss : List Session} {name content line : List UInt8}
  {lines rest pre post block : List (List UInt8)} {entries : List Entry} {id k n : Nat} {reading : Bool}

/-! ## The files -/

/-- The disk after calls of `save_email`, for any sessions. -/
def saveAll (host : Host) (d : Disk) (ss : List Session) : Disk := ss.foldl (fun d s => saveEmail host s d) d

/-- A file that begins with a message. -/
def Begun (content : List UInt8) : Prop := ∃ s date rest, SenderOk s ∧ content = mailRecord s date ++ rest

/-- `save_email` writes at the end of a file. -/
theorem saveEmail_begun (hs : SenderOk s) (h : ∀ name content, d.files name = some content → Begun content)
    (hf : (saveEmail host s d).files name = some content) : Begun content := by
  rw [saveEmail_files] at hf
  split at hf
  · by_cases hn : name = mailboxName s.recipient
    · subst hn
      rw [update_self, Option.some.injEq] at hf
      subst hf
      cases hold : d.files (mailboxName s.recipient) with
      | none => exact ⟨s, host.today d.saves, [], hs, by simp⟩
      | some old =>
        obtain ⟨s', date, tail, hs', rfl⟩ := h _ _ hold
        exact ⟨s', date, tail ++ mailRecord s (host.today d.saves), hs', by simp⟩
    · rw [update_of_ne hn] at hf
      exact h _ _ hf
  · exact h _ _ hf

/-- Every file that calls of `save_email` can have produced begins with a message. -/
theorem saveAll_begun (hss : ∀ s ∈ ss, SenderOk s) (h : ∀ name content, d.files name = some content → Begun content)
    (hf : (saveAll host d ss).files name = some content) : Begun content := by
  induction ss generalizing d with
  | nil => exact h _ _ hf
  | cons s ss ih =>
    rw [List.forall_mem_cons] at hss
    exact ih hss.2 (fun _ _ => saveEmail_begun hss.1 h) hf

/-- `LIST` sets `date` at the first header of such a file, whatever was in it. -/
theorem Begun.listFile_eq (h : Begun content) : listFile content = listScan (fileLines 1023 content) 0 false (some []) := by
  obtain ⟨s, date, tail, hs, rfl⟩ := h
  rw [listFile, fileLines_record hs, listScan_header (isHeader_fromLine s), listScan_header (isHeader_fromLine s)]
  simp only [scanDate_dateLine]

/-! ## Separated headers -/

/-- Between two `From: ` lines there is always a separator. -/
def Separated (lines : List (List UInt8)) : Prop := ∀ block, block <:+: lines → separator ∉ block → block.countP isHeader ≤ 1

/-- Up to the next separator there are at most so many `From: ` lines that, with `k` before, there is no more than one. -/
def Upcoming (k : Nat) (lines : List (List UInt8)) : Prop :=
  ∀ block, block <+: lines → separator ∉ block → k + block.countP isHeader ≤ 1

theorem separated_cons : Separated (line :: rest) ↔ Upcoming 0 (line :: rest) ∧ Separated rest := by
  constructor
  · intro h
    refine ⟨fun block hb hsep => ?_, fun block hb => h block (List.infix_cons_iff.2 (Or.inr hb))⟩
    rw [Nat.zero_add]
    exact h block hb.isInfix hsep
  · rintro ⟨hup, hrest⟩ block hb hsep
    rcases List.infix_cons_iff.1 hb with hb | hb
    · have := hup block hb hsep
      omega
    · exact hrest block hb hsep

theorem Separated.upcoming (h : Separated rest) : Upcoming 0 rest := by
  intro block hb hsep
  rw [Nat.zero_add]
  exact h block hb.isInfix hsep

theorem Upcoming.le (h : Upcoming k rest) : k ≤ 1 := by
  simpa using h [] (List.nil_prefix) (by simp)

/-- A separator lets the count begin anew. -/
theorem upcoming_separator : Upcoming k (separator :: rest) ↔ k ≤ 1 := by
  refine ⟨Upcoming.le, fun hk block hb hsep => ?_⟩
  rcases List.prefix_cons_iff.1 hb with rfl | ⟨block, rfl, _⟩
  · simpa using hk
  · exact absurd List.mem_cons_self hsep

/-- What one line that is no separator adds to the count. -/
theorem upcoming_cons (h : line ≠ separator) :
    Upcoming k (line :: rest) ↔ k ≤ 1 ∧ Upcoming (k + if isHeader line then 1 else 0) rest := by
  constructor
  · intro hup
    refine ⟨hup.le, fun block hb hsep => ?_⟩
    have := hup (line :: block) (List.cons_prefix_cons.2 ⟨rfl, hb⟩) (by
      rw [List.mem_cons, not_or]
      exact ⟨fun e => h e.symm, hsep⟩)
    rw [List.countP_cons] at this
    omega
  · rintro ⟨hk, hup⟩ block hb hsep
    rcases List.prefix_cons_iff.1 hb with rfl | ⟨block, rfl, hrest⟩
    · simpa using hk
    · rw [List.mem_cons, not_or] at hsep
      have := hup block hrest hsep.2
      rw [List.countP_cons]
      omega

/-- Every header comes when no separator is missing, and fits, exactly when the headers are separated and every one fits. -/
theorem numbered_iff : Numbered reading lines ↔
    Upcoming reading.toNat lines ∧ Separated lines ∧
      ∀ pre line post, lines = pre ++ line :: post → isHeader line = true → HeaderFits line post := by
  induction lines generalizing reading with
  | nil =>
    refine ⟨fun _ => ⟨fun block hb _ => ?_, fun block hb _ => ?_, by simp⟩, fun _ => trivial⟩
    · obtain rfl : block = [] := List.prefix_nil.1 hb
      simpa using Bool.toNat_le reading
    · obtain rfl : block = [] := List.infix_nil.1 hb
      simp
  | cons line rest ih =>
    rw [separated_cons, forall_place_cons (P := fun _ line post => isHeader line = true → HeaderFits line post), Numbered]
    cases hl : isHeader line with
    | true =>
      rw [if_pos rfl, ih, upcoming_cons (ne_separator_of_isHeader hl), upcoming_cons (ne_separator_of_isHeader hl), hl]
      cases reading
      · simp only [Bool.toNat_true, Bool.toNat_false, if_true, Nat.zero_add, true_and, forall_const]
        tauto
      · refine iff_of_false (by simp) ?_
        rintro ⟨⟨_, hup⟩, _⟩
        exact absurd hup.le (by simp)
    | false =>
      rw [if_neg Bool.false_ne_true, ih]
      by_cases hsep : line = separator
      · subst hsep
        rw [upcoming_separator, upcoming_separator]
        have hbne : (separator != separator) = false := by simp
        simp only [hbne, Bool.and_false, Bool.toNat_false, Bool.false_eq_true, false_imp_iff, true_and, Nat.zero_le]
        have := Bool.toNat_le reading
        have hsepUp : Separated rest → Upcoming 0 rest := Separated.upcoming
        tauto
      · have hbne : (line != separator) = true := by simpa using hsep
        rw [upcoming_cons hsep, upcoming_cons hsep, hl, hbne]
        simp only [Bool.and_true, Bool.false_eq_true, if_false, Nat.add_zero, false_imp_iff, true_and, Nat.zero_le]
        have := Bool.toNat_le reading
        have hsepUp : Separated rest → Upcoming 0 rest := Separated.upcoming
        tauto

/-! ## The two commands -/

/-- `LIST` and `GET_MAIL` agree on a file: both come to their end, they know the same numbers, and the `From: ` line under a number
has the sender that is listed. -/
def Agree (content : List UInt8) : Prop :=
  ∃ entries, listFile content = .ok entries ∧ ∀ id, 0 < id → ∃ response, getMailFile content id = .ok response ∧
    ((∃ e ∈ entries, e.emailId = id) ↔ response ≠ notFound) ∧
    ∀ e ∈ entries, e.emailId = id → okResponse ++ (fromPrefix ++ e.sender) ++ crlf <+: response

/-- A file both can read out: its headers are separated and can be counted, the buffers of `handle_list` hold every header and the
date after it, and the one of `handle_get_mail` holds every message. -/
structure Legible (lines : List (List UInt8)) : Prop where
  separated : Separated lines
  countable : lines.countP isHeader < 2147483648
  listed : ∀ pre line post, lines = pre ++ line :: post → isHeader line = true → HeaderFits line post
  sent : ∀ pre line post, lines = pre ++ line :: post → isHeader line = true →
    (mailResponse (line :: post.takeWhile (· != separator))).length ≤ 4095

/-- The entry under a number has the sender of the header that is the so-manieth. -/
theorem Numbers.sender_of_emailId (h : Numbers entries (pre ++ line :: post) 0) (hl : isHeader line = true) {e : Entry}
    (he : e ∈ entries) (hid : e.emailId = pre.countP isHeader + 1) : e.sender = line.drop 6 := by
  obtain ⟨i, hi, rfl⟩ := List.mem_iff_getElem.1 he
  have hids := congrArg (·[i]?) h.ids
  have hsenders := congrArg (·[i]?) h.senders
  simp only [List.getElem?_map, List.getElem?_eq_getElem hi, Option.map_some] at hids hsenders
  have hi' : i = pre.countP isHeader := by
    obtain ⟨_, hval⟩ := List.getElem?_eq_some_iff.1 hids.symm
    rw [List.getElem_range'] at hval
    omega
  have hplace : (headers (pre ++ line :: post))[i]? = some line := by
    rw [headers, List.filter_append, List.filter_cons_of_pos hl, hi', List.countP_eq_length_filter]
    simp
  rw [hplace, Option.map_some, Option.some.injEq] at hsenders
  exact hsenders

/-- `GET_MAIL` on a file whose messages fit. -/
theorem getMailFile_of_sent (h : getMailScan id (fileLines 1023 content) 0 = some lines)
    (hlen : (mailResponse lines).length ≤ 4095) : getMailFile content id = .ok (mailResponse lines) := by
  rw [getMailFile, h]
  exact if_neg (by omega)

theorem Legible.agree (hb : listFile content = listScan (fileLines 1023 content) 0 false (some []))
    (h : Legible (fileLines 1023 content)) : Agree content := by
  have hnumbered : Numbered false (fileLines 1023 content) := numbered_iff.2 ⟨h.separated.upcoming, h.separated, h.listed⟩
  have hcount := h.countable
  obtain ⟨entries, hentries, hnum⟩ : ∃ entries, listScan (fileLines 1023 content) 0 false (some []) = .ok entries ∧
      Numbers entries (fileLines 1023 content) 0 := listScan_complete hnumbered (by omega)
  have hmem : ∀ id, (∃ e ∈ entries, e.emailId = id) ↔ 0 < id ∧ id ≤ (fileLines 1023 content).countP isHeader := by
    intro id
    rw [← List.mem_map, hnum.ids, List.mem_range']
    constructor
    · rintro ⟨i, hi, rfl⟩
      omega
    · intro hid
      exact ⟨id - 1, by omega, by omega⟩
  refine ⟨entries, hb.trans hentries, fun id hid => ?_⟩
  cases hscan : getMailScan id (fileLines 1023 content) 0 with
  | none =>
    have hnone := (getMailScan_eq_none_iff.1 hscan).resolve_left (by omega)
    refine ⟨notFound, by rw [getMailFile, hscan], iff_of_false ?_ (by simp), fun e he heq => ?_⟩
    · rw [hmem]
      omega
    · have := (hmem id).1 ⟨e, he, heq⟩
      omega
  | some found =>
    obtain ⟨pre, line, post, hsplit, hl, hplace, rfl⟩ := getMailScan_eq_some_iff.1 hscan
    refine ⟨_, getMailFile_of_sent hscan (h.sent pre line post hsplit hl), iff_of_true ?_ (mailResponse_ne_notFound _), ?_⟩
    · rw [hmem, hsplit, List.countP_append, List.countP_cons_of_pos hl]
      omega
    · intro e he heq
      rw [hsplit] at hnum
      rw [hnum.sender_of_emailId hl he (by omega), ← header_eq hl]
      exact ⟨(post.takeWhile (· != separator)).flatMap (· ++ crlf), by simp [mailResponse]⟩

theorem Agree.legible (hb : listFile content = listScan (fileLines 1023 content) 0 false (some [])) (h : Agree content) :
    Legible (fileLines 1023 content) := by
  obtain ⟨entries, hentries, hall⟩ := h
  rw [hb] at hentries
  have hscanned := listScan_scanned hentries
  obtain ⟨hle, hbound, hids⟩ := hscanned.numbers
  have hlen : entries.length = (fileLines 1023 content).countP isHeader := by
    by_contra hne
    -- the last message is found and not listed
    obtain ⟨response, hresponse, hiff, _⟩ := hall ((fileLines 1023 content).countP isHeader) (by omega)
    have hlisted : ∃ e ∈ entries, e.emailId = (fileLines 1023 content).countP isHeader := by
      refine hiff.2 fun hnf => ?_
      cases hscan : getMailScan ((fileLines 1023 content).countP isHeader) (fileLines 1023 content) 0 with
      | none =>
        rcases getMailScan_eq_none_iff.1 hscan with h | h <;> omega
      | some found =>
        rw [getMailFile, hscan] at hresponse
        simp only at hresponse
        split at hresponse
        · cases hresponse
        · cases hresponse
          exact mailResponse_ne_notFound _ hnf
    rw [← List.mem_map, hids, List.mem_range'] at hlisted
    obtain ⟨i, hi, heqi⟩ := hlisted
    omega
  obtain ⟨hnumbered, _⟩ := hscanned.numbered hlen
  obtain ⟨_, hseparated, hlisted⟩ := numbered_iff.1 hnumbered
  refine ⟨hseparated, ?_, hlisted, fun pre line post hsplit hl => ?_⟩
  · by_cases hnil : entries = []
    · rw [← hlen, hnil]
      decide
    · have := hbound hnil
      omega
  · obtain ⟨response, hresponse, _⟩ := hall (pre.countP isHeader + 1) (by omega)
    have hscan : getMailScan (pre.countP isHeader + 1) (fileLines 1023 content) 0 =
        some (line :: post.takeWhile (· != separator)) :=
      getMailScan_eq_some_iff.2 ⟨pre, line, post, hsplit, hl, by omega, rfl⟩
    rw [getMailFile, hscan] at hresponse
    simp only at hresponse
    split at hresponse
    · cases hresponse
    · omega

/-! ## The senders of the server -/

/-- What is after the first word of a line, cut to the buffer, is part of a line. -/
theorem plain_args (h : Plain line) (k m : Nat) : Plain ((line.drop k).take m) :=
  ⟨fun hm => h.1 (List.mem_of_mem_drop (List.mem_of_mem_take hm)), fun hm => h.2 (List.mem_of_mem_drop (List.mem_of_mem_take hm))⟩

/-- No command and no line of a body makes a sender that `save_email` could not write as a line. -/
theorem handleLine_senderOk {o : Outcome} (hl : Plain line) (hs : SenderOk s) (h : handleLine host s d line = .ok o) :
    SenderOk o.session := by
  rw [handleLine] at h
  split at h
  · cases h
    rw [handleDataContent]
    split
    · exact ⟨hs.plain, hs.fits⟩
    · split <;> exact ⟨hs.plain, hs.fits⟩
  · have hchanged := (processCommand_changed h).1
    generalize o.session = s' at hchanged
    cases hchanged with
    | kept => exact ⟨hs.plain, hs.fits⟩
    | sender => exact ⟨plain_args hl _ _, by rw [List.length_take]; omega⟩
    | recipient => exact ⟨hs.plain, hs.fits⟩
    | opened => exact ⟨hs.plain, hs.fits⟩

/-- Whatever a client sends, the sender that `save_email` finds in its session can be written as a line. -/
theorem serve_senderOk {chunks : List (List UInt8)} {o : Outcome} (h : serve host .begin d chunks = .ok o) :
    SenderOk o.session := by
  rw [serve_eq_runLines] at h
  have hbegin : SenderOk .begin :=
    ⟨⟨by simp [Session.begin], by simp [Session.begin]⟩, by simp [Session.begin]⟩
  refine runLines_keeps (Q := fun s _ => SenderOk s) (fun line hline s d o hs ho => ?_) hbegin h
  obtain ⟨c, _, hc⟩ := List.mem_flatMap.1 hline
  exact handleLine_senderOk (plain_of_mem_chunkLines hc) hs ho

/-! ## Every mailbox file -/

/-- For every mailbox file that calls of `save_email` can have produced, on any host and whatever the bodies are: `LIST` and
`GET_MAIL` agree on it exactly when they can read it out. -/
theorem numbering_iff (hss : ∀ s ∈ ss, SenderOk s) (hf : (saveAll host .empty ss).files name = some content) :
    Agree content ↔ Legible (fileLines 1023 content) := by
  have hb := (saveAll_begun hss (by simp [Disk.empty]) hf).listFile_eq
  exact ⟨fun h => h.legible hb, fun h => h.agree hb⟩

/-- A session in which `a@b` has written one line to `c@d`. -/
def written (line : List UInt8) : Session := ⟨[], text "a@b", text "c@d", false, line ++ [newline]⟩

/-- The mailbox after it. -/
theorem written_file (line : List UInt8) :
    (saveAll newYear .empty [written line]).files (mailboxName (text "c@d")) =
      some (mailRecord (written line) (newYear.today 0)) := by
  have hopens : newYear.opens (mailboxName (written line).recipient) = true := rfl
  rw [saveAll, List.foldl_cons, List.foldl_nil, saveEmail_files, if_pos hopens]
  exact update_self _ _ _

/-- `numbering_iff` on a mailbox with one message. -/
theorem numbering_hello :
    (∀ s ∈ [written (text "Hi")], SenderOk s) ∧
      (Agree (mailRecord (written (text "Hi")) (newYear.today 0)) ↔
        Legible (fileLines 1023 (mailRecord (written (text "Hi")) (newYear.today 0)))) := by
  have hok : ∀ s ∈ [written (text "Hi")], SenderOk s := by
    intro s hs
    obtain rfl := List.mem_singleton.1 hs
    exact ⟨by unfold Plain; decide, by decide⟩
  exact ⟨hok, numbering_iff hok (written_file _)⟩

/-- A message whose body is the line `From: x@y`: `LIST` reports one message, and `GET_MAIL c@d 2` finds that line. -/
theorem header_in_body :
    (saveAll newYear .empty [written (text "From: x@y")]).files (mailboxName (text "c@d")) =
        some (mailRecord (written (text "From: x@y")) (newYear.today 0)) ∧
      ¬Agree (mailRecord (written (text "From: x@y")) (newYear.today 0)) ∧
      (serve newYear .begin .empty [text "MAIL FROM: a@b\r\nRCPT TO: c@d\r\nDATA\r\nFrom: x@y\r\n.\r\nLIST c@d\r\nGET_MAIL c@d 2\r\n"]).map
        Outcome.sent = .ok [okResponse, okResponse, enterMessage, messageStored, okResponse,
          text "1: Email from a@b (01-01-2025)\r\n", text "200 OK\r\nFrom: x@y\r\n"] := by
  have hlist : listFile (mailRecord (written (text "From: x@y")) (newYear.today 0)) =
      .ok [⟨1, text "a@b", text "01-01-2025"⟩] := by
    decide +kernel
  have hget : getMailFile (mailRecord (written (text "From: x@y")) (newYear.today 0)) 2 =
      .ok (text "200 OK\r\nFrom: x@y\r\n") := by
    decide +kernel
  refine ⟨written_file _, ?_, by decide +kernel⟩
  rintro ⟨entries, hentries, hall⟩
  obtain ⟨response, hresponse, hiff, _⟩ := hall 2 (by decide)
  obtain rfl := Except.ok.inj (hlist.symm.trans hentries)
  obtain rfl := Except.ok.inj (hget.symm.trans hresponse)
  have hlisted := hiff.2 (by decide)
  exact absurd hlisted (by decide)

end NetLabs.Mail
