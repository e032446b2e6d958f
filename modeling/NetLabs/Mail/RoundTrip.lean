import NetLabs.Mail.Submission

/-!
# What GET_MAIL returns of what was submitted

The mailbox has no escaping: a message comes back as it was submitted exactly when no line of a body looks like a `From: ` line or
like the separator, the body has no empty lines (but for the one that a line of 1023 bytes is given on the way), the answer fits
into its buffer, and the recipient is a word that `GET_MAIL` can read and a mailbox the host can open.
-/

namespace NetLabs.Mail

open CText Lines Tokens Function

variable {host : Host} {s : Session} {d d' : Disk} {r args email name line : List UInt8} {ms : List (Message × Date)}
  {p : Message × Date} {lines lines' : List (List UInt8)} {i id : Nat} {o : Outcome}

/-! ## The command -/

/-- The command for message `id` of a mailbox. -/
def getMailLine (r : List UInt8) (id : Nat) : List UInt8 := text "GET_MAIL " ++ (r ++ 32 :: decimal id)

/-- An address that is a word of at most 99 bytes is read, and so is a number in the range of an `int`. -/
theorem getMailArgs_line (hne : r ≠ []) (hword : ∀ b ∈ r, isSpace b = false) (hlen : r.length ≤ 99) :
    getMailArgs (r ++ 32 :: decimal id) = if id < 2147483648 then .ok (some (r, (id : Int))) else .error .numberRange := by
  have hscan : scanWord (r ++ 32 :: decimal id) = some (r, 32 :: decimal id) :=
    scanWord_append hne hword (by simp [isSpace])
  have hrange : (-2147483648 ≤ (id : Int) ∧ (id : Int) < 2147483648) ↔ id < 2147483648 := by omega
  rw [getMailArgs, hscan]
  simp only [scanInt_decimal, hrange]
  rw [if_neg (by omega)]

/-- What `GET_MAIL` reads as an address and a number. -/
theorem getMailArgs_ok {k : Int} (h : getMailArgs args = .ok (some (email, k))) :
    (∀ b ∈ email, isSpace b = false) ∧ email.length ≤ 99 ∧ k < 2147483648 := by
  rw [getMailArgs] at h
  split at h
  · cases h
  · rename_i word rest hscan
    split at h
    · cases h
    · split at h
      · cases h
      · split at h
        · rename_i hrange
          cases h
          exact ⟨not_isSpace_of_scanWord hscan, by omega, hrange.2⟩
        · cases h

/-- When `GET_MAIL` has opened a file, it is the mailbox of the address it has read, and without a mailbox the answer is 401. -/
theorem handleGetMail_mailbox (h : handleGetMail s d args = .ok o) (hopened : o.disk.opened = d.opened ++ [name]) :
    ∃ email k, getMailArgs args = .ok (some (email, k)) ∧ mailboxName email = name ∧
      (d.files name = none → o.sent = [notFound]) := by
  have hself : d.opened ≠ d.opened ++ [name] := by simp
  obtain _ | _ | ⟨email, k, hargs, _, _⟩ | ⟨email, k, _, _, hargs, _, hfile, _⟩ := handleGetMail_fetched h
  · exact absurd hopened hself
  · exact absurd hopened hself
  · exact ⟨email, k, hargs, by simpa using hopened, fun _ => rfl⟩
  · have hname : mailboxName email = name := by simpa using hopened
    refine ⟨email, k, hargs, hname, fun hnone => ?_⟩
    rw [← hname, hfile] at hnone
    contradiction

/-- No other address has the mailbox of a short one. -/
theorem mailboxName_inj (hlen : email.length ≤ 99) (h : mailboxName email = mailboxName r) : email = r := by
  have hdir : (text "mailbox/").length = 8 := by decide
  have hext : (text ".txt").length = 4 := by decide
  have hcount := congrArg List.length h
  simp only [mailboxName, List.length_take, List.length_append, hdir, hext] at hcount
  rw [mailboxName, mailboxName, List.take_of_length_le, List.take_of_length_le] at h
  · exact List.append_cancel_left (List.append_cancel_right h)
  · simp only [List.length_append, hdir, hext]
    omega
  · simp only [List.length_append, hdir, hext]
    omega

/-! ## The file -/

/-- A session as `save_email` finds it at the end of a message. -/
def saved (m : Message) : Session := savedSession .begin [] m

/-- The mailbox of a sequence of messages with the dates they were saved on. -/
def mailboxFile (ms : List (Message × Date)) : List UInt8 := ms.flatMap fun p => mailRecord (saved p.1) p.2

/-- What `GET_MAIL` sees of the body of a message. -/
def seenBody (m : Message) : List (List UInt8) := m.kept.flatMap (pieces 1023)

/-- What it sees of a message. -/
def seenLines (p : Message × Date) : List (List UInt8) := fromLine (saved p.1) :: dateLine p.2 :: (seenBody p.1 ++ [separator])

/-- Every line of these messages fits into the buffer of `fgets`. -/
def LinesFit (ms : List (Message × Date)) : Prop := ∀ p ∈ ms, ∀ l ∈ p.1.kept, l.length ≤ 1023

theorem senderOk_saved (m : Message) : SenderOk (saved m) := ⟨m.senderInline.plain, m.senderFits⟩

/-- What `GET_MAIL` sees of a mailbox. -/
theorem fileLines_mailboxFile (h : LinesFit ms) : fileLines 1023 (mailboxFile ms) = ms.flatMap seenLines := by
  induction ms with
  | nil => rfl
  | cons p ms ih =>
    have hbody : ∀ l ∈ p.1.kept, Plain l ∧ l.length ≤ 1023 :=
      fun l hl => ⟨(p.1.inline_kept hl).plain, h p List.mem_cons_self l hl⟩
    have hrest : LinesFit ms := fun q hq => h q (List.mem_cons_of_mem _ hq)
    have hsep : Plain separator := by unfold Plain; decide
    have hbuffer : (saved p.1).dataBuffer = unlines p.1.kept := rfl
    have hsplit : mailboxFile (p :: ms) = mailRecord (saved p.1) p.2 ++ mailboxFile ms := rfl
    rw [hsplit, fileLines_record (senderOk_saved p.1), hbuffer, fileLines_unlines hbody (by decide),
      fileLines_line hsep (by decide) (by decide), ih hrest, List.flatMap_cons, seenLines, seenBody, pieces, if_neg (by decide)]
    simp

/-- What is seen of a body has as many `From: ` lines as the body. -/
theorem countP_seenBody (m : Message) : (seenBody m).countP isHeader = m.body.countP isHeader := by
  have hempty : isHeader [] = false := rfl
  have hpieces : ∀ ls : List (List UInt8), (ls.flatMap (pieces 1023)).countP isHeader = ls.countP isHeader := by
    intro ls
    induction ls with
    | nil => rfl
    | cons l ls ih =>
      rw [List.flatMap_cons, List.countP_append, ih, pieces, List.countP_cons]
      split <;> simp [List.countP_cons, hempty, Nat.add_comm]
  have hkept : ∀ ls : List (List UInt8), (ls.filter (!·.isEmpty)).countP isHeader = ls.countP isHeader := by
    intro ls
    rw [List.countP_filter]
    refine List.countP_congr fun l _ => ?_
    cases l with
    | nil => simp [hempty]
    | cons b l => simp
  rw [seenBody, hpieces, Message.kept, hkept]

theorem countP_seenLines (p : Message × Date) : (seenLines p).countP isHeader = p.1.body.countP isHeader + 1 := by
  have hsep : isHeader separator = false := rfl
  rw [seenLines, List.countP_cons_of_pos (isHeader_fromLine _), List.countP_cons_of_neg (by simp [isHeader_dateLine]),
    List.countP_append, countP_seenBody]
  simp [hsep]

/-- A mailbox has as many headers as messages exactly when no line of a body is one. -/
theorem countP_mailbox_iff :
    (ms.flatMap seenLines).countP isHeader = ms.length ↔ ∀ p ∈ ms, ∀ l ∈ p.1.body, isHeader l = false := by
  have hcons : ∀ (p : Message × Date) (ms : List (Message × Date)), ((p :: ms).flatMap seenLines).countP isHeader =
      p.1.body.countP isHeader + 1 + (ms.flatMap seenLines).countP isHeader := by
    intro p ms
    rw [List.flatMap_cons, List.countP_append, countP_seenLines]
  have hle : ∀ ms : List (Message × Date), ms.length ≤ (ms.flatMap seenLines).countP isHeader := by
    intro ms
    induction ms with
    | nil => exact Nat.le_refl _
    | cons p ms ih =>
      rw [hcons, List.length_cons]
      omega
  induction ms with
  | nil => simp
  | cons p ms ih =>
    have hbody : p.1.body.countP isHeader = 0 ↔ ∀ l ∈ p.1.body, isHeader l = false := by simp [List.countP_eq_zero]
    have hms := hle ms
    rw [List.forall_mem_cons, ← hbody, hcons, List.length_cons]
    constructor
    · intro h
      exact ⟨by omega, ih.1 (by omega)⟩
    · rintro ⟨hzero, hrest⟩
      have := ih.2 hrest
      omega

/-- What `GET_MAIL` finds of a message. -/
def foundLines (p : Message × Date) : List (List UInt8) :=
  fromLine (saved p.1) :: dateLine p.2 :: (seenBody p.1).takeWhile (· != separator)

/-- When no line of a body is a header, `GET_MAIL` finds each message under its number. -/
theorem getMailScan_mailbox (hbody : ∀ p ∈ ms, ∀ l ∈ p.1.body, isHeader l = false) (hi : ms[i]? = some p) :
    getMailScan (i + 1) (ms.flatMap seenLines) 0 = some (foundLines p) := by
  obtain ⟨hlt, rfl⟩ := List.getElem?_eq_some_iff.1 hi
  have hsplit : ms = ms.take i ++ ms[i] :: ms.drop (i + 1) := by
    rw [List.getElem_cons_drop, List.take_append_drop]
  have hcount : ((ms.take i).flatMap seenLines).countP isHeader = i := by
    have hall : ∀ p ∈ ms.take i, ∀ l ∈ p.1.body, isHeader l = false := fun p hp => hbody p (List.mem_of_mem_take hp)
    rw [countP_mailbox_iff.2 hall, List.length_take]
    omega
  refine getMailScan_eq_some_iff.2 ⟨(ms.take i).flatMap seenLines, fromLine (saved ms[i].1),
    dateLine ms[i].2 :: (seenBody ms[i].1 ++ separator :: (ms.drop (i + 1)).flatMap seenLines),
    ?_, isHeader_fromLine _, by omega, ?_⟩
  · have hflat : ∀ (a b : List (Message × Date)) (q : Message × Date), (a ++ q :: b).flatMap seenLines =
        a.flatMap seenLines ++ fromLine (saved q.1) :: dateLine q.2 :: (seenBody q.1 ++ separator :: b.flatMap seenLines) := by
      intro a b q
      simp [seenLines]
    rw [← hflat, ← hsplit]
  · have hdate := dateLine_ne_separator ms[i].2
    rw [foundLines, List.takeWhile_cons_of_pos (by simpa using hdate), List.takeWhile_append]
    split
    · rename_i hall
      rw [List.takeWhile_cons_of_neg (by simp), List.append_nil]
      rw [(List.takeWhile_prefix _).eq_of_length hall]
    · rfl

/-! ## The answer -/

/-- The answer with a message as it was submitted: its sender, its date and the lines of its body, and nothing else. -/
def answer (p : Message × Date) : List UInt8 := mailResponse (fromLine (saved p.1) :: dateLine p.2 :: p.1.body)

/-- A text is the answer of one sequence of lines. -/
theorem mailResponse_inj (h : ∀ l ∈ lines, newline ∉ l) (h' : ∀ l ∈ lines', newline ∉ l)
    (heq : mailResponse lines = mailResponse lines') : lines = lines' := by
  have hunlines : ∀ ls : List (List UInt8), ls.flatMap (· ++ crlf) = unlines (ls.map (· ++ [13])) := by
    intro ls
    rw [unlines, List.flatMap_map]
    refine List.flatMap_congr fun l _ => ?_
    simp [crlf, newline]
  have hnew : ∀ {ls : List (List UInt8)}, (∀ l ∈ ls, newline ∉ l) → ∀ l ∈ ls.map (· ++ [13]), newline ∉ l := by
    intro ls hls l hl
    obtain ⟨l, hmem, rfl⟩ := List.mem_map.1 hl
    rw [List.mem_append, not_or]
    exact ⟨hls l hmem, by decide⟩
  have hbody := List.append_cancel_left heq
  rw [hunlines, hunlines] at hbody
  exact List.map_injective_iff.2 (List.append_left_injective [13]) (unlines_inj (hnew h) (hnew h') hbody)

/-- `GET_MAIL` has found a message as it was submitted exactly when its body has no separator and is what is seen of it. -/
theorem mailResponse_foundLines_iff :
    mailResponse (foundLines p) = answer p ↔ separator ∉ p.1.body ∧ seenBody p.1 = p.1.body := by
  have hseen : ∀ l ∈ seenBody p.1, l = [] ∨ l ∈ p.1.body := by
    intro l hl
    obtain ⟨k, hk, hlk⟩ := List.mem_flatMap.1 hl
    rw [pieces] at hlk
    have hmem : k ∈ p.1.body := List.mem_of_mem_filter hk
    split at hlk
    · rcases List.mem_cons.1 hlk with rfl | hlk
      · exact Or.inr hmem
      · exact Or.inl (List.mem_singleton.1 hlk)
    · exact Or.inr (List.mem_singleton.1 hlk ▸ hmem)
  have hplain : ∀ l ∈ p.1.body, newline ∉ l := fun l hl => (p.1.bodyInline l hl).plain.1
  constructor
  · intro heq
    have hfrom : newline ∉ fromLine (saved p.1) := (plain_fromLine (senderOk_saved p.1)).1
    have hdate : newline ∉ dateLine p.2 := (plain_dateLine p.2).1
    have hlines : foundLines p = fromLine (saved p.1) :: dateLine p.2 :: p.1.body := mailResponse_inj ?_ ?_ heq
    · have htake : (seenBody p.1).takeWhile (· != separator) = p.1.body := (List.cons.inj (List.cons.inj hlines).2).2
      have hsep : separator ∉ p.1.body := by
        rw [← htake]
        intro hm
        have := List.mem_takeWhile_imp hm
        simp at this
      refine ⟨hsep, ?_⟩
      rw [← htake]
      refine (List.takeWhile_eq_self_iff.2 fun l hl => ?_).symm
      rcases hseen l hl with rfl | hbody
      · decide
      · have : l ≠ separator := fun e => hsep (e ▸ hbody)
        simpa using this
    · intro l hl
      simp only [foundLines, List.mem_cons] at hl
      rcases hl with rfl | rfl | hl
      · exact hfrom
      · exact hdate
      · rcases hseen l (List.takeWhile_subset _ hl) with rfl | hbody
        · simp
        · exact hplain l hbody
    · intro l hl
      simp only [List.mem_cons] at hl
      rcases hl with rfl | rfl | hl
      · exact hfrom
      · exact hdate
      · exact hplain l hl
  · rintro ⟨hsep, hbody⟩
    have htake : p.1.body.takeWhile (· != separator) = p.1.body := by
      refine List.takeWhile_eq_self_iff.2 fun l hl => ?_
      have : l ≠ separator := fun e => hsep (e ▸ hl)
      simpa using this
    rw [foundLines, answer, hbody, htake]

/-- What the server answers to the command for a message of a mailbox whose bodies have no headers. -/
theorem processCommand_getMailLine (hvalid : validateEmail r = true) (hword : ∀ b ∈ r, isSpace b = false) (hlen : r.length ≤ 99)
    (hfile : d.files (mailboxName r) = some (mailboxFile ms)) (hfit : LinesFit ms)
    (hbody : ∀ p ∈ ms, ∀ l ∈ p.1.body, isHeader l = false) (hi : ms[i]? = some p) (hnum : i + 1 < 2147483648) :
    processCommand s d (getMailLine r (i + 1)) =
      if 4095 < (mailResponse (foundLines p)).length then .error .responseOverflow
      else .ok ⟨s, { d with opened := d.opened ++ [mailboxName r] }, [mailResponse (foundLines p)]⟩ := by
  have hargs : getMailArgs (r ++ 32 :: decimal (i + 1)) = .ok (some (r, ((i + 1 : Nat) : Int))) := by
    rw [getMailArgs_line (ne_nil_of_validateEmail hvalid) hword hlen, if_pos hnum]
  have hget : getMailFile (mailboxFile ms) (i + 1) =
      if 4095 < (mailResponse (foundLines p)).length then .error .responseOverflow else .ok (mailResponse (foundLines p)) := by
    rw [getMailFile, fileLines_mailboxFile hfit, getMailScan_mailbox hbody hi]
  have hpos : (!validateEmail r || decide (((i + 1 : Nat) : Int) ≤ 0)) = false := by
    simp only [hvalid, Bool.not_true, Bool.false_or, decide_eq_false_iff_not]
    omega
  rw [getMailLine, processCommand_getMail, handleGetMail, hargs]
  simp only [hpos, Bool.false_eq_true, if_false, hfile, Int.toNat_natCast, hget]
  by_cases hlong : 4095 < (mailResponse (foundLines p)).length
  · simp only [if_pos hlong]
  · simp only [if_neg hlong]

/-! ## Runs -/

/-- The messages stored in the mailbox of `r` so far, with the dates on which they were saved: each was submitted in some session out
of data mode, its lines arrived whole, and the answers were 200. In between the server may do anything that leaves this mailbox
alone. -/
inductive Stored (host : Host) (r : List UInt8) : List (Message × Date) → Disk → Prop where
  | begin (d : Disk) (h : d.files (mailboxName r) = none) : Stored host r [] d
  | message {ms : List (Message × Date)} {d : Disk} (h : Stored host r ms d) (m : Message) (s : Session)
      (chunks : List (List UInt8)) (o : Outcome) (hmode : s.isDataMode = false) (hrecv : Received chunks) (hwhole : Whole chunks)
      (hflat : chunks.flatten = submission r m) (ho : serve host s d chunks = .ok o) (hsent : o.sent = storedReplies) :
      Stored host r (ms ++ [(m, host.today d.saves)]) o.disk
  | other {ms : List (Message × Date)} {d : Disk} (h : Stored host r ms d) (d' : Disk)
      (hd : d'.files (mailboxName r) = d.files (mailboxName r)) : Stored host r ms d'

/-- Where a message is stored, the recipient was accepted, and the lines fitted. -/
theorem Stored.accepted (hr : Inline r) (h : Stored host r ms d) : (ms ≠ [] → validateEmail r = true) ∧ LinesFit ms := by
  induction h with
  | begin d h => exact ⟨fun hne => absurd rfl hne, by simp [LinesFit]⟩
  | message h m s chunks o hmode hrecv hwhole hflat ho hsent ih =>
    obtain ⟨hvalid, _, hfit⟩ := submission_stored hr hmode hrecv hwhole hflat ho hsent
    refine ⟨fun _ => hvalid, fun p hp => ?_⟩
    rcases List.mem_append.1 hp with hp | hp
    · exact ih.2 p hp
    · obtain rfl := List.mem_singleton.1 hp
      exact hfit
  | other h d' hd ih => exact ih

/-- An empty mailbox has no file. -/
theorem Stored.files_nil (h : Stored host r ms d) (hms : ms = []) : d.files (mailboxName r) = none := by
  induction h with
  | begin d h => exact h
  | message h m s chunks o hmode hrecv hwhole hflat ho hsent ih => simp at hms
  | other h d' hd ih => rw [hd, ih hms]

/-- The file of a mailbox whose recipient fits into `recipient[100]`. -/
theorem Stored.files (hr : Inline r) (hlen : r.length ≤ 99) (h : Stored host r ms d) :
    d.files (mailboxName r) = if ms = [] ∨ host.opens (mailboxName r) = false then none else some (mailboxFile ms) := by
  induction h with
  | begin d h => rw [if_pos (Or.inl rfl), h]
  | @message ms d h m s chunks o hmode hrecv hwhole hflat ho hsent ih =>
    obtain ⟨_, hdisk, _⟩ := submission_stored hr hmode hrecv hwhole hflat ho hsent
    have hname : mailboxName (savedSession s r m).recipient = mailboxName r := by
      rw [savedSession, List.take_of_length_le hlen]
    rw [hdisk, saveEmail_files, hname]
    cases hopens : host.opens (mailboxName r) with
    | false => rw [if_neg Bool.false_ne_true, ih, if_pos (Or.inr hopens), if_pos (Or.inr rfl)]
    | true =>
      have hold : (d.files (mailboxName r)).getD [] = mailboxFile ms := by
        rw [ih, hopens]
        cases ms with
        | nil => rfl
        | cons p ms => rw [if_neg (by simp), Option.getD_some]
      rw [if_pos rfl, update_self, if_neg (by simp), hold, mailboxFile, mailboxFile, List.flatMap_append]
      simp only [List.flatMap_cons, List.flatMap_nil, List.append_nil]
      rfl
  | other h d' hd ih => rw [hd, ih]

/-- The round trip: the mailbox has a header for each message, and the command for the `i`-th one, given in any session, reads the
mailbox and is answered with the message as it was submitted. -/
structure RoundTrip (r : List UInt8) (ms : List (Message × Date)) (d : Disk) : Prop where
  count : (fileLines 1023 ((d.files (mailboxName r)).getD [])).countP isHeader = ms.length
  returned : ∀ i p, ms[i]? = some p → ∀ s, ∃ o, processCommand s d (getMailLine r (i + 1)) = .ok o ∧
    o.sent = [answer p] ∧ o.disk.opened = d.opened ++ [mailboxName r]

/-- Messages that come back: the host opens the mailbox, the recipient is a word that fits into `email[100]`, the numbers are in the
range of an `int`; no line of a body is a header or the separator, the body is what is seen of it, and the answer fits into
`response`. -/
structure Recoverable (host : Host) (r : List UInt8) (ms : List (Message × Date)) : Prop where
  mailbox : ms ≠ [] → host.opens (mailboxName r) = true ∧ (∀ b ∈ r, isSpace b = false) ∧ r.length ≤ 99
  number : ms.length < 2147483648
  body : ∀ p ∈ ms, ∀ l ∈ p.1.body, isHeader l = false ∧ l ≠ separator
  whole : ∀ p ∈ ms, seenBody p.1 = p.1.body
  fits : ∀ p ∈ ms, (answer p).length ≤ 4095

/-- The file of recoverable messages. -/
theorem Recoverable.file (hr : Inline r) (hs : Stored host r ms d) (h : Recoverable host r ms) :
    (d.files (mailboxName r)).getD [] = mailboxFile ms := by
  by_cases hne : ms = []
  · rw [hs.files_nil hne, hne]
    rfl
  · obtain ⟨hopens, _, hlen⟩ := h.mailbox hne
    rw [hs.files hr hlen, if_neg (by simp [hne, hopens]), Option.getD_some]

theorem Recoverable.roundTrip (hr : Inline r) (hs : Stored host r ms d) (h : Recoverable host r ms) : RoundTrip r ms d := by
  obtain ⟨hvalid, hfit⟩ := hs.accepted hr
  have hheader : ∀ p ∈ ms, ∀ l ∈ p.1.body, isHeader l = false := fun p hp l hl => (h.body p hp l hl).1
  constructor
  · rw [h.file hr hs, fileLines_mailboxFile hfit, countP_mailbox_iff.2 hheader]
  · intro i p hi s
    have hp : p ∈ ms := List.mem_of_getElem? hi
    have hne : ms ≠ [] := List.ne_nil_of_mem hp
    obtain ⟨hopens, hword, hlen⟩ := h.mailbox hne
    have hfile : d.files (mailboxName r) = some (mailboxFile ms) := by
      rw [hs.files hr hlen, if_neg (by simp [hne, hopens])]
    have hlt : i < ms.length := (List.getElem?_eq_some_iff.1 hi).1
    have hnum := h.number
    have hanswer : mailResponse (foundLines p) = answer p :=
      mailResponse_foundLines_iff.2 ⟨fun hm => (h.body p hp _ hm).2 rfl, h.whole p hp⟩
    have hcommand := processCommand_getMailLine (s := s) (hvalid hne) hword hlen hfile hfit hheader hi (by omega)
    rw [hanswer, if_neg (by have := h.fits p hp; omega)] at hcommand
    exact ⟨_, hcommand, rfl, rfl⟩

theorem RoundTrip.recoverable (hr : Inline r) (hs : Stored host r ms d) (h : RoundTrip r ms d) : Recoverable host r ms := by
  obtain ⟨hvalid, hfit⟩ := hs.accepted hr
  have hmailbox : ms ≠ [] → host.opens (mailboxName r) = true ∧ (∀ b ∈ r, isSpace b = false) ∧ r.length ≤ 99 := by
    intro hne
    obtain ⟨p, ms', hms⟩ := List.exists_cons_of_ne_nil hne
    obtain ⟨o, ho, hsent, hopened⟩ := h.returned 0 p (by rw [hms]; rfl) .begin
    rw [getMailLine, processCommand_getMail] at ho
    obtain ⟨email, k, hargs, hname, hmissing⟩ := handleGetMail_mailbox ho hopened
    obtain ⟨hword, hlen, -⟩ := getMailArgs_ok hargs
    obtain rfl := mailboxName_inj hlen hname
    refine ⟨?_, hword, hlen⟩
    by_contra hclosed
    have hfile := hs.files hr hlen
    rw [if_pos (Or.inr (by simpa using hclosed))] at hfile
    exact mailResponse_ne_notFound _ (List.cons.inj (hsent.symm.trans (hmissing hfile))).1
  have hnumber : ms.length < 2147483648 := by
    by_contra hlarge
    have hpos : 0 < ms.length := by omega
    obtain ⟨_, hword, hlen⟩ := hmailbox (List.ne_nil_of_length_pos hpos)
    obtain ⟨o, ho, _, hopened⟩ := h.returned (ms.length - 1) (ms[ms.length - 1]) (List.getElem?_eq_getElem (by omega)) .begin
    rw [getMailLine, processCommand_getMail] at ho
    obtain ⟨email, k, hargs, _, _⟩ := handleGetMail_mailbox ho hopened
    rw [getMailArgs_line (ne_nil_of_validateEmail (hvalid (List.ne_nil_of_length_pos hpos))) hword hlen, if_neg (by omega)] at hargs
    cases hargs
  have hheader : ∀ p ∈ ms, ∀ l ∈ p.1.body, isHeader l = false := by
    by_cases hne : ms = []
    · simp [hne]
    · obtain ⟨hopens, _, hlen⟩ := hmailbox hne
      have hcount := h.count
      rw [hs.files hr hlen, if_neg (by simp [hne, hopens]), Option.getD_some, fileLines_mailboxFile hfit] at hcount
      exact countP_mailbox_iff.1 hcount
  have hmessage : ∀ p ∈ ms, (separator ∉ p.1.body ∧ seenBody p.1 = p.1.body) ∧ (answer p).length ≤ 4095 := by
    intro p hp
    have hne : ms ≠ [] := List.ne_nil_of_mem hp
    obtain ⟨hopens, hword, hlen⟩ := hmailbox hne
    obtain ⟨i, hi⟩ := List.mem_iff_getElem?.1 hp
    have hlt : i < ms.length := (List.getElem?_eq_some_iff.1 hi).1
    have hfile : d.files (mailboxName r) = some (mailboxFile ms) := by
      rw [hs.files hr hlen, if_neg (by simp [hne, hopens])]
    obtain ⟨o, ho, hsent, _⟩ := h.returned i p hi .begin
    rw [processCommand_getMailLine (hvalid hne) hword hlen hfile hfit hheader hi (by omega)] at ho
    split at ho
    · cases ho
    · rename_i hshort
      cases ho
      have hanswer : mailResponse (foundLines p) = answer p := (List.cons.inj hsent).1
      rw [hanswer] at hshort
      exact ⟨mailResponse_foundLines_iff.1 hanswer, by omega⟩
  refine ⟨hmailbox, hnumber, fun p hp l hl => ⟨hheader p hp l hl, ?_⟩,
    fun p hp => (hmessage p hp).1.2, fun p hp => (hmessage p hp).2⟩
  rintro rfl
  exact (hmessage p hp).1.1 hl

/-- Mail storage round trip. For every recipient and every sequence of messages submitted to it, whose lines arrived whole and which
were answered with 200, on any host, from any sessions and whatever the server did with other mailboxes in between: the mailbox
holds exactly these messages, and every one comes back as it was submitted, exactly when they are recoverable. -/
theorem roundTrip_iff (hr : Inline r) (hs : Stored host r ms d) : RoundTrip r ms d ↔ Recoverable host r ms :=
  ⟨fun h => h.recoverable hr hs, fun h => h.roundTrip hr hs⟩

/-- A message from `a@b` with a body of three lines, the second of which is given. -/
def threeLines (l : List UInt8) (h : Inline l) (hdot : l ≠ dot) : Message where
  sender := text "a@b"
  body := [text "Hi", l, text "Bye"]
  senderInline := by decide
  senderFits := by decide
  bodyInline := by
    simp only [List.mem_cons, List.not_mem_nil, or_false, forall_eq_or_imp, forall_eq]
    exact ⟨by decide, h, by decide⟩
  noDot := by
    simp only [List.mem_cons, List.not_mem_nil, or_false, not_or]
    exact ⟨by decide, hdot.symm, by decide⟩

/-- Three lines with something in each. -/
def helloMessage : Message := threeLines (text "Ho") (by decide) (by decide)

/-- Three lines, the second of them empty. -/
def gappedMessage : Message := threeLines [] (by decide) (by decide)

/-- A message submitted to `c@d` in one piece, to a server that has just begun. -/
theorem stored_of_sent {m : Message} (hrecv : Received [submission (text "c@d") m]) (h0 : (0 : UInt8) ∉ submission (text "c@d") m)
    (hsent : (serve newYear .begin .empty [submission (text "c@d") m]).map Outcome.sent = .ok storedReplies) :
    ∃ d, Stored newYear (text "c@d") [(m, newYear.today 0)] d := by
  cases hserve : serve newYear .begin .empty [submission (text "c@d") m] with
  | error x =>
    rw [hserve] at hsent
    cases hsent
  | ok o =>
    rw [hserve] at hsent
    have hwhole : Whole [submission (text "c@d") m] := ⟨by simpa using h0, List.isChain_singleton _⟩
    exact ⟨o.disk, .message (.begin .empty rfl) m .begin _ o rfl hrecv hwhole (by simp) hserve (Except.ok.inj hsent)⟩

/-- `roundTrip_iff` on one message. -/
theorem roundTrip_hello : ∃ d, Stored newYear (text "c@d") [(helloMessage, newYear.today 0)] d ∧
    (RoundTrip (text "c@d") [(helloMessage, newYear.today 0)] d ↔
      Recoverable newYear (text "c@d") [(helloMessage, newYear.today 0)]) := by
  obtain ⟨d, hs⟩ := stored_of_sent (m := helloMessage)
    (by unfold Received; decide +kernel) (by decide +kernel) (by decide +kernel)
  exact ⟨d, hs, roundTrip_iff (by decide) hs⟩

/-- A message with an empty line in its body comes back without it. -/
theorem empty_line_lost :
    (∃ d, Stored newYear (text "c@d") [(gappedMessage, newYear.today 0)] d ∧
      ¬RoundTrip (text "c@d") [(gappedMessage, newYear.today 0)] d) ∧
    (serve newYear .begin .empty [submission (text "c@d") gappedMessage,
      getMailLine (text "c@d") 1 ++ crlf]).map Outcome.sent =
      .ok (storedReplies ++ [text "200 OK\r\nFrom: a@b\r\nDate: 01-01-2025\r\nHi\r\nBye\r\n"]) := by
  constructor
  · obtain ⟨d, hs⟩ := stored_of_sent (m := gappedMessage)
      (by unfold Received; decide +kernel) (by decide +kernel) (by decide +kernel)
    refine ⟨d, hs, fun h => ?_⟩
    have hwhole := (h.recoverable (by decide) hs).whole _ (List.mem_singleton_self _)
    exact absurd hwhole (by decide)
  · decide +kernel

end NetLabs.Mail
