import NetLabs.Lib.Machine
import NetLabs.Mail.Server

/-!
# The envelope of a message

`handle_mail_from` and `handle_rcpt_to` look for an `@` in the whole argument and copy its first 99 bytes into a field of the session.
Here a session runs beside the addresses its client was told are accepted.
-/

namespace NetLabs.Mail

open CText Lines Machine Function

def mailFromPrefix : List UInt8 := text "MAIL FROM: "
def rcptToPrefix : List UInt8 := text "RCPT TO: "

/-- A session over the mailboxes, and the arguments of the last `MAIL FROM` and the last `RCPT TO` that were answered with 200: nothing at
first. -/
structure Envelope where
  session : Session
  disk : Disk
  mailFrom : List UInt8
  rcptTo : List UInt8

/-- A client that has just connected, over any mailboxes. -/
def Envelope.begin (files : List UInt8 → Option (List UInt8)) : Envelope := ⟨.begin, { Disk.empty with files := files }, [], []⟩

/-- What happens next: the server takes a line of the session, or other clients change the mailboxes. -/
inductive Turn where
  | line (l : List UInt8)
  | mailboxes (files : List UInt8 → Option (List UInt8))

/-- The argument that was last accepted after a prefix, when a line has been answered. -/
def lastAccepted (s : Session) (pfx line : List UInt8) (sent : List (List UInt8)) (old : List UInt8) : List UInt8 :=
  if !s.isDataMode && startsWith line pfx && sent == [okResponse] then line.drop pfx.length else old

/-- One step. -/
def Envelope.step (host : Host) (x : Envelope) : Turn → Option Envelope
  | .line l =>
    match handleLine host x.session x.disk l with
    | .error _ => none
    | .ok o =>
      some {
        session := o.session
        disk := o.disk
        mailFrom := lastAccepted x.session mailFromPrefix l o.sent x.mailFrom
        rcptTo := lastAccepted x.session rcptToPrefix l o.sent x.rcptTo }
  | .mailboxes files => some { x with disk := { x.disk with files := files } }

/-- The session has the addresses that were accepted, whole, and there is an `@` in each. -/
structure Envelope.Right (x : Envelope) : Prop where
  sender : x.session.sender = x.mailFrom
  recipient : x.session.recipient = x.rcptTo
  senderValid : x.session.sender ≠ [] → validateEmail x.session.sender = true
  recipientValid : x.session.recipient ≠ [] → validateEmail x.session.recipient = true

/-- The mailbox of an address, whatever its length. -/
def exactMailbox (address : List UInt8) : List UInt8 := text "mailbox/" ++ address ++ text ".txt"

/-- A message that is answered with "200 Message stored" is appended to the mailbox of the accepted recipient. -/
def Envelope.delivers (host : Host) (x : Envelope) : Turn → Prop
  | .line l => ∀ o, handleLine host x.session x.disk l = .ok o → o.sent = [messageStored] →
      o.disk.files = update x.disk.files (exactMailbox x.rcptTo)
        (some ((x.disk.files (exactMailbox x.rcptTo)).getD [] ++ mailRecord x.session (host.today x.disk.saves)))
  | .mailboxes _ => True

/-- After the step the envelope is right, and in the step a message is delivered if it is said to be. -/
def Envelope.intact (host : Host) (x : Envelope) (e : Turn) : Prop :=
  (∀ x' ∈ x.step host e, x'.Right) ∧ x.delivers host e

/-- An address the command accepts fits into its field; and the mailbox can be opened when a message ends. -/
def Envelope.fits (host : Host) (x : Envelope) : Turn → Prop
  | .line l =>
    if x.session.isDataMode then l = dot → host.opens (mailboxName x.session.recipient) = true
    else ∀ pfx, pfx = mailFromPrefix ∨ pfx = rcptToPrefix → startsWith l pfx = true →
      validateEmail (l.drop pfx.length) = true → (l.drop pfx.length).length ≤ 99
  | .mailboxes _ => True

variable {host : Host} {s : Session} {d : Disk} {o : Outcome} {line address : List UInt8} {x x' : Envelope} {e : Turn}

/-! ## What a line does to the envelope -/

/-- The line is answered as an accepted address. -/
def Accepts (s : Session) (line : List UInt8) (o : Outcome) (pfx : List UInt8) : Prop :=
  s.isDataMode = false ∧ startsWith line pfx = true ∧ o.sent = [okResponse]

/-- What a line can do to the sender and the recipient, and whether a message is said to be stored. -/
inductive Enveloped (host : Host) (s : Session) (d : Disk) (line : List UInt8) (o : Outcome) : Prop where
  | mailFrom (ha : Accepts s line o mailFromPrefix) (hvalid : validateEmail (line.drop 11) = true)
      (hsender : o.session.sender = (line.drop 11).take 99) (hrecipient : o.session.recipient = s.recipient)
  | rcptTo (ha : Accepts s line o rcptToPrefix) (hvalid : validateEmail (line.drop 9) = true)
      (hsender : o.session.sender = s.sender) (hrecipient : o.session.recipient = (line.drop 9).take 99)
  | stored (hmode : s.isDataMode = true) (hdot : line = dot) (hsent : o.sent = [messageStored])
      (hsender : o.session.sender = s.sender) (hrecipient : o.session.recipient = s.recipient)
      (hfiles : o.disk.files = (saveEmail host { s with isDataMode := false } d).files)
  | other (hsender : o.session.sender = s.sender) (hrecipient : o.session.recipient = s.recipient)
      (hsent : o.sent ≠ [messageStored]) (hdot : s.isDataMode = true → line ≠ dot)
      (hmail : ¬Accepts s line o mailFromPrefix) (hrcpt : ¬Accepts s line o rcptToPrefix)
      (hrefused : s.isDataMode = false → ∀ pfx, pfx = mailFromPrefix ∨ pfx = rcptToPrefix → startsWith line pfx = true →
        validateEmail (line.drop pfx.length) = false)

theorem messageStored_ne : messageStored ≠ okResponse ∧ messageStored ≠ invalidSyntax ∧ messageStored ≠ forbidden ∧
    messageStored ≠ enterMessage ∧ messageStored ≠ notFound ∧ messageStored ≠ serverError ∧ messageStored ≠ goodbye := by
  decide

/-- The text of a message is not the answer that one was stored. -/
theorem mailResponse_ne_messageStored (lines : List (List UInt8)) : mailResponse lines ≠ messageStored := by
  intro h
  have := congrArg (List.take 5) h
  rw [mailResponse, List.take_append_of_le_length (by decide)] at this
  exact absurd this (by decide)

/-- A command that starts with neither `MAIL FROM: ` nor `RCPT TO: `. -/
theorem enveloped_other (hsender : o.session.sender = s.sender) (hrecipient : o.session.recipient = s.recipient)
    (hsent : o.sent ≠ [messageStored]) (hmode : s.isDataMode = false) (hmail : startsWith line mailFromPrefix = false)
    (hrcpt : startsWith line rcptToPrefix = false) : Enveloped host s d line o := by
  refine .other hsender hrecipient hsent (fun h => absurd (h.symm.trans hmode) (by decide)) ?_ ?_ ?_
  · rintro ⟨-, h, -⟩
    exact absurd (h.symm.trans hmail) (by decide)
  · rintro ⟨-, h, -⟩
    exact absurd (h.symm.trans hrcpt) (by decide)
  · rintro - pfx (rfl | rfl) h
    · exact absurd (h.symm.trans hmail) (by decide)
    · exact absurd (h.symm.trans hrcpt) (by decide)

/-- A command that is answered with 400, where an address after one of the prefixes is not valid. -/
theorem enveloped_refused (hmode : s.isDataMode = false)
    (hmail : startsWith line mailFromPrefix = true → validateEmail (line.drop 11) = false)
    (hrcpt : startsWith line rcptToPrefix = true → validateEmail (line.drop 9) = false) :
    Enveloped host s d line ⟨s, d, [invalidSyntax]⟩ := by
  have hsent : ¬[invalidSyntax] = [okResponse] := by decide
  have hstored : ¬[invalidSyntax] = [messageStored] := by decide
  refine .other rfl rfl hstored (fun h => absurd (h.symm.trans hmode) (by decide)) (fun ha => hsent ha.2.2)
    (fun ha => hsent ha.2.2) ?_
  rintro - pfx (rfl | rfl) hpfx
  · exact hmail hpfx
  · exact hrcpt hpfx

/-- What a line of a body does. -/
theorem handleDataContent_enveloped (hmode : s.isDataMode = true) :
    Enveloped host s d line (handleDataContent host s d line) := by
  have hcommand : ∀ pfx, ¬Accepts s line (handleDataContent host s d line) pfx := by
    rintro pfx ⟨h, -⟩
    exact absurd (h.symm.trans hmode) (by decide)
  obtain ⟨-, -, -, -, -, hserver, -⟩ := messageStored_ne
  have hnot : s.isDataMode = false → ∀ pfx, pfx = mailFromPrefix ∨ pfx = rcptToPrefix → startsWith line pfx = true →
      validateEmail (line.drop pfx.length) = false := fun h => absurd (h.symm.trans hmode) (by decide)
  by_cases hdot : line = dot
  · refine .stored hmode hdot ?_ ?_ ?_ ?_ <;> rw [handleDataContent, if_pos hdot]
  · by_cases hfit : s.dataBuffer.length + line.length + 2 < 4096
    · refine .other ?_ ?_ ?_ (fun _ => hdot) (hcommand _) (hcommand _) hnot <;>
        rw [handleDataContent, if_neg hdot, if_pos hfit]
      simp
    · refine .other ?_ ?_ ?_ (fun _ => hdot) (hcommand _) (hcommand _) hnot <;>
        rw [handleDataContent, if_neg hdot, if_neg hfit]
      intro h
      exact hserver (List.cons.inj h).1.symm

/-- What a command does. -/
theorem processCommand_enveloped (hmode : s.isDataMode = false) (h : processCommand s d line = .ok o) :
    Enveloped host s d line o := by
  obtain ⟨hok, hinvalid, hforbidden, henter, hnotFound, -, hgoodbye⟩ := messageStored_ne
  have hne : ∀ {a : List UInt8}, messageStored ≠ a → [a] ≠ [messageStored] := by
    rintro a ha heq
    exact ha (List.cons.inj heq).1.symm
  have hrefuse : ∀ {pfx q : List UInt8}, startsWith line pfx = true → pfx ≠ [] → q ≠ [] → pfx.head? ≠ q.head? →
      startsWith line q = false := fun h hp hq hpq => not_startsWith_both h hp hq hpq
  cases processCommand_processed h with
  | helo hp =>
    refine enveloped_other ?_ ?_ ?_ hmode (hrefuse hp (by decide) (by decide) (by decide))
      (hrefuse hp (by decide) (by decide) (by decide)) <;> rw [handleHelo] <;> split
    · rfl
    · rfl
    · rfl
    · rfl
    · exact hne hok
    · exact hne hinvalid
  | mailFrom hp =>
    rw [handleMailFrom]
    have hrcpt : startsWith line rcptToPrefix = false := hrefuse hp (by decide) (by decide) (by decide)
    split
    · rename_i hvalid
      exact .mailFrom ⟨hmode, hp, rfl⟩ hvalid rfl rfl
    · rename_i hinv
      exact enveloped_refused hmode (fun _ => (Bool.not_eq_true _).mp hinv) fun h => absurd (h.symm.trans hrcpt) (by decide)
  | rcptTo hp =>
    rw [handleRcptTo]
    have hmail : startsWith line mailFromPrefix = false := hrefuse hp (by decide) (by decide) (by decide)
    split
    · rename_i hvalid
      exact .rcptTo ⟨hmode, hp, rfl⟩ hvalid rfl rfl
    · rename_i hinv
      exact enveloped_refused hmode (fun h => absurd (h.symm.trans hmail) (by decide)) fun _ => (Bool.not_eq_true _).mp hinv
  | data hp =>
    subst hp
    refine enveloped_other ?_ ?_ ?_ hmode (by decide) (by decide) <;> rw [handleData] <;> split
    · rfl
    · rfl
    · rfl
    · rfl
    · exact hne hforbidden
    · exact hne henter
  | list _ hp ho =>
    obtain ⟨hsession, -, -⟩ := handleList_frame ho
    refine enveloped_other (by rw [hsession]) (by rw [hsession]) ?_ hmode (hrefuse hp (by decide) (by decide) (by decide))
      (hrefuse hp (by decide) (by decide) (by decide))
    obtain _ | _ | _ := handleList_listed ho
    · exact hne hinvalid
    · exact hne hnotFound
    · intro heq
      exact hok (List.cons.inj heq).1.symm
  | getMail _ hp ho =>
    obtain ⟨hsession, -, -⟩ := handleGetMail_frame ho
    refine enveloped_other (by rw [hsession]) (by rw [hsession]) ?_ hmode (hrefuse hp (by decide) (by decide) (by decide))
      (hrefuse hp (by decide) (by decide) (by decide))
    obtain _ | _ | _ | ⟨_, _, _, response, _, _, _, hresponse⟩ := handleGetMail_fetched ho
    · exact hne hinvalid
    · exact hne hinvalid
    · exact hne hnotFound
    · rw [getMailFile] at hresponse
      split at hresponse
      · cases hresponse
        exact hne hnotFound
      · split at hresponse
        · cases hresponse
        · cases hresponse
          exact hne (mailResponse_ne_messageStored _).symm
  | quit hp =>
    subst hp
    exact enveloped_other rfl rfl (hne hgoodbye) hmode (by decide) (by decide)
  | unknown hp => exact enveloped_other rfl rfl (hne hinvalid) hmode hp.mailFrom hp.rcptTo

theorem handleLine_enveloped (h : handleLine host s d line = .ok o) : Enveloped host s d line o := by
  unfold handleLine at h
  cases hmode : s.isDataMode with
  | true =>
    rw [if_pos hmode] at h
    cases h
    exact handleDataContent_enveloped hmode
  | false =>
    rw [if_neg (by simp [hmode])] at h
    exact processCommand_enveloped hmode h

/-! ## One step -/

theorem lastAccepted_of_accepts {pfx old : List UInt8} (h : Accepts s line o pfx) :
    lastAccepted s pfx line o.sent old = line.drop pfx.length := by
  obtain ⟨hmode, hstart, hsent⟩ := h
  simp [lastAccepted, hmode, hstart, hsent]

theorem lastAccepted_of_not_accepts {pfx old : List UInt8} (h : ¬Accepts s line o pfx) :
    lastAccepted s pfx line o.sent old = old := by
  rw [lastAccepted, if_neg]
  intro hall
  simp only [Bool.and_eq_true, Bool.not_eq_true', beq_iff_eq] at hall
  exact h ⟨hall.1.1, hall.1.2, hall.2⟩

/-- A line starts with only one of the prefixes. -/
theorem Accepts.other (h : Accepts s line o mailFromPrefix) : ¬Accepts s line o rcptToPrefix := by
  rintro ⟨-, hrcpt, -⟩
  exact absurd (hrcpt.symm.trans (not_startsWith_both h.2.1 (by decide) (by decide) (by decide))) (by decide)

/-- The first 99 bytes are all exactly when there are no more. -/
theorem take_eq_self_iff : address.take 99 = address ↔ address.length ≤ 99 := by
  refine ⟨fun h => ?_, List.take_of_length_le⟩
  have := congrArg List.length h
  rw [List.length_take] at this
  omega

/-- The mailbox of an address that fits has its exact name. -/
theorem mailboxName_eq_exact (h : address.length ≤ 99) : mailboxName address = exactMailbox address := by
  rw [mailboxName, exactMailbox, List.take_of_length_le]
  have hdir : (text "mailbox/").length = 8 := by decide
  have hext : (text ".txt").length = 4 := by decide
  rw [List.length_append, List.length_append, hdir, hext]
  omega

/-- The invariant: the envelope is right, and the recipient fits into its field. -/
structure Envelope.Inv (x : Envelope) : Prop where
  right : x.Right
  recipientFits : x.session.recipient.length ≤ 99

/-- A message is appended exactly when the mailbox can be opened. -/
theorem saveEmail_appends_iff (host : Host) (d : Disk) (s' : Session) (name : List UInt8) (hname : mailboxName s'.recipient = name) :
    (saveEmail host s' d).files = update d.files name (some ((d.files name).getD [] ++ mailRecord s' (host.today d.saves))) ↔
      host.opens name = true := by
  subst hname
  rw [saveEmail_files]
  cases hopens : host.opens (mailboxName s'.recipient) with
  | true => simp
  | false =>
    refine iff_of_false ?_ Bool.false_ne_true
    intro heq
    rw [if_neg Bool.false_ne_true] at heq
    have hsame := congrFun heq (mailboxName s'.recipient)
    rw [update_self] at hsame
    have hlen := congrArg (fun c : Option (List UInt8) => (c.getD []).length) hsame
    have hrecord : 0 < (mailRecord s' (host.today d.saves)).length := by
      simp only [mailRecord, List.length_append, List.length_singleton]
      omega
    simp only [Option.getD_some, List.length_append] at hlen
    omega

/-- A line that leaves both addresses alone. -/
theorem Envelope.Inv.keep (hi : x.Inv) (hsender : s.sender = x.session.sender) (hrecipient : s.recipient = x.session.recipient) :
    (⟨s, d, x.mailFrom, x.rcptTo⟩ : Envelope).Inv := by
  obtain ⟨⟨hs, hr, hvalidS, hvalidR⟩, hfits⟩ := hi
  rw [← hsender] at hs hvalidS
  rw [← hrecipient] at hr hvalidR hfits
  exact ⟨⟨hs, hr, hvalidS, hvalidR⟩, hfits⟩

/-- A new sender that fits. -/
theorem Envelope.Inv.mailFrom (hi : x.Inv) (hsender : s.sender = address.take 99) (hrecipient : s.recipient = x.session.recipient)
    (hvalid : validateEmail address = true) (hlen : address.length ≤ 99) : (⟨s, d, address, x.rcptTo⟩ : Envelope).Inv := by
  obtain ⟨⟨-, hr, -, hvalidR⟩, hfits⟩ := hi
  rw [take_eq_self_iff.2 hlen] at hsender
  rw [← hrecipient] at hr hvalidR hfits
  refine ⟨⟨hsender, hr, fun _ => ?_, hvalidR⟩, hfits⟩
  rw [hsender]
  exact hvalid

/-- A new recipient that fits. -/
theorem Envelope.Inv.rcptTo (hi : x.Inv) (hsender : s.sender = x.session.sender) (hrecipient : s.recipient = address.take 99)
    (hvalid : validateEmail address = true) (hlen : address.length ≤ 99) : (⟨s, d, x.mailFrom, address⟩ : Envelope).Inv := by
  obtain ⟨⟨hs, -, hvalidS, -⟩, -⟩ := hi
  rw [take_eq_self_iff.2 hlen] at hrecipient
  rw [← hsender] at hs hvalidS
  refine ⟨⟨hs, hrecipient, hvalidS, fun _ => ?_⟩, ?_⟩
  · rw [hrecipient]
    exact hvalid
  · rw [hrecipient]
    exact hlen

/-- A line that is accepted as an address brings what fits exactly when the address does. -/
theorem fits_iff_of_accepts {pfx : List UInt8} (ha : Accepts x.session line o pfx) (hp : pfx = mailFromPrefix ∨ pfx = rcptToPrefix)
    (hvalid : validateEmail (line.drop pfx.length) = true) :
    x.fits host (.line line) ↔ (line.drop pfx.length).length ≤ 99 := by
  rw [Envelope.fits, if_neg (by simp [ha.1])]
  refine ⟨fun hall => hall pfx hp ha.2.1 hvalid, ?_⟩
  rintro hlen q hq hstart -
  have hsame : q = pfx := by
    rcases hp with rfl | rfl <;> rcases hq with rfl | rfl
    · rfl
    · exact absurd ⟨ha.1, hstart, ha.2.2⟩ ha.other
    · have hmail : Accepts x.session line o mailFromPrefix := ⟨ha.1, hstart, ha.2.2⟩
      exact absurd ha hmail.other
    · rfl
  rw [hsame]
  exact hlen

/-- Where the envelope is right and the recipient fits, a line keeps it so and is delivered as it should exactly when what it brings
fits. -/
theorem line_intact_iff (hi : x.Inv) (h : handleLine host x.session x.disk line = .ok o) :
    (x.intact host (.line line) ↔ x.fits host (.line line)) ∧
      (x.fits host (.line line) → ∀ x' ∈ x.step host (.line line), x'.Inv) := by
  have hstep : x.step host (.line line) = some ⟨o.session, o.disk, lastAccepted x.session mailFromPrefix line o.sent x.mailFrom,
      lastAccepted x.session rcptToPrefix line o.sent x.rcptTo⟩ := by
    rw [Envelope.step, h]
  have hdelivers : o.sent ≠ [messageStored] → x.delivers host (.line line) := by
    intro hne o' ho' hsent
    obtain rfl := Except.ok.inj (h.symm.trans ho')
    exact absurd hsent hne
  have hoks : [okResponse] ≠ [messageStored] := by decide
  rw [Envelope.intact, hstep]
  simp only [Option.mem_def, Option.some.injEq, forall_eq']
  cases handleLine_enveloped h with
  | mailFrom ha hvalid hs hr =>
    have hright : (line.drop 11).length ≤ 99 → (⟨o.session, o.disk, line.drop 11, x.rcptTo⟩ : Envelope).Inv :=
      fun hle => hi.mailFrom hs hr hvalid hle
    have hfits : x.fits host (.line line) ↔ (line.drop 11).length ≤ 99 := fits_iff_of_accepts ha (Or.inl rfl) hvalid
    have hlast : lastAccepted x.session mailFromPrefix line o.sent x.mailFrom = line.drop 11 := lastAccepted_of_accepts ha
    rw [hfits, hlast, lastAccepted_of_not_accepts ha.other]
    refine ⟨⟨?_, fun hle => ⟨(hright hle).right, hdelivers (by rw [ha.2.2]; exact hoks)⟩⟩, hright⟩
    rintro ⟨hright', -⟩
    have heq := hright'.sender
    rw [hs] at heq
    exact take_eq_self_iff.1 heq
  | rcptTo ha hvalid hs hr =>
    have hright : (line.drop 9).length ≤ 99 → (⟨o.session, o.disk, x.mailFrom, line.drop 9⟩ : Envelope).Inv :=
      fun hle => hi.rcptTo hs hr hvalid hle
    have hfits : x.fits host (.line line) ↔ (line.drop 9).length ≤ 99 := fits_iff_of_accepts ha (Or.inr rfl) hvalid
    have hlast : lastAccepted x.session rcptToPrefix line o.sent x.rcptTo = line.drop 9 := lastAccepted_of_accepts ha
    rw [hfits, hlast, lastAccepted_of_not_accepts fun hm => hm.other ha]
    refine ⟨⟨?_, fun hle => ⟨(hright hle).right, hdelivers (by rw [ha.2.2]; exact hoks)⟩⟩, hright⟩
    rintro ⟨hright', -⟩
    have heq := hright'.recipient
    rw [hr] at heq
    exact take_eq_self_iff.1 heq
  | stored hmode hdot hsent hs hr hfiles =>
    have hnot : ∀ pfx, ¬Accepts x.session line o pfx := by
      rintro pfx ⟨hfalse, -⟩
      exact absurd (hfalse.symm.trans hmode) (by decide)
    have hfits : x.fits host (.line line) ↔ host.opens (mailboxName x.session.recipient) = true := by
      rw [Envelope.fits, if_pos hmode]
      exact ⟨fun hall => hall hdot, fun hopen _ => hopen⟩
    have hexact : exactMailbox x.rcptTo = mailboxName x.session.recipient := by
      rw [← hi.right.recipient, mailboxName_eq_exact hi.recipientFits]
    have happends := saveEmail_appends_iff host x.disk { x.session with isDataMode := false } _ rfl
    have hkeep : (⟨o.session, o.disk, x.mailFrom, x.rcptTo⟩ : Envelope).Inv := hi.keep hs hr
    rw [lastAccepted_of_not_accepts (hnot _), lastAccepted_of_not_accepts (hnot _), hfits]
    refine ⟨⟨?_, fun hopen => ⟨hkeep.right, ?_⟩⟩, fun _ => hkeep⟩
    · rintro ⟨-, hdel⟩
      have := hdel o h hsent
      rw [hfiles, hexact] at this
      exact happends.1 this
    · intro o' ho' _
      obtain rfl := Except.ok.inj (h.symm.trans ho')
      rw [hfiles, hexact]
      exact happends.2 hopen
  | other hs hr hsent hdot hmail hrcpt hrefused =>
    have hkeep : (⟨o.session, o.disk, x.mailFrom, x.rcptTo⟩ : Envelope).Inv := hi.keep hs hr
    have hfits : x.fits host (.line line) := by
      rw [Envelope.fits]
      split
      · rename_i hmode
        intro h
        exact absurd h (hdot hmode)
      · rename_i hmode
        intro pfx hp hstart hvalid
        exact absurd (hvalid.symm.trans (hrefused ((Bool.not_eq_true _).mp hmode) pfx hp hstart)) (by decide)
    rw [lastAccepted_of_not_accepts hmail, lastAccepted_of_not_accepts hrcpt]
    exact ⟨iff_of_true ⟨hkeep.right, hdelivers hsent⟩ hfits, fun _ => hkeep⟩

/-- A line that the server does not survive brings no address. -/
theorem fits_of_error {f : Fault} (h : handleLine host x.session x.disk line = .error f) : x.fits host (.line line) := by
  have hmode : ¬x.session.isDataMode = true := by
    intro hmode
    rw [handleLine, if_pos hmode] at h
    cases h
  rw [handleLine, if_neg hmode] at h
  rw [Envelope.fits, if_neg hmode]
  rintro pfx (rfl | rfl) hstart -
  · obtain ⟨t, rfl⟩ := startsWith_iff.1 hstart
    rw [mailFromPrefix, processCommand_mailFrom] at h
    cases h
  · obtain ⟨t, rfl⟩ := startsWith_iff.1 hstart
    rw [rcptToPrefix, processCommand_rcptTo] at h
    cases h

/-- The same for every step. -/
theorem intact_iff (hi : x.Inv) : (x.intact host e ↔ x.fits host e) ∧ (x.fits host e → ∀ x' ∈ x.step host e, x'.Inv) := by
  cases e with
  | line l =>
    cases h : handleLine host x.session x.disk l with
    | ok o => exact line_intact_iff hi h
    | error f =>
      have hstep : x.step host (.line l) = none := by rw [Envelope.step, h]
      have hdelivers : x.delivers host (.line l) := by
        intro o ho
        rw [h] at ho
        cases ho
      rw [Envelope.intact, hstep]
      exact ⟨iff_of_true ⟨by simp, hdelivers⟩ (fits_of_error h), by simp⟩
  | mailboxes files =>
    have hkeep : ∀ x' ∈ x.step host (.mailboxes files), x'.Inv := by
      intro x' hx'
      obtain rfl := Option.some.inj hx'
      exact ⟨⟨hi.right.sender, hi.right.recipient, hi.right.senderValid, hi.right.recipientValid⟩, hi.recipientFits⟩
    exact ⟨iff_of_true ⟨fun x' hx' => (hkeep x' hx').right, trivial⟩ trivial, fun _ => hkeep⟩

theorem begin_envelope (files : List UInt8 → Option (List UInt8)) : (Envelope.begin files).Inv :=
  ⟨⟨rfl, rfl, fun h => absurd rfl h, fun h => absurd rfl h⟩, by simp [Envelope.begin, Session.begin]⟩

/-- Envelope integrity. In every session, on any host and mailboxes, whatever lines it sends and whatever other clients do: after every step
the sender and the recipient are the whole arguments that were last accepted, with an `@` in each, and every message that is said to be
stored has been appended to the mailbox of exactly that recipient, if and only if every argument that is accepted has at most 99 bytes and
the mailbox of the recipient can be opened whenever a message ends. -/
theorem envelope_intact_iff (files : List UInt8 → Option (List UInt8)) (turns : List Turn) :
    Meets (Envelope.step host) (Envelope.intact host) (.begin files) turns ↔
      Meets (Envelope.step host) (Envelope.fits host) (.begin files) turns :=
  meets_iff_meets_while (I := Envelope.Inv) (q := fun _ _ => True) (fun _ _ x' hi _ hg hs => (intact_iff hi).2 hg x' hs)
    (fun _ _ hi _ => (intact_iff hi).1) (begin_envelope files) (meets_of_forall (q := fun _ => True) fun _ _ => trivial)

/-- An address of 100 bytes, with the `@` at the end, is accepted; its first 99 bytes are kept. -/
theorem long_sender_cut : ¬Meets (Envelope.step newYear) (Envelope.intact newYear) (.begin fun _ => none)
    [.line (text "MAIL FROM: " ++ (List.replicate 99 97 ++ [64]))] := by
  intro h
  have hfits := (intact_iff (begin_envelope fun _ => none)).1.1 h.1
  rw [Envelope.fits, if_neg (by decide)] at hfits
  have := hfits mailFromPrefix (Or.inl rfl) (by decide) (by decide)
  exact absurd this (by decide)

end NetLabs.Mail
