import Mathlib.Logic.Function.Basic
import NetLabs.Lib.Lines
import NetLabs.Lib.Tokens

/-!
# The mail server

What `mysmtp_server.c` does with the lines of one session: `process_command` and its handlers, the body of a message in data mode,
the mailbox files that `save_email` writes, and the two scanners, of `LIST` and of `GET_MAIL`, that read them. A handler returns the
session, the disk and the texts it has given to `send`, one for each call. Where the C code writes past the end of a buffer, prints
a variable it has not set or leaves the range of an `int`, the result is a `Fault`.

The host is outside: which file names can be opened, and what day it is. A file is known by the name it is opened with.
-/

namespace NetLabs.Mail

open CText Lines Tokens Function

/-! ## Data -/

/-- What the C code has no defined behaviour for. -/
inductive Fault where
  | emailOverflow
  | numberRange
  | responseOverflow
  | senderOverflow
  | dateOverflow
  | dateUnset
  | counterOverflow
  deriving DecidableEq, Repr

/-- `client_session`, its socket and address left out. -/
structure Session where
  clientId : List UInt8
  sender : List UInt8
  recipient : List UInt8
  isDataMode : Bool
  dataBuffer : List UInt8
  deriving DecidableEq

/-- A session that `main` has zeroed. -/
def Session.begin : Session := ⟨[], [], [], false, []⟩

/-- What `strftime` makes of a day with `"%d-%m-%Y"`: digits and dashes, and room for the NUL in `date[20]`. -/
structure Date where
  text : List UInt8
  shape : ∀ b ∈ text, isDigit b = true ∨ b = 45
  ne_nil : text ≠ []
  fits : text.length ≤ 19

/-- The host: the names `fopen` can open for appending, and the day at each call of `time`. -/
structure Host where
  opens : List UInt8 → Bool
  today : Nat → Date

/-- The first of January. -/
theorem firstDay_shape : ∀ b ∈ text "01-01-2025", isDigit b = true ∨ b = 45 := by
  simp [text, isDigit]

/-- A host that opens every file, on the first of January. -/
def newYear : Host := ⟨fun _ => true, fun _ => ⟨text "01-01-2025", firstDay_shape, by decide, by decide⟩⟩

/-- The mailbox files, how often `save_email` has asked for the time, and the names given to `fopen`, in order. -/
structure Disk where
  files : List UInt8 → Option (List UInt8)
  saves : Nat
  opened : List (List UInt8)

/-- The directory `main` has made. -/
def Disk.empty : Disk := ⟨fun _ => none, 0, []⟩

/-- What a handler leaves behind: the session, the disk, and what it has sent. -/
structure Outcome where
  session : Session
  disk : Disk
  sent : List (List UInt8)

/-! ## Texts -/

def okResponse : List UInt8 := text "200 OK\r\n"
def invalidSyntax : List UInt8 := text "400 ERR Invalid command syntax\r\n"
def notFound : List UInt8 := text "401 NOT FOUND Requested email does not exist\r\n"
def forbidden : List UInt8 := text "403 FORBIDDEN Action not permitted\r\n"
def serverError : List UInt8 := text "500 SERVER ERROR\r\n"
def goodbye : List UInt8 := text "200 Goodbye\r\n"
def messageStored : List UInt8 := text "200 Message stored successfully\r\n"

/-- The 47 bytes that `handle_data` sends of its text. -/
def enterMessage : List UInt8 := (text "Enter your message (end with a single dot '.'):\r\n").take 47

def crlf : List UInt8 := [13, 10]
def dot : List UInt8 := text "."
def separator : List UInt8 := text "---"
def fromPrefix : List UInt8 := text "From: "
def datePrefix : List UInt8 := text "Date: "

/-- `validate_email`. -/
def validateEmail (email : List UInt8) : Bool := email.contains 64

theorem ne_nil_of_validateEmail {email : List UInt8} (h : validateEmail email = true) : email ≠ [] := by
  rintro rfl
  exact absurd h (by decide)

/-- `snprintf(filename, 256, "mailbox/%s.txt", …)`. -/
def mailboxName (address : List UInt8) : List UInt8 := (text "mailbox/" ++ address ++ text ".txt").take 255

/-! ## Storing -/

/-- The text `save_email` appends. -/
def mailRecord (s : Session) (date : Date) : List UInt8 :=
  fromPrefix ++ s.sender ++ [newline] ++ (datePrefix ++ date.text ++ [newline]) ++ s.dataBuffer ++ (separator ++ [newline])

/-- `save_email`: nothing is written when the file cannot be opened. -/
def saveEmail (host : Host) (s : Session) (d : Disk) : Disk :=
  let name := mailboxName s.recipient
  if host.opens name then
    { files := update d.files name (some ((d.files name).getD [] ++ mailRecord s (host.today d.saves)))
      saves := d.saves + 1
      opened := d.opened ++ [name] }
  else { d with opened := d.opened ++ [name] }

/-- The files after `save_email`. -/
theorem saveEmail_files (host : Host) (s : Session) (d : Disk) :
    (saveEmail host s d).files =
      if host.opens (mailboxName s.recipient) then
        update d.files (mailboxName s.recipient)
          (some ((d.files (mailboxName s.recipient)).getD [] ++ mailRecord s (host.today d.saves)))
      else d.files := by
  unfold saveEmail
  split <;> simp_all

/-- `handle_data_content`. -/
def handleDataContent (host : Host) (s : Session) (d : Disk) (line : List UInt8) : Outcome :=
  if line = dot then ⟨{ s with isDataMode := false }, saveEmail host { s with isDataMode := false } d, [messageStored]⟩
  else if s.dataBuffer.length + line.length + 2 < 4096 then
    ⟨{ s with dataBuffer := s.dataBuffer ++ line ++ [newline] }, d, []⟩
  else ⟨{ s with isDataMode := false }, d, [serverError]⟩

/-! ## Commands -/

/-- `handle_helo`. -/
def handleHelo (s : Session) (d : Disk) (args : List UInt8) : Outcome :=
  if 0 < args.length then ⟨{ s with clientId := args.take 99 }, d, [okResponse]⟩ else ⟨s, d, [invalidSyntax]⟩

/-- `handle_mail_from`. -/
def handleMailFrom (s : Session) (d : Disk) (args : List UInt8) : Outcome :=
  if validateEmail args then ⟨{ s with sender := args.take 99 }, d, [okResponse]⟩ else ⟨s, d, [invalidSyntax]⟩

/-- `handle_rcpt_to`. -/
def handleRcptTo (s : Session) (d : Disk) (args : List UInt8) : Outcome :=
  if validateEmail args then ⟨{ s with recipient := args.take 99 }, d, [okResponse]⟩ else ⟨s, d, [invalidSyntax]⟩

/-- `handle_data`. -/
def handleData (s : Session) (d : Disk) : Outcome :=
  if s.sender.length = 0 ∨ s.recipient.length = 0 then ⟨s, d, [forbidden]⟩
  else ⟨{ s with isDataMode := true, dataBuffer := [] }, d, [enterMessage]⟩

/-! ## LIST -/

/-- A line of the answer to `LIST`. -/
structure Entry where
  emailId : Nat
  sender : List UInt8
  date : List UInt8
  deriving DecidableEq

/-- `snprintf(response, 1024, "%d: Email from %s (%s)\r\n", …)`. -/
def entryLine (e : Entry) : List UInt8 :=
  (decimal e.emailId ++ text ": Email from " ++ e.sender ++ text " (" ++ e.date ++ text ")\r\n").take 1023

/-- `sscanf(line, "Date: %s", date)`, where `date` may not have been set yet. -/
def scanDate (line : List UInt8) (date : Option (List UInt8)) : Except Fault (Option (List UInt8)) :=
  if startsWith line (text "Date:") then
    match scanWord (line.drop 5) with
    | none => .ok date
    | some (word, _) => if 19 < word.length then .error .dateOverflow else .ok (some word)
  else .ok date

/-- The loop of `handle_list` over the lines of the file: `email_id`, `reading_header` and `date`. The line after a header is read by
the second `fgets` and compared with the separator like any other. -/
def listScan : List (List UInt8) → Nat → Bool → Option (List UInt8) → Except Fault (List Entry)
  | [], _, _, _ => .ok []
  | line :: rest, emailId, readingHeader, date =>
    if startsWith line fromPrefix && !readingHeader then
      if 2147483648 ≤ emailId + 1 then .error .counterOverflow
      else if 99 < (line.drop 6).length then .error .senderOverflow
      else
        match rest with
        | [] =>
          match date with
          | none => .error .dateUnset
          | some word => .ok [⟨emailId + 1, line.drop 6, word⟩]
        | next :: rest' =>
          match scanDate next date with
          | .error x => .error x
          | .ok none => .error .dateUnset
          | .ok (some word) =>
            match listScan rest' (emailId + 1) (next != separator) (some word) with
            | .error x => .error x
            | .ok entries => .ok (⟨emailId + 1, line.drop 6, word⟩ :: entries)
    else listScan rest emailId (readingHeader && line != separator) date

/-- The messages `LIST` reports for a mailbox file. -/
def listFile (content : List UInt8) : Except Fault (List Entry) := listScan (fileLines 1023 content) 0 false none

/-- `handle_list`: one `send` for the status line and one for each message. -/
def handleList (s : Session) (d : Disk) (args : List UInt8) : Except Fault Outcome :=
  if validateEmail args then
    let d' := { d with opened := d.opened ++ [mailboxName args] }
    match d.files (mailboxName args) with
    | none => .ok ⟨s, d', [notFound]⟩
    | some content =>
      match listFile content with
      | .error x => .error x
      | .ok entries => .ok ⟨s, d', okResponse :: entries.map entryLine⟩
  else .ok ⟨s, d, [invalidSyntax]⟩

/-! ## GET_MAIL -/

/-- `sscanf(args, "%s %d", email, &id)`; `none` unless both are read. -/
def getMailArgs (args : List UInt8) : Except Fault (Option (List UInt8 × Int)) :=
  match scanWord args with
  | none => .ok none
  | some (email, rest) =>
    if 99 < email.length then .error .emailOverflow
    else
      match scanInt rest with
      | none => .ok none
      | some id => if -2147483648 ≤ id ∧ id < 2147483648 then .ok (some (email, id)) else .error .numberRange

/-- The loop of `handle_get_mail` until message `id` is found: its `From: ` line and the lines up to the separator, where the loop
breaks. -/
def getMailScan (id : Nat) : List (List UInt8) → Nat → Option (List (List UInt8))
  | [], _ => none
  | line :: rest, emailId =>
    if startsWith line fromPrefix then
      if emailId + 1 = id then some (line :: rest.takeWhile (· != separator)) else getMailScan id rest (emailId + 1)
    else getMailScan id rest emailId

/-- The text of a message as `GET_MAIL` sends it. -/
def mailResponse (lines : List (List UInt8)) : List UInt8 := okResponse ++ lines.flatMap (· ++ crlf)

/-- What `GET_MAIL` answers from a mailbox file; `response` has 4096 bytes. -/
def getMailFile (content : List UInt8) (id : Nat) : Except Fault (List UInt8) :=
  match getMailScan id (fileLines 1023 content) 0 with
  | none => .ok notFound
  | some lines => if 4095 < (mailResponse lines).length then .error .responseOverflow else .ok (mailResponse lines)

/-- `handle_get_mail`. -/
def handleGetMail (s : Session) (d : Disk) (args : List UInt8) : Except Fault Outcome :=
  match getMailArgs args with
  | .error x => .error x
  | .ok none => .ok ⟨s, d, [invalidSyntax]⟩
  | .ok (some (email, id)) =>
    if !validateEmail email || id ≤ 0 then .ok ⟨s, d, [invalidSyntax]⟩
    else
      let d' := { d with opened := d.opened ++ [mailboxName email] }
      match d.files (mailboxName email) with
      | none => .ok ⟨s, d', [notFound]⟩
      | some content =>
        match getMailFile content id.toNat with
        | .error x => .error x
        | .ok response => .ok ⟨s, d', [response]⟩

/-! ## Sessions -/

/-- `process_command`. -/
def processCommand (s : Session) (d : Disk) (command : List UInt8) : Except Fault Outcome :=
  if startsWith command (text "HELO ") then .ok (handleHelo s d (command.drop 5))
  else if startsWith command (text "MAIL FROM: ") then .ok (handleMailFrom s d (command.drop 11))
  else if startsWith command (text "RCPT TO: ") then .ok (handleRcptTo s d (command.drop 9))
  else if command = text "DATA" then .ok (handleData s d)
  else if startsWith command (text "LIST ") then handleList s d (command.drop 5)
  else if startsWith command (text "GET_MAIL ") then handleGetMail s d (command.drop 9)
  else if command = text "QUIT" then .ok ⟨s, d, [goodbye]⟩
  else .ok ⟨s, d, [invalidSyntax]⟩

/-- What `handle_client` does with a line. -/
def handleLine (host : Host) (s : Session) (d : Disk) (line : List UInt8) : Except Fault Outcome :=
  if s.isDataMode then .ok (handleDataContent host s d line) else processCommand s d line

/-- One thing after another, in the session and on the disk the first has left. -/
def andThen (r : Except Fault Outcome) (next : Session → Disk → Except Fault Outcome) : Except Fault Outcome :=
  match r with
  | .error x => .error x
  | .ok o => (next o.session o.disk).map fun o' => { o' with sent := o.sent ++ o'.sent }

/-- The lines of a chunk, one after the other. -/
def runLines (host : Host) : Session → Disk → List (List UInt8) → Except Fault Outcome
  | s, d, [] => .ok ⟨s, d, []⟩
  | s, d, line :: lines => andThen (handleLine host s d line) fun s d => runLines host s d lines

/-- The delimiters of `strtok(buffer, "\r\n")`. -/
def isCrlf (b : UInt8) : Bool := b == 13 || b == 10

/-- The lines `handle_client` finds in what `recv` returned: a NUL follows it in the buffer, and `strtok` reads up to the first. -/
def chunkLines (chunk : List UInt8) : List (List UInt8) := tokens isCrlf (cstr chunk)

/-- The loop of `handle_client`, over the results of `recv`. -/
def serve (host : Host) : Session → Disk → List (List UInt8) → Except Fault Outcome
  | s, d, [] => .ok ⟨s, d, []⟩
  | s, d, chunk :: chunks => andThen (runLines host s d (chunkLines chunk)) fun s d => serve host s d chunks

/-- A session with the disk it works on. -/
structure Connection where
  session : Session
  disk : Disk

/-- A connection takes a line. -/
def Connection.step (host : Host) (c : Connection) (line : List UInt8) : Option Connection :=
  match handleLine host c.session c.disk line with
  | .ok o => some ⟨o.session, o.disk⟩
  | .error _ => none

/-! ## Which handler takes a command -/

/-- A text none of the commands starts with or is. -/
structure Unknown (command : List UInt8) : Prop where
  helo : startsWith command (text "HELO ") = false
  mailFrom : startsWith command (text "MAIL FROM: ") = false
  rcptTo : startsWith command (text "RCPT TO: ") = false
  data : command ≠ text "DATA"
  list : startsWith command (text "LIST ") = false
  getMail : startsWith command (text "GET_MAIL ") = false
  quit : command ≠ text "QUIT"

/-- The handlers of `process_command`, and what each leaves behind. -/
inductive Processed (s : Session) (d : Disk) (command : List UInt8) : Outcome → Prop where
  | helo (h : startsWith command (text "HELO ") = true) : Processed s d command (handleHelo s d (command.drop 5))
  | mailFrom (h : startsWith command (text "MAIL FROM: ") = true) : Processed s d command (handleMailFrom s d (command.drop 11))
  | rcptTo (h : startsWith command (text "RCPT TO: ") = true) : Processed s d command (handleRcptTo s d (command.drop 9))
  | data (h : command = text "DATA") : Processed s d command (handleData s d)
  | list (o : Outcome) (h : startsWith command (text "LIST ") = true) (ho : handleList s d (command.drop 5) = .ok o) :
      Processed s d command o
  | getMail (o : Outcome) (h : startsWith command (text "GET_MAIL ") = true) (ho : handleGetMail s d (command.drop 9) = .ok o) :
      Processed s d command o
  | quit (h : command = text "QUIT") : Processed s d command ⟨s, d, [goodbye]⟩
  | unknown (h : Unknown command) : Processed s d command ⟨s, d, [invalidSyntax]⟩

theorem processCommand_processed {s : Session} {d : Disk} {command : List UInt8} {o : Outcome}
    (h : processCommand s d command = .ok o) : Processed s d command o := by
  unfold processCommand at h
  by_cases helo : startsWith command (text "HELO ") = true
  · rw [if_pos helo] at h
    cases h
    exact .helo helo
  rw [if_neg helo] at h
  by_cases mailFrom : startsWith command (text "MAIL FROM: ") = true
  · rw [if_pos mailFrom] at h
    cases h
    exact .mailFrom mailFrom
  rw [if_neg mailFrom] at h
  by_cases rcptTo : startsWith command (text "RCPT TO: ") = true
  · rw [if_pos rcptTo] at h
    cases h
    exact .rcptTo rcptTo
  rw [if_neg rcptTo] at h
  by_cases data : command = text "DATA"
  · rw [if_pos data] at h
    cases h
    exact .data data
  rw [if_neg data] at h
  by_cases list : startsWith command (text "LIST ") = true
  · rw [if_pos list] at h
    exact .list o list h
  rw [if_neg list] at h
  by_cases getMail : startsWith command (text "GET_MAIL ") = true
  · rw [if_pos getMail] at h
    exact .getMail o getMail h
  rw [if_neg getMail] at h
  by_cases quit : command = text "QUIT"
  · rw [if_pos quit] at h
    cases h
    exact .quit quit
  rw [if_neg quit] at h
  cases h
  simp only [Bool.not_eq_true] at helo mailFrom rcptTo list getMail
  exact .unknown ⟨helo, mailFrom, rcptTo, data, list, getMail, quit⟩

/-- The commands begin with different letters. -/
theorem not_startsWith_of_head {command p : List UInt8} {b : UInt8} (h : command.head? = some b) (hp : p.head? ≠ some b)
    (hne : p ≠ []) : startsWith command p = false := by
  cases hs : startsWith command p with
  | false => rfl
  | true => exact absurd ((head?_of_startsWith hs hne).symm.trans h) hp

theorem processCommand_mailFrom {s : Session} {d : Disk} (sender : List UInt8) :
    processCommand s d (text "MAIL FROM: " ++ sender) = .ok (handleMailFrom s d sender) := by
  have hhead : (text "MAIL FROM: " ++ sender).head? = some 77 := rfl
  have helo := not_startsWith_of_head (p := text "HELO ") hhead (by decide) (by decide)
  have hstart : startsWith (text "MAIL FROM: " ++ sender) (text "MAIL FROM: ") = true := startsWith_iff.2 (List.prefix_append _ _)
  unfold processCommand
  rw [helo, hstart, if_neg Bool.false_ne_true, if_pos rfl]
  rfl

theorem processCommand_rcptTo {s : Session} {d : Disk} (recipient : List UInt8) :
    processCommand s d (text "RCPT TO: " ++ recipient) = .ok (handleRcptTo s d recipient) := by
  have hhead : (text "RCPT TO: " ++ recipient).head? = some 82 := rfl
  have helo := not_startsWith_of_head (p := text "HELO ") hhead (by decide) (by decide)
  have mailFrom := not_startsWith_of_head (p := text "MAIL FROM: ") hhead (by decide) (by decide)
  have hstart : startsWith (text "RCPT TO: " ++ recipient) (text "RCPT TO: ") = true := startsWith_iff.2 (List.prefix_append _ _)
  unfold processCommand
  rw [helo, mailFrom, hstart, if_neg Bool.false_ne_true, if_neg Bool.false_ne_true, if_pos rfl]
  rfl

theorem processCommand_data {s : Session} {d : Disk} : processCommand s d (text "DATA") = .ok (handleData s d) := rfl

theorem processCommand_getMail {s : Session} {d : Disk} (args : List UInt8) :
    processCommand s d (text "GET_MAIL " ++ args) = handleGetMail s d args := by
  have hhead : (text "GET_MAIL " ++ args).head? = some 71 := rfl
  have helo := not_startsWith_of_head (p := text "HELO ") hhead (by decide) (by decide)
  have mailFrom := not_startsWith_of_head (p := text "MAIL FROM: ") hhead (by decide) (by decide)
  have rcptTo := not_startsWith_of_head (p := text "RCPT TO: ") hhead (by decide) (by decide)
  have list := not_startsWith_of_head (p := text "LIST ") hhead (by decide) (by decide)
  have hdata : text "GET_MAIL " ++ args ≠ text "DATA" := by
    intro h
    have := congrArg List.head? h
    rw [hhead] at this
    exact absurd this (by decide)
  have hstart : startsWith (text "GET_MAIL " ++ args) (text "GET_MAIL ") = true := startsWith_iff.2 (List.prefix_append _ _)
  unfold processCommand
  rw [helo, mailFrom, rcptTo, list, hstart, if_neg Bool.false_ne_true, if_neg Bool.false_ne_true,
    if_neg Bool.false_ne_true, if_neg hdata, if_neg Bool.false_ne_true, if_pos rfl]
  rfl

/-! ## What the handlers leave alone -/

/-- What `LIST` leaves behind. -/
inductive Listed (s : Session) (d : Disk) (args : List UInt8) : Outcome → Prop where
  | rejected (h : validateEmail args = false) : Listed s d args ⟨s, d, [invalidSyntax]⟩
  | missing (h : validateEmail args = true) (hfile : d.files (mailboxName args) = none) :
      Listed s d args ⟨s, { d with opened := d.opened ++ [mailboxName args] }, [notFound]⟩
  | listed (content : List UInt8) (entries : List Entry) (h : validateEmail args = true)
      (hfile : d.files (mailboxName args) = some content) (hentries : listFile content = .ok entries) :
      Listed s d args ⟨s, { d with opened := d.opened ++ [mailboxName args] }, okResponse :: entries.map entryLine⟩

theorem handleList_listed {s : Session} {d : Disk} {args : List UInt8} {o : Outcome} (h : handleList s d args = .ok o) :
    Listed s d args o := by
  unfold handleList at h
  by_cases hv : validateEmail args = true
  · rw [if_pos hv] at h
    simp only at h
    split at h
    · rename_i hfile
      obtain rfl := Except.ok.inj h
      exact .missing hv hfile
    · rename_i content hfile
      split at h
      · contradiction
      · rename_i entries hentries
        obtain rfl := Except.ok.inj h
        exact .listed content entries hv hfile hentries
  · rw [if_neg hv] at h
    obtain rfl := Except.ok.inj h
    exact .rejected ((Bool.not_eq_true _).mp hv)

/-- `LIST` only reads. -/
theorem handleList_frame {s : Session} {d : Disk} {args : List UInt8} {o : Outcome} (h : handleList s d args = .ok o) :
    o.session = s ∧ o.disk.files = d.files ∧ o.disk.saves = d.saves := by
  obtain _ | _ | _ := handleList_listed h <;> exact ⟨rfl, rfl, rfl⟩

/-- What `GET_MAIL` leaves behind. -/
inductive Fetched (s : Session) (d : Disk) (args : List UInt8) : Outcome → Prop where
  | unread (h : getMailArgs args = .ok none) : Fetched s d args ⟨s, d, [invalidSyntax]⟩
  | rejected (email : List UInt8) (id : Int) (h : getMailArgs args = .ok (some (email, id)))
      (hbad : validateEmail email = false ∨ id ≤ 0) : Fetched s d args ⟨s, d, [invalidSyntax]⟩
  | missing (email : List UInt8) (id : Int) (h : getMailArgs args = .ok (some (email, id)))
      (hgood : validateEmail email = true ∧ 0 < id) (hfile : d.files (mailboxName email) = none) :
      Fetched s d args ⟨s, { d with opened := d.opened ++ [mailboxName email] }, [notFound]⟩
  | fetched (email : List UInt8) (id : Int) (content response : List UInt8) (h : getMailArgs args = .ok (some (email, id)))
      (hgood : validateEmail email = true ∧ 0 < id) (hfile : d.files (mailboxName email) = some content)
      (hresponse : getMailFile content id.toNat = .ok response) :
      Fetched s d args ⟨s, { d with opened := d.opened ++ [mailboxName email] }, [response]⟩

theorem handleGetMail_fetched {s : Session} {d : Disk} {args : List UInt8} {o : Outcome} (h : handleGetMail s d args = .ok o) :
    Fetched s d args o := by
  unfold handleGetMail at h
  split at h
  · contradiction
  · rename_i hargs
    obtain rfl := Except.ok.inj h
    exact .unread hargs
  · rename_i email id hargs
    by_cases hbad : (!validateEmail email || decide (id ≤ 0)) = true
    · rw [if_pos hbad] at h
      obtain rfl := Except.ok.inj h
      refine .rejected email id hargs ?_
      simpa [Bool.or_eq_true] using hbad
    · rw [if_neg hbad] at h
      have hgood : validateEmail email = true ∧ 0 < id := by
        simp only [Bool.or_eq_true, Bool.not_eq_true', decide_eq_true_eq, not_or, Bool.not_eq_false, Int.not_le] at hbad
        exact hbad
      simp only at h
      split at h
      · rename_i hfile
        obtain rfl := Except.ok.inj h
        exact .missing email id hargs hgood hfile
      · rename_i content hfile
        split at h
        · contradiction
        · rename_i response hresponse
          obtain rfl := Except.ok.inj h
          exact .fetched email id content response hargs hgood hfile hresponse

/-- `GET_MAIL` only reads. -/
theorem handleGetMail_frame {s : Session} {d : Disk} {args : List UInt8} {o : Outcome} (h : handleGetMail s d args = .ok o) :
    o.session = s ∧ o.disk.files = d.files ∧ o.disk.saves = d.saves := by
  obtain _ | _ | _ | _ := handleGetMail_fetched h <;> exact ⟨rfl, rfl, rfl⟩

/-- A line that starts with something else than `DATA` is not `DATA`. -/
theorem ne_data {line p : List UInt8} (h : startsWith line p = true) (hp : startsWith (text "DATA") p = false) :
    line ≠ text "DATA" := by
  rintro rfl
  rw [h] at hp
  cases hp

/-- What a command can do to the session. -/
inductive Changed (s : Session) (line : List UInt8) : Session → Prop where
  | kept (clientId : List UInt8) (h : ¬(line = text "DATA" ∧ s.sender ≠ [] ∧ s.recipient ≠ [])) :
      Changed s line { s with clientId := clientId }
  | sender (h : startsWith line (text "MAIL FROM: ") = true) : Changed s line { s with sender := (line.drop 11).take 99 }
  | recipient (h : startsWith line (text "RCPT TO: ") = true) : Changed s line { s with recipient := (line.drop 9).take 99 }
  | opened (h : line = text "DATA" ∧ s.sender ≠ [] ∧ s.recipient ≠ []) :
      Changed s line { s with isDataMode := true, dataBuffer := [] }

/-- A command changes the session in one of these ways, and no mailbox. -/
theorem processCommand_changed {s : Session} {d : Disk} {line : List UInt8} {o : Outcome} (h : processCommand s d line = .ok o) :
    Changed s line o.session ∧ o.disk.files = d.files := by
  have hsame : line ≠ text "DATA" → Changed s line s := fun hline => .kept s.clientId fun hopens => hline hopens.1
  cases processCommand_processed h with
  | helo hp =>
    rw [handleHelo]
    split
    · exact ⟨.kept _ fun hopens => ne_data hp (by decide) hopens.1, rfl⟩
    · exact ⟨hsame (ne_data hp (by decide)), rfl⟩
  | mailFrom hp =>
    rw [handleMailFrom]
    split
    · exact ⟨.sender hp, rfl⟩
    · exact ⟨hsame (ne_data hp (by decide)), rfl⟩
  | rcptTo hp =>
    rw [handleRcptTo]
    split
    · exact ⟨.recipient hp, rfl⟩
    · exact ⟨hsame (ne_data hp (by decide)), rfl⟩
  | data hp =>
    rw [handleData]
    split
    · rename_i hempty
      rw [List.length_eq_zero_iff, List.length_eq_zero_iff] at hempty
      exact ⟨.kept s.clientId fun hopens => hempty.elim hopens.2.1 hopens.2.2, rfl⟩
    · rename_i hfull
      rw [List.length_eq_zero_iff, List.length_eq_zero_iff] at hfull
      exact ⟨.opened ⟨hp, not_or.1 hfull⟩, rfl⟩
  | list _ hp ho =>
    obtain ⟨hsession, hfiles, -⟩ := handleList_frame ho
    rw [hsession]
    exact ⟨hsame (ne_data hp (by decide)), hfiles⟩
  | getMail _ hp ho =>
    obtain ⟨hsession, hfiles, -⟩ := handleGetMail_frame ho
    rw [hsession]
    exact ⟨hsame (ne_data hp (by decide)), hfiles⟩
  | quit hp =>
    refine ⟨hsame ?_, rfl⟩
    rw [hp]
    decide
  | unknown hp => exact ⟨hsame hp.data, rfl⟩

/-- Two things one after another come to their end when both do. -/
theorem andThen_eq_ok {r : Except Fault Outcome} {next : Session → Disk → Except Fault Outcome} {o : Outcome}
    (h : andThen r next = .ok o) : ∃ o₁ o₂, r = .ok o₁ ∧ next o₁.session o₁.disk = .ok o₂ ∧
      o = { o₂ with sent := o₁.sent ++ o₂.sent } := by
  cases r with
  | error x => cases h
  | ok o₁ =>
    simp only [andThen] at h
    cases hnext : next o₁.session o₁.disk with
    | error x =>
      rw [hnext] at h
      cases h
    | ok o₂ =>
      rw [hnext] at h
      cases h
      exact ⟨o₁, o₂, rfl, hnext, rfl⟩

/-- What every line keeps is kept by a run over the lines. -/
theorem runLines_keeps {host : Host} {Q : Session → Disk → Prop} {lines : List (List UInt8)} {s : Session} {d : Disk} {o : Outcome}
    (hstep : ∀ line ∈ lines, ∀ s d o, Q s d → handleLine host s d line = .ok o → Q o.session o.disk) (hq : Q s d)
    (h : runLines host s d lines = .ok o) : Q o.session o.disk := by
  induction lines generalizing s d o with
  | nil =>
    cases h
    exact hq
  | cons line lines ih =>
    rw [List.forall_mem_cons] at hstep
    obtain ⟨o₁, o₂, hfirst, hrest, rfl⟩ := andThen_eq_ok h
    have hlast := ih hstep.2 (hstep.1 s d o₁ hq hfirst) hrest
    exact hlast

/-- The lines of a chunk are plain. -/
theorem plain_of_mem_chunkLines {c line : List UInt8} (h : line ∈ chunkLines c) : Plain line := by
  obtain ⟨_, hmem⟩ := of_mem_tokens h
  refine ⟨fun hm => ?_, fun hm => zero_not_mem_cstr c (hmem 0 hm).2⟩
  exact absurd (hmem newline hm).1 (by decide)

end NetLabs.Mail
