import NetLabs.Lib.Machine
import NetLabs.Mail.Mailbox
import NetLabs.Mail.Segments

/-!
# What the client prints after a command

The client does one `recv` for each command and prints what it gets; the server answers with one `send` or, to `LIST`, with several,
and nothing in the stream says where an answer ends. What is printed are the answers exactly when every `recv` comes after all the
`send`s for its command and returns all their bytes.
-/

namespace NetLabs.Mail

open CText Lines Tokens Machine

variable {host : Host} {s : Session} {d : Disk} {args line : List UInt8} {lines chunks : List (List UInt8)} {entries : List Entry}
  {n : Nat} {reading : Bool} {date : Option (List UInt8)} {o : Outcome}

/-! ## What the server sends -/

/-- A text the client can print: not empty, and without a NUL. -/
def Printable (t : List UInt8) : Prop := t ≠ [] ∧ (0 : UInt8) ∉ t

instance (t : List UInt8) : Decidable (Printable t) := inferInstanceAs (Decidable (_ ∧ _))

theorem printable_singleton {u : List UInt8} (hu : Printable u) : ∀ t ∈ [u], Printable t := by
  intro t ht
  obtain rfl := List.mem_singleton.1 ht
  exact hu

/-- An entry without a NUL. -/
def Entry.NoNul (e : Entry) : Prop := (0 : UInt8) ∉ e.sender ∧ (0 : UInt8) ∉ e.date

theorem entryLine_printable {e : Entry} (h : e.NoNul) : Printable (entryLine e) := by
  constructor
  · have hne := decimal_ne_nil e.emailId
    simp [entryLine, hne]
  · intro hm
    have hm' := List.mem_of_mem_take hm
    simp only [List.mem_append] at hm'
    have hdigits : (0 : UInt8) ∉ decimal e.emailId := fun h0 => absurd (isDigit_of_mem_decimal h0) (by decide)
    rcases hm' with ((((hm' | hm') | hm') | hm') | hm') | hm'
    · exact hdigits hm'
    · exact absurd hm' (by decide)
    · exact h.1 hm'
    · exact absurd hm' (by decide)
    · exact h.2 hm'
    · exact absurd hm' (by decide)

/-- A date scanned from a line without a NUL. -/
theorem scanDate_noNul {o : Option (List UInt8)} (hline : (0 : UInt8) ∉ line) (hdate : ∀ w ∈ date, (0 : UInt8) ∉ w)
    (h : scanDate line date = .ok o) : ∀ w ∈ o, (0 : UInt8) ∉ w := by
  unfold scanDate at h
  split at h
  · split at h
    · cases h
      exact hdate
    · rename_i word rest hscan
      split at h
      · cases h
      · cases h
        intro w hw
        obtain rfl : word = w := by simpa using hw
        exact fun h0 => hline (List.mem_of_mem_drop (mem_of_mem_scanWord hscan h0))
  · cases h
    exact hdate

/-- The entries of a list have no NUL. -/
theorem Scanned.noNul (h : Scanned lines n reading date entries) (hlines : ∀ l ∈ lines, (0 : UInt8) ∉ l)
    (hdate : ∀ w ∈ date, (0 : UInt8) ∉ w) : ∀ e ∈ entries, e.NoNul := by
  induction h with
  | done => simp
  | skip _ _ ih =>
    rw [List.forall_mem_cons] at hlines
    exact ih hlines.2 hdate
  | last =>
    rw [List.forall_mem_cons] at hlines
    intro e he
    obtain rfl := List.mem_singleton.1 he
    exact ⟨fun h0 => hlines.1 (List.mem_of_mem_drop h0), hdate _ rfl⟩
  | header _ _ _ hscan _ ih =>
    rw [List.forall_mem_cons, List.forall_mem_cons] at hlines
    obtain ⟨hline, hnext, hrest⟩ := hlines
    have hword := scanDate_noNul hnext hdate hscan
    rw [List.forall_mem_cons]
    exact ⟨⟨fun h0 => hline (List.mem_of_mem_drop h0), hword _ rfl⟩, ih hrest hword⟩

theorem handleList_printable (h : handleList s d args = .ok o) : ∀ t ∈ o.sent, Printable t := by
  obtain _ | _ | ⟨_, _, _, _, hentries⟩ := handleList_listed h
  · exact printable_singleton (by decide)
  · exact printable_singleton (by decide)
  · rw [List.forall_mem_cons]
    refine ⟨by decide, fun t ht => ?_⟩
    obtain ⟨e, he, rfl⟩ := List.mem_map.1 ht
    exact entryLine_printable ((listScan_scanned hentries).noNul (fun l hl => (plain_of_mem_fileLines hl).2) (by simp) e he)

/-- The text of a message without a NUL. -/
theorem mailResponse_printable (h : ∀ l ∈ lines, (0 : UInt8) ∉ l) : Printable (mailResponse lines) := by
  constructor
  · simp [mailResponse, okResponse, text]
  · intro hm
    rcases List.mem_append.1 hm with hm | hm
    · exact absurd hm (by decide)
    · obtain ⟨l, hl, hml⟩ := List.mem_flatMap.1 hm
      rcases List.mem_append.1 hml with hml | hml
      · exact h l hl hml
      · exact absurd hml (by decide)

theorem getMailFile_printable {content response : List UInt8} {id : Nat} (h : getMailFile content id = .ok response) :
    Printable response := by
  unfold getMailFile at h
  split at h
  · cases h
    decide
  · rename_i found hscan
    split at h
    · cases h
    · cases h
      obtain ⟨pre, line, post, hsplit, _, _, rfl⟩ := getMailScan_eq_some_iff.1 hscan
      have hall : ∀ l ∈ fileLines 1023 content, (0 : UInt8) ∉ l := fun l hl => (plain_of_mem_fileLines hl).2
      refine mailResponse_printable fun l hl => hall l ?_
      rw [hsplit]
      rcases List.mem_cons.1 hl with rfl | hl
      · simp
      · have := List.takeWhile_subset _ hl
        simp [this]

theorem handleGetMail_printable (h : handleGetMail s d args = .ok o) : ∀ t ∈ o.sent, Printable t := by
  obtain _ | _ | _ | ⟨_, _, _, _, _, _, _, hresponse⟩ := handleGetMail_fetched h
  · exact printable_singleton (by decide)
  · exact printable_singleton (by decide)
  · exact printable_singleton (by decide)
  · exact printable_singleton (getMailFile_printable hresponse)

/-- Whatever line the server takes, the client can print what it sends. -/
theorem handleLine_printable (h : handleLine host s d line = .ok o) : ∀ t ∈ o.sent, Printable t := by
  have hok : Printable okResponse := by decide
  have hsyntax : Printable invalidSyntax := by decide
  rw [handleLine] at h
  split at h
  · obtain rfl := Except.ok.inj h
    rw [handleDataContent]
    split
    · exact printable_singleton (by decide)
    · split
      · simp
      · exact printable_singleton (by decide)
  · cases processCommand_processed h with
    | helo =>
      rw [handleHelo]
      split
      · exact printable_singleton hok
      · exact printable_singleton hsyntax
    | mailFrom =>
      rw [handleMailFrom]
      split
      · exact printable_singleton hok
      · exact printable_singleton hsyntax
    | rcptTo =>
      rw [handleRcptTo]
      split
      · exact printable_singleton hok
      · exact printable_singleton hsyntax
    | data =>
      rw [handleData]
      split
      · exact printable_singleton (by decide)
      · exact printable_singleton (by decide)
    | list _ _ ho => exact handleList_printable ho
    | getMail _ _ ho => exact handleGetMail_printable ho
    | quit => exact printable_singleton (by decide)
    | unknown => exact printable_singleton hsyntax

/-- So it can over a whole run. -/
theorem serve_printable (h : serve host s d chunks = .ok o) : ∀ t ∈ o.sent, Printable t := by
  rw [serve_eq_runLines] at h
  generalize chunks.flatMap chunkLines = lines at h
  induction lines generalizing s d o with
  | nil =>
    cases h
    simp
  | cons line lines ih =>
    obtain ⟨o₁, o₂, hfirst, hrest, rfl⟩ := andThen_eq_ok h
    intro t ht
    rcases List.mem_append.1 ht with ht | ht
    · exact handleLine_printable hfirst t ht
    · exact ih hrest t ht

/-! ## The client and the server -/

/-- Where the client is in its loop: at `fgets`, at the `recv` after a command, or past the loop. -/
inductive Prompt where
  | typing
  | waiting (command : List UInt8)
  | left
  deriving DecidableEq

/-- The client, the server and the stream between them. `commands` are the bytes of a command the server has not read yet, `pending`
the texts given to `send` that are not on the stream yet, `unread` the bytes on it. For each command in turn, `replies` has the whole
of what the server has sent for it, and `printed` what the client has printed. -/
structure Exchange where
  prompt : Prompt
  commands : Option (List UInt8)
  session : Session
  disk : Disk
  pending : List (List UInt8)
  unread : List UInt8
  replies : List (List UInt8)
  printed : List (List UInt8)

/-- A client and a server that have just connected, over any mailboxes. -/
def Exchange.begin (files : List UInt8 → Option (List UInt8)) : Exchange :=
  ⟨.typing, none, .begin, { Disk.empty with files := files }, [], [], [], []⟩

/-- What happens next: a command is typed; the server reads it, in some chunks, and answers; a text of the answer gets onto the
stream; `recv` returns `n` bytes of it; or other clients change the mailboxes. -/
inductive Event where
  | type (command : List UInt8)
  | serve (chunks : List (List UInt8))
  | deliver
  | recv (n : Nat)
  | mailboxes (files : List UInt8 → Option (List UInt8))

/-- A line that is typed at the prompt, is no `DATA` and leaves room for its line end in `command[4096]`. -/
def Typed (command : List UInt8) : Prop :=
  command ≠ [] ∧ newline ∉ command ∧ (0 : UInt8) ∉ command ∧ command.length ≤ 4093 ∧ startsWith command (text "DATA") = false

instance (command : List UInt8) : Decidable (Typed command) := inferInstanceAs (Decidable (_ ∧ _))

/-- One step of the client (`type`, `recv`), the server (`serve`), the stream or the other clients. -/
def Exchange.step (host : Host) (x : Exchange) : Event → Option Exchange
  | .type command =>
    if x.prompt = .typing ∧ Typed command then
      some { x with prompt := .waiting command, commands := some (command ++ crlf) }
    else none
  | .serve chunks =>
    if Received chunks ∧ x.commands = some chunks.flatten then
      match serve host x.session x.disk chunks with
      | .error _ => none
      | .ok o =>
        some { x with
          commands := none
          session := o.session
          disk := o.disk
          pending := x.pending ++ o.sent
          replies := x.replies ++ [o.sent.flatten] }
    else none
  | .deliver =>
    match x.pending with
    | [] => none
    | t :: rest => some { x with pending := rest, unread := x.unread ++ t }
  | .recv n =>
    match x.prompt with
    | .waiting command =>
      if 0 < n ∧ n ≤ 4095 ∧ n ≤ x.unread.length then
        -- a command that starts with QUIT ends the loop
        some { x with
          prompt := if startsWith command (text "QUIT") then .left else .typing
          unread := x.unread.drop n
          printed := x.printed ++ [cstr (x.unread.take n)] }
      else none
    | _ => none
  | .mailboxes files => some { x with disk := { x.disk with files := files } }

/-- What has been printed after each command is the reply to it. -/
def Exchange.Attributed (x : Exchange) : Prop := x.printed <+: x.replies

/-- `recv` returns all there is to come: every text of the reply is on the stream, and every byte of it is read. -/
def Exchange.readsReply (x : Exchange) : Event → Prop
  | .recv n => x.pending = [] ∧ n = x.unread.length
  | _ => True

instance (x : Exchange) (e : Event) : Decidable (x.readsReply e) := by
  unfold Exchange.readsReply
  cases e <;> infer_instance

/-- As long as the replies are attributed: before a command is served nothing is under way and everything has been printed; after
that, all that is under way is the reply to it. -/
structure Exchange.Inv (x : Exchange) : Prop where
  pending : ∀ t ∈ x.pending, Printable t
  unread : (0 : UInt8) ∉ x.unread
  answered : (x.pending = [] ∧ x.unread = [] ∧ x.replies = x.printed) ∨
    (∃ command, x.prompt = .waiting command) ∧ x.commands = none ∧ x.replies = x.printed ++ [x.unread ++ x.pending.flatten]
  unanswered : x.commands.isSome → (∃ command, x.prompt = .waiting command) ∧ x.pending = [] ∧ x.unread = [] ∧ x.replies = x.printed

variable {x x' : Exchange} {e : Event}

/-- Texts that make nothing together are none. -/
theorem eq_nil_of_flatten {ts : List (List UInt8)} (h : ∀ t ∈ ts, Printable t) (hnil : ts.flatten = []) : ts = [] := by
  cases ts with
  | nil => rfl
  | cons t ts =>
    rw [List.flatten_cons, List.append_eq_nil_iff] at hnil
    exact absurd hnil.1 (h t List.mem_cons_self).1

/-- Every step but a `recv` keeps the invariant. -/
theorem step_exchange (hi : x.Inv) (hne : ∀ n, e ≠ .recv n) (h : x.step host e = some x') :
    x'.Inv ∧ (x.Attributed → x'.Attributed) := by
  cases e with
  | type command =>
    obtain ⟨⟨hprompt, _⟩, ⟨⟩⟩ := Option.ite_none_right_eq_some.1 h
    have hquiet : x.pending = [] ∧ x.unread = [] ∧ x.replies = x.printed := by
      rcases hi.answered with hquiet | ⟨⟨command, hwait⟩, _⟩
      · exact hquiet
      · rw [hprompt] at hwait
        cases hwait
    exact ⟨⟨hi.pending, hi.unread, Or.inl hquiet, fun _ => ⟨⟨command, rfl⟩, hquiet⟩⟩, id⟩
  | serve chunks =>
    obtain ⟨⟨_, hcommands⟩, h⟩ := Option.ite_none_right_eq_some.1 h
    obtain ⟨hwait, hpending, hunread, hreplies⟩ := hi.unanswered (by rw [hcommands]; rfl)
    split at h
    · cases h
    · rename_i o ho
      cases h
      refine ⟨⟨?_, hi.unread, Or.inr ⟨hwait, rfl, ?_⟩, fun hsome => by cases hsome⟩, fun hp => hp.trans (List.prefix_append _ _)⟩
      · rw [hpending, List.nil_append]
        exact serve_printable ho
      · rw [hreplies, hunread, hpending]
        rfl
  | deliver =>
    unfold Exchange.step at h
    simp only at h
    split at h
    · cases h
    · rename_i t rest hpending
      cases h
      have hall := hi.pending
      rw [hpending, List.forall_mem_cons] at hall
      refine ⟨⟨hall.2, ?_, ?_, fun hsome => ?_⟩, id⟩
      · rw [List.mem_append, not_or]
        exact ⟨hi.unread, hall.1.2⟩
      · rcases hi.answered with ⟨hnone, _⟩ | ⟨hwait, hcommands, hreplies⟩
        · rw [hpending] at hnone
          cases hnone
        · refine Or.inr ⟨hwait, hcommands, ?_⟩
          rw [hreplies, hpending]
          simp
      · obtain ⟨_, hnone, _⟩ := hi.unanswered hsome
        rw [hpending] at hnone
        cases hnone
  | recv n => exact absurd rfl (hne n)
  | mailboxes files =>
    cases h
    exact ⟨⟨hi.pending, hi.unread, hi.answered, hi.unanswered⟩, id⟩

/-- A `recv` returns some of the reply, and it is printed. -/
theorem recv_exchange {n : Nat} (hi : x.Inv) (h : x.step host (.recv n) = some x') :
    0 < n ∧ n ≤ x.unread.length ∧ x.commands = none ∧ x.replies = x.printed ++ [x.unread ++ x.pending.flatten] ∧
      x'.commands = none ∧ x'.pending = x.pending ∧ x'.unread = x.unread.drop n ∧ x'.replies = x.replies ∧
      x'.printed = x.printed ++ [x.unread.take n] := by
  unfold Exchange.step at h
  simp only at h
  split at h
  · rename_i command hprompt
    obtain ⟨⟨hpos, _, hle⟩, ⟨⟩⟩ := Option.ite_none_right_eq_some.1 h
    have hcstr : cstr (x.unread.take n) = x.unread.take n := cstr_of_not_mem fun h0 => hi.unread (List.mem_of_mem_take h0)
    rcases hi.answered with ⟨_, hunread, _⟩ | ⟨_, hcommands, hreplies⟩
    · rw [hunread, List.length_nil] at hle
      omega
    · exact ⟨hpos, hle, hcommands, hreplies, hcommands, rfl, rfl, rfl, by rw [hcstr]⟩
  · cases h

/-- A `recv` that returns the whole reply keeps the invariant, and prints that reply. -/
theorem recv_whole {n : Nat} (hi : x.Inv) (hg : x.readsReply (.recv n)) (h : x.step host (.recv n) = some x') :
    x'.Inv ∧ x'.Attributed := by
  obtain ⟨hpending, rfl⟩ := hg
  obtain ⟨_, _, _, hreplies, hcommands', hpending', hunread', hreplies', hprinted'⟩ := recv_exchange hi h
  rw [hpending] at hpending' hreplies
  rw [List.drop_length] at hunread'
  rw [List.take_length] at hprinted'
  rw [List.flatten_nil, List.append_nil] at hreplies
  have hall : x'.replies = x'.printed := by rw [hreplies', hreplies, hprinted']
  refine ⟨⟨by simp [hpending'], by simp [hunread'], Or.inl ⟨hpending', hunread', hall⟩, fun hsome => ?_⟩, ?_⟩
  · rw [hcommands'] at hsome
    cases hsome
  · exact ⟨[], by rw [List.append_nil, hall]⟩

/-- A `recv` that returns less prints a part. -/
theorem recv_part {n : Nat} (hi : x.Inv) (hg : ¬x.readsReply (.recv n)) (h : x.step host (.recv n) = some x') :
    ¬x'.Attributed := by
  intro hp
  obtain ⟨_, hle, _, hreplies, _, _, _, hreplies', hprinted'⟩ := recv_exchange hi h
  rw [Exchange.Attributed, hreplies', hreplies, hprinted', List.prefix_append_right_inj, List.cons_prefix_cons] at hp
  have hlen := congrArg List.length hp.1
  rw [List.length_take, List.length_append, Nat.min_eq_left hle] at hlen
  have hflat : x.pending.flatten = [] := List.length_eq_zero_iff.1 (by omega)
  exact hg ⟨eq_nil_of_flatten hi.pending hflat, by rw [hflat, List.length_nil] at hlen; omega⟩

/-- Reply attribution. In every run of a client, the server, the stream and other clients, over any host and mailboxes: what the
client prints after each command is the whole reply to it, in every state, exactly when every `recv` comes after all the texts of the
reply and returns every byte of them. -/
theorem attribution_iff (files : List UInt8 → Option (List UInt8)) (events : List Event)
    (hx : exec (Exchange.step host) (.begin files) events = some x') :
    Always (Exchange.step host) Exchange.Attributed (.begin files) events ↔
      Meets (Exchange.step host) Exchange.readsReply (.begin files) events := by
  refine always_iff_meets_while (I := Exchange.Inv) ?_ ?_ ?_ (List.prefix_refl _) hx
  · intro x e x' hi hp hg h
    by_cases hrecv : ∃ n, e = .recv n
    · obtain ⟨n, rfl⟩ := hrecv
      exact recv_whole hi hg h
    · obtain ⟨hi', hp'⟩ := step_exchange hi (fun n hn => hrecv ⟨n, hn⟩) h
      exact ⟨hi', hp' hp⟩
  · intro x e x' hi _ hg h
    cases e with
    | recv n => exact recv_part hi hg h
    | type => exact absurd trivial hg
    | serve => exact absurd trivial hg
    | deliver => exact absurd trivial hg
    | mailboxes => exact absurd trivial hg
  · exact ⟨by simp [Exchange.begin], by simp [Exchange.begin], Or.inl ⟨rfl, rfl, rfl⟩, fun hsome => by cases hsome⟩

/-- A client that says `QUIT` and reads the answer. -/
def quitRun : List Event := [.type (text "QUIT"), .serve [text "QUIT\r\n"], .deliver, .recv 13]

/-- `attribution_iff` on it. -/
theorem attribution_quit : ∃ x', exec (Exchange.step newYear) (.begin fun _ => none) quitRun = some x' ∧
    (Always (Exchange.step newYear) Exchange.Attributed (.begin fun _ => none) quitRun ↔
      Meets (Exchange.step newYear) Exchange.readsReply (.begin fun _ => none) quitRun) := by
  have hrun : (exec (Exchange.step newYear) (.begin fun _ => none) quitRun).isSome = true := by decide +kernel
  obtain ⟨x', hx⟩ := Option.isSome_iff_exists.1 hrun
  exact ⟨x', hx, attribution_iff (fun _ => none) quitRun hx⟩

/-- A client that lists a mailbox with one message, and whose `recv` comes after the first of the two texts. -/
def listRun : List Event := [.type (text "LIST c@d"), .serve [text "LIST c@d\r\n"], .deliver, .recv 8]

/-- The client prints `200 OK`, and the line of the message comes later. -/
theorem list_printed_in_part :
    ¬Always (Exchange.step newYear) Exchange.Attributed
      (.begin fun _ => some (text "From: a@b\nDate: 01-01-2025\nHi\n---\n")) listRun := by
  intro hall
  have hrun : (exec (Exchange.step newYear) (.begin fun _ => some (text "From: a@b\nDate: 01-01-2025\nHi\n---\n")) listRun).any
      (fun x => x.printed == [text "200 OK\r\n"] &&
        x.replies == [text "200 OK\r\n1: Email from a@b (01-01-2025)\r\n"]) = true := by decide +kernel
  obtain ⟨x, hx, heq⟩ := (Option.any_eq_true _ _).1 hrun
  simp only [Bool.and_eq_true, beq_iff_eq] at heq
  have hattr := hall _ (List.prefix_refl _) x hx
  rw [Exchange.Attributed, heq.1, heq.2] at hattr
  exact absurd hattr (by decide)

end NetLabs.Mail
