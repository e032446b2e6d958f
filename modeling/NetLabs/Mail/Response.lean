import NetLabs.Mail.Accepted
import NetLabs.Mail.RoundTrip

/-!
# The answer to GET_MAIL

`handle_get_mail` puts the status line, the `From: ` line it looked for and what follows that up to the separator into 4096 bytes, and a
carriage return into each line that `handle_data_content` did not count. An answer never reaches into the next message, so it is the
messages one by one that have to fit.
-/

namespace NetLabs.Mail

open CText Lines Machine Function

/-- How much of `response` some lines take. -/
def answerSize : List (List UInt8) → Nat
  | [] => 0
  | line :: rest => line.length + 2 + answerSize rest

/-- A message of whose mailbox `before` headers come earlier: each of its headers that can be asked for, its own or one in its body,
takes with what follows it up to the separator at most 4087 bytes. -/
def MessageFits (before : Nat) (p : Session × Date) : Prop :=
  ∀ pre line post, seen p = pre ++ line :: post → isHeader line = true → before + pre.countP isHeader + 1 < 2147483648 →
    answerSize (line :: post.takeWhile (· != separator)) ≤ 4087

/-- All messages of a mailbox fit. -/
def MessagesFit (ps : List (Session × Date)) : Prop :=
  ∀ before p after, ps = before ++ p :: after → MessageFits ((before.flatMap seen).countP isHeader) p

/-- An address that can stand in a request: a word of fewer than 100 bytes with an `@`. -/
structure RequestAddress (email : List UInt8) : Prop where
  valid : validateEmail email = true
  word : ∀ b ∈ email, isSpace b = false
  short : email.length < 100

/-- No well-formed request for the mailbox of an address makes the answer overflow, whatever session it comes from. -/
def AnswersFit (d : Disk) (email : List UInt8) : Prop :=
  ∀ s args id, getMailArgs args = .ok (some (email, id)) → 0 < id → handleGetMail s d args ≠ .error .responseOverflow

variable {host : Host} {x : Service} {d : Disk} {email content : List UInt8} {lines : List (List UInt8)} {id : Nat}
  {ps : List (Session × Date)} {p : Session × Date}

/-- What is sent of some lines. -/
theorem length_mailResponse (lines : List (List UInt8)) : (mailResponse lines).length = 8 + answerSize lines := by
  have hok : okResponse.length = 8 := by decide
  have hcrlf : crlf.length = 2 := rfl
  have hlines : (lines.flatMap fun l => l ++ crlf).length = answerSize lines := by
    induction lines with
    | nil => rfl
    | cons line rest ih => rw [List.flatMap_cons, List.length_append, List.length_append, hcrlf, ih, answerSize]
  rw [mailResponse, List.length_append, hok, hlines]

/-- A message ends with its separator. -/
theorem separator_mem_after {pre post : List (List UInt8)} {line : List UInt8} (h : seen p = pre ++ line :: post)
    (hl : isHeader line = true) : separator ∈ post := by
  have hshape : seen p = (fromLine p.1 :: dateLine p.2 :: bodyLinesSeen p.1) ++ [separator] := rfl
  have hlast : (seen p).getLast? = some separator := by rw [hshape, List.getLast?_concat]
  rw [h, List.getLast?_append, List.getLast?_cons] at hlast
  cases hpost : post.getLast? with
  | none =>
    rw [hpost] at hlast
    have : line = separator := by simpa using hlast
    exact absurd this (ne_separator_of_isHeader hl)
  | some l =>
    rw [hpost] at hlast
    obtain rfl : l = separator := by simpa using hlast
    exact List.mem_of_getLast? hpost

/-- What is up to the first separator does not depend on what comes after it. -/
theorem takeWhile_append_of_mem {post rest : List (List UInt8)} (h : separator ∈ post) :
    (post ++ rest).takeWhile (· != separator) = post.takeWhile (· != separator) := by
  obtain ⟨a, b, rfl, ha⟩ := List.eq_append_cons_of_mem h
  have hall : ∀ l ∈ a, (l != separator) = true := by
    intro l hl
    have : l ≠ separator := fun e => ha (e ▸ hl)
    simpa using this
  rw [List.append_assoc, List.takeWhile_append_of_pos hall, List.takeWhile_append_of_pos hall]
  simp

/-- The messages fit when all headers of the mailbox do. -/
theorem messagesFit_iff : MessagesFit ps ↔ ∀ pre line post, ps.flatMap seen = pre ++ line :: post → isHeader line = true →
    pre.countP isHeader + 1 < 2147483648 → answerSize (line :: post.takeWhile (· != separator)) ≤ 4087 := by
  rw [forall_place_flatMap (P := fun pre line post => isHeader line = true → pre.countP isHeader + 1 < 2147483648 →
    answerSize (line :: post.takeWhile (· != separator)) ≤ 4087)]
  refine forall₄_congr fun before p after _ => forall₄_congr fun pre line post hplace => ?_
  refine forall_congr' fun hl => ?_
  rw [List.countP_append, takeWhile_append_of_mem (separator_mem_after hplace hl)]

/-- `GET_MAIL` overflows its buffer when it finds a message that is too long. -/
theorem getMailFile_overflow_iff : getMailFile content id = .error .responseOverflow ↔
    ∃ found, getMailScan id (fileLines 1023 content) 0 = some found ∧ 4087 < answerSize found := by
  rw [getMailFile]
  cases getMailScan id (fileLines 1023 content) 0 with
  | none => simp
  | some found =>
    simp only [length_mailResponse, Option.some.injEq, exists_eq_left']
    split
    · rename_i hlong
      exact iff_of_true rfl (by omega)
    · rename_i hshort
      exact iff_of_false (by simp) (by omega)

/-- A request that is read overflows the buffer when the mailbox exists and the message that is asked for is too long. -/
theorem handleGetMail_overflow_iff {s : Session} {args : List UInt8} {k : Int} (hargs : getMailArgs args = .ok (some (email, k)))
    (hvalid : validateEmail email = true) (hk : 0 < k) : handleGetMail s d args = .error .responseOverflow ↔
      ∃ content, d.files (mailboxName email) = some content ∧ getMailFile content k.toNat = .error .responseOverflow := by
  have hgood : ¬(!validateEmail email || decide (k ≤ 0)) = true := by
    simp only [hvalid, Bool.not_true, Bool.false_or, decide_eq_true_eq]
    omega
  rw [handleGetMail, hargs]
  simp only [hgood]
  cases d.files (mailboxName email) with
  | none => simp
  | some content =>
    simp only [Option.some.injEq, exists_eq_left']
    cases getMailFile content k.toNat with
    | error f => simp
    | ok response => simp

/-- The answers from a mailbox fit when its messages do. -/
theorem answersFit_of_inv (hi : x.Inv) (hemail : RequestAddress email) :
    AnswersFit x.disk email ↔ MessagesFit (x.accepted (mailboxName email)) := by
  have hlines := fileLines_accepted (hi.accepted (mailboxName email))
  have hfile := hi.files (mailboxName email)
  rw [messagesFit_iff]
  constructor
  · intro hfit pre line post hplace hl hnumber
    by_contra hlong
    have hne : x.accepted (mailboxName email) ≠ [] := by
      intro hnil
      rw [hnil] at hplace
      simp at hplace
    rw [if_neg hne] at hfile
    have hargs : getMailArgs (email ++ 32 :: decimal (pre.countP isHeader + 1)) =
        .ok (some (email, ((pre.countP isHeader + 1 : Nat) : Int))) := by
      rw [getMailArgs_line (ne_nil_of_validateEmail hemail.valid) hemail.word (Nat.le_of_lt_succ hemail.short), if_pos hnumber]
    refine hfit .begin _ _ hargs (by omega) ?_
    refine (handleGetMail_overflow_iff hargs hemail.valid (by omega)).2 ⟨_, hfile, ?_⟩
    refine getMailFile_overflow_iff.2 ⟨line :: post.takeWhile (· != separator), ?_, by omega⟩
    rw [hlines, hplace, Int.toNat_natCast]
    exact getMailScan_eq_some_iff.2 ⟨pre, line, post, rfl, hl, by omega, rfl⟩
  · intro hfit s args k hargs hk hover
    obtain ⟨content, hcontent, hlong⟩ := (handleGetMail_overflow_iff hargs hemail.valid hk).1 hover
    obtain ⟨-, rfl⟩ := files_of_accepted hi hcontent
    obtain ⟨found, hfound, hsize⟩ := getMailFile_overflow_iff.1 hlong
    rw [hlines] at hfound
    obtain ⟨pre, line, post, hplace, hl, hnumber, rfl⟩ := getMailScan_eq_some_iff.1 hfound
    obtain ⟨-, -, hrange⟩ := getMailArgs_ok hargs
    have := hfit pre line post hplace hl (by omega)
    omega

/-- `GET_MAIL` fits its response buffer. In every state that the server reaches, from any clients, lines and dates, and for every mailbox:
no well-formed request for one of its messages makes the answer exceed the 4096 bytes of its buffer, if and only if all its messages
fit: for every `From: ` line of a message, its own or one in its body, the bytes from there up to the next separator, with two for the end
of each line, are at most 4087 (as far as such a line has a number in the range of an `int`). A line of 1023 bytes fills the buffer of
`fgets`, and counts as itself and an empty line. -/
theorem answers_fit_iff {arrivals : List Arrival} (hx : exec (Service.step host) .begin arrivals = some x)
    (hemail : RequestAddress email) : AnswersFit x.disk email ↔ MessagesFit (x.accepted (mailboxName email)) :=
  answersFit_of_inv (service_inv hx) hemail

theorem requestAddress_cd : RequestAddress (text "c@d") := by
  refine ⟨by decide, ?_, by decide⟩
  intro b hb
  have : b ∈ [99, 64, 100] := hb
  simp only [List.mem_cons, List.not_mem_nil, or_false] at this
  rcases this with rfl | rfl | rfl <;> rfl

/-- `answers_fit_iff` on a message of one line. -/
theorem answers_fit_hi : ∃ x, exec (Service.step newYear) .begin (writes [text "Hi"]) = some x ∧ RequestAddress (text "c@d") ∧
    (AnswersFit x.disk (text "c@d") ↔ MessagesFit (x.accepted (mailboxName (text "c@d")))) := by
  obtain ⟨x, hx, -⟩ := exec_writes [text "Hi"] (by decide) (by decide)
  exact ⟨x, hx, requestAddress_cd, answers_fit_iff hx requestAddress_cd⟩

/-- A line of a body of 1022 characters. -/
def longLine : List UInt8 := List.replicate 1022 97

theorem length_longLine : longLine.length = 1022 := List.length_replicate

theorem longLine_ne {l : List UInt8} (h : l.length ≠ 1022) : longLine ≠ l := by
  rintro rfl
  exact h length_longLine

theorem isLine_longLine : IsLine longLine := by
  refine ⟨longLine_ne (by decide), ?_, by rw [length_longLine]; omega⟩
  intro b hb
  obtain rfl := List.eq_of_mem_replicate hb
  exact ⟨rfl, by decide⟩

/-- Four lines of 1022 characters are accepted, and the answer with them takes 4133 bytes and a NUL. -/
theorem full_body_overflows : ∃ x, exec (Service.step newYear) .begin (writes (List.replicate 4 longLine)) = some x ∧
    ¬AnswersFit x.disk (text "c@d") := by
  have hline : ∀ l ∈ List.replicate 4 longLine, IsLine l ∧ l ≠ dot := by
    intro l hl
    obtain rfl := List.eq_of_mem_replicate hl
    exact ⟨isLine_longLine, longLine_ne (by decide)⟩
  have hsize : (unlines (List.replicate 4 longLine)).length ≤ 4094 := by
    simp [unlines, List.replicate, length_longLine]
  obtain ⟨x, hx, haccepted⟩ := exec_writes _ hline hsize
  refine ⟨x, hx, ?_⟩
  rw [answersFit_of_inv (service_inv hx) requestAddress_cd, haccepted]
  intro hfit
  have hbody : bodyLinesSeen (letter (unlines (List.replicate 4 longLine))) = List.replicate 4 longLine := by
    rw [bodyLinesSeen_unlines rfl fun l hl => (hline l hl).1]
    simp [List.replicate, pieces, length_longLine]
  have hanswer := hfit [] _ [] rfl [] _ _ rfl (isHeader_fromLine _) (by decide)
  rw [hbody] at hanswer
  have hall : ∀ l ∈ dateLine (newYear.today 0) :: List.replicate 4 longLine, (l != separator) = true := by
    intro l hl
    rw [bne_iff_ne]
    rcases List.mem_cons.1 hl with rfl | hl
    · exact dateLine_ne_separator _
    · rw [List.eq_of_mem_replicate hl]
      exact longLine_ne (by decide)
  rw [← List.cons_append, List.takeWhile_append_of_pos hall] at hanswer
  simp [answerSize, List.replicate, length_longLine] at hanswer
  omega

end NetLabs.Mail
