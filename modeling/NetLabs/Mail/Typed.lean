import NetLabs.Mail.Accumulation

/-!
# From the lines that are typed to the record in the mailbox

A body passes the buffer of the client, the stream and the buffer of the server before `save_email` writes it. As long as client and
server are in step, each body that is typed to its end is written once, in the order of typing, with the lines that were typed of it and
no others; only empty lines are lost, and a carriage return that is typed cuts a line.
-/

namespace NetLabs.Mail

open CText Lines Tokens Machine Function

/-- Client and server, the lines typed so far of the body the client is in, the bodies typed to their end, and how many bodies the server
has come to the end of. -/
structure Posting where
  dialogue : Dialogue
  lines : List (List UInt8)
  typed : List (List (List UInt8))
  saved : Nat

/-- A client and a server that have just connected, over any mailboxes. -/
def Posting.begin (files : List UInt8 → Option (List UInt8)) : Posting := ⟨.begin files, [], [], 0⟩

/-- What is noted when a line is typed. -/
def Posting.noted (p : Posting) (line : List UInt8) : Posting :=
  match p.dialogue.client with
  | .body _ => if line = dot then { p with lines := [], typed := p.typed ++ [p.lines] } else { p with lines := p.lines ++ [line] }
  | _ => { p with lines := [] }

/-- The line the server handles next is a dot in data mode. -/
def Posting.ends (p : Posting) : Prop := p.dialogue.session.isDataMode = true ∧ ∃ q ∈ p.dialogue.queue.head?, q.1 = dot

instance (p : Posting) : Decidable p.ends := inferInstanceAs (Decidable (_ ∧ ∃ q ∈ p.dialogue.queue.head?, q.1 = dot))

/-- One step. -/
def Posting.step (host : Host) (p : Posting) (a : Act) : Option Posting :=
  (p.dialogue.step host a).map fun x =>
    match a with
    | .type line => { p.noted line with dialogue := x }
    | .handle => { p with dialogue := x, saved := if p.ends then p.saved + 1 else p.saved }
    | .mailboxes _ => { p with dialogue := x }

instance (client : Client) (line : List UInt8) : Decidable (client.fits line) :=
  match client with
  | .commanding => inferInstanceAs (Decidable (_ ≤ _))
  | .body _ => inferInstanceAs (Decidable (if line = dot then _ else _))
  | .overflowed => isTrue trivial

/-- Whether a step keeps client and server in step is decided. -/
instance decidableKeepsStep : (x : Dialogue) → (a : Act) → Decidable (x.keepsStep a)
  | x, .type line => inferInstanceAs (Decidable (x.client.fits line))
  | ⟨_, [], _, _⟩, .handle => isTrue trivial
  | ⟨_, (line, .command opens) :: _, s, _⟩, .handle => inferInstanceAs (Decidable (opensData s line ↔ opens = true))
  | ⟨_, (line, .body closes) :: _, _, _⟩, .handle => inferInstanceAs (Decidable (line = dot ↔ closes = true))
  | _, .mailboxes _ => isTrue trivial

/-- The lines of a body in its record. -/
def kept (lines : List (List UInt8)) : List (List UInt8) := lines.flatMap (tokens isCrlf)

/-- What the server appends at the end of a body, to the mailbox of the recipient if it can be opened, is the record of the body that was
typed next after those that are saved. -/
def Posting.posts (host : Host) (p : Posting) (a : Act) : Prop :=
  a = .handle → p.ends → ∀ p' ∈ p.step host a, ∃ lines, p.typed[p.saved]? = some lines ∧
    p'.dialogue.disk.files =
      if host.opens (mailboxName p.dialogue.session.recipient) then
        update p.dialogue.disk.files (mailboxName p.dialogue.session.recipient)
          (some ((p.dialogue.disk.files (mailboxName p.dialogue.session.recipient)).getD [] ++
            record p.dialogue.session.sender (host.today p.dialogue.disk.saves) (kept lines)))
      else p.dialogue.disk.files

/-- The bodies whose ends are under way, of the first of which `cur` has been handled, and what there is of one without an end. -/
def bodiesUnderWay : List (List UInt8) → List (List UInt8 × Role) → List (List (List UInt8)) × List (List UInt8)
  | cur, [] => ([], cur)
  | _, (_, .command _) :: rest => bodiesUnderWay [] rest
  | cur, (line, .body false) :: rest => bodiesUnderWay (cur ++ [line]) rest
  | cur, (_, .body true) :: rest => (cur :: (bodiesUnderWay [] rest).1, (bodiesUnderWay [] rest).2)

/-- While the two are in step: the client's buffer has the lines typed of the body, the server's those handled of one, and those under
way are the bodies that are typed and not saved. -/
structure Posting.Inv (p : Posting) : Prop where
  inStep : p.dialogue.InStep
  inv : p.dialogue.Inv
  buffer : ∀ emailBody, p.dialogue.client = .body emailBody → emailBody = p.lines.flatMap (· ++ crlf)
  saved_le : p.saved ≤ p.typed.length
  under_way : ∃ cur, (p.dialogue.session.isDataMode = true → p.dialogue.session.dataBuffer = unlines cur) ∧
    (p.dialogue.session.isDataMode = false → cur = []) ∧
    bodiesUnderWay cur p.dialogue.queue = ((p.typed.drop p.saved).map kept, [])

variable {host : Host} {p p' : Posting} {a : Act} {x : Dialogue} {o : Outcome} {line : List UInt8} {cur lines : List (List UInt8)}
  {queue new rest : List (List UInt8 × Role)} {opens opens' : Bool}

/-! ## The bodies under way -/

theorem bodiesUnderWay_append : bodiesUnderWay cur (queue ++ new) =
    ((bodiesUnderWay cur queue).1 ++ (bodiesUnderWay (bodiesUnderWay cur queue).2 new).1,
      (bodiesUnderWay (bodiesUnderWay cur queue).2 new).2) := by
  induction queue generalizing cur with
  | nil => rfl
  | cons q queue ih =>
    obtain ⟨line, role⟩ := q
    cases role with
    | command opens => exact ih
    | body closes =>
      cases closes with
      | false => exact ih
      | true => simp only [List.cons_append, bodiesUnderWay, ih]

/-- A command has no part in a body. -/
theorem bodiesUnderWay_commands : bodiesUnderWay [] (withRoles (.command opens) (.command opens') lines) = ([], []) := by
  induction lines with
  | nil => rfl
  | cons line lines ih =>
    cases lines with
    | nil => rfl
    | cons line' lines => exact ih

/-- A body that is sent as a whole. -/
theorem bodiesUnderWay_body : bodiesUnderWay cur (withRoles (.body false) (.body true) (lines ++ [dot])) = ([cur ++ lines], []) := by
  induction lines generalizing cur with
  | nil =>
    rw [List.append_nil]
    rfl
  | cons line lines ih =>
    have hrest : lines ++ [dot] ≠ [] := by simp
    obtain ⟨line', lines', heq⟩ := List.exists_cons_of_ne_nil hrest
    have hbody := @ih (cur ++ [line])
    rw [List.append_assoc, List.singleton_append] at hbody
    rw [List.cons_append, heq] at *
    exact hbody

/-- The lines of the client's buffer. -/
theorem tokens_typed : tokens isCrlf (lines.flatMap (· ++ crlf)) = kept lines := by
  induction lines with
  | nil => rfl
  | cons line lines ih =>
    have hline : tokens isCrlf (line ++ crlf) = tokens isCrlf line := by
      have hcrlf : tokens isCrlf crlf = [] := by decide
      rw [tokens_append (by simp [Clean, crlf, isCrlf]), hcrlf, List.append_nil]
    have hseam : Clean isCrlf (line ++ crlf) (lines.flatMap (· ++ crlf)) := by simp [Clean, crlf, isCrlf]
    rw [kept, List.flatMap_cons, List.flatMap_cons, tokens_append hseam, hline, ih]
    rfl

theorem bodiesUnderWay_bodyLines {emailBody : List UInt8} (hbuffer : emailBody = lines.flatMap (· ++ crlf))
    (hend : Clean isCrlf emailBody (dot ++ crlf)) : bodiesUnderWay [] (bodyLines emailBody) = ([kept lines], []) := by
  have hdot : tokens isCrlf (dot ++ crlf) = [dot] := by decide
  rw [bodyLines, tokens_append hend, hdot, bodiesUnderWay_body, List.nil_append, hbuffer, tokens_typed]

/-! ## One step -/

/-- What is typed leaves the server alone and adds lines that have no part of a body in them, or one body. -/
theorem inv_typed {client : Client} {typed : List (List (List UInt8))} (hi : p.Inv)
    (hin : Dialogue.InStep { p.dialogue with client := client, queue := p.dialogue.queue ++ new })
    (hinv : Dialogue.Inv { p.dialogue with client := client, queue := p.dialogue.queue ++ new })
    (hbuffer : ∀ emailBody, client = .body emailBody → emailBody = lines.flatMap (· ++ crlf))
    (hnew : bodiesUnderWay [] new = (typed.map kept, [])) :
    Posting.Inv ⟨{ p.dialogue with client := client, queue := p.dialogue.queue ++ new }, lines, p.typed ++ typed, p.saved⟩ := by
  obtain ⟨cur, htext, hcur, hway⟩ := hi.under_way
  have hle := hi.saved_le
  refine ⟨hin, hinv, hbuffer, ?_, cur, htext, hcur, ?_⟩
  · change p.saved ≤ (p.typed ++ typed).length
    rw [List.length_append]
    omega
  · dsimp only
    rw [bodiesUnderWay_append, hway, hnew, List.drop_append_of_le_length hle, List.map_append]

theorem inv_type_command (hi : p.Inv) (hg : p.dialogue.keepsStep (.type line)) (hc : p.dialogue.client = .commanding)
    (h : p.dialogue.step host (.type line) = some x) : Posting.Inv { p.noted line with dialogue := x } := by
  obtain ⟨hin, hinv⟩ := type_command_inStep_iff hi.inv hi.inStep hc h
  have hin' := hin.2 hg
  have hnoted : p.noted line = { p with lines := [] } := by
    simp only [Posting.noted, hc]
  have hfit : line.length ≤ 4093 := by
    rw [Dialogue.keepsStep, hc] at hg
    exact hg
  rw [hnoted]
  obtain ⟨-, h⟩ := Option.ite_none_right_eq_some.1 h
  simp only [hc, if_neg (Nat.not_lt.2 hfit)] at h
  split at h
  · cases h
    exact ⟨hi.inStep, hi.inv, fun _ hbody => absurd (hc.symm.trans hbody) (by simp), hi.saved_le, hi.under_way⟩
  · cases h
    have hbuffer : ∀ emailBody, (if startsWith line (text "DATA") then Client.body [] else .commanding) = .body emailBody →
        emailBody = ([] : List (List UInt8)).flatMap (· ++ crlf) := by
      intro emailBody hbody
      split at hbody
      · cases hbody
        rfl
      · cases hbody
    have hadd := inv_typed hi hin' (hinv hin') hbuffer (bodiesUnderWay_commands.trans (congrArg (·, []) List.map_nil.symm))
    rwa [List.append_nil] at hadd

theorem inv_type_body {emailBody : List UInt8} (hi : p.Inv) (hg : p.dialogue.keepsStep (.type line))
    (hc : p.dialogue.client = .body emailBody) (h : p.dialogue.step host (.type line) = some x) :
    Posting.Inv { p.noted line with dialogue := x } := by
  obtain ⟨hin, hinv⟩ := type_body_inStep_iff hi.inv hi.inStep hc h
  have hin' := hin.2 hg
  have hbuffer := hi.buffer emailBody hc
  obtain ⟨-, h⟩ := Option.ite_none_right_eq_some.1 h
  have hfit : if line = dot then emailBody.length + 3 ≤ 4095
      else line.length ≤ 4093 ∧ emailBody.length + line.length + 2 ≤ 4095 := by
    rw [Dialogue.keepsStep, hc] at hg
    exact hg
  simp only [hc] at h
  by_cases hdot : line = dot
  · have hnoted : p.noted line = { p with lines := [], typed := p.typed ++ [p.lines] } := by
      simp only [Posting.noted, hc, if_pos hdot]
    rw [if_pos hdot] at hfit
    rw [if_pos hdot, if_neg (Nat.not_lt.2 hfit)] at h
    cases h
    rw [hnoted]
    exact inv_typed hi hin' (hinv hin') (fun _ hbody => by cases hbody)
      (bodiesUnderWay_bodyLines hbuffer (hi.inv.lineEnd emailBody hc))
  · have hnoted : p.noted line = { p with lines := p.lines ++ [line] } := by
      simp only [Posting.noted, hc, if_neg hdot]
    rw [if_neg hdot] at hfit
    rw [if_neg hdot, if_neg (by omega)] at h
    cases h
    rw [hnoted]
    refine ⟨hin', hinv hin', fun _ hbody => ?_, hi.saved_le, hi.under_way⟩
    cases hbody
    rw [hbuffer, List.flatMap_append, List.flatMap_singleton, List.append_assoc]

/-- What is handled next, as the invariant has it. -/
theorem handle_some (h : p.dialogue.step host .handle = some x) : ∃ line role rest o, p.dialogue.queue = (line, role) :: rest ∧
    handleLine host p.dialogue.session p.dialogue.disk line = .ok o ∧
    x = { p.dialogue with queue := rest, session := o.session, disk := o.disk } := by
  unfold Dialogue.step at h
  dsimp only at h
  split at h
  · cases h
  · rename_i line role rest hqueue
    split at h
    · cases h
    · rename_i o ho
      cases h
      exact ⟨line, role, rest, o, hqueue, ho, rfl⟩

/-- The mode of the server is the one the line is meant for. -/
theorem mode_of_inStep {role : Role} (hi : p.Inv) (hqueue : p.dialogue.queue = (line, role) :: rest) :
    p.dialogue.session.isDataMode = role.isBody := by
  have hmode := hi.inStep.2
  rw [hqueue] at hmode
  exact hmode

/-- At the end of a body the server's buffer has that body. -/
theorem ends_typed (hi : p.Inv) (hg : p.dialogue.keepsStep .handle) (he : p.ends) :
    ∃ lines, p.typed[p.saved]? = some lines ∧ p.dialogue.session.dataBuffer = unlines (kept lines) ∧
      ∃ rest, p.dialogue.queue = (dot, .body true) :: rest ∧
        bodiesUnderWay [] rest = ((p.typed.drop (p.saved + 1)).map kept, []) := by
  obtain ⟨hdata, q, hq, hdot⟩ := he
  obtain ⟨cur, htext, -, hway⟩ := hi.under_way
  obtain ⟨rest, hqueue⟩ := List.head?_eq_some_iff.1 hq
  obtain ⟨line, role⟩ := q
  obtain rfl : line = dot := hdot
  have hmode := mode_of_inStep hi hqueue
  rw [hdata] at hmode
  rw [Dialogue.keepsStep, hqueue] at hg
  cases role with
  | command opens => cases hmode
  | body closes =>
    obtain rfl : closes = true := hg.1 rfl
    rw [hqueue, bodiesUnderWay] at hway
    obtain ⟨hbodies, hnil⟩ := Prod.mk.inj hway
    cases hdrop : p.typed.drop p.saved with
    | nil =>
      rw [hdrop] at hbodies
      cases hbodies
    | cons lines later =>
      rw [hdrop, List.map_cons] at hbodies
      obtain ⟨hcur, hlater⟩ := List.cons.inj hbodies
      have hget : p.typed[p.saved]? = some lines := by
        rw [← List.head?_drop, hdrop]
        rfl
      have htail : p.typed.drop (p.saved + 1) = later := by
        rw [← List.tail_drop, hdrop]
        rfl
      refine ⟨lines, hget, hcur ▸ htext hdata, rest, hqueue, ?_⟩
      rw [htail]
      exact Prod.ext hlater hnil

theorem inv_handle (hi : p.Inv) (hg : p.dialogue.keepsStep .handle) (h : p.dialogue.step host .handle = some x) :
    Posting.Inv { p with dialogue := x, saved := if p.ends then p.saved + 1 else p.saved } := by
  obtain ⟨hin, hinv⟩ := handle_inStep_iff hi.inv hi.inStep h
  have hin' := hin.2 hg
  obtain ⟨line, role, rest, o, hqueue, ho, rfl⟩ := handle_some h
  have hmode := mode_of_inStep hi hqueue
  obtain ⟨cur, htext, -, hway⟩ := hi.under_way
  by_cases he : p.ends
  · -- the end of a body
    obtain ⟨lines, hget, -, rest', hqueue', hlater⟩ := ends_typed hi hg he
    obtain ⟨hpair, rfl⟩ := List.cons.inj (hqueue.symm.trans hqueue')
    obtain ⟨rfl, rfl⟩ := Prod.mk.inj hpair
    rw [if_pos he]
    have hlt := (List.getElem?_eq_some_iff.1 hget).1
    have hclosed : o.session.isDataMode = false := by
      rw [handleLine, hmode, Role.isBody, if_pos rfl, handleDataContent, if_pos rfl] at ho
      cases ho
      rfl
    refine ⟨hin', hinv hin', hi.buffer, hlt, [], fun hdata => ?_, fun _ => rfl, hlater⟩
    rw [hclosed] at hdata
    cases hdata
  · rw [if_neg he]
    rw [hqueue] at hway
    cases role with
    | command opens =>
      have hsame := hmode
      rw [handleLine, hmode, Role.isBody, if_neg Bool.false_ne_true] at ho
      refine ⟨hin', hinv hin', hi.buffer, hi.saved_le, [], fun hdata => ?_, fun _ => rfl, hway⟩
      rcases processCommand_buffer hsame ho with ⟨-, -, hbuffer⟩ | ⟨-, hmode', -⟩
      · exact hbuffer
      · rw [hmode'] at hdata
        cases hdata
    | body closes =>
      have hdata : p.dialogue.session.isDataMode = true := hmode
      have hline : line ≠ dot := fun hdot => he ⟨hdata, (line, .body closes), by rw [hqueue]; rfl, hdot⟩
      rw [Dialogue.keepsStep, hqueue] at hg
      obtain rfl : closes = false := Bool.eq_false_iff.2 fun hc => hline (hg.2 hc)
      have hfits := hi.inv.fits
      rw [hqueue, taken, hdata, if_pos rfl] at hfits
      rw [handleLine, hdata, if_pos rfl, handleDataContent, if_neg hline, if_pos hfits.1] at ho
      cases ho
      refine ⟨hin', hinv hin', hi.buffer, hi.saved_le, cur ++ [line], fun _ => ?_, fun hno => ?_, hway⟩
      · change p.dialogue.session.dataBuffer ++ line ++ [newline] = _
        rw [htext hdata, unlines_append_line]
      · exact absurd (hdata.symm.trans hno) (by simp)

theorem posting_step (hi : p.Inv) (hg : p.dialogue.keepsStep a) (h : p.step host a = some p') : p'.Inv := by
  obtain ⟨x, hx, rfl⟩ := Option.map_eq_some_iff.1 h
  cases a with
  | type line =>
    cases hc : p.dialogue.client with
    | commanding => exact inv_type_command hi hg hc hx
    | body emailBody => exact inv_type_body hi hg hc hx
    | overflowed => exact absurd hc hi.inStep.1
  | handle => exact inv_handle hi hg hx
  | mailboxes files =>
    cases hx
    exact ⟨hi.inStep, ⟨hi.inv.linked, hi.inv.fits, hi.inv.lineEnd⟩, hi.buffer, hi.saved_le, hi.under_way⟩

/-! ## Every run -/

/-- The record of a session whose buffer has these lines. -/
theorem mailRecord_lines {s : Session} (hbuffer : s.dataBuffer = unlines lines) (date : Date) :
    mailRecord { s with isDataMode := false } date = record s.sender date lines := by
  have hline : text "\n" = [newline] := rfl
  have hsep : text "---\n" = separator ++ [newline] := rfl
  rw [mailRecord, record, hbuffer, hline, hsep]
  simp only [fromPrefix, datePrefix, List.append_assoc]

theorem posts_of_inv (hi : p.Inv) (hg : p.dialogue.keepsStep a) : p.posts host a := by
  rintro rfl he p' h
  obtain ⟨x, hx, rfl⟩ := Option.map_eq_some_iff.1 h
  obtain ⟨lines, hget, hbuffer, rest, hqueue, -⟩ := ends_typed hi hg he
  obtain ⟨line, role, rest', o, hqueue', ho, rfl⟩ := handle_some hx
  obtain ⟨hpair, -⟩ := List.cons.inj (hqueue'.symm.trans hqueue)
  obtain ⟨rfl, -⟩ := Prod.mk.inj hpair
  rw [handleLine, if_pos he.1, handleDataContent, if_pos rfl] at ho
  cases ho
  refine ⟨lines, hget, ?_⟩
  change (saveEmail host _ p.dialogue.disk).files = _
  rw [saveEmail_files, mailRecord_lines hbuffer]

theorem posting_begin (files : List UInt8 → Option (List UInt8)) : (Posting.begin files).Inv := by
  refine ⟨⟨fun hclient => ?_, rfl⟩, ⟨trivial, rfl, fun emailBody hclient => ?_⟩, fun emailBody hclient => ?_, Nat.le_refl 0, [],
    fun hdata => ?_, fun _ => rfl, rfl⟩
  · cases hclient
  · cases hclient
  · cases hclient
  · cases hdata

/-- When nothing is under way, all bodies typed are saved. -/
theorem Posting.Inv.all_saved (hi : p.Inv) (hqueue : p.dialogue.queue = []) : p.saved = p.typed.length := by
  obtain ⟨cur, -, -, hway⟩ := hi.under_way
  rw [hqueue] at hway
  have hnil : p.typed.drop p.saved = [] := List.map_eq_nil_iff.1 (Prod.mk.inj hway).1.symm
  exact Nat.le_antisymm hi.saved_le (List.drop_eq_nil_iff.1 hnil)

/-- Every run of a client and a server that are kept in step, over any host and any mailboxes that others change: each end of a body that
the server comes to appends the record of the body that was typed next, and when nothing is under way every body has been saved. -/
theorem posted_as_typed (files : List UInt8 → Option (List UInt8)) (acts : List Act)
    (hm : Meets (Posting.step host) (fun p => p.dialogue.keepsStep) (.begin files) acts) :
    Meets (Posting.step host) (Posting.posts host) (.begin files) acts ∧
      Always (Posting.step host) (fun p => p.saved ≤ p.typed.length ∧ (p.dialogue.queue = [] → p.saved = p.typed.length))
        (.begin files) acts := by
  have hposts : Meets (Posting.step host) (Posting.posts host) (.begin files) acts :=
    meets_of_invariant (fun _ _ _ hi hg h => posting_step hi hg h) (fun _ _ hi hg => posts_of_inv hi hg) (posting_begin files) hm
  refine ⟨hposts, ?_⟩
  have hall : Always (Posting.step host) Posting.Inv (.begin files) acts :=
    always_of_invariant (fun _ _ _ hi hg h => posting_step hi hg h) (posting_begin files) hm
  exact hall.imp fun p hi => ⟨hi.saved_le, hi.all_saved⟩

/-- Two messages, one with an empty line. -/
def twoMessages : List Act :=
  [.type (text "MAIL FROM: a@b"), .handle, .type (text "RCPT TO: c@d"), .handle, .type (text "DATA"), .handle, .type (text "Hi"),
    .type [], .type (text "."), .type (text "DATA"), .handle, .handle, .handle, .type (text "Bye"), .type (text "."), .handle, .handle]

/-- `posted_as_typed` on them. -/
theorem posted_as_typed_two : Meets (Posting.step newYear) (Posting.posts newYear) (.begin fun _ => none) twoMessages ∧
    Always (Posting.step newYear) (fun p => p.saved ≤ p.typed.length ∧ (p.dialogue.queue = [] → p.saved = p.typed.length))
      (.begin fun _ => none) twoMessages :=
  posted_as_typed _ _ (by decide +kernel)

end NetLabs.Mail
