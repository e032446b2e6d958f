import NetLabs.Mail.Accepted

/-!
# The buffers of LIST

`handle_list` copies the rest of a `From: ` line into `sender[100]` with `strcpy`, and a word of the next line into `date[20]` with `sscanf`.
`listCopies` are these copies. What a message brings of them depends on its body alone: its own header always fits.
-/

namespace NetLabs.Mail

open CText Lines Machine Function

/-- What is copied for a `From: ` line that `LIST` counts: the rest of the line, and the word that is scanned from the next one, if there
is one after `Date:`. -/
structure Copy where
  sender : List UInt8
  date : Option (List UInt8)
  deriving DecidableEq

/-- The word that `sscanf(line, "Date: %s", date)` finds. -/
def scannedDate (line : List UInt8) : Option (List UInt8) :=
  if startsWith line (text "Date:") then (scanWord (line.drop 5)).map Prod.fst else none

/-- The copies that `handle_list` makes over the lines of a file, `reading_header` being as given. -/
def listCopies : List (List UInt8) → Bool → List Copy
  | [], _ => []
  | line :: rest, readingHeader =>
    if startsWith line fromPrefix && !readingHeader then
      match rest with
      | [] => [⟨line.drop 6, none⟩]
      | next :: rest' => ⟨line.drop 6, scannedDate next⟩ :: listCopies rest' (next != separator)
    else listCopies rest (readingHeader && line != separator)

/-- The date line of a header: its word fits into `date[20]` with its NUL. -/
def SetsDate (line : List UInt8) : Prop := ∃ word, scannedDate line = some word ∧ word.length < 20

/-- A copy fits: the sender with its NUL into `sender[100]`, and a date that was scanned for it into `date[20]`. -/
def Copy.Fits (c : Copy) : Prop := c.sender.length < 100 ∧ ∃ word, c.date = some word ∧ word.length < 20

/-- `LIST` stays within its buffers on a mailbox file, and prints no date but the message's own. -/
def ListFits (content : List UInt8) : Prop := ∀ c ∈ listCopies (fileLines 1023 content) false, c.Fits

/-- A place in a body where `LIST` looks for a header again: after a separator, with no `From: ` line since. -/
def Reopened (pre : List (List UInt8)) : Prop := ∃ a b, pre = a ++ separator :: b ∧ ∀ l ∈ b, isHeader l = false

/-- Where a body makes `LIST` look for a header again, a `From: ` line in it fits, and the next line of the body sets a date. -/
def BodyListFits (body : List (List UInt8)) : Prop :=
  ∀ pre line post, body = pre ++ line :: post → isHeader line = true → Reopened pre →
    (line.drop 6).length < 100 ∧ ∃ next ∈ post.head?, SetsDate next

variable {host : Host} {x : Service} {line next name content : List UInt8} {lines rest body tail pre : List (List UInt8)} {reading : Bool}
  {n : Nat} {date : Option (List UInt8)} {entries : List Entry} {ps : List (Session × Date)} {p : Session × Date}

/-! ## The copies of a message -/

/-- No copy is made for a line that is no header, nor for a header while a separator is missing. -/
theorem listCopies_skip (h : isHeader line = false ∨ reading = true) :
    listCopies (line :: rest) reading = listCopies rest (reading && line != separator) := by
  conv_lhs => unfold listCopies
  rw [listTest_skip h, if_neg Bool.false_ne_true]

/-- The copy for a header, with the line after it. -/
theorem listCopies_header (h : isHeader line = true) :
    listCopies (line :: next :: rest) false = ⟨line.drop 6, scannedDate next⟩ :: listCopies rest (next != separator) := by
  conv_lhs => unfold listCopies
  rw [if_pos (listTest_header h)]

/-- A date line is neither a header nor the separator. -/
theorem SetsDate.other (h : SetsDate line) : isHeader line = false ∧ (line != separator) = true := by
  obtain ⟨word, hword, -⟩ := h
  rw [scannedDate] at hword
  split at hword
  · rename_i hstart
    refine ⟨not_startsWith_both hstart (by decide) (by decide) (by decide), ?_⟩
    rw [bne_iff_ne]
    rintro rfl
    exact absurd hstart (by decide)
  · cases hword

theorem not_setsDate_separator : ¬SetsDate separator := fun h => absurd h.other.2 (by decide)

/-- From here on in a body, `reading` being as given, every header `LIST` counts fits and sets a date. -/
def RestFits : Bool → List (List UInt8) → Prop
  | _, [] => True
  | reading, line :: rest =>
    if isHeader line then (reading = false → (line.drop 6).length < 100 ∧ ∃ next ∈ rest.head?, SetsDate next) ∧ RestFits true rest
    else RestFits (reading && line != separator) rest

/-- The copies of a body and what comes after its separator. -/
theorem listCopies_body (reading : Bool) (body tail : List (List UInt8)) :
    (∀ c ∈ listCopies (body ++ separator :: tail) reading, c.Fits) ↔
      RestFits reading body ∧ ∀ c ∈ listCopies tail false, c.Fits := by
  induction hlen : body.length using Nat.strong_induction_on generalizing body reading with
  | _ k ih =>
    cases body with
    | nil =>
      have hsep : listCopies (separator :: tail) reading = listCopies tail false := by
        rw [listCopies_skip (Or.inl (by decide))]
        simp
      rw [List.nil_append, hsep]
      exact (and_iff_right trivial).symm
    | cons line rest =>
      rw [List.length_cons] at hlen
      rw [List.cons_append, RestFits]
      by_cases hskip : isHeader line = false ∨ reading = true
      · rw [listCopies_skip hskip, ih rest.length (by omega) _ rest rfl]
        cases hl : isHeader line with
        | false => rfl
        | true =>
          obtain rfl : reading = true := hskip.resolve_left (by simp [hl])
          have hne : (line != separator) = true := by
            rw [bne_iff_ne]
            exact ne_separator_of_isHeader hl
          simp [hne]
      · simp only [not_or, Bool.not_eq_false, Bool.not_eq_true] at hskip
        obtain ⟨hl, rfl⟩ := hskip
        rw [if_pos hl]
        cases rest with
        | nil =>
          -- the line after the header is the separator of the message: no date
          rw [List.nil_append, listCopies_header hl]
          refine iff_of_false ?_ ?_
          · intro hall
            obtain ⟨-, hdate⟩ := hall _ List.mem_cons_self
            exact not_setsDate_separator hdate
          · rintro ⟨⟨hfits, -⟩, -⟩
            obtain ⟨-, next, hnext, -⟩ := hfits rfl
            cases hnext
        | cons next rest =>
          rw [List.cons_append, listCopies_header hl, List.forall_mem_cons, List.head?_cons]
          simp only [Option.mem_def, Option.some.injEq, exists_eq_left', forall_const]
          have hcopy : (Copy.mk (line.drop 6) (scannedDate next)).Fits ↔ (line.drop 6).length < 100 ∧ SetsDate next := Iff.rfl
          rw [hcopy]
          by_cases hdate : SetsDate next
          · obtain ⟨hnext, hne⟩ := hdate.other
            have hrest : RestFits true (next :: rest) ↔ RestFits true rest := by
              rw [RestFits, hnext, hne]
              rfl
            rw [List.length_cons] at hlen
            rw [hne, ih rest.length (by omega) _ rest rfl, hrest]
            simp only [and_assoc]
          · exact iff_of_false (fun h => hdate h.1.2) fun h => hdate h.1.1.2

/-- A line before a place where `LIST` looks for a header again. -/
theorem reopened_cons : Reopened (line :: pre) ↔ (line = separator ∧ ∀ l ∈ pre, isHeader l = false) ∨ Reopened pre := by
  constructor
  · rintro ⟨a, b, heq, hb⟩
    cases a with
    | nil =>
      obtain ⟨rfl, rfl⟩ := List.cons.inj heq
      exact Or.inl ⟨rfl, hb⟩
    | cons c a =>
      obtain ⟨rfl, rfl⟩ := List.cons.inj heq
      exact Or.inr ⟨a, b, rfl, hb⟩
  · rintro (⟨rfl, hpre⟩ | ⟨a, b, rfl, hb⟩)
    · exact ⟨[], pre, rfl, hpre⟩
    · exact ⟨line :: a, b, rfl, hb⟩

theorem not_reopened_nil : ¬Reopened [] := by
  rintro ⟨a, b, h, -⟩
  simp at h

/-- The same with the places of a body where `LIST` looks for a header again. -/
theorem restFits_iff : RestFits reading body ↔ ∀ pre line post, body = pre ++ line :: post → isHeader line = true →
    (reading = false ∧ (∀ l ∈ pre, isHeader l = false) ∨ Reopened pre) →
    (line.drop 6).length < 100 ∧ ∃ next ∈ post.head?, SetsDate next := by
  induction body generalizing reading with
  | nil => simp [RestFits]
  | cons line rest ih =>
    rw [forall_place_cons (P := fun pre line post => isHeader line = true →
      (reading = false ∧ (∀ l ∈ pre, isHeader l = false) ∨ Reopened pre) →
      (line.drop 6).length < 100 ∧ ∃ next ∈ post.head?, SetsDate next), RestFits]
    cases hl : isHeader line with
    | true =>
      have hne := ne_separator_of_isHeader hl
      rw [if_pos rfl, ih]
      simp [hl, not_reopened_nil, reopened_cons, hne]
    | false =>
      have hflag : ∀ pre, (reading = false ∧ (∀ l ∈ line :: pre, isHeader l = false) ∨ Reopened (line :: pre)) ↔
          ((reading && line != separator) = false ∧ (∀ l ∈ pre, isHeader l = false) ∨ Reopened pre) := by
        intro pre
        rw [reopened_cons, List.forall_mem_cons, hl]
        by_cases hsep : line = separator
        · simp only [hsep, bne_self_eq_false, Bool.and_false, true_and]
          tauto
        · have hne : (line != separator) = true := by simpa using hsep
          simp only [hsep, hne, Bool.and_true, true_and, false_and, false_or]
      rw [if_neg Bool.false_ne_true, ih]
      simp only [hflag, Bool.false_eq_true, false_imp_iff, true_and]

/-! ## The copies of a mailbox -/

/-- A body fits where `LIST` reads it after the header of its message. -/
theorem bodyListFits_iff : BodyListFits body ↔ RestFits true body := by
  rw [restFits_iff]
  simp only [Bool.true_eq_false, false_and, false_or]
  rfl

/-- The header of a message fits. -/
theorem copy_fits_header (hs : SessionOk p.1) : (Copy.mk ((fromLine p.1).drop 6) (scannedDate (dateLine p.2))).Fits := by
  have hlen : fromPrefix.length = 6 := by decide
  have hdrop : (fromLine p.1).drop 6 = p.1.sender := by rw [fromLine, ← hlen, List.drop_left]
  have hfits := hs.sender.fits
  refine ⟨?_, p.2.text, ?_, Nat.lt_succ_of_le p.2.fits⟩
  · rw [hdrop]
    exact Nat.lt_succ_of_le hfits
  · have hscan : scanDate (dateLine p.2) none = .ok (some p.2.text) := scanDate_dateLine p.2
    rw [scanDate] at hscan
    rw [scannedDate]
    split at hscan
    · rename_i hstart
      rw [if_pos hstart]
      split at hscan
      · cases hscan
      · rename_i word rest hword
        rw [hword]
        split at hscan
        · cases hscan
        · exact Except.ok.inj hscan
    · cases hscan

/-- `LIST` stays within its buffers on some messages when it does on the body of each. -/
theorem listCopies_messages (hps : ∀ p ∈ ps, SessionOk p.1) :
    (∀ c ∈ listCopies (ps.flatMap seen) false, c.Fits) ↔ ∀ p ∈ ps, BodyListFits (bodyLinesSeen p.1) := by
  induction ps with
  | nil => simp [listCopies]
  | cons p ps ih =>
    rw [List.forall_mem_cons] at hps
    have hdate : (dateLine p.2 != separator) = true := by
      rw [bne_iff_ne]
      exact dateLine_ne_separator p.2
    have hsplit : (p :: ps).flatMap seen =
        fromLine p.1 :: dateLine p.2 :: (bodyLinesSeen p.1 ++ separator :: ps.flatMap seen) := by simp [seen]
    rw [hsplit, listCopies_header (isHeader_fromLine p.1), List.forall_mem_cons, hdate, listCopies_body, ih hps.2, List.forall_mem_cons,
      bodyListFits_iff]
    exact and_iff_right (copy_fits_header hps.1)

/-- `date` after the line that follows a header, where that sets it. -/
theorem scanDate_of_scanned {word : List UInt8} (h : scannedDate line = some word) (hlen : word.length < 20) :
    scanDate line date = .ok (some word) := by
  rw [scannedDate] at h
  split at h
  · rename_i hstart
    obtain ⟨wr, hscan, rfl⟩ := Option.map_eq_some_iff.1 h
    obtain ⟨w, r⟩ := wr
    rw [scanDate, if_pos hstart, hscan]
    exact if_neg (by dsimp only at hlen; omega)
  · cases h

/-- Where all copies fit, `LIST` prints for each the sender and the date that were copied for it, unless its counter leaves the range of an
`int`. -/
theorem listScan_of_fits (h : ∀ c ∈ listCopies lines reading, c.Fits) :
    listScan lines n reading date = .error .counterOverflow ∨
      ∃ entries, listScan lines n reading date = .ok entries ∧
        entries.map (fun e => Copy.mk e.sender (some e.date)) = listCopies lines reading := by
  induction hlen : lines.length using Nat.strong_induction_on generalizing lines reading n date with
  | _ k ih =>
    cases lines with
    | nil => exact Or.inr ⟨[], rfl, rfl⟩
    | cons line rest =>
      rw [List.length_cons] at hlen
      by_cases hskip : isHeader line = false ∨ reading = true
      · rw [listCopies_skip hskip] at h ⊢
        rw [listScan_skip hskip]
        exact ih rest.length (by omega) h rfl
      · simp only [not_or, Bool.not_eq_false, Bool.not_eq_true] at hskip
        obtain ⟨hl, rfl⟩ := hskip
        rw [listScan_header hl]
        by_cases hcount : 2147483648 ≤ n + 1
        · exact Or.inl (if_pos hcount)
        · rw [if_neg hcount]
          cases rest with
          | nil =>
            -- there is no line to take the date from
            have hcopies : listCopies [line] false = [⟨line.drop 6, none⟩] := by rw [listCopies, if_pos (listTest_header hl)]
            rw [hcopies] at h
            obtain ⟨-, word, hword, -⟩ := h _ List.mem_cons_self
            cases hword
          | cons next rest =>
            rw [listCopies_header hl, List.forall_mem_cons] at h
            obtain ⟨⟨hsender, word, hword, hdate⟩, hrest⟩ := h
            dsimp only at hsender hword
            rw [List.length_cons] at hlen
            rw [if_neg (by omega), listCopies_header hl]
            simp only [scanDate_of_scanned hword hdate]
            rcases @ih rest.length (by omega) rest (next != separator) (n + 1) (some word) hrest rfl with
              hover | ⟨entries, hentries, hmap⟩
            · exact Or.inl (by rw [hover])
            · refine Or.inr ⟨⟨n + 1, line.drop 6, word⟩ :: entries, by rw [hentries], ?_⟩
              rw [List.map_cons, hmap, hword]

/-- The bodies of the messages of a mailbox decide. -/
theorem listFits_of_inv (hi : x.Inv) (name : List UInt8) : (∀ content, x.disk.files name = some content → ListFits content) ↔
    ∀ p ∈ x.accepted name, BodyListFits (bodyLinesSeen p.1) := by
  have hok := hi.accepted name
  rw [← listCopies_messages hok, ← fileLines_accepted hok, hi.files]
  by_cases hnil : x.accepted name = []
  · rw [if_pos hnil, hnil]
    exact iff_of_true (by simp) (by simp [mailboxText, listCopies])
  · rw [if_neg hnil]
    exact ⟨fun h => h _ rfl, fun h content hc => by rw [← Option.some.inj hc]; exact h⟩

/-- LIST stays within its buffers. In every state that the server reaches, from any clients, lines and dates, and for every address: every
sender and every date that `LIST` copies from its mailbox fits with its NUL, and each date it prints was set for that message, if and only
if in the body of every message of the mailbox, each `From: ` line that is the first since a separator of that body is followed there by
fewer than 100 bytes and by a line with a date of fewer than 20. -/
theorem list_fits_iff {arrivals : List Arrival} (hx : exec (Service.step host) .begin arrivals = some x) (args : List UInt8) :
    (∀ content, x.disk.files (mailboxName args) = some content → ListFits content) ↔
      ∀ p ∈ x.accepted (mailboxName args), BodyListFits (bodyLinesSeen p.1) :=
  listFits_of_inv (service_inv hx) (mailboxName args)

/-- `list_fits_iff` on a message of one line. -/
theorem list_fits_hi : ∃ x, exec (Service.step newYear) .begin (writes [text "Hi"]) = some x ∧
    ((∀ content, x.disk.files (mailboxName (text "c@d")) = some content → ListFits content) ↔
      ∀ p ∈ x.accepted (mailboxName (text "c@d")), BodyListFits (bodyLinesSeen p.1)) := by
  obtain ⟨x, hx, -⟩ := exec_writes [text "Hi"] (by decide) (by decide)
  exact ⟨x, hx, list_fits_iff hx (text "c@d")⟩

/-- A body with a separator and, after it, a `From: ` line of 106 bytes. -/
def forgedBody : List (List UInt8) := [separator, fromPrefix ++ List.replicate 100 98, text "Date: 1"]

/-- It is accepted, and `LIST` copies 100 bytes and a NUL into `sender[100]`. -/
theorem forged_header_overflows : ∃ x, exec (Service.step newYear) .begin (writes forgedBody) = some x ∧
    ¬∀ content, x.disk.files (mailboxName (text "c@d")) = some content → ListFits content := by
  obtain ⟨x, hx, haccepted⟩ := exec_writes forgedBody (by decide) (by decide)
  refine ⟨x, hx, ?_⟩
  rw [listFits_of_inv (service_inv hx), haccepted]
  intro hfits
  have hbody : bodyLinesSeen (letter (unlines forgedBody)) = forgedBody := by decide +kernel
  have hforged := hfits _ (List.mem_singleton_self _)
  rw [hbody] at hforged
  have hheader := (hforged [separator] _ [text "Date: 1"] rfl (by decide) ⟨[], [], rfl, by simp⟩).1
  exact absurd hheader (by decide)

end NetLabs.Mail
