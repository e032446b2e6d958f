import NetLabs.Mail.Server

/-!
# The two scanners of a mailbox file

`GET_MAIL` counts every line that starts with `From: ` up to the one it looks for; `LIST` counts such a line only when no separator is
missing since the last one it has counted, and never the line after it. Both are described here by the `From: ` lines of the file:
`getMailScan_eq_some_iff` for the first, `listScan_complete` and `Scanned` for the second.
-/

namespace NetLabs.Mail

open CText Lines

/-- A line that starts with `From: `. -/
def isHeader (line : List UInt8) : Bool := startsWith line fromPrefix

/-- The `From: ` lines of a file. -/
def headers (lines : List (List UInt8)) : List (List UInt8) := lines.filter isHeader

variable {line next : List UInt8} {lines pre post found : List (List UInt8)} {entries : List Entry} {id n : Nat} {reading : Bool}
  {date : Option (List UInt8)}

/-- A header is `From: ` and the rest of the line. -/
theorem header_eq (h : isHeader line = true) : line = fromPrefix ++ line.drop 6 := by
  obtain ⟨t, rfl⟩ := startsWith_iff.1 h
  have hlen : fromPrefix.length = 6 := by decide
  rw [← hlen, List.drop_left]

/-- The separator is no header. -/
theorem ne_separator_of_isHeader (h : isHeader line = true) : line ≠ separator := by
  rintro rfl
  exact absurd h (by decide)

/-! ## The head of a message -/

/-- A sender as `handle_mail_from` leaves it: `sender[100]` holds it, and it is part of a line. -/
structure SenderOk (s : Session) : Prop where
  plain : Plain s.sender
  fits : s.sender.length ≤ 99

/-- The `From: ` line of a message. -/
def fromLine (s : Session) : List UInt8 := fromPrefix ++ s.sender

/-- The `Date: ` line of a message. -/
def dateLine (date : Date) : List UInt8 := datePrefix ++ date.text

theorem isHeader_fromLine (s : Session) : isHeader (fromLine s) = true := startsWith_iff.2 (List.prefix_append _ _)

theorem isHeader_dateLine (d : Date) : isHeader (dateLine d) = false :=
  not_startsWith_both (startsWith_iff.2 (List.prefix_append _ _)) (p := datePrefix) (by decide) (by decide) (by decide)

/-- A date line is not the separator. -/
theorem dateLine_ne_separator (d : Date) : dateLine d ≠ separator := by
  intro h
  have := congrArg List.head? h
  exact absurd this (by simp [dateLine, datePrefix, separator, text])

theorem plain_date (d : Date) : Plain d.text := by
  constructor
  · intro hm
    rcases d.shape _ hm with h | h <;> revert h <;> decide
  · intro hm
    rcases d.shape _ hm with h | h <;> revert h <;> decide

/-- No character of a date is a blank. -/
theorem not_isSpace_of_mem_date {d : Date} {b : UInt8} (h : b ∈ d.text) : isSpace b = false := by
  rcases d.shape b h with hb | rfl
  · exact not_isSpace_of_isDigit hb
  · rfl

/-- `LIST` reads the date of a message, whatever was in `date`. -/
theorem scanDate_dateLine (d : Date) : scanDate (dateLine d) date = .ok (some d.text) := by
  have hstart : startsWith (dateLine d) (text "Date:") = true :=
    startsWith_iff.2 ⟨[32] ++ d.text, by rw [← List.append_assoc]; rfl⟩
  have hdrop : (dateLine d).drop 5 = 32 :: (d.text ++ []) := by
    rw [List.append_nil]
    rfl
  have hscan : scanWord ((dateLine d).drop 5) = some (d.text, []) := by
    rw [hdrop, scanWord_space rfl, scanWord_append d.ne_nil (fun b hb => not_isSpace_of_mem_date hb) (by simp)]
  have hfits : ¬19 < d.text.length := by
    have := d.fits
    omega
  rw [scanDate, if_pos hstart, hscan]
  simp only [hfits, if_false]

theorem plain_fromLine {s : Session} (h : SenderOk s) : Plain (fromLine s) := plain_append (by unfold Plain; decide) h.plain

theorem plain_dateLine (d : Date) : Plain (dateLine d) := plain_append (by unfold Plain; decide) (plain_date d)

/-- What the scanners see of a message and what comes after it. -/
theorem fileLines_record {s : Session} (h : SenderOk s) (d : Date) (tail : List UInt8) :
    fileLines 1023 (mailRecord s d ++ tail) =
      fromLine s :: dateLine d :: fileLines 1023 (s.dataBuffer ++ (separator ++ newline :: tail)) := by
  have hfromLen : (fromLine s).length < 1023 := by
    have hp : fromPrefix.length = 6 := by decide
    have := h.fits
    rw [fromLine, List.length_append]
    omega
  have hdateLen : (dateLine d).length < 1023 := by
    have hp : datePrefix.length = 6 := by decide
    have := d.fits
    rw [dateLine, List.length_append]
    omega
  have hsplit : mailRecord s d ++ tail =
      fromLine s ++ newline :: (dateLine d ++ newline :: (s.dataBuffer ++ (separator ++ newline :: tail))) := by
    simp [mailRecord, fromLine, dateLine]
  rw [hsplit, fileLines_line (plain_fromLine h) (by omega) (by omega),
    fileLines_line (plain_dateLine d) (by omega) (by omega), pieces, pieces, if_neg (by omega), if_neg (by omega)]
  rfl

/-! ## GET_MAIL -/

/-- `GET_MAIL` finds the header that is the `id`-th one, and the lines after it up to the separator. -/
theorem getMailScan_eq_some_iff : getMailScan id lines n = some found ↔
    ∃ pre line post, lines = pre ++ line :: post ∧ isHeader line = true ∧ n + pre.countP isHeader + 1 = id ∧
      found = line :: post.takeWhile (· != separator) := by
  induction lines generalizing n with
  | nil => simp [getMailScan]
  | cons l lines ih =>
    rw [exists_place_cons (P := fun pre line post => isHeader line = true ∧ n + pre.countP isHeader + 1 = id ∧
      found = line :: post.takeWhile (· != separator)), getMailScan]
    by_cases hl : startsWith l fromPrefix = true
    · have hcount : ∀ pre : List (List UInt8), (l :: pre).countP isHeader = pre.countP isHeader + 1 :=
        fun pre => List.countP_cons_of_pos hl
      rw [if_pos hl]
      by_cases hid : n + 1 = id
      · rw [if_pos hid]
        constructor
        · intro h
          exact Or.inl ⟨hl, by simpa using hid, (Option.some.inj h).symm⟩
        · rintro (⟨_, _, rfl⟩ | ⟨pre, line, post, _, _, hcnt, _⟩)
          · rfl
          · rw [hcount] at hcnt
            omega
      · rw [if_neg hid, ih]
        simp only [hcount, List.countP_nil, Nat.add_zero, hid, false_and, and_false, false_or]
        have hshift : ∀ k, n + 1 + k + 1 = n + (k + 1) + 1 := by intro k; omega
        simp only [hshift]
    · have hcount : ∀ pre : List (List UInt8), (l :: pre).countP isHeader = pre.countP isHeader :=
        fun pre => List.countP_cons_of_neg hl
      have hnot : isHeader l = false := (Bool.not_eq_true _).mp hl
      rw [if_neg hl, ih]
      simp only [hcount, hnot, Bool.false_eq_true, false_and, false_or]

/-- `GET_MAIL` finds nothing under the numbers beyond the headers, and under 0. -/
theorem getMailScan_eq_none_iff : getMailScan id lines 0 = none ↔ id = 0 ∨ lines.countP isHeader < id := by
  rw [← not_iff_not, ← ne_eq, Option.ne_none_iff_exists']
  simp only [getMailScan_eq_some_iff]
  constructor
  · rintro ⟨_, pre, line, post, rfl, hl, rfl, rfl⟩
    rw [List.countP_append, List.countP_cons_of_pos hl]
    omega
  · intro h
    obtain ⟨pre, line, post, rfl, hl, hcount⟩ := exists_place_of_lt_countP (p := isHeader) (s := lines) (i := id - 1) (by omega)
    exact ⟨_, pre, line, post, rfl, hl, by omega, rfl⟩

/-- The text of a message is no `401`. -/
theorem mailResponse_ne_notFound (lines : List (List UInt8)) : mailResponse lines ≠ notFound := by
  intro h
  have := congrArg (List.take 1) h
  rw [mailResponse, List.take_append_of_le_length (by decide)] at this
  exact absurd this (by decide)

/-! ## LIST -/

/-- The word `LIST` scans from the line after a header fits into `date`. -/
def DateFits (line : List UInt8) : Prop :=
  ∀ word rest, startsWith line (text "Date:") = true → scanWord (line.drop 5) = some (word, rest) → word.length ≤ 19

/-- A header whose sender fits into `sender`, before a line whose date fits. -/
structure HeaderFits (line : List UInt8) (post : List (List UInt8)) : Prop where
  sender : (line.drop 6).length ≤ 99
  date : ∀ next ∈ post.head?, DateFits next

/-- From here on, every header comes when no separator is missing (`reading` says that one is), and fits. -/
def Numbered : Bool → List (List UInt8) → Prop
  | _, [] => True
  | reading, line :: rest =>
    if isHeader line then reading = false ∧ HeaderFits line rest ∧ Numbered true rest
    else Numbered (reading && line != separator) rest

/-- The entries that number all headers from `n + 1` on. -/
structure Numbers (entries : List Entry) (lines : List (List UInt8)) (n : Nat) : Prop where
  ids : entries.map Entry.emailId = List.range' (n + 1) (lines.countP isHeader)
  senders : entries.map Entry.sender = (headers lines).map (List.drop 6)

/-- The date is scanned unless the word is too long. -/
theorem scanDate_ok (h : DateFits line) (word : List UInt8) : ∃ word', scanDate line (some word) = .ok (some word') := by
  unfold scanDate
  split
  · rename_i hstart
    cases hscan : scanWord (line.drop 5) with
    | none => exact ⟨word, rfl⟩
    | some wr =>
      obtain ⟨w, r⟩ := wr
      have hle := h w r hstart hscan
      exact ⟨w, if_neg (by omega)⟩
  · exact ⟨word, rfl⟩

theorem dateFits_of_ok {o : Option (List UInt8)} (h : scanDate line date = .ok o) : DateFits line := by
  intro word rest hstart hscan
  rw [scanDate, if_pos hstart, hscan] at h
  simp only at h
  split at h
  · cases h
  · omega

theorem numbers_nil : Numbers [] [] n := ⟨rfl, rfl⟩

/-- The list of one entry and the entries of the rest. -/
theorem Numbers.cons {w : List UInt8} (hl : isHeader line = true) (h : Numbers entries lines (n + 1)) :
    Numbers (⟨n + 1, line.drop 6, w⟩ :: entries) (line :: lines) n := by
  constructor
  · rw [List.map_cons, h.ids, List.countP_cons_of_pos hl, List.range'_succ]
  · have hfilter : headers (line :: lines) = line :: headers lines := List.filter_cons_of_pos hl
    rw [List.map_cons, h.senders, hfilter, List.map_cons]

/-- A line that is no header is not numbered. -/
theorem Numbers.skip (hl : isHeader line = false) (h : Numbers entries lines n) : Numbers entries (line :: lines) n := by
  have hneg : ¬isHeader line = true := by simp [hl]
  constructor
  · rw [h.ids, List.countP_cons_of_neg hneg]
  · rw [h.senders, headers, headers, List.filter_cons_of_neg hneg]

/-- The test of `LIST` fails on a line that is no header, and on a header while a separator is missing. -/
theorem listTest_skip (h : isHeader line = false ∨ reading = true) : (startsWith line fromPrefix && !reading) = false := by
  change (isHeader line && !reading) = false
  rcases h with h | h <;> simp [h]

/-- It succeeds on any other header. -/
theorem listTest_header (h : isHeader line = true) : (startsWith line fromPrefix && !false) = true := by
  rw [Bool.not_false, Bool.and_true]
  exact h

/-- `LIST` passes over a line that is no header, and over a header while a separator is missing. -/
theorem listScan_skip (h : isHeader line = false ∨ reading = true) :
    listScan (line :: lines) n reading date = listScan lines n (reading && line != separator) date := by
  conv_lhs => unfold listScan
  simp only [listTest_skip h, Bool.false_eq_true, if_false]

/-- `LIST` counts a header. -/
theorem listScan_header (h : isHeader line = true) :
    listScan (line :: lines) n false date =
      if 2147483648 ≤ n + 1 then .error .counterOverflow
      else if 99 < (line.drop 6).length then .error .senderOverflow
      else
        match lines with
        | [] =>
          match date with
          | none => .error .dateUnset
          | some word => .ok [⟨n + 1, line.drop 6, word⟩]
        | next :: rest' =>
          match scanDate next date with
          | .error x => .error x
          | .ok none => .error .dateUnset
          | .ok (some word) =>
            match listScan rest' (n + 1) (next != separator) (some word) with
            | .error x => .error x
            | .ok entries => .ok (⟨n + 1, line.drop 6, word⟩ :: entries) := by
  conv_lhs => unfold listScan
  rw [listTest_header h]
  exact if_pos rfl

/-- Once a date has been set, `LIST` numbers all headers where each comes when no separator is missing and fits. -/
theorem listScan_complete {word : List UInt8} (h : Numbered reading lines) (hn : n + lines.countP isHeader < 2147483648) :
    ∃ entries, listScan lines n reading (some word) = .ok entries ∧ Numbers entries lines n := by
  induction hlen : lines.length using Nat.strong_induction_on generalizing lines n reading word with
  | _ k ih =>
    cases lines with
    | nil => exact ⟨[], rfl, rfl, rfl⟩
    | cons line rest =>
      rw [List.length_cons] at hlen
      rw [Numbered] at h
      cases hl : isHeader line with
      | false =>
        rw [hl, if_neg Bool.false_ne_true] at h
        rw [List.countP_cons_of_neg (by simp [hl])] at hn
        obtain ⟨entries, hentries, hnum⟩ := @ih rest.length (by omega) rest n (reading && line != separator) word h hn rfl
        exact ⟨entries, (listScan_skip (Or.inl hl)).trans hentries, hnum.skip hl⟩
      | true =>
        rw [hl, if_pos rfl] at h
        obtain ⟨rfl, hfits, hrest⟩ := h
        rw [List.countP_cons_of_pos hl] at hn
        have hbound : ¬2147483648 ≤ n + 1 := by omega
        have hsender : ¬99 < (line.drop 6).length := by
          have := hfits.sender
          omega
        cases rest with
        | nil =>
          refine ⟨[⟨n + 1, line.drop 6, word⟩], ?_, Numbers.cons hl numbers_nil⟩
          rw [listScan_header hl, if_neg hbound, if_neg hsender]
        | cons next rest =>
          have hnext : isHeader next = false := by
            rw [Numbered] at hrest
            cases hn : isHeader next with
            | false => rfl
            | true =>
              rw [hn, if_pos rfl] at hrest
              cases hrest.1
          rw [Numbered, hnext, if_neg Bool.false_ne_true, Bool.true_and] at hrest
          rw [List.countP_cons_of_neg (by simp [hnext])] at hn
          obtain ⟨word', hword'⟩ := scanDate_ok (hfits.date next rfl) word
          obtain ⟨entries, hentries, hnum⟩ :=
            @ih rest.length (by rw [List.length_cons] at hlen; omega) rest (n + 1) (next != separator) word' hrest (by omega) rfl
          refine ⟨⟨n + 1, line.drop 6, word'⟩ :: entries, ?_, Numbers.cons hl (hnum.skip hnext)⟩
          rw [listScan_header hl, if_neg hbound, if_neg hsender]
          simp only [hword', hentries]

/-- The ways in which `LIST` comes to its end. -/
inductive Scanned : List (List UInt8) → Nat → Bool → Option (List UInt8) → List Entry → Prop where
  | done {n : Nat} {reading : Bool} {date : Option (List UInt8)} : Scanned [] n reading date []
  | skip {line : List UInt8} {lines : List (List UInt8)} {n : Nat} {reading : Bool} {date : Option (List UInt8)}
      {entries : List Entry} (h : isHeader line = false ∨ reading = true)
      (hrest : Scanned lines n (reading && line != separator) date entries) : Scanned (line :: lines) n reading date entries
  | last {line : List UInt8} {n : Nat} {word : List UInt8} (hl : isHeader line = true) (hbound : n + 1 < 2147483648)
      (hsender : (line.drop 6).length ≤ 99) : Scanned [line] n false (some word) [⟨n + 1, line.drop 6, word⟩]
  | header {line next : List UInt8} {lines : List (List UInt8)} {n : Nat} {date : Option (List UInt8)} {word : List UInt8}
      {entries : List Entry} (hl : isHeader line = true) (hbound : n + 1 < 2147483648) (hsender : (line.drop 6).length ≤ 99)
      (hscan : scanDate next date = .ok (some word)) (hrest : Scanned lines (n + 1) (next != separator) (some word) entries) :
      Scanned (line :: next :: lines) n false date (⟨n + 1, line.drop 6, word⟩ :: entries)

theorem listScan_scanned (h : listScan lines n reading date = .ok entries) : Scanned lines n reading date entries := by
  induction hlen : lines.length using Nat.strong_induction_on generalizing lines n reading date entries with
  | _ k ih =>
    cases lines with
    | nil =>
      obtain rfl := Except.ok.inj h
      exact .done
    | cons line rest =>
      rw [List.length_cons] at hlen
      by_cases hskip : isHeader line = false ∨ reading = true
      · rw [listScan_skip hskip] at h
        exact .skip hskip (ih rest.length (by omega) h rfl)
      · simp only [not_or, Bool.not_eq_false, Bool.not_eq_true] at hskip
        obtain ⟨hl, rfl⟩ := hskip
        rw [listScan_header hl] at h
        split at h
        · contradiction
        · split at h
          · contradiction
          · rename_i hbound hsender
            cases rest with
            | nil =>
              simp only at h
              split at h
              · contradiction
              · obtain rfl := Except.ok.inj h
                exact .last hl (by omega) (by omega)
            | cons next rest =>
              rw [List.length_cons] at hlen
              simp only at h
              split at h
              · contradiction
              · contradiction
              · rename_i word hscan
                split at h
                · contradiction
                · rename_i entries' hentries
                  obtain rfl := Except.ok.inj h
                  exact .header hl (by omega) (by omega) hscan (ih rest.length (by omega) hentries rfl)

/-- When `LIST` comes to its end, it has numbered the messages it reports without gaps, in the range of an `int`, and there are no
more of them than headers. -/
theorem Scanned.numbers (h : Scanned lines n reading date entries) :
    entries.length ≤ lines.countP isHeader ∧ (entries ≠ [] → n + entries.length < 2147483648) ∧
      entries.map Entry.emailId = List.range' (n + 1) entries.length := by
  induction h with
  | done => exact ⟨Nat.le_refl _, by simp, rfl⟩
  | @skip line lines n reading date entries _ hrest ih =>
    obtain ⟨hle, hbound, hids⟩ := ih
    have hmono : lines.countP isHeader ≤ (line :: lines).countP isHeader := by
      rw [List.countP_cons]
      omega
    exact ⟨Nat.le_trans hle hmono, hbound, hids⟩
  | last hl hbound hsender => exact ⟨by simp [hl], fun _ => hbound, rfl⟩
  | @header line next lines n date word entries hl hbound hsender hscan hrest ih =>
    obtain ⟨hle, hbound', hids⟩ := ih
    have hmono : lines.countP isHeader ≤ (next :: lines).countP isHeader := by
      rw [List.countP_cons]
      omega
    refine ⟨?_, fun _ => ?_, ?_⟩
    · rw [List.length_cons, List.countP_cons_of_pos hl]
      omega
    · rw [List.length_cons]
      by_cases hnil : entries = []
      · rw [hnil, List.length_nil]
        omega
      · have := hbound' hnil
        omega
    · rw [List.map_cons, hids, List.length_cons, List.range'_succ]

/-- When it has reported as many messages as there are headers, every header came when no separator was missing, fits, and is the one
under its number. -/
theorem Scanned.numbered (h : Scanned lines n reading date entries) (hall : entries.length = lines.countP isHeader) :
    Numbered reading lines ∧ Numbers entries lines n := by
  induction h with
  | done => exact ⟨trivial, numbers_nil⟩
  | @skip line lines n reading date entries h hrest ih =>
    have hle := hrest.numbers.1
    cases hl : isHeader line with
    | false =>
      rw [List.countP_cons_of_neg (by simp [hl])] at hall
      obtain ⟨hnum, hnums⟩ := ih hall
      refine ⟨?_, hnums.skip hl⟩
      rw [Numbered, hl, if_neg Bool.false_ne_true]
      exact hnum
    | true =>
      -- a header that is not counted
      rw [List.countP_cons_of_pos hl] at hall
      omega
  | last hl hbound hsender =>
    refine ⟨?_, Numbers.cons hl numbers_nil⟩
    rw [Numbered, hl, if_pos rfl]
    exact ⟨rfl, ⟨hsender, by simp⟩, trivial⟩
  | @header line next lines n date word entries hl hbound hsender hscan hrest ih =>
    have hle := hrest.numbers.1
    rw [List.length_cons, List.countP_cons_of_pos hl, Nat.add_right_cancel_iff] at hall
    have hnext : isHeader next = false := by
      by_contra hne
      rw [List.countP_cons_of_pos ((Bool.not_eq_false _).mp hne)] at hall
      omega
    rw [List.countP_cons_of_neg (by simp [hnext])] at hall
    obtain ⟨hnum, hnums⟩ := ih hall
    refine ⟨?_, Numbers.cons hl (hnums.skip hnext)⟩
    rw [Numbered, hl, if_pos rfl, Numbered, hnext, if_neg Bool.false_ne_true, Bool.true_and]
    refine ⟨rfl, ⟨hsender, ?_⟩, hnum⟩
    intro m hm
    obtain rfl : next = m := by simpa using hm
    exact dateFits_of_ok hscan

end NetLabs.Mail
