import NetLabs.Mail.DataMode

/-!
# The text of a message

`data_buffer` is an array of 4096 bytes. `handle_data` puts a NUL at its front, `handle_data_content` appends a line and a newline with
`strcat` where the test of their lengths allows it, and `save_email` prints what is there. Here a session runs beside the array and beside
the lines that its client has sent as content since `DATA`.
-/

namespace NetLabs.Mail

open CText Lines Machine Function

/-! ## The code -/

/-- A line as `strtok` returns it. -/
structure CLine where
  text : List UInt8
  noNul : (0 : UInt8) ∉ text

/-- `handle_data_content`, on the array. -/
def dataContentCells (cells line : List UInt8) : List UInt8 :=
  if line = dot then cells
  else if (cstr cells).length + line.length + 2 < 4096 then strcat (strcat cells line) [newline]
  else cells

/-- `handle_data`, on the array. -/
def dataCells (s : Session) (cells : List UInt8) : List UInt8 :=
  if s.sender.length = 0 ∨ s.recipient.length = 0 then cells else cells.set 0 0

/-- The array after a line; no other command touches it. -/
def lineCells (s : Session) (cells line : List UInt8) : List UInt8 :=
  if s.isDataMode then dataContentCells cells line else if line = text "DATA" then dataCells s cells else cells

/-- The content lines since the last accepted `DATA`, after a line. -/
def contentSince (s : Session) (lines : List (List UInt8)) (line : List UInt8) : List (List UInt8) :=
  if s.isDataMode then if line = dot then lines else lines ++ [line]
  else if line = text "DATA" ∧ s.sender ≠ [] ∧ s.recipient ≠ [] then [] else lines

/-- A session over the mailboxes, its array, and the content lines since `DATA`. -/
structure Draft where
  session : Session
  disk : Disk
  cells : List UInt8
  lines : List (List UInt8)

/-- A client that has just connected, over any mailboxes; `main` has zeroed the session. -/
def Draft.begin (files : List UInt8 → Option (List UInt8)) : Draft :=
  ⟨.begin, { Disk.empty with files := files }, List.replicate 4096 0, []⟩

/-- What happens next: the server takes a line of the session, or other clients change the mailboxes. -/
inductive Input where
  | line (l : CLine)
  | mailboxes (files : List UInt8 → Option (List UInt8))

/-- One step. -/
def Draft.step (host : Host) (x : Draft) : Input → Option Draft
  | .line l =>
    match handleLine host x.session x.disk l.text with
    | .error _ => none
    | .ok o =>
      some {
        session := o.session
        disk := o.disk
        cells := lineCells x.session x.cells l.text
        lines := contentSince x.session x.lines l.text }
  | .mailboxes files => some { x with disk := { x.disk with files := files } }

/-! ## What should hold -/

/-- The array holds a text of at most 4094 bytes, with its NUL. -/
structure Buffered (cells text : List UInt8) : Prop where
  size : cells.length = 4096
  eq : cstr cells = text
  length_le : text.length ≤ 4094
  terminated : cells[text.length]? = some 0

/-- The array holds the text of the session, and in data mode this is the content since `DATA`, each line with a newline. -/
structure Draft.Right (x : Draft) : Prop where
  buffered : Buffered x.cells x.session.dataBuffer
  content : x.session.isDataMode = true → x.session.dataBuffer = unlines x.lines

/-- What a message is in its mailbox. -/
def record (sender : List UInt8) (date : Date) (lines : List (List UInt8)) : List UInt8 :=
  text "From: " ++ sender ++ text "\n" ++ text "Date: " ++ date.text ++ text "\n" ++ unlines lines ++ text "---\n"

/-- The dot that ends a message appends its record to the recipient's mailbox, unless this cannot be opened. -/
def Draft.stores (host : Host) (x : Draft) : Input → Prop
  | .line l => x.session.isDataMode = true → l.text = dot → ∀ x' ∈ x.step host (.line l), x'.disk.files =
      if host.opens (mailboxName x.session.recipient) then
        update x.disk.files (mailboxName x.session.recipient)
          (some ((x.disk.files (mailboxName x.session.recipient)).getD [] ++
            record x.session.sender (host.today x.disk.saves) x.lines))
      else x.disk.files
  | .mailboxes _ => True

variable {host : Host} {s : Session} {d : Disk} {o : Outcome} {line cells text' : List UInt8} {lines : List (List UInt8)}
  {x x' : Draft} {i : Input}

/-! ## The array -/

theorem buffered_of (hsize : cells.length = 4096) (heq : cstr cells = text') (hle : text'.length ≤ 4094) : Buffered cells text' := by
  refine ⟨hsize, heq, hle, ?_⟩
  rw [← heq] at hle ⊢
  exact getElem?_cstr_length (by omega)

/-- A new message begins with an empty text. -/
theorem Buffered.clear (h : Buffered cells text') : Buffered (cells.set 0 0) [] :=
  buffered_of (by rw [List.length_set, h.size]) (cstr_set_zero cells) (Nat.zero_le _)

/-- A line that passes the test fits, with its newline and the NUL. -/
theorem Buffered.append (h : Buffered cells text') (hline : (0 : UInt8) ∉ line) (hfit : text'.length + line.length + 2 < 4096) :
    Buffered (strcat (strcat cells line) [newline]) (text' ++ line ++ [newline]) := by
  have hsize := h.size
  have hfirst : cstr (strcat cells line) = text' ++ line := by rw [cstr_strcat hline, h.eq]
  have hfirstSize : (strcat cells line).length = 4096 := by
    rw [length_strcat (by rw [h.eq]; omega), hsize]
  have hnewline : (0 : UInt8) ∉ [newline] := by decide
  refine buffered_of ?_ ?_ ?_
  · rw [length_strcat (by rw [hfirst, List.length_append, List.length_singleton]; omega), hfirstSize]
  · rw [cstr_strcat hnewline, hfirst]
  · rw [List.length_append, List.length_append, List.length_singleton]
    omega

/-! ## One step -/

theorem unlines_append_line (lines : List (List UInt8)) (line : List UInt8) :
    unlines (lines ++ [line]) = unlines lines ++ line ++ [newline] := by
  rw [unlines, unlines, List.flatMap_append, List.flatMap_singleton, List.append_assoc]

/-- A line of a message. -/
theorem right_content (hi : x.Right) (hmode : x.session.isDataMode = true) (hline : (0 : UInt8) ∉ line) :
    Draft.Right ⟨(handleDataContent host x.session x.disk line).session, (handleDataContent host x.session x.disk line).disk,
      lineCells x.session x.cells line, contentSince x.session x.lines line⟩ := by
  have hcontent := hi.content hmode
  rw [lineCells, contentSince, if_pos hmode, if_pos hmode, dataContentCells, handleDataContent, hi.buffered.eq]
  by_cases hdot : line = dot
  · simp only [if_pos hdot]
    exact ⟨hi.buffered, fun h => absurd h Bool.false_ne_true⟩
  · simp only [if_neg hdot]
    by_cases hfit : x.session.dataBuffer.length + line.length + 2 < 4096
    · simp only [if_pos hfit]
      refine ⟨hi.buffered.append hline hfit, fun _ => ?_⟩
      rw [unlines_append_line, hcontent]
    · simp only [if_neg hfit]
      exact ⟨hi.buffered, fun h => absurd h Bool.false_ne_true⟩

/-- A command. -/
theorem right_command (hi : x.Right) (hmode : x.session.isDataMode = false) (h : processCommand x.session x.disk line = .ok o) :
    Draft.Right ⟨o.session, o.disk, lineCells x.session x.cells line, contentSince x.session x.lines line⟩ := by
  have hcommand : ¬x.session.isDataMode = true := by
    rw [hmode]
    exact Bool.false_ne_true
  rw [lineCells, contentSince, if_neg hcommand, if_neg hcommand]
  rcases processCommand_buffer hmode h with ⟨hopens, hmode', hbuffer⟩ | ⟨hopens, hmode', hbuffer⟩
  · have hopens' : line = text "DATA" ∧ x.session.sender ≠ [] ∧ x.session.recipient ≠ [] := hopens
    obtain ⟨hdata, hsender, hrecipient⟩ := hopens
    have hfull : ¬(x.session.sender.length = 0 ∨ x.session.recipient.length = 0) := by
      rw [List.length_eq_zero_iff, List.length_eq_zero_iff]
      exact not_or.2 ⟨hsender, hrecipient⟩
    rw [if_pos hdata, dataCells, if_neg hfull]
    refine ⟨?_, fun _ => ?_⟩
    · change Buffered _ o.session.dataBuffer
      rw [hbuffer]
      exact hi.buffered.clear
    · change o.session.dataBuffer = unlines (if _ then [] else x.lines)
      rw [hbuffer, if_pos hopens']
      rfl
  · have hsame : (if line = text "DATA" then dataCells x.session x.cells else x.cells) = x.cells := by
      split
      · rename_i hdata
        rw [dataCells, if_pos]
        by_contra hfull
        rw [not_or, List.length_eq_zero_iff, List.length_eq_zero_iff] at hfull
        exact hopens ⟨hdata, hfull⟩
      · rfl
    rw [hsame]
    refine ⟨?_, fun h => absurd (h.symm.trans hmode') (Ne.symm Bool.false_ne_true)⟩
    change Buffered _ o.session.dataBuffer
    rw [hbuffer]
    exact hi.buffered

theorem step_line (h : x.step host (.line l) = some x') : ∃ o, handleLine host x.session x.disk l.text = .ok o ∧
    x' = ⟨o.session, o.disk, lineCells x.session x.cells l.text, contentSince x.session x.lines l.text⟩ := by
  rw [Draft.step] at h
  split at h
  · cases h
  · rename_i o ho
    exact ⟨o, ho, (Option.some.inj h).symm⟩

theorem step_right (host : Host) (x : Draft) (i : Input) (x' : Draft) (hi : x.Right) (h : x.step host i = some x') : x'.Right := by
  cases i with
  | mailboxes files =>
    cases h
    exact ⟨hi.buffered, hi.content⟩
  | line l =>
    obtain ⟨o, ho, rfl⟩ := step_line h
    rw [handleLine] at ho
    split at ho
    · rename_i hmode
      cases ho
      exact right_content hi hmode l.noNul
    · rename_i hmode
      exact right_command hi (Bool.eq_false_iff.2 hmode) ho

/-- What is appended is the record of the content. -/
theorem mailRecord_eq_record (hi : x.Right) (hmode : x.session.isDataMode = true) (date : Date) :
    mailRecord { x.session with isDataMode := false } date = record x.session.sender date x.lines := by
  have hline : text "\n" = [newline] := rfl
  have hsep : text "---\n" = separator ++ [newline] := rfl
  rw [mailRecord, record, hi.content hmode, hline, hsep]
  simp only [fromPrefix, datePrefix, List.append_assoc]

theorem stores_of_right (host : Host) (x : Draft) (i : Input) (hi : x.Right) : x.stores host i := by
  cases i with
  | mailboxes files => trivial
  | line l =>
    intro hmode hdot x' hx'
    obtain ⟨o, ho, rfl⟩ := step_line hx'
    rw [handleLine, if_pos hmode, handleDataContent, if_pos hdot] at ho
    cases ho
    change (saveEmail host _ x.disk).files = _
    rw [saveEmail_files, mailRecord_eq_record hi hmode]

theorem begin_right (files : List UInt8 → Option (List UInt8)) : (Draft.begin files).Right := by
  refine ⟨buffered_of List.length_replicate ?_ (Nat.zero_le _), fun h => absurd h Bool.false_ne_true⟩
  have hcells : (Draft.begin files).cells = List.replicate (4095 + 1) 0 := rfl
  rw [hcells, List.replicate_succ]
  rfl

/-- In every run of a session, over any mailboxes and with any changes to them by others, `data_buffer` holds a text of at most 4094 bytes
with its NUL; in data mode the text is the content since `DATA`, a line each; and the dot appends the sender, the date, this text and the
separator. -/
theorem draft_right (host : Host) (files : List UInt8 → Option (List UInt8)) (inputs : List Input) :
    Always (Draft.step host) Draft.Right (.begin files) inputs ∧
      Meets (Draft.step host) (Draft.stores host) (.begin files) inputs :=
  ⟨always_of_kept (step_right host) (begin_right files), meets_of_kept (step_right host) (stores_of_right host) (begin_right files)⟩

end NetLabs.Mail
