import NetLabs.Lib.Machine
import NetLabs.Mail.Server

/-!
# The body of a message

After `DATA` every line up to the dot is meant as content. `handle_data_content` gives up on the message, and on data mode, at the first
line that does not fit into `data_buffer`: what comes after that line, the dot included, is taken for commands.
-/

namespace NetLabs.Mail

open CText Lines Machine

/-- The lines of a message: those up to the first dot, with it, or all if there is none. -/
def contentLines : List (List UInt8) → List (List UInt8)
  | [] => []
  | line :: rest => if line = dot then [line] else line :: contentLines rest

/-- The size of a message in `data_buffer`: its lines, each with a newline, and not the dot. -/
def contentSize : List (List UInt8) → Nat
  | [] => 0
  | line :: rest => if line = dot then 0 else line.length + 1 + contentSize rest

/-- A session in which `DATA` has just been accepted. -/
def DataAccepted (s : Session) : Prop :=
  ∃ s₀ d₀, s₀.isDataMode = false ∧ (handleData s₀ d₀).sent = [enterMessage] ∧ s = (handleData s₀ d₀).session

/-- The lines after `DATA` are content up to the dot, and only up to the dot: none of them is passed to `process_command`, and data mode is
left at the dot. A message that is too large is refused at its end, with one answer, and is not stored. -/
structure TakenAsContent (host : Host) (s : Session) (d : Disk) (lines : List (List UInt8)) : Prop where
  content : Meets (Connection.step host) (fun c _ => c.session.isDataMode = true) ⟨s, d⟩ (contentLines lines)
  ends : ∀ o, runLines host s d (contentLines lines) = .ok o → (o.session.isDataMode = true ↔ dot ∉ lines)
  refused : 4094 < contentSize lines → dot ∈ lines →
    ∀ o, runLines host s d (contentLines lines) = .ok o → o.sent = [serverError] ∧ o.disk = d

variable {host : Host} {s : Session} {d : Disk} {o : Outcome} {line : List UInt8} {lines rest : List (List UInt8)}

theorem DataAccepted.mode (h : DataAccepted s) : s.isDataMode = true ∧ s.dataBuffer = [] := by
  obtain ⟨s₀, d₀, -, hsent, rfl⟩ := h
  rw [handleData] at hsent ⊢
  split
  · rename_i hempty
    rw [if_pos hempty] at hsent
    exact absurd hsent (by simp [forbidden, enterMessage, text])
  · exact ⟨rfl, rfl⟩

/-- One line in data mode, and the lines after it. -/
theorem runLines_dataMode (hmode : s.isDataMode = true) : runLines host s d (line :: rest) =
    andThen (.ok (handleDataContent host s d line)) fun s d => runLines host s d rest := by
  rw [runLines, handleLine, if_pos hmode]

theorem step_dataMode (hmode : s.isDataMode = true) : Connection.step host ⟨s, d⟩ line =
    some ⟨(handleDataContent host s d line).session, (handleDataContent host s d line).disk⟩ := by
  rw [Connection.step, handleLine]
  simp only [hmode, if_true]

/-- Every line is handled as content, and data mode ends at the dot, from any point of a message on. -/
def StaysInData (host : Host) (s : Session) (d : Disk) (lines : List (List UInt8)) : Prop :=
  Meets (Connection.step host) (fun c _ => c.session.isDataMode = true) ⟨s, d⟩ (contentLines lines) ∧
    ∀ o, runLines host s d (contentLines lines) = .ok o → (o.session.isDataMode = true ↔ dot ∉ lines)

/-- A message ends with its dot. -/
theorem staysInData_dot (hmode : s.isDataMode = true) : StaysInData host s d (dot :: rest) := by
  have hlines : contentLines (dot :: rest) = [dot] := by rw [contentLines, if_pos rfl]
  rw [StaysInData, hlines]
  refine ⟨⟨hmode, fun _ _ => trivial⟩, ?_⟩
  intro o ho
  rw [runLines_dataMode hmode, handleDataContent, if_pos rfl] at ho
  cases ho
  exact iff_of_false Bool.false_ne_true (by simp)

/-- A line that fits is followed by the rest of the message. -/
theorem staysInData_line (hmode : s.isDataMode = true) (hdot : line ≠ dot) (hfit : s.dataBuffer.length + line.length + 2 < 4096) :
    StaysInData host s d (line :: rest) ↔ StaysInData host { s with dataBuffer := s.dataBuffer ++ line ++ [newline] } d rest := by
  have hlines : contentLines (line :: rest) = line :: contentLines rest := by rw [contentLines, if_neg hdot]
  have hhandle : handleDataContent host s d line = ⟨{ s with dataBuffer := s.dataBuffer ++ line ++ [newline] }, d, []⟩ := by
    rw [handleDataContent, if_neg hdot, if_pos hfit]
  have hmem : dot ∉ line :: rest ↔ dot ∉ rest := by simp [hdot.symm]
  rw [StaysInData, StaysInData, hlines, meets_cons_iff (step_dataMode hmode), runLines_dataMode hmode, hhandle, hmem]
  refine and_congr (and_iff_right hmode) ?_
  have hrest : andThen (.ok ⟨{ s with dataBuffer := s.dataBuffer ++ line ++ [newline] }, d, []⟩)
      (fun s d => runLines host s d (contentLines rest)) =
      runLines host { s with dataBuffer := s.dataBuffer ++ line ++ [newline] } d (contentLines rest) := by
    rw [andThen]
    cases runLines host { s with dataBuffer := s.dataBuffer ++ line ++ [newline] } d (contentLines rest) with
    | error x => rfl
    | ok o => rfl
  rw [hrest]

/-- After a line that does not fit, the next line is a command, or data mode has ended without a dot. -/
theorem not_staysInData (hmode : s.isDataMode = true) (hdot : line ≠ dot) (hfit : ¬s.dataBuffer.length + line.length + 2 < 4096) :
    ¬StaysInData host s d (line :: rest) := by
  have hlines : contentLines (line :: rest) = line :: contentLines rest := by rw [contentLines, if_neg hdot]
  have hhandle : handleDataContent host s d line = ⟨{ s with isDataMode := false }, d, [serverError]⟩ := by
    rw [handleDataContent, if_neg hdot, if_neg hfit]
  rintro ⟨hcontent, hends⟩
  rw [hlines, meets_cons_iff (step_dataMode hmode), hhandle] at hcontent
  cases rest with
  | nil =>
    have hrun : runLines host s d (contentLines [line]) = .ok ⟨{ s with isDataMode := false }, d, [serverError]⟩ := by
      rw [hlines, runLines_dataMode hmode, hhandle]
      rfl
    have hstill := (hends _ hrun).2 (by simpa using hdot.symm)
    cases hstill
  | cons next rest =>
    obtain ⟨more, hmore⟩ : ∃ more, contentLines (next :: rest) = next :: more := by
      rw [contentLines]
      split
      · exact ⟨[], rfl⟩
      · exact ⟨contentLines rest, rfl⟩
    rw [hmore] at hcontent
    have hcommand := hcontent.2.1
    cases hcommand

/-- A message stays in data mode to its end exactly when it fits. -/
theorem staysInData_iff (host : Host) (d : Disk) (lines : List (List UInt8)) (hmode : s.isDataMode = true)
    (hsize : s.dataBuffer.length ≤ 4094) :
    StaysInData host s d lines ↔ s.dataBuffer.length + contentSize lines ≤ 4094 := by
  induction lines generalizing s with
  | nil =>
    refine iff_of_true ⟨trivial, ?_⟩ hsize
    intro o ho
    cases ho
    exact iff_of_true hmode (by simp)
  | cons line rest ih =>
    by_cases hdot : line = dot
    · subst hdot
      exact iff_of_true (staysInData_dot hmode) (by simpa [contentSize] using hsize)
    · rw [contentSize, if_neg hdot]
      by_cases hfit : s.dataBuffer.length + line.length + 2 < 4096
      · have hlen : (s.dataBuffer ++ line ++ [newline]).length = s.dataBuffer.length + line.length + 1 := by
          rw [List.length_append, List.length_append, List.length_singleton]
        have hrest := @ih { s with dataBuffer := s.dataBuffer ++ line ++ [newline] } hmode (by rw [hlen]; omega)
        rw [staysInData_line hmode hdot hfit, hrest, hlen]
        omega
      · exact iff_of_false (not_staysInData hmode hdot hfit) (by omega)

/-- Message content is never executed. In every session in which `DATA` has been accepted, on any disk and for every sequence of lines after
it: all lines up to the first dot are content, data mode ends at the dot, and a message that is too large is refused at its end, if and only
if the lines before the first dot, each with its newline, take at most 4094 bytes. -/
theorem takenAsContent_iff (h : DataAccepted s) : TakenAsContent host s d lines ↔ contentSize lines ≤ 4094 := by
  obtain ⟨hmode, hempty⟩ := h.mode
  have hstays := staysInData_iff host d lines hmode (by rw [hempty]; decide)
  rw [hempty, List.length_nil, Nat.zero_add] at hstays
  constructor
  · intro htaken
    exact hstays.1 ⟨htaken.content, htaken.ends⟩
  · intro hsize
    obtain ⟨hcontent, hends⟩ := hstays.2 hsize
    exact ⟨hcontent, hends, fun hlarge => absurd hsize (by omega)⟩

/-- A session in which `a@b` writes to `c@d`. -/
def writing : Session := ⟨[], text "a@b", text "c@d", true, []⟩

theorem writing_accepted : DataAccepted writing := ⟨⟨[], text "a@b", text "c@d", false, []⟩, .empty, rfl, rfl, rfl⟩

/-- `takenAsContent_iff` on one line and a dot. -/
theorem takenAsContent_hi : DataAccepted writing ∧
    (TakenAsContent newYear writing .empty [text "Hi", text "."] ↔ contentSize [text "Hi", text "."] ≤ 4094) :=
  ⟨writing_accepted, takenAsContent_iff writing_accepted⟩

/-- Five lines of a thousand characters, and `QUIT` before the dot: `QUIT` is executed. -/
theorem long_body_executed :
    ¬TakenAsContent newYear writing .empty (List.replicate 5 (List.replicate 1000 97) ++ [text "QUIT", text "."]) := by
  intro h
  have hline : ∀ k, List.replicate (k + 1) (97 : UInt8) ≠ dot := by
    intro k heq
    have := congrArg List.head? heq
    simp [dot, text, List.replicate_succ] at this
  have hsize : ∀ k rest, contentSize (List.replicate k (List.replicate 1000 97) ++ rest) = k * 1001 + contentSize rest := by
    intro k rest
    induction k with
    | zero => simp
    | succ k ih =>
      rw [List.replicate_succ, List.cons_append, contentSize, if_neg (hline 999), ih, List.length_replicate]
      omega
  have hfits := (staysInData_iff _ _ _ (by rfl) (by decide)).1 ⟨h.content, h.ends⟩
  rw [hsize] at hfits
  have : writing.dataBuffer.length = 0 := rfl
  omega

end NetLabs.Mail
