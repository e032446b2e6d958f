import NetLabs.Lib.Machine
import NetLabs.Mail.Segments

/-!
# Data mode in the client and in the server

The client reads a body after any line that starts with `DATA`, the server after the line `DATA` in a session with a sender and a
recipient; nobody tells the other. They are in step exactly when every line that starts with `DATA` is that one word in such a
session, no other command has the word `DATA` after a carriage return, no line of a body has a dot alone after one, and what is typed
fits into the buffers of the client. The size the server allows a body is more than the client's buffer holds.
-/

namespace NetLabs.Mail

open CText Lines Tokens Machine

/-! ## The client and the server -/

/-- Where the client is in its loops: at the prompt, in a body of which `emailBody` has been read, or beyond a buffer it has
overflowed. -/
inductive Client where
  | commanding
  | body (emailBody : List UInt8)
  | overflowed
  deriving DecidableEq

/-- What a line is to the client: part of a command, after which it reads a body or not; or part of a body, of which it is the end
or not. -/
inductive Role where
  | command (opens : Bool)
  | body (closes : Bool)
  deriving DecidableEq

/-- The client, the lines it has sent that the server has not handled yet, and the server. -/
structure Dialogue where
  client : Client
  queue : List (List UInt8 × Role)
  session : Session
  disk : Disk

/-- A client and a server that have just connected, over any mailboxes. -/
def Dialogue.begin (files : List UInt8 → Option (List UInt8)) : Dialogue :=
  ⟨.commanding, [], .begin, { Disk.empty with files := files }⟩

/-- What happens next: a line is typed at the client, the server handles the next line, or other clients change the mailboxes. -/
inductive Act where
  | type (line : List UInt8)
  | handle
  | mailboxes (files : List UInt8 → Option (List UInt8))

/-- A line as `fgets` and `strcspn` leave it in a buffer of 4096 bytes. -/
def Entered (line : List UInt8) : Prop := newline ∉ line ∧ (0 : UInt8) ∉ line ∧ line.length ≤ 4095

instance (line : List UInt8) : Decidable (Entered line) := inferInstanceAs (Decidable (_ ∧ _))

/-- Lines that all have one role, but for the last. -/
def withRoles (role last : Role) : List (List UInt8) → List (List UInt8 × Role)
  | [] => []
  | [line] => [(line, last)]
  | line :: lines => (line, role) :: withRoles role last lines

/-- What the server finds in a command. -/
def commandLines (command : List UInt8) : List (List UInt8 × Role) :=
  withRoles (.command false) (.command (startsWith command (text "DATA"))) (tokens isCrlf (command ++ crlf))

/-- What it finds in a body. -/
def bodyLines (emailBody : List UInt8) : List (List UInt8 × Role) :=
  withRoles (.body false) (.body true) (tokens isCrlf (emailBody ++ (dot ++ crlf)))

/-- One step of the client, of the server or of other clients. The client waits for an answer after a command and after a body: that
only delays what it sends. -/
def Dialogue.step (host : Host) (x : Dialogue) : Act → Option Dialogue
  | .type line =>
    if Entered line then
      match x.client with
      | .commanding =>
        if line = [] then some x
        else if 4093 < line.length then some { x with client := .overflowed }
        else
          some { x with
            client := if startsWith line (text "DATA") then .body [] else .commanding
            queue := x.queue ++ commandLines line }
      | .body emailBody =>
        if line = dot then
          if 4095 < emailBody.length + 3 then some { x with client := .overflowed }
          else some { x with client := .commanding, queue := x.queue ++ bodyLines emailBody }
        else if 4093 < line.length ∨ 4095 < emailBody.length + line.length + 2 then some { x with client := .overflowed }
        else some { x with client := .body (emailBody ++ line ++ crlf) }
      | .overflowed => none
    else none
  | .handle =>
    match x.queue with
    | [] => none
    | (line, _) :: rest =>
      match handleLine host x.session x.disk line with
      | .error _ => none
      | .ok o => some { x with queue := rest, session := o.session, disk := o.disk }
  | .mailboxes files => some { x with disk := { x.disk with files := files } }

/-! ## In step -/

/-- Whether the client is in its loop over a body. -/
def Client.isBody : Client → Bool
  | .body _ => true
  | _ => false

/-- Whether a line is part of a body. -/
def Role.isBody : Role → Bool
  | .command _ => false
  | .body _ => true

/-- Whether the client is in a body after a line. -/
def Role.after : Role → Bool
  | .command opens => opens
  | .body closes => !closes

/-- The mode the next line is meant for: that of the client when it has sent all. -/
def expected (client : Client) : List (List UInt8 × Role) → Bool
  | [] => client.isBody
  | (_, role) :: _ => role.isBody

/-- Client and server are in step: every line the server comes to is handled in the mode it is meant for, and when all are handled
the server is in the mode the client is in; and no buffer of the client has overflowed. -/
def Dialogue.InStep (x : Dialogue) : Prop := x.client ≠ .overflowed ∧ x.session.isDataMode = expected x.client x.queue

/-- What is typed fits into the client's buffers. -/
def Client.fits : Client → List UInt8 → Prop
  | .commanding, line => line.length ≤ 4093
  | .body emailBody, line =>
    if line = dot then emailBody.length + 3 ≤ 4095 else line.length ≤ 4093 ∧ emailBody.length + line.length + 2 ≤ 4095
  | .overflowed, _ => True

/-- A command that begins data mode in a session. -/
def opensData (s : Session) (line : List UInt8) : Prop := line = text "DATA" ∧ s.sender ≠ [] ∧ s.recipient ≠ []

instance (s : Session) (line : List UInt8) : Decidable (opensData s line) := inferInstanceAs (Decidable (_ ∧ _))

/-- A step that keeps client and server in step: what is typed fits; a command the server comes to begins data mode exactly when the
client reads a body after it; a line of a body is a dot exactly when it is the last. -/
def Dialogue.keepsStep (x : Dialogue) : Act → Prop
  | .type line => x.client.fits line
  | .handle =>
    match x.queue with
    | [] => True
    | (line, .command opens) :: _ => opensData x.session line ↔ opens = true
    | (line, .body closes) :: _ => line = dot ↔ closes = true
  | .mailboxes _ => True

/-- After every line comes one that is meant for the mode the client is in then. -/
def Linked (client : Client) : List (List UInt8 × Role) → Prop
  | [] => True
  | (_, role) :: rest => role.after = expected client rest ∧ Linked client rest

/-- The bodies under way fit into `data_buffer`, of which `size` bytes are taken, and each is sent to its end, the dot. -/
def BodiesFit : Nat → List (List UInt8 × Role) → Prop
  | size, [] => size = 0
  | _, (_, .command _) :: rest => BodiesFit 0 rest
  | _, (line, .body true) :: rest => line = dot ∧ BodiesFit 0 rest
  | size, (line, .body false) :: rest => size + line.length + 2 < 4096 ∧ BodiesFit (size + line.length + 1) rest

/-- How much of `data_buffer` is taken. -/
def taken (s : Session) : Nat := if s.isDataMode then s.dataBuffer.length else 0

/-- While client and server are in step: the lines under way lead from the mode of the one to that of the other, the bodies fit, and
what the client has read of a body ends with a line end. -/
structure Dialogue.Inv (x : Dialogue) : Prop where
  linked : Linked x.client x.queue
  fits : BodiesFit (taken x.session) x.queue
  lineEnd : ∀ emailBody, x.client = .body emailBody → Clean isCrlf emailBody (dot ++ crlf)

variable {host : Host} {x x' : Dialogue} {a : Act} {s : Session} {d : Disk} {o : Outcome} {line l : List UInt8}
  {lines : List (List UInt8)} {queue new : List (List UInt8 × Role)} {client client' : Client} {role last : Role} {n size : Nat}

/-! ## The lines under way -/

/-- Lines are added that begin where the client was. -/
theorem linked_append (h : Linked client queue) (hnew : Linked client' new) (hexp : expected client' new = client.isBody) :
    Linked client' (queue ++ new) ∧ expected client' (queue ++ new) = expected client queue := by
  induction queue with
  | nil => exact ⟨hnew, hexp⟩
  | cons q queue ih =>
    obtain ⟨hafter, hrest⟩ := ih h.2
    exact ⟨⟨h.1.trans hrest.symm, hafter⟩, rfl⟩

/-- Only the mode of the client matters. -/
theorem linked_of_isBody (hbody : client'.isBody = client.isBody) (h : Linked client queue) : Linked client' queue := by
  have hnil : Linked client' [] := trivial
  have happend := (linked_append h hnil hbody).1
  rwa [List.append_nil] at happend

theorem bodiesFit_append (h : BodiesFit n queue) (hnew : BodiesFit 0 new) : BodiesFit n (queue ++ new) := by
  induction queue generalizing n with
  | nil =>
    obtain rfl : n = 0 := h
    exact hnew
  | cons q queue ih =>
    obtain ⟨line, role⟩ := q
    cases role with
    | command opens => exact ih h
    | body closes =>
      cases closes with
      | true => exact ⟨h.1, ih h.2⟩
      | false => exact ⟨h.1, ih h.2⟩

/-- Lines with roles that go together. -/
theorem linked_withRoles (hrole : role.after = role.isBody) (hlast : last.isBody = role.isBody) (hclient : last.after = client.isBody) :
    Linked client (withRoles role last lines) ∧
      (lines ≠ [] → expected client (withRoles role last lines) = role.isBody) := by
  induction lines with
  | nil => exact ⟨trivial, fun h => absurd rfl h⟩
  | cons line lines ih =>
    cases lines with
    | nil => exact ⟨⟨hclient, trivial⟩, fun _ => hlast⟩
    | cons line' lines =>
      obtain ⟨hlinked, hexp⟩ := ih
      exact ⟨⟨hrole.trans (hexp (by simp)).symm, hlinked⟩, fun _ => rfl⟩

/-- Commands take nothing of `data_buffer`. -/
theorem bodiesFit_commands {opens opens' : Bool} : BodiesFit 0 (withRoles (.command opens) (.command opens') lines) := by
  induction lines with
  | nil => rfl
  | cons line lines ih =>
    cases lines with
    | nil => rfl
    | cons line' lines => exact ih

/-- A body fits when its lines do. -/
theorem bodiesFit_body (hsize : size + (lines.flatten.length + lines.length) ≤ 4094) :
    BodiesFit size (withRoles (.body false) (.body true) (lines ++ [dot])) := by
  induction lines generalizing size with
  | nil => exact ⟨rfl, rfl⟩
  | cons line lines ih =>
    rw [List.flatten_cons, List.length_append, List.length_cons] at hsize
    have hrest : lines ++ [dot] ≠ [] := by simp
    obtain ⟨line', lines', heq⟩ := List.exists_cons_of_ne_nil hrest
    have hbody := @ih (size + line.length + 1) (by omega)
    rw [List.cons_append, heq] at *
    exact ⟨by omega, hbody⟩

/-- What is sent of a line that starts with `DATA` is not nothing. -/
theorem tokens_ne_nil {b : UInt8} (hb : isCrlf b = false) (hmem : b ∈ l) : tokens isCrlf l ≠ [] := by
  obtain ⟨t, ht, _⟩ := exists_mem_tokens hb hmem
  exact List.ne_nil_of_mem ht

/-- The lines of a command lead from the prompt to where the client is after it. -/
theorem linked_commandLines {client : Client} (hclient : client.isBody = startsWith line (text "DATA")) :
    Linked client (commandLines line) ∧ expected client (commandLines line) = false := by
  have hroles : Linked client (commandLines line) ∧
      (tokens isCrlf (line ++ crlf) ≠ [] → expected client (commandLines line) = false) := linked_withRoles rfl rfl hclient.symm
  refine ⟨hroles.1, ?_⟩
  by_cases hnil : tokens isCrlf (line ++ crlf) = []
  · rw [commandLines, hnil]
    change client.isBody = false
    rw [hclient]
    cases hdata : startsWith line (text "DATA") with
    | false => rfl
    | true =>
      obtain ⟨t, rfl⟩ := startsWith_iff.1 hdata
      exact absurd hnil (tokens_ne_nil (b := 68) rfl (by simp [text]))
  · exact hroles.2 hnil

/-- The lines of a body lead from the loop over it to the prompt. -/
theorem linked_bodyLines (emailBody : List UInt8) :
    Linked .commanding (bodyLines emailBody) ∧ expected .commanding (bodyLines emailBody) = true := by
  have hroles : Linked .commanding (bodyLines emailBody) ∧
      (tokens isCrlf (emailBody ++ (dot ++ crlf)) ≠ [] → expected .commanding (bodyLines emailBody) = true) :=
    linked_withRoles rfl rfl rfl
  exact ⟨hroles.1, hroles.2 (tokens_ne_nil (b := 46) rfl (by simp [dot, text]))⟩

/-- A body that the client's buffer holds fits into the server's. -/
theorem bodiesFit_bodyLines {emailBody : List UInt8} (hend : Clean isCrlf emailBody (dot ++ crlf))
    (h : emailBody.length + 3 ≤ 4095) : BodiesFit 0 (bodyLines emailBody) := by
  have hdot : tokens isCrlf (dot ++ crlf) = [dot] := by decide
  have hsum : (tokens isCrlf emailBody).flatten.length + (tokens isCrlf emailBody).length ≤ emailBody.length + 1 :=
    length_flatten_tokens
  rw [bodyLines, tokens_append hend, hdot]
  exact bodiesFit_body (by omega)

/-! ## The two modes -/

/-- What a command can do to the mode and the buffer. -/
inductive Mode (s : Session) (line : List UInt8) (s' : Session) : Prop where
  | opened (h : opensData s line) (hmode : s'.isDataMode = true) (hbuffer : s'.dataBuffer = [])
  | kept (h : ¬opensData s line) (hmode : s'.isDataMode = false) (hbuffer : s'.dataBuffer = s.dataBuffer)

/-- A command begins data mode, with an empty buffer, exactly when it is `DATA` in a session with a sender and a recipient. -/
theorem processCommand_buffer (hmode : s.isDataMode = false) (h : processCommand s d line = .ok o) : Mode s line o.session := by
  have hchanged := (processCommand_changed h).1
  generalize o.session = s' at hchanged
  cases hchanged with
  | kept clientId hnot => exact .kept hnot hmode rfl
  | sender hp => exact .kept (fun hopens => ne_data hp (by decide) hopens.1) hmode rfl
  | recipient hp => exact .kept (fun hopens => ne_data hp (by decide) hopens.1) hmode rfl
  | opened hopens => exact .opened hopens rfl rfl

theorem processCommand_mode (hmode : s.isDataMode = false) (h : processCommand s d line = .ok o) :
    (o.session.isDataMode = true ↔ opensData s line) ∧ taken o.session = 0 := by
  rcases processCommand_buffer hmode h with ⟨hopens, hmode', hbuffer⟩ | ⟨hopens, hmode', -⟩
  · refine ⟨iff_of_true hmode' hopens, ?_⟩
    rw [taken, hmode', if_pos rfl, hbuffer]
    rfl
  · refine ⟨iff_of_false ?_ hopens, ?_⟩
    · rw [hmode']
      exact Bool.false_ne_true
    · rw [taken, hmode', if_neg Bool.false_ne_true]

/-- A line of a body that fits ends data mode exactly when it is a dot. -/
theorem handleDataContent_mode (host : Host) (d : Disk) (hmode : s.isDataMode = true)
    (hfit : line ≠ dot → s.dataBuffer.length + line.length + 2 < 4096) :
    ((handleDataContent host s d line).session.isDataMode = true ↔ line ≠ dot) ∧
      taken (handleDataContent host s d line).session = if line = dot then 0 else taken s + line.length + 1 := by
  rw [handleDataContent]
  by_cases hdot : line = dot
  · rw [if_pos hdot, if_pos hdot]
    exact ⟨iff_of_false Bool.false_ne_true (not_not.2 hdot), rfl⟩
  · rw [if_neg hdot, if_neg hdot, if_pos (hfit hdot)]
    refine ⟨iff_of_true hmode hdot, ?_⟩
    simp only [taken, hmode, if_true, List.length_append, List.length_singleton]

/-! ## Every run -/

/-- The server handles a line: it stays in step with the client exactly when the step is one that keeps it. -/
theorem handle_inStep_iff (hi : x.Inv) (hp : x.InStep) (h : x.step host .handle = some x') :
    (x'.InStep ↔ x.keepsStep .handle) ∧ (x'.InStep → x'.Inv) := by
  obtain ⟨hclient, hmode⟩ := hp
  obtain ⟨hlinked, hfits, hend⟩ := hi
  unfold Dialogue.step at h
  simp only at h
  split at h
  · cases h
  · rename_i line role rest hqueue
    rw [hqueue] at hmode hlinked hfits
    split at h
    · cases h
    · rename_i o ho
      cases h
      have hstep : ({ x with queue := rest, session := o.session, disk := o.disk } : Dialogue).InStep ↔
          o.session.isDataMode = role.after := by
        rw [Dialogue.InStep, hlinked.1]
        exact and_iff_right hclient
      rw [hstep, Dialogue.keepsStep, hqueue]
      rw [handleLine, hmode] at ho
      cases role with
      | command opens =>
        rw [expected, Role.isBody, if_neg Bool.false_ne_true] at ho
        obtain ⟨hopens, htaken⟩ := processCommand_mode hmode ho
        refine ⟨?_, fun _ => ⟨hlinked.2, ?_, hend⟩⟩
        · change o.session.isDataMode = opens ↔ (opensData x.session line ↔ opens = true)
          rw [← hopens]
          cases o.session.isDataMode <;> cases opens <;> simp
        · rw [htaken]
          exact hfits
      | body closes =>
        rw [expected, Role.isBody] at hmode
        rw [expected, Role.isBody, if_pos rfl] at ho
        cases ho
        have hfit : line ≠ dot → x.session.dataBuffer.length + line.length + 2 < 4096 := by
          intro hne
          cases closes with
          | true => exact absurd hfits.1 hne
          | false => simpa [taken, hmode] using hfits.1
        obtain ⟨hcloses, htaken⟩ := handleDataContent_mode host x.disk hmode hfit
        have hiff : (handleDataContent host x.session x.disk line).session.isDataMode = (Role.body closes).after ↔
            (line = dot ↔ closes = true) := by
          rw [Role.after, ← not_iff_not (a := line = dot), ← ne_eq line dot, ← hcloses]
          cases (handleDataContent host x.session x.disk line).session.isDataMode <;> cases closes <;> simp
        refine ⟨hiff, fun hin => ⟨hlinked.2, ?_, hend⟩⟩
        have hline := hiff.1 hin
        rw [htaken]
        cases closes with
        | true =>
          rw [if_pos (hline.2 rfl)]
          exact hfits.2
        | false =>
          rw [if_neg (fun h => Bool.false_ne_true (hline.1 h))]
          exact hfits.2

/-- A client whose buffer has overflowed is not in step. -/
theorem inStep_overflowed_iff (x : Dialogue) {q : Prop} (hq : ¬q) : (({ x with client := .overflowed } : Dialogue).InStep ↔ q) ∧
    (({ x with client := .overflowed } : Dialogue).InStep → ({ x with client := .overflowed } : Dialogue).Inv) := by
  have hnot : ¬({ x with client := .overflowed } : Dialogue).InStep := fun hin => hin.1 rfl
  exact ⟨iff_of_false hnot hq, fun hin => absurd hin hnot⟩

/-- A line is typed at the prompt: client and server stay in step exactly when it fits. -/
theorem type_command_inStep_iff (hi : x.Inv) (hp : x.InStep) (hclient : x.client = .commanding)
    (h : x.step host (.type line) = some x') : (x'.InStep ↔ x.keepsStep (.type line)) ∧ (x'.InStep → x'.Inv) := by
  obtain ⟨hlinked, hfits, hend⟩ := hi
  obtain ⟨_, h⟩ := Option.ite_none_right_eq_some.1 h
  have hfit : x.keepsStep (.type line) ↔ line.length ≤ 4093 := by
    rw [Dialogue.keepsStep, hclient]
    rfl
  rw [hfit]
  simp only [hclient] at h
  by_cases hempty : line = []
  · rw [if_pos hempty] at h
    cases h
    exact ⟨iff_of_true hp (by simp [hempty]), fun _ => ⟨hlinked, hfits, hend⟩⟩
  · rw [if_neg hempty] at h
    by_cases hlong : 4093 < line.length
    · rw [if_pos hlong] at h
      cases h
      exact inStep_overflowed_iff x (by omega)
    · rw [if_neg hlong] at h
      cases h
      have hbody : (if startsWith line (text "DATA") then Client.body [] else .commanding).isBody =
          startsWith line (text "DATA") := by
        cases startsWith line (text "DATA") <;> rfl
      obtain ⟨hnew, hexp⟩ := linked_commandLines hbody
      rw [hclient] at hlinked
      obtain ⟨hlinked', hexp'⟩ := linked_append hlinked hnew hexp
      refine ⟨iff_of_true ⟨?_, ?_⟩ (by omega), fun _ => ⟨hlinked', bodiesFit_append hfits bodiesFit_commands, ?_⟩⟩
      · split <;> simp
      · have hmode : x.session.isDataMode = expected .commanding x.queue := by
          rw [← hclient]
          exact hp.2
        exact hmode.trans hexp'.symm
      · intro emailBody hbody'
        simp only at hbody'
        split at hbody'
        · cases hbody'
          simp [Clean]
        · cases hbody'

/-- A line is typed in a body: client and server stay in step exactly when it fits. -/
theorem type_body_inStep_iff {emailBody : List UInt8} (hi : x.Inv) (hp : x.InStep) (hclient : x.client = .body emailBody)
    (h : x.step host (.type line) = some x') : (x'.InStep ↔ x.keepsStep (.type line)) ∧ (x'.InStep → x'.Inv) := by
  obtain ⟨hlinked, hfits, hend⟩ := hi
  obtain ⟨_, h⟩ := Option.ite_none_right_eq_some.1 h
  have hfit : x.keepsStep (.type line) ↔
      if line = dot then emailBody.length + 3 ≤ 4095
      else line.length ≤ 4093 ∧ emailBody.length + line.length + 2 ≤ 4095 := by
    rw [Dialogue.keepsStep, hclient]
    rfl
  rw [hfit]
  simp only [hclient] at h
  by_cases hdot : line = dot
  · rw [if_pos hdot] at h ⊢
    by_cases hlong : 4095 < emailBody.length + 3
    · rw [if_pos hlong] at h
      cases h
      exact inStep_overflowed_iff x (by omega)
    · rw [if_neg hlong] at h
      cases h
      obtain ⟨hnew, hexp⟩ := linked_bodyLines emailBody
      rw [hclient] at hlinked
      obtain ⟨hlinked', hexp'⟩ := linked_append hlinked hnew hexp
      refine ⟨iff_of_true ⟨by simp, ?_⟩ (by omega), fun _ => ⟨hlinked', ?_, fun _ h => by cases h⟩⟩
      · have hmode : x.session.isDataMode = expected (.body emailBody) x.queue := by
          rw [← hclient]
          exact hp.2
        exact hmode.trans hexp'.symm
      · exact bodiesFit_append hfits (bodiesFit_bodyLines (hend emailBody hclient) (by omega))
  · rw [if_neg hdot] at h ⊢
    by_cases hlong : 4093 < line.length ∨ 4095 < emailBody.length + line.length + 2
    · rw [if_pos hlong] at h
      cases h
      exact inStep_overflowed_iff x (by omega)
    · rw [if_neg hlong] at h
      cases h
      have hsame : expected (.body (emailBody ++ line ++ crlf)) x.queue = expected x.client x.queue := by
        rw [hclient]
        cases x.queue <;> rfl
      refine ⟨iff_of_true ⟨by simp, hp.2.trans hsame.symm⟩ (by omega), fun _ => ⟨?_, hfits, ?_⟩⟩
      · have hbody : (Client.body (emailBody ++ line ++ crlf)).isBody = x.client.isBody := by
          rw [hclient]
          rfl
        exact linked_of_isBody hbody hlinked
      · intro emailBody' hbody'
        cases hbody'
        simp [Clean, crlf, isCrlf]

/-- Agreement on data mode. In every run of a client, the server and other clients, over any host and mailboxes and whatever is typed:
every line of a body is handled in data mode and every command out of it, and the modes of the two agree when all is handled, in every
state, exactly when every step is one that keeps them in step. -/
theorem agreement_iff (files : List UInt8 → Option (List UInt8)) (acts : List Act)
    (hx : exec (Dialogue.step host) (.begin files) acts = some x') :
    Always (Dialogue.step host) Dialogue.InStep (.begin files) acts ↔
      Meets (Dialogue.step host) Dialogue.keepsStep (.begin files) acts := by
  have hone : ∀ (x : Dialogue) (a : Act) (x' : Dialogue), x.Inv → x.InStep → x.step host a = some x' →
      (x'.InStep ↔ x.keepsStep a) ∧ (x'.InStep → x'.Inv) := by
    intro x a x' hi hp h
    cases a with
    | type line =>
      cases hclient : x.client with
      | commanding => exact type_command_inStep_iff hi hp hclient h
      | body emailBody => exact type_body_inStep_iff hi hp hclient h
      | overflowed => exact absurd hclient hp.1
    | handle => exact handle_inStep_iff hi hp h
    | mailboxes files =>
      cases h
      exact ⟨iff_of_true hp trivial, fun _ => ⟨hi.linked, hi.fits, hi.lineEnd⟩⟩
  refine always_iff_meets_while (I := Dialogue.Inv) ?_ ?_ ⟨trivial, rfl, fun _ h => by cases h⟩ ⟨by simp [Dialogue.begin], rfl⟩ hx
  · intro x a x' hi hp hg h
    obtain ⟨hiff, hinv⟩ := hone x a x' hi hp h
    exact ⟨hinv (hiff.2 hg), hiff.2 hg⟩
  · intro x a x' hi hp hg h hp'
    exact hg ((hone x a x' hi hp h).1.1 hp')

/-- A client that submits a message, every line of which is handled before the next is typed. -/
def submitRun : List Act :=
  [.type (text "MAIL FROM: a@b"), .handle, .type (text "RCPT TO: c@d"), .handle, .type (text "DATA"), .handle, .type (text "Hi"),
    .type (text "."), .handle, .handle]

/-- `agreement_iff` on it. -/
theorem agreement_submit : ∃ x', exec (Dialogue.step newYear) (.begin fun _ => none) submitRun = some x' ∧
    (Always (Dialogue.step newYear) Dialogue.InStep (.begin fun _ => none) submitRun ↔
      Meets (Dialogue.step newYear) Dialogue.keepsStep (.begin fun _ => none) submitRun) := by
  have hrun : (exec (Dialogue.step newYear) (.begin fun _ => none) submitRun).isSome = true := by decide +kernel
  obtain ⟨x', hx⟩ := Option.isSome_iff_exists.1 hrun
  exact ⟨x', hx, agreement_iff (fun _ => none) submitRun hx⟩

/-- `DATA` without a sender: the server answers 403 and stays out of data mode, the client reads a body, and its line `Hi` is handled
as a command. -/
theorem body_without_sender :
    ¬Always (Dialogue.step newYear) Dialogue.InStep (.begin fun _ => none)
      [.type (text "DATA"), .handle, .type (text "Hi"), .type (text ".")] := by
  intro hall
  have hrun : (exec (Dialogue.step newYear) (.begin fun _ => none)
      [.type (text "DATA"), .handle, .type (text "Hi"), .type (text ".")]).any
      (fun x => x.queue == [(text "Hi", .body false), (text ".", .body true)] && !x.session.isDataMode) = true := by decide +kernel
  obtain ⟨x, hx, heq⟩ := (Option.any_eq_true _ _).1 hrun
  simp only [Bool.and_eq_true, beq_iff_eq, Bool.not_eq_true'] at heq
  have hmode := (hall _ (List.prefix_refl _) x hx).2
  rw [heq.1, heq.2] at hmode
  exact Bool.false_ne_true hmode

end NetLabs.Mail
