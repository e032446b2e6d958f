import NetLabs.Lib.Machine
import NetLabs.Mail.Server

/-!
# The directory of the mailboxes

The name of a mailbox file is the address between `mailbox/` and `.txt`, cut to the 255 characters that the buffer holds. Nothing
looks for a `/` in an address, and the one `LIST` is given may be longer than the buffer.
-/

namespace NetLabs.Mail

open CText Lines Tokens Machine

variable {host : Host} {s : Session} {d : Disk} {line address : List UInt8} {o : Outcome}

/-- The name of a file directly inside the directory `mailbox`, with the ending `.txt`. -/
def Confined (name : List UInt8) : Prop :=
  (∃ rest, name = text "mailbox/" ++ rest ∧ (47 : UInt8) ∉ rest) ∧ text ".txt" <:+ name

/-- An address whose mailbox name is confined: no slash in the part that fits, and the ending fits too or is part of the address. -/
def AddressOk (address : List UInt8) : Prop :=
  (47 : UInt8) ∉ address.take 247 ∧ (address.length ≤ 243 ∨ 247 ≤ address.length ∧ text ".txt" <:+ address.take 247)

/-- The name of a mailbox is the directory and what fits of the rest. -/
theorem mailboxName_eq (address : List UInt8) :
    mailboxName address = text "mailbox/" ++ (address.take 247 ++ (text ".txt").take (247 - address.length)) := by
  have hlen : (text "mailbox/").length = 8 := by decide
  rw [mailboxName, List.append_assoc, List.take_append, hlen, List.take_append, List.take_of_length_le (by omega)]

/-- A short ending of a concatenation is an ending of the second part. -/
theorem suffix_append_iff {t a b : List UInt8} (h : t.length ≤ b.length) : t <:+ a ++ b ↔ t <:+ b :=
  ⟨fun ht => List.suffix_of_suffix_length_le ht (List.suffix_append a b) h, fun ht => ht.trans (List.suffix_append a b)⟩

/-- Three characters or fewer of `.txt` are no `.txt`. -/
theorem not_suffix_cut {a : List UInt8} {k : Nat} (h1 : 0 < k) (h4 : k < 4) : ¬text ".txt" <:+ a ++ (text ".txt").take k := by
  intro h
  rw [← List.reverse_prefix, List.reverse_append] at h
  obtain ⟨t, ht⟩ := h
  have hcases : k = 1 ∨ k = 2 ∨ k = 3 := by omega
  rcases hcases with rfl | rfl | rfl <;> simp [text] at ht

/-- Which addresses have a confined mailbox. -/
theorem confined_iff (address : List UInt8) : Confined (mailboxName address) ↔ AddressOk address := by
  have hslash : (∃ rest, mailboxName address = text "mailbox/" ++ rest ∧ (47 : UInt8) ∉ rest) ↔
      (47 : UInt8) ∉ address.take 247 := by
    have htxt : ∀ k, (47 : UInt8) ∉ (text ".txt").take k := by
      intro k h
      have : (47 : UInt8) ∉ text ".txt" := by decide
      exact this (List.mem_of_mem_take h)
    rw [mailboxName_eq]
    constructor
    · rintro ⟨rest, hrest, hmem⟩
      rw [← List.append_cancel_left hrest, List.mem_append, not_or] at hmem
      exact hmem.1
    · intro h
      refine ⟨_, rfl, ?_⟩
      rw [List.mem_append, not_or]
      exact ⟨h, htxt _⟩
  have hending : text ".txt" <:+ mailboxName address ↔
      (address.length ≤ 243 ∨ 247 ≤ address.length ∧ text ".txt" <:+ address.take 247) := by
    have hfour : (text ".txt").length = 4 := by decide
    rw [mailboxName_eq]
    by_cases hshort : address.length ≤ 243
    · rw [List.take_of_length_le (l := text ".txt") (by omega), ← List.append_assoc]
      exact iff_of_true (List.suffix_append _ _) (Or.inl hshort)
    · by_cases hlong : 247 ≤ address.length
      · have hzero : 247 - address.length = 0 := by omega
        have hlen : (text ".txt").length ≤ (address.take 247).length := by
          rw [List.length_take]
          omega
        rw [hzero, List.take_zero, List.append_nil, suffix_append_iff hlen]
        constructor
        · exact fun h => Or.inr ⟨hlong, h⟩
        · rintro (h | ⟨_, h⟩)
          · exact absurd h hshort
          · exact h
      · rw [← List.append_assoc]
        refine iff_of_false (not_suffix_cut (by omega) (by omega)) ?_
        rintro (h | ⟨h, _⟩)
        · exact hshort h
        · exact hlong h
  rw [Confined, hslash, hending, AddressOk]

/-! ## What the server opens -/

/-- The address whose mailbox a line makes the server open, in a session. -/
def addressOpened (s : Session) (line : List UInt8) : Option (List UInt8) :=
  if s.isDataMode then if line = dot then some s.recipient else none
  else if startsWith line (text "LIST ") then if validateEmail (line.drop 5) then some (line.drop 5) else none
  else if startsWith line (text "GET_MAIL ") then
    match getMailArgs (line.drop 9) with
    | .ok (some (email, id)) => if !validateEmail email || id ≤ 0 then none else some email
    | _ => none
  else none

/-- The names opened, after one more for the address. -/
def openedAfter (d : Disk) (address : Option (List UInt8)) : List (List UInt8) := d.opened ++ (address.map mailboxName).toList

theorem handleDataContent_opened :
    (handleDataContent host s d line).disk.opened = openedAfter d (if line = dot then some s.recipient else none) := by
  unfold handleDataContent
  split
  · simp only [saveEmail]
    split <;> simp [openedAfter]
  · split <;> simp [openedAfter]

theorem handleList_opened (h : handleList s d address = .ok o) :
    o.disk.opened = openedAfter d (if validateEmail address then some address else none) := by
  obtain hv | ⟨hv, _⟩ | ⟨_, _, hv, _, _⟩ := handleList_listed h <;> simp [openedAfter, hv]

theorem handleGetMail_opened (h : handleGetMail s d line = .ok o) :
    o.disk.opened = openedAfter d (match getMailArgs line with
      | .ok (some (email, id)) => if !validateEmail email || id ≤ 0 then none else some email
      | _ => none) := by
  obtain hargs | ⟨_, _, hargs, hbad⟩ | ⟨_, _, hargs, ⟨hv, hid⟩, _⟩ | ⟨_, _, _, _, hargs, ⟨hv, hid⟩, _, _⟩ :=
    handleGetMail_fetched h
  · simp [hargs, openedAfter]
  · simp [hargs, openedAfter, hbad]
  · simp [hargs, openedAfter, hv, Int.not_le.2 hid]
  · simp [hargs, openedAfter, hv, Int.not_le.2 hid]

/-- A command that starts with neither an L nor a G names no mailbox. -/
theorem addressOpened_other {p : List UInt8} (hmode : s.isDataMode = false) (hp : startsWith line p = true) (hne : p ≠ [])
    (hl : p.head? ≠ some 76) (hg : p.head? ≠ some 71) : addressOpened s line = none := by
  have hlist : startsWith line (text "LIST ") = false := not_startsWith_both hp hne (by decide) hl
  have hget : startsWith line (text "GET_MAIL ") = false := not_startsWith_both hp hne (by decide) hg
  simp [addressOpened, hmode, hlist, hget]

/-- A command opens the mailbox of its address, if it has one, and nothing else. -/
theorem processCommand_opened (hmode : s.isDataMode = false) (h : processCommand s d line = .ok o) :
    o.disk.opened = openedAfter d (addressOpened s line) := by
  have hnone : openedAfter d none = d.opened := by simp [openedAfter]
  cases processCommand_processed h with
  | helo hp =>
    rw [addressOpened_other hmode hp (by decide) (by decide) (by decide), hnone, handleHelo]
    split <;> rfl
  | mailFrom hp =>
    rw [addressOpened_other hmode hp (by decide) (by decide) (by decide), hnone, handleMailFrom]
    split <;> rfl
  | rcptTo hp =>
    rw [addressOpened_other hmode hp (by decide) (by decide) (by decide), hnone, handleRcptTo]
    split <;> rfl
  | data hp =>
    have hstart : startsWith line (text "DATA") = true := by rw [hp]; decide
    rw [addressOpened_other hmode hstart (by decide) (by decide) (by decide), hnone, handleData]
    split <;> rfl
  | list _ hp ho =>
    rw [handleList_opened ho]
    simp [addressOpened, hmode, hp]
  | getMail _ hp ho =>
    have hlist : startsWith line (text "LIST ") = false := not_startsWith_both hp (by decide) (by decide) (by decide)
    rw [handleGetMail_opened ho]
    simp [addressOpened, hmode, hlist, hp]
  | quit hp =>
    have hstart : startsWith line (text "QUIT") = true := by rw [hp]; decide
    rw [addressOpened_other hmode hstart (by decide) (by decide) (by decide), hnone]
  | unknown hp =>
    rw [← hnone]
    simp [addressOpened, hmode, hp.list, hp.getMail]

/-- So does every line. -/
theorem handleLine_opened (h : handleLine host s d line = .ok o) : o.disk.opened = openedAfter d (addressOpened s line) := by
  unfold handleLine at h
  cases hmode : s.isDataMode with
  | true =>
    rw [hmode, if_pos rfl] at h
    cases h
    rw [handleDataContent_opened]
    simp [addressOpened, hmode]
  | false =>
    rw [hmode, if_neg Bool.false_ne_true] at h
    exact processCommand_opened hmode h

/-! ## Every run -/

/-- Every name the server has opened is confined. -/
def Connection.Confined (c : Connection) : Prop := ∀ name ∈ c.disk.opened, Mail.Confined name

/-- The address a line makes the server open is one whose mailbox name is confined. -/
def Connection.opensOk (c : Connection) (line : List UInt8) : Prop := ∀ address ∈ addressOpened c.session line, AddressOk address

/-- A line keeps the opened names confined exactly when its address allows it. -/
theorem step_confined_iff {c c' : Connection} (hc : c.Confined) (h : c.step host line = some c') :
    c'.Confined ↔ c.opensOk line := by
  unfold Connection.step at h
  split at h
  · rename_i o ho
    cases h
    simp only [Connection.Confined, Connection.opensOk, handleLine_opened ho, openedAfter, List.mem_append, Option.mem_toList,
      Option.mem_def, Option.map_eq_some_iff]
    constructor
    · intro hall address ha
      exact (confined_iff address).1 (hall _ (Or.inr ⟨address, ha, rfl⟩))
    · rintro hok name (hname | ⟨address, ha, rfl⟩)
      · exact hc name hname
      · exact (confined_iff address).2 (hok address ha)
  · cases h

/-- The beginning of a connection: nothing opened yet. -/
def Connection.begin (files : List UInt8 → Option (List UInt8)) : Connection := ⟨.begin, { Disk.empty with files := files }⟩

/-- Mailbox confinement. Over any host, mailboxes and lines, every file name the server opens lies directly in the directory of the
mailboxes and ends in `.txt` exactly when every address opened has no slash in what fits of it, and is short enough for the ending
to fit or brings it along. -/
theorem confinement_iff (files : List UInt8 → Option (List UInt8)) (lines : List (List UInt8)) {c' : Connection}
    (hx : exec (Connection.step host) (.begin files) lines = some c') :
    Always (Connection.step host) Connection.Confined (.begin files) lines ↔
      Meets (Connection.step host) Connection.opensOk (.begin files) lines := by
  refine always_iff_meets (I := fun _ => True) (fun _ _ _ _ _ => trivial) ?_ ?_ trivial ?_ hx
  · intro c line c' _ hc hg h
    exact (step_confined_iff hc h).2 hg
  · intro c line c' _ hc hg h hc'
    exact hg ((step_confined_iff hc h).1 hc')
  · intro name hname
    cases hname

/-- `confinement_iff` on a client that lists the mailbox of `a@b`. -/
theorem confinement_one : ∃ c', exec (Connection.step newYear) (.begin fun _ => none) [text "LIST a@b"] = some c' ∧
    (Always (Connection.step newYear) Connection.Confined (.begin fun _ => none) [text "LIST a@b"] ↔
      Meets (Connection.step newYear) Connection.opensOk (.begin fun _ => none) [text "LIST a@b"]) :=
  ⟨_, rfl, confinement_iff (fun _ => none) [text "LIST a@b"] rfl⟩

/-- `LIST ../a@b` opens `mailbox/../a@b.txt`. -/
theorem listed_outside :
    ¬Always (Connection.step newYear) Connection.Confined (.begin fun _ => none) [text "LIST ../a@b"] := by
  intro hall
  have hrun : ∃ c', exec (Connection.step newYear) (.begin fun _ => none) [text "LIST ../a@b"] = some c' ∧
      c'.disk.opened = [mailboxName (text "../a@b")] := ⟨_, rfl, rfl⟩
  obtain ⟨c', hx, hopened⟩ := hrun
  have hname := hall _ (List.prefix_refl _) c' hx _ (by rw [hopened]; exact List.mem_singleton_self _)
  have hslash := ((confined_iff _).1 hname).1
  exact hslash (by decide)

end NetLabs.Mail
