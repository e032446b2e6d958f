import NetLabs.Mail.Server

/-!
# How the stream is cut

`handle_client` tokenises each result of `recv` by itself and keeps nothing over to the next one. What it processes are the lines of
the stream exactly when every cut is next to a line end and no byte is a NUL; then the replies, the mailboxes and the session do not
depend on the cuts.
-/

namespace NetLabs.Mail

open CText Lines Tokens

variable {host : Host} {s : Session} {d : Disk} {chunks chunks' lines lines' : List (List UInt8)}

/-- Chunks as `recv(…, BUFFER_SIZE - 1, 0)` returns them. -/
def Received (chunks : List (List UInt8)) : Prop := ∀ c ∈ chunks, 0 < c.length ∧ c.length ≤ 1023

instance (chunks : List (List UInt8)) : Decidable (Received chunks) :=
  inferInstanceAs (Decidable (∀ c ∈ chunks, 0 < c.length ∧ c.length ≤ 1023))

/-- Every line arrives whole: no cut goes through one, and none has a NUL in it. -/
structure Whole (chunks : List (List UInt8)) : Prop where
  noNul : (0 : UInt8) ∉ chunks.flatten
  clean : chunks.IsChain (Clean isCrlf)

/-- A text that is part of one line. -/
def Inline (l : List UInt8) : Prop := ∀ b ∈ l, isCrlf b = false ∧ b ≠ 0

instance (l : List UInt8) : Decidable (Inline l) := List.decidableBAll (fun b => isCrlf b = false ∧ b ≠ 0) l

theorem Inline.plain {l : List UInt8} (h : Inline l) : Plain l :=
  ⟨fun hm => absurd (h newline hm).1 (by decide), fun hm => absurd rfl (h 0 hm).2⟩

theorem Inline.append {l l' : List UInt8} (h : Inline l) (h' : Inline l') : Inline (l ++ l') := by
  intro b hb
  rcases List.mem_append.1 hb with hb | hb
  · exact h b hb
  · exact h' b hb

/-- The lines of a sequence of lines with their line ends are those that are not empty. -/
theorem tokens_lines (h : ∀ l ∈ lines, Inline l) : tokens isCrlf (lines.flatMap (· ++ crlf)) = lines.filter (!·.isEmpty) := by
  induction lines with
  | nil => rfl
  | cons l lines ih =>
    rw [List.forall_mem_cons] at h
    have hline : ∀ b ∈ l, isCrlf b = false := fun b hb => (h.1 b hb).1
    by_cases hl : l = []
    · subst hl
      have hskip : tokens isCrlf (crlf ++ lines.flatMap (· ++ crlf)) = tokens isCrlf (lines.flatMap (· ++ crlf)) :=
        tokens_skip (by simp [crlf, isCrlf])
      rw [List.flatMap_cons, List.nil_append, hskip, ih h.2]
      rfl
    · have hskip : tokens isCrlf ([10] ++ lines.flatMap (· ++ crlf)) = tokens isCrlf (lines.flatMap (· ++ crlf)) :=
        tokens_skip (by simp [isCrlf])
      have hsplit : (l :: lines).flatMap (· ++ crlf) = l ++ 13 :: ([10] ++ lines.flatMap (· ++ crlf)) := by simp [crlf]
      rw [hsplit, tokens_run hline hl (by decide), hskip, ih h.2, List.filter_cons_of_pos (by simpa using hl)]

/-- Three things one after another. -/
theorem andThen_assoc (r : Except Fault Outcome) (f g : Session → Disk → Except Fault Outcome) :
    andThen (andThen r f) g = andThen r fun s d => andThen (f s d) g := by
  cases r with
  | error x => rfl
  | ok o =>
    simp only [andThen]
    cases f o.session o.disk with
    | error x => rfl
    | ok o₁ =>
      simp only [Except.map]
      cases g o₁.session o₁.disk with
      | error x => rfl
      | ok o₂ => simp only [List.append_assoc]

/-- After nothing. -/
theorem andThen_nothing (f : Session → Disk → Except Fault Outcome) : andThen (.ok ⟨s, d, []⟩) f = f s d := by
  simp only [andThen, List.nil_append]
  cases f s d <;> rfl

/-- Lines processed in two parts. -/
theorem runLines_append :
    runLines host s d (lines ++ lines') = andThen (runLines host s d lines) fun s d => runLines host s d lines' := by
  induction lines generalizing s d with
  | nil => rw [List.nil_append, runLines, andThen_nothing]
  | cons line lines ih => simp only [List.cons_append, runLines, ih, andThen_assoc]

/-- `handle_client` processes the lines of its chunks. -/
theorem serve_eq_runLines : serve host s d chunks = runLines host s d (chunks.flatMap chunkLines) := by
  induction chunks generalizing s d with
  | nil => rfl
  | cons c chunks ih => simp only [List.flatMap_cons, runLines_append, serve, ih]

/-- No line has a NUL in it. -/
theorem zero_not_mem_of_chunkLines {c l : List UInt8} (h : l ∈ chunkLines c) : (0 : UInt8) ∉ l :=
  fun h0 => zero_not_mem_cstr c ((of_mem_tokens h).2 0 h0).2

/-- Without a NUL, the lines of a chunk are its tokens. -/
theorem chunkLines_of_noNul {c : List UInt8} (h : (0 : UInt8) ∉ c) : chunkLines c = tokens isCrlf c := by
  rw [chunkLines, cstr_of_not_mem h]

/-- What is processed are the lines of the stream exactly when every line arrives whole. -/
theorem lines_of_stream_iff (hr : Received chunks) :
    chunks.flatMap chunkLines = tokens isCrlf chunks.flatten ↔ Whole chunks := by
  have hne : ∀ c ∈ chunks, c ≠ [] := fun c hc => List.ne_nil_of_length_pos (hr c hc).1
  have hmap : (0 : UInt8) ∉ chunks.flatten → chunks.flatMap chunkLines = chunks.flatMap (tokens isCrlf) := by
    intro h0
    refine List.flatMap_congr fun c hc => chunkLines_of_noNul fun hmem => h0 ?_
    exact List.mem_flatten.2 ⟨c, hc, hmem⟩
  constructor
  · intro heq
    have h0 : (0 : UInt8) ∉ chunks.flatten := by
      intro hmem
      have hnul : isCrlf 0 = false := rfl
      obtain ⟨t, ht, h0t⟩ := exists_mem_tokens hnul hmem
      rw [← heq, List.mem_flatMap] at ht
      obtain ⟨c, _, htc⟩ := ht
      exact zero_not_mem_of_chunkLines htc h0t
    rw [hmap h0] at heq
    exact ⟨h0, (tokens_flatten_iff hne).1 heq⟩
  · rintro ⟨h0, hclean⟩
    rw [hmap h0]
    exact (tokens_flatten_iff hne).2 hclean

/-- Lines that arrive whole are processed as the stream's. -/
theorem serve_whole (hr : Received chunks) (hw : Whole chunks) :
    serve host s d chunks = runLines host s d (tokens isCrlf chunks.flatten) := by
  rw [serve_eq_runLines, (lines_of_stream_iff hr).2 hw]

/-- A line that arrives whole is no longer than what `recv` can return. -/
theorem length_le_of_whole {line : List UInt8} (hr : Received chunks) (hw : Whole chunks)
    (h : line ∈ tokens isCrlf chunks.flatten) : line.length ≤ 1023 := by
  rw [← (lines_of_stream_iff hr).2 hw, List.mem_flatMap] at h
  obtain ⟨c, hc, hline⟩ := h
  have hcut : (cstr c).length ≤ c.length := (List.takeWhile_prefix _).length_le
  have := length_le_of_mem_tokens hline
  have := (hr c hc).2
  omega

/-- Segmentation of the stream, for any chunks `recv` can return: the lines processed are those of the stream exactly when every line
arrives whole; and two deliveries of one stream in which every line does give, on any host and from any session and mailboxes, the
same replies, the same mailbox files and the same session. -/
theorem segmentation_iff (hr : Received chunks) :
    (chunks.flatMap chunkLines = tokens isCrlf chunks.flatten ↔ Whole chunks) ∧
      (Whole chunks → ∀ chunks', Received chunks' → chunks'.flatten = chunks.flatten → Whole chunks' →
        ∀ host s d, serve host s d chunks' = serve host s d chunks) := by
  refine ⟨lines_of_stream_iff hr, fun hw chunks' hr' hflat hw' host s d => ?_⟩
  rw [serve_whole hr hw, serve_whole hr' hw', hflat]

/-- `segmentation_iff` on a command and its line end, cut between the two. -/
theorem segmentation_quit :
    ([text "QUIT", crlf].flatMap chunkLines = tokens isCrlf [text "QUIT", crlf].flatten ↔ Whole [text "QUIT", crlf]) ∧
      (Whole [text "QUIT", crlf] → ∀ chunks', Received chunks' → chunks'.flatten = [text "QUIT", crlf].flatten → Whole chunks' →
        ∀ host s d, serve host s d chunks' = serve host s d [text "QUIT", crlf]) :=
  segmentation_iff (by unfold Received; decide)

/-- `LIST a@b` in one piece is answered once, with 401; cut after its fourth byte it is two commands, both answered with 400. -/
theorem segmentation_list :
    Received [text "LIST a@b\r\n"] ∧ Received [text "LIST", text " a@b\r\n"] ∧
      [text "LIST a@b\r\n"].flatten = [text "LIST", text " a@b\r\n"].flatten ∧
      (serve newYear .begin .empty [text "LIST a@b\r\n"]).map Outcome.sent = .ok [notFound] ∧
      (serve newYear .begin .empty [text "LIST", text " a@b\r\n"]).map Outcome.sent = .ok [invalidSyntax, invalidSyntax] ∧
      notFound ≠ invalidSyntax := by
  refine ⟨by unfold Received; decide, by unfold Received; decide, by decide, rfl, rfl, by decide⟩

end NetLabs.Mail
