import NetLabs.Lib.CText

/-!
# Reading a file line by line

`fgets n` cuts a file into the pieces that successive calls of `fgets` with a buffer of `n + 1` bytes return: a piece ends after a
newline or when it has `n` bytes. `fileLines n` are these pieces without their newline, as C strings. A file that is a sequence of
lines gives these lines back, except that one of exactly `n` bytes is followed by an empty one (`fileLines_unlines`).
-/

namespace NetLabs.Lines

open CText

/-- The newline. -/
def newline : UInt8 := 10

/-- The pieces of a file of which `cur` has been read into the buffer. -/
def fgetsFrom (n : Nat) : List UInt8 → List UInt8 → List (List UInt8)
  | cur, [] => if cur.isEmpty then [] else [cur]
  | cur, b :: rest =>
    if b = newline ∨ cur.length + 1 = n then (cur ++ [b]) :: fgetsFrom n [] rest else fgetsFrom n (cur ++ [b]) rest

/-- The pieces in which `fgets(line, n + 1, file)` reads a file. -/
def fgets (n : Nat) (content : List UInt8) : List (List UInt8) := fgetsFrom n [] content

/-- `line[strcspn(line, "\n")] = 0`, and the C string that is left. -/
def chomp (piece : List UInt8) : List UInt8 := (cstr piece).takeWhile (· != newline)

/-- The lines of a file as such a loop sees them. -/
def fileLines (n : Nat) (content : List UInt8) : List (List UInt8) := (fgets n content).map chomp

/-- A text with neither a newline nor a NUL. -/
def Plain (l : List UInt8) : Prop := newline ∉ l ∧ (0 : UInt8) ∉ l

theorem plain_append {a b : List UInt8} (ha : Plain a) (hb : Plain b) : Plain (a ++ b) := by
  simp only [Plain, List.mem_append, not_or]
  exact ⟨⟨ha.1, hb.1⟩, ha.2, hb.2⟩

/-- A sequence of lines as text. -/
def unlines (ls : List (List UInt8)) : List UInt8 := ls.flatMap (· ++ [newline])

/-- What the loop sees of a line: a line that fills the buffer leaves its newline to the next `fgets`. -/
def pieces (n : Nat) (l : List UInt8) : List (List UInt8) := if l.length = n then [l, []] else [l]

variable {n : Nat} {l cur rest : List UInt8} {ls : List (List UInt8)}

/-- A text is a sequence of lines in one way only. -/
theorem unlines_inj {ls' : List (List UInt8)} (h : ∀ l ∈ ls, newline ∉ l) (h' : ∀ l ∈ ls', newline ∉ l)
    (heq : unlines ls = unlines ls') : ls = ls' := by
  have hspan : ∀ {l : List UInt8} (ls : List (List UInt8)), newline ∉ l →
      (unlines (l :: ls)).takeWhile (· != newline) = l ∧ (unlines (l :: ls)).dropWhile (· != newline) = newline :: unlines ls := by
    intro l ls hl
    have hsplit : unlines (l :: ls) = l ++ newline :: unlines ls := by simp [unlines]
    rw [hsplit]
    refine span_append (fun b hb => ?_) (by simp)
    have : b ≠ newline := fun e => hl (e ▸ hb)
    simpa using this
  induction ls generalizing ls' with
  | nil =>
    cases ls' with
    | nil => rfl
    | cons l' ls' => simp [unlines] at heq
  | cons l ls ih =>
    cases ls' with
    | nil => simp [unlines] at heq
    | cons l' ls' =>
      rw [List.forall_mem_cons] at h h'
      obtain ⟨htake, hdrop⟩ := hspan ls h.1
      obtain ⟨htake', hdrop'⟩ := hspan ls' h'.1
      rw [heq] at htake hdrop
      have hl : l = l' := htake.symm.trans htake'
      have hrest : unlines ls = unlines ls' := (List.cons.inj (hdrop.symm.trans hdrop')).2
      rw [hl, ih h.2 h'.2 hrest]

/-- The pieces are the file, cut. -/
theorem flatten_fgetsFrom (n : Nat) (cur content : List UInt8) : (fgetsFrom n cur content).flatten = cur ++ content := by
  induction content generalizing cur with
  | nil =>
    unfold fgetsFrom
    split
    · rename_i hempty
      rw [List.isEmpty_iff.1 hempty]
      rfl
    · simp
  | cons b rest ih =>
    unfold fgetsFrom
    split <;> simp [ih]

theorem flatten_fgets (n : Nat) (content : List UInt8) : (fgets n content).flatten = content :=
  flatten_fgetsFrom n [] content

/-- No piece is longer than the buffer. -/
theorem length_le_of_mem_fgetsFrom {n : Nat} {cur content piece : List UInt8} (hcur : cur.length < n)
    (h : piece ∈ fgetsFrom n cur content) : piece.length ≤ n := by
  induction content generalizing cur with
  | nil =>
    unfold fgetsFrom at h
    split at h
    · cases h
    · obtain rfl := List.mem_singleton.1 h
      omega
  | cons b rest ih =>
    have hlength : (cur ++ [b]).length = cur.length + 1 := by simp
    unfold fgetsFrom at h
    split at h
    · rcases List.mem_cons.1 h with rfl | h
      · omega
      · exact ih (by rw [List.length_nil]; omega) h
    · rename_i hgoes
      exact ih (by rw [hlength]; omega) h

/-- A line that fits with its newline is one piece. -/
theorem fgetsFrom_line (h : newline ∉ l) (hlen : cur.length + l.length < n) :
    fgetsFrom n cur (l ++ newline :: rest) = (cur ++ l ++ [newline]) :: fgetsFrom n [] rest := by
  induction l generalizing cur with
  | nil => simp [fgetsFrom]
  | cons b l ih =>
    rw [List.mem_cons, not_or] at h
    have hb : ¬(b = newline ∨ cur.length + 1 = n) := by
      rintro (rfl | he)
      · exact h.1 rfl
      · simp only [List.length_cons] at hlen
        omega
    have hlen' : (cur ++ [b]).length + l.length < n := by
      simp only [List.length_append, List.length_cons, List.length_nil] at *
      omega
    rw [List.cons_append, fgetsFrom, if_neg hb, ih h.2 hlen']
    simp

/-- A text that fills the buffer is one piece, without its newline. -/
theorem fgetsFrom_full (h : newline ∉ l) (hl : l ≠ []) (hlen : cur.length + l.length = n) :
    fgetsFrom n cur (l ++ rest) = (cur ++ l) :: fgetsFrom n [] rest := by
  induction l generalizing cur with
  | nil => exact absurd rfl hl
  | cons b l ih =>
    rw [List.mem_cons, not_or] at h
    rw [List.cons_append, fgetsFrom]
    by_cases hlast : cur.length + 1 = n
    · have hnil : l = [] := by
        simp only [List.length_cons] at hlen
        exact List.length_eq_zero_iff.1 (by omega)
      subst hnil
      rw [if_pos (Or.inr hlast)]
      simp
    · have hb : ¬(b = newline ∨ cur.length + 1 = n) := by
        rintro (rfl | he)
        · exact h.1 rfl
        · exact hlast he
      have hne : l ≠ [] := by
        rintro rfl
        simp only [List.length_cons, List.length_nil] at hlen
        omega
      rw [if_neg hb, ih h.2 hne (by simp only [List.length_append, List.length_cons, List.length_nil] at *; omega)]
      simp

/-- A piece with its newline is seen without it. -/
theorem chomp_line (h : Plain l) : chomp (l ++ [newline]) = l := by
  have hz : (0 : UInt8) ∉ l ++ [newline] := by
    simp only [List.mem_append, List.mem_singleton, not_or]
    exact ⟨h.2, by decide⟩
  rw [chomp, cstr_of_not_mem hz, List.takeWhile_append_of_pos]
  · simp
  · intro b hb
    have : b ≠ newline := fun e => h.1 (e ▸ hb)
    simpa using this

theorem chomp_plain (h : Plain l) : chomp l = l := by
  rw [chomp, cstr_of_not_mem h.2]
  refine List.takeWhile_eq_self_iff.2 fun b hb => ?_
  have : b ≠ newline := fun e => h.1 (e ▸ hb)
  simpa using this

/-- What the loop sees of one line and what comes after it. -/
theorem fileLines_line (h : Plain l) (hlen : l.length ≤ n) (hn : 0 < n) :
    fileLines n (l ++ newline :: rest) = pieces n l ++ fileLines n rest := by
  by_cases hfull : l.length = n
  · have hl : l ≠ [] := by
      rintro rfl
      simp only [List.length_nil] at hfull
      omega
    have htail : fgetsFrom n [] (newline :: rest) = [newline] :: fgetsFrom n [] rest := by simp [fgetsFrom]
    have hempty : chomp [newline] = [] := chomp_line (l := []) ⟨by simp, by simp⟩
    rw [fileLines, fgets, fgetsFrom_full h.1 hl (by simpa using hfull), htail, pieces, if_pos hfull]
    simp only [List.nil_append, List.map_cons, chomp_plain h, hempty, List.cons_append]
    rfl
  · rw [fileLines, fgets, fgetsFrom_line h.1 (by simp only [List.length_nil]; omega), pieces, if_neg hfull]
    simp only [List.nil_append, List.map_cons, chomp_line h, List.cons_append]
    rfl

/-- What the loop sees of a sequence of lines and what comes after them. -/
theorem fileLines_unlines (h : ∀ l ∈ ls, Plain l ∧ l.length ≤ n) (hn : 0 < n) :
    fileLines n (unlines ls ++ rest) = ls.flatMap (pieces n) ++ fileLines n rest := by
  induction ls with
  | nil => rfl
  | cons l ls ih =>
    rw [List.forall_mem_cons] at h
    have hsplit : unlines (l :: ls) ++ rest = l ++ newline :: (unlines ls ++ rest) := by simp [unlines]
    rw [hsplit, fileLines_line h.1.1 h.1.2 hn, ih h.2, List.flatMap_cons, List.append_assoc]

@[simp] theorem fileLines_nil : fileLines n [] = [] := rfl

/-- The loop sees only plain lines. -/
theorem plain_of_mem_fileLines {content : List UInt8} (h : l ∈ fileLines n content) : Plain l := by
  obtain ⟨piece, _, rfl⟩ := List.mem_map.1 h
  constructor
  · intro hm
    have := List.mem_takeWhile_imp hm
    simp at this
  · intro hm
    exact zero_not_mem_cstr piece (List.takeWhile_subset _ hm)

/-! ## The lines themselves -/

section Rows

/-- The lines of a file, each with its newline; the last one may have none. -/
def rows : List UInt8 → List (List UInt8)
  | [] => []
  | b :: rest =>
    if b = newline then [b] :: rows rest
    else
      match rows rest with
      | [] => [[b]]
      | r :: rs => (b :: r) :: rs

/-- The line of the file in which the `i`-th piece begins. -/
def startRow (n : Nat) (content : List UInt8) (i : Nat) : Nat := ((fgets n content).take i).flatten.count newline

variable {content : List UInt8} {m i : Nat}

/-- A text that ends in no newline is its last line. -/
theorem rows_last (hl : l ≠ []) (h : newline ∉ l) : rows l = [l] := by
  induction l with
  | nil => exact absurd rfl hl
  | cons b l ih =>
    rw [List.mem_cons, not_or] at h
    rw [rows, if_neg fun e => h.1 e.symm]
    cases l with
    | nil => rfl
    | cons c l => rw [ih (List.cons_ne_nil c l) h.2]

/-- A line and the lines after it. -/
theorem rows_line (h : newline ∉ l) (rest : List UInt8) : rows (l ++ newline :: rest) = (l ++ [newline]) :: rows rest := by
  induction l with
  | nil => simp [rows]
  | cons b l ih =>
    rw [List.mem_cons, not_or] at h
    rw [List.cons_append, rows, if_neg fun e => h.1 e.symm, ih h.2]
    rfl

/-- The induction rule: a file is empty, or a last line without a newline, or a line and more. -/
theorem rows_induction {P : List UInt8 → Prop} (nil : P []) (last : ∀ l, l ≠ [] → newline ∉ l → P l)
    (line : ∀ l rest, newline ∉ l → P rest → P (l ++ newline :: rest)) (content : List UInt8) : P content := by
  induction hlen : content.length using Nat.strong_induction_on generalizing content with
  | _ k ih =>
    by_cases hmem : newline ∈ content
    · obtain ⟨l, rest, rfl, hl⟩ := List.eq_append_cons_of_mem hmem
      exact line l rest hl (ih rest.length (by simp at hlen; omega) rest rfl)
    · by_cases hnil : content = []
      · rw [hnil]
        exact nil
      · exact last content hnil hmem

/-- A line that fits with its newline, and what comes after it. -/
theorem fgets_line (h : newline ∉ l) (hlen : l.length < n) (rest : List UInt8) :
    fgets n (l ++ newline :: rest) = (l ++ [newline]) :: fgets n rest := by
  rw [fgets, fgetsFrom_line h (by simpa using hlen), List.nil_append]
  rfl

/-- A text that does not fit is cut where the buffer is full. -/
theorem fgets_cut (h : newline ∉ l) (hn : 0 < n) (hlen : n ≤ l.length) (rest : List UInt8) :
    fgets n (l ++ rest) = l.take n :: fgets n (l.drop n ++ rest) := by
  have htake : newline ∉ l.take n := fun hm => h (List.mem_of_mem_take hm)
  have hfull : (l.take n).length = n := List.length_take_of_le hlen
  have hne : l.take n ≠ [] := by
    intro hnil
    rw [hnil, List.length_nil] at hfull
    omega
  calc fgets n (l ++ rest) = fgetsFrom n [] (l.take n ++ (l.drop n ++ rest)) := by
        rw [← List.append_assoc, List.take_append_drop]
        rfl
    _ = l.take n :: fgets n (l.drop n ++ rest) := by
        rw [fgetsFrom_full htake hne (by simpa using hfull), List.nil_append]
        rfl

/-- The text after the last newline, when it does not fill the buffer. -/
theorem fgetsFrom_rest (h : newline ∉ l) (hlen : cur.length + l.length < n) (hne : cur ++ l ≠ []) :
    fgetsFrom n cur l = [cur ++ l] := by
  induction l generalizing cur with
  | nil =>
    rw [List.append_nil] at hne ⊢
    rw [fgetsFrom, if_neg (by simpa using hne)]
  | cons b l ih =>
    rw [List.mem_cons, not_or] at h
    simp only [List.length_cons] at hlen
    have hb : ¬(b = newline ∨ cur.length + 1 = n) := by
      rintro (rfl | he)
      · exact h.1 rfl
      · omega
    rw [fgetsFrom, if_neg hb, ih h.2 (by simp only [List.length_append, List.length_cons, List.length_nil]; omega) (by simp)]
    simp

/-- A last line that fits is one piece. -/
theorem fgets_last (hne : l ≠ []) (h : newline ∉ l) (hlen : l.length ≤ n) : fgets n l = [l] := by
  rcases Nat.lt_or_eq_of_le hlen with hlt | rfl
  · exact fgetsFrom_rest h (by simpa using hlt) hne
  · have hpos : 0 < l.length := List.length_pos_iff.2 hne
    have hcut := fgets_cut h hpos (Nat.le_refl _) []
    simpa [fgets, fgetsFrom] using hcut

@[simp] theorem startRow_zero (n : Nat) (content : List UInt8) : startRow n content 0 = 0 := rfl

/-- Where a piece begins, after the first piece. -/
theorem startRow_succ {piece : List UInt8} (h : fgets n content = piece :: fgets n rest) (i : Nat) :
    startRow n content (i + 1) = piece.count newline + startRow n rest i := by
  rw [startRow, h, List.take_succ_cons, List.flatten_cons, List.count_append]
  rfl

/-- Where the first `m` lines fit, the first `m + 1` pieces are as many lines, the last of them cut. -/
theorem fgets_take_rows (hn : 0 < n) (hfit : ∀ r ∈ (rows content).take m, r.length ≤ n) :
    (fgets n content).take (m + 1) = ((rows content).take (m + 1)).map (List.take n) := by
  induction content using rows_induction generalizing m with
  | nil => rfl
  | last l hne h =>
    rw [rows_last hne h] at hfit ⊢
    by_cases hlen : l.length ≤ n
    · simp [fgets_last hne h hlen, List.take_of_length_le hlen]
    · cases m with
      | zero =>
        have hcut := fgets_cut h hn (by omega) []
        rw [List.append_nil] at hcut
        simp [hcut]
      | succ m => exact absurd (hfit l (by simp)) hlen
  | line l rest h ih =>
    rw [rows_line h] at hfit ⊢
    by_cases hlen : l.length < n
    · have hwhole : (l ++ [newline]).take n = l ++ [newline] := List.take_of_length_le (by simpa using Nat.succ_le_of_lt hlen)
      cases m with
      | zero => simp [fgets_line h hlen, hwhole]
      | succ m =>
        rw [fgets_line h hlen, List.take_succ_cons, List.take_succ_cons, List.map_cons, hwhole, ih]
        intro r hr
        exact hfit r (by rw [List.take_succ_cons]; exact List.mem_cons_of_mem _ hr)
    · cases m with
      | zero =>
        have hcut : (l ++ [newline]).take n = l.take n := List.take_append_of_le_length (by omega)
        simp [fgets_cut h hn (by omega) (newline :: rest), hcut]
      | succ m =>
        have := hfit (l ++ [newline]) (by simp)
        simp at this
        omega

/-- Where the first `m` lines fit, each of the first `m + 1` pieces begins in its own line. -/
theorem startRow_of_fits (hn : 0 < n) (hfit : ∀ r ∈ (rows content).take m, r.length ≤ n)
    (hi : i < ((fgets n content).take (m + 1)).length) : startRow n content i = i := by
  induction content using rows_induction generalizing m i with
  | nil => simp [fgets, fgetsFrom] at hi
  | last l hne h =>
    rw [fgets_take_rows hn hfit, rows_last hne h] at hi
    have : i = 0 := by
      simp at hi
      omega
    rw [this, startRow_zero]
  | line l rest h ih =>
    cases i with
    | zero => exact startRow_zero n _
    | succ i =>
      cases m with
      | zero =>
        rw [List.length_take] at hi
        omega
      | succ m =>
        rw [rows_line h] at hfit
        have hlen : l.length < n := by
          have := hfit (l ++ [newline]) (by simp)
          rw [List.length_append] at this
          exact this
        have hline := fgets_line h hlen rest
        have hrest : ∀ r ∈ (rows rest).take m, r.length ≤ n := fun r hr =>
          hfit r (by rw [List.take_succ_cons]; exact List.mem_cons_of_mem _ hr)
        rw [hline, List.take_succ_cons, List.length_cons] at hi
        rw [startRow_succ hline, ih hrest (by omega), List.count_append, List.count_eq_zero_of_not_mem h]
        simp
        omega

/-- Where one of the first `m` lines does not fit, two of the first `m + 1` pieces begin in one line. -/
theorem exists_startRow_eq (hn : 0 < n) (hlong : ¬∀ r ∈ (rows content).take m, r.length ≤ n) :
    ∃ i, i + 1 < ((fgets n content).take (m + 1)).length ∧ startRow n content i = startRow n content (i + 1) := by
  -- the tail of a line that was cut is a piece that begins in that line
  have hcut : ∀ {l rest content : List UInt8} {m : Nat}, newline ∉ l → n ≤ l.length → l.drop n ++ rest ≠ [] →
      content = l ++ rest →
      ∃ i, i + 1 < ((fgets n content).take (m + 2)).length ∧ startRow n content i = startRow n content (i + 1) := by
    rintro l rest _ m h hlen hne rfl
    have hpieces := fgets_cut h hn hlen rest
    refine ⟨0, ?_, ?_⟩
    · obtain ⟨piece, more, hmore⟩ : ∃ piece more, fgets n (l.drop n ++ rest) = piece :: more := by
        refine List.exists_cons_of_ne_nil fun hnil => hne ?_
        rw [← flatten_fgets n (l.drop n ++ rest), hnil, List.flatten_nil]
      rw [hpieces, hmore]
      simp
    · rw [startRow_succ hpieces, List.count_eq_zero_of_not_mem fun hm => h (List.mem_of_mem_take hm)]
      rfl
  induction content using rows_induction generalizing m with
  | nil => simp [rows] at hlong
  | last l hne h =>
    cases m with
    | zero => simp at hlong
    | succ m =>
      rw [rows_last hne h] at hlong
      have hlen : n < l.length := by simpa using hlong
      exact hcut h (by omega) (by simpa using hlen) (List.append_nil l).symm
  | line l rest h ih =>
    cases m with
    | zero => simp at hlong
    | succ m =>
      by_cases hlen : l.length < n
      · have hline := fgets_line h hlen rest
        have htail : ¬∀ r ∈ (rows rest).take m, r.length ≤ n := by
          intro hall
          refine hlong ?_
          rw [rows_line h, List.take_succ_cons, List.forall_mem_cons]
          exact ⟨by simpa using Nat.succ_le_of_lt hlen, hall⟩
        obtain ⟨i, hi, heq⟩ := ih htail
        refine ⟨i + 1, ?_, ?_⟩
        · rw [hline, List.take_succ_cons, List.length_cons]
          omega
        · rw [startRow_succ hline, startRow_succ hline, heq]
      · exact hcut h (by omega) (by simp) rfl

/-- No two of the first `m + 1` pieces begin in one line exactly when the first `m` lines fit. -/
theorem startRow_inj_iff (content : List UInt8) (m : Nat) (hn : 0 < n) :
    (∀ i j, i < ((fgets n content).take (m + 1)).length → j < ((fgets n content).take (m + 1)).length →
      startRow n content i = startRow n content j → i = j) ↔ ∀ r ∈ (rows content).take m, r.length ≤ n := by
  constructor
  · intro hinj
    by_contra hlong
    obtain ⟨i, hi, heq⟩ := exists_startRow_eq hn hlong
    have := hinj i (i + 1) (by omega) hi heq
    omega
  · intro hfit i j hi hj heq
    rw [startRow_of_fits hn hfit hi, startRow_of_fits hn hfit hj] at heq
    exact heq

end Rows

/-! ## Places in a sequence -/

section Places

variable {α : Type*} {a : α} {s : List α} {P : List α → α → List α → Prop}

/-- A place in a sequence is its head or a place in its tail. -/
theorem exists_place_cons : (∃ pre b post, a :: s = pre ++ b :: post ∧ P pre b post) ↔
    P [] a s ∨ ∃ pre b post, s = pre ++ b :: post ∧ P (a :: pre) b post := by
  constructor
  · rintro ⟨pre, b, post, heq, hP⟩
    cases pre with
    | nil =>
      obtain ⟨rfl, rfl⟩ : a = b ∧ s = post := by simpa using heq
      exact Or.inl hP
    | cons c pre =>
      obtain ⟨rfl, rfl⟩ : a = c ∧ s = pre ++ b :: post := by simpa using heq
      exact Or.inr ⟨pre, b, post, rfl, hP⟩
  · rintro (hP | ⟨pre, b, post, rfl, hP⟩)
    · exact ⟨[], a, s, rfl, hP⟩
    · exact ⟨a :: pre, b, post, rfl, hP⟩

/-- What holds at every place holds at the head and at every place of the tail. -/
theorem forall_place_cons : (∀ pre b post, a :: s = pre ++ b :: post → P pre b post) ↔
    P [] a s ∧ ∀ pre b post, s = pre ++ b :: post → P (a :: pre) b post := by
  constructor
  · intro h
    exact ⟨h [] a s rfl, fun pre b post heq => h (a :: pre) b post (by rw [heq]; rfl)⟩
  · rintro ⟨hhead, htail⟩ pre b post heq
    cases pre with
    | nil =>
      obtain ⟨rfl, rfl⟩ : a = b ∧ s = post := by simpa using heq
      exact hhead
    | cons c pre =>
      obtain ⟨rfl, rfl⟩ : a = c ∧ s = pre ++ b :: post := by simpa using heq
      exact htail pre b post rfl

/-- The place of the `i`-th element that passes a test. -/
theorem exists_place_of_lt_countP {p : α → Bool} {i : Nat} (h : i < s.countP p) :
    ∃ pre b post, s = pre ++ b :: post ∧ p b = true ∧ pre.countP p = i := by
  induction s generalizing i with
  | nil => simp at h
  | cons a s ih =>
    cases ha : p a with
    | true =>
      cases i with
      | zero => exact ⟨[], a, s, rfl, ha, rfl⟩
      | succ i =>
        rw [List.countP_cons_of_pos ha] at h
        obtain ⟨pre, b, post, rfl, hb, hi⟩ := ih (by omega : i < s.countP p)
        exact ⟨a :: pre, b, post, rfl, hb, by rw [List.countP_cons_of_pos ha, hi]⟩
    | false =>
      rw [List.countP_cons_of_neg (by simp [ha])] at h
      obtain ⟨pre, b, post, rfl, hb, hi⟩ := ih h
      exact ⟨a :: pre, b, post, rfl, hb, by rw [List.countP_cons_of_neg (by simp [ha]), hi]⟩

/-- A place in one sequence after another is a place in one of the two. -/
theorem forall_place_append {t : List α} : (∀ pre b post, s ++ t = pre ++ b :: post → P pre b post) ↔
    (∀ pre b post, s = pre ++ b :: post → P pre b (post ++ t)) ∧ ∀ pre b post, t = pre ++ b :: post → P (s ++ pre) b post := by
  induction s generalizing P with
  | nil => simp
  | cons a s ih =>
    have hrest := ih (P := fun pre b post => P (a :: pre) b post)
    rw [List.cons_append, forall_place_cons, hrest, forall_place_cons (P := fun pre b post => P pre b (post ++ t))]
    simp only [List.cons_append, and_assoc]

/-- A place in sequences put together is a place in one of them. -/
theorem forall_place_flatMap {β : Type*} {f : β → List α} {ps : List β} :
    (∀ pre b post, ps.flatMap f = pre ++ b :: post → P pre b post) ↔
      ∀ before p after, ps = before ++ p :: after →
        ∀ pre b post, f p = pre ++ b :: post → P (before.flatMap f ++ pre) b (post ++ after.flatMap f) := by
  induction ps generalizing P with
  | nil => simp
  | cons p ps ih =>
    have hrest := ih (P := fun pre b post => P (f p ++ pre) b post)
    have hplace := forall_place_cons (a := p) (s := ps) (P := fun before p after =>
      ∀ pre b post, f p = pre ++ b :: post → P (before.flatMap f ++ pre) b (post ++ after.flatMap f))
    rw [List.flatMap_cons, forall_place_append, hrest, hplace]
    simp only [List.flatMap_nil, List.nil_append, List.flatMap_cons, List.append_assoc]

end Places

end NetLabs.Lines
