import NetLabs.Lib.Lines
import NetLabs.Tasks.Table

/-!
# Loading the config file

`load_tasks` reads the file through `char line[MAX_TASK_LEN]`, so `fgets` returns at most 49 bytes at a time, and makes one task of
whatever `fgets` returns. A line that is longer comes in several pieces.
-/

namespace NetLabs.Tasks

open CText Lines

/-- What is in `line` after the newline at its end has been removed, if it has one. -/
def taskLine (line : List UInt8) : List UInt8 :=
  if (cstr line).getLast? = some newline then (cstr line).dropLast else cstr line

/-- The loop of `load_tasks`, over what `fgets` returns. -/
def loadFrom : List (List UInt8) → Nat → List Task
  | [], _ => []
  | line :: rest, count =>
    if count < 100 then
      { description := taskLine line, state := .notAssigned, assignedToClient := none } :: loadFrom rest (count + 1)
    else []

/-- `load_tasks`: the tasks it puts into the table. -/
def loadTasks (file : List UInt8) : List Task := loadFrom (fgets 49 file) 0

/-- The lines of a file, without their newlines. -/
def textLines (file : List UInt8) : List (List UInt8) := (rows file).map fun r => r.takeWhile (· != newline)

/-- The loaded table is one task for each of the first 100 lines of the file, in its order and cut to 49 characters, all of them free;
and no two tasks come from one line. -/
structure OneTaskPerLine (file : List UInt8) : Prop where
  tasks : loadTasks file =
    ((textLines file).take 100).map fun l => { description := l.take 49, state := .notAssigned, assignedToClient := none }
  origin : ∀ i j, i < (loadTasks file).length → j < (loadTasks file).length → startRow 49 file i = startRow 49 file j → i = j

/-- The loop makes a task of every piece as long as there is room in the table. -/
theorem loadFrom_eq (pieces : List (List UInt8)) (count : Nat) :
    loadFrom pieces count = loaded ((pieces.take (100 - count)).map taskLine) := by
  induction pieces generalizing count with
  | nil => simp [loadFrom, loaded]
  | cons line rest ih =>
    by_cases hroom : count < 100
    · obtain ⟨k, hk⟩ : ∃ k, 100 - count = k + 1 := ⟨99 - count, by omega⟩
      have hnext : 100 - (count + 1) = k := by omega
      rw [loadFrom, if_pos hroom, ih, hk, hnext]
      rfl
    · rw [loadFrom, if_neg hroom, Nat.sub_eq_zero_of_le (Nat.le_of_not_lt hroom)]
      rfl

theorem length_loadTasks (file : List UInt8) : (loadTasks file).length = ((fgets 49 file).take 100).length := by
  simp [loadTasks, loadFrom_eq, loaded]

/-- A line has no newline but at its end, and nothing in it that is not in the file. -/
theorem rows_shape {file r : List UInt8} (h : r ∈ rows file) :
    ∃ l, newline ∉ l ∧ (r = l ∨ r = l ++ [newline]) ∧ ∀ b ∈ r, b ∈ file := by
  induction file using rows_induction with
  | nil => simp [rows] at h
  | last l hne hl =>
    rw [rows_last hne hl, List.mem_singleton] at h
    exact ⟨l, hl, Or.inl h, by simp [h]⟩
  | line l rest hl ih =>
    rw [rows_line hl, List.mem_cons] at h
    rcases h with rfl | h
    · refine ⟨l, hl, Or.inr rfl, ?_⟩
      intro b hb
      rw [List.mem_append, List.mem_singleton] at hb
      rcases hb with hb | rfl
      · exact List.mem_append_left _ hb
      · simp
    · obtain ⟨l', hl', heq, hsub⟩ := ih h
      exact ⟨l', hl', heq, fun b hb => List.mem_append_right _ (List.mem_cons_of_mem _ (hsub b hb))⟩

theorem taskLine_text {l : List UInt8} (h : newline ∉ l) (hz : (0 : UInt8) ∉ l) : taskLine l = l := by
  rw [taskLine, cstr_of_not_mem hz, if_neg]
  intro hlast
  exact h (List.mem_of_getLast? hlast)

/-- The task made of the first 49 bytes of a line is the line without its newline, cut. -/
theorem taskLine_take {r l : List UInt8} (h : newline ∉ l) (hr : r = l ∨ r = l ++ [newline]) (hz : (0 : UInt8) ∉ r) :
    taskLine (r.take 49) = (r.takeWhile (· != newline)).take 49 := by
  have hnewline : ∀ b ∈ l, (b != newline) = true := by
    intro b hb
    have : b ≠ newline := fun e => h (e ▸ hb)
    simpa using this
  have htext : ∀ k, newline ∉ l.take k := fun k hm => h (List.mem_of_mem_take hm)
  have hzero : ∀ k, (0 : UInt8) ∉ r.take k := fun k hm => hz (List.mem_of_mem_take hm)
  rcases hr with rfl | rfl
  · rw [List.takeWhile_eq_self_iff.2 hnewline]
    exact taskLine_text (htext 49) (hzero 49)
  · rw [List.takeWhile_append_of_pos hnewline]
    by_cases hlen : l.length < 49
    · have hwhole : (l ++ [newline]).take 49 = l ++ [newline] :=
        List.take_of_length_le (by rw [List.length_append, List.length_singleton]; omega)
      rw [hwhole, taskLine, cstr_of_not_mem hz, if_pos (by simp)]
      simp [List.take_of_length_le (Nat.le_of_lt hlen)]
    · have hcut : (l ++ [newline]).take 49 = l.take 49 := List.take_append_of_le_length (by omega)
      have hend : (newline :: []).takeWhile (· != newline) = [] := rfl
      rw [hcut, hend, List.append_nil]
      refine taskLine_text (htext 49) ?_
      rw [← hcut]
      exact hzero 49

/-- When the config file is loaded line by line. For every text file: `load_tasks` makes one task of each of its first 100 lines, in order,
cut to 49 characters, free, and no two tasks of one line, if and only if each of its first 99 lines, with its newline if it has one, is at
most 49 bytes long. -/
theorem oneTaskPerLine_iff (file : List UInt8) (htext : (0 : UInt8) ∉ file) :
    OneTaskPerLine file ↔ ∀ r ∈ (rows file).take 99, r.length ≤ 49 := by
  have hinj := startRow_inj_iff (n := 49) file 99 (by omega)
  constructor
  · intro h
    refine hinj.1 ?_
    have := h.origin
    rw [length_loadTasks] at this
    exact this
  · intro hfit
    constructor
    · have hpieces := fgets_take_rows (n := 49) (by omega) hfit
      rw [loadTasks, loadFrom_eq, Nat.sub_zero, hpieces, loaded, textLines, ← List.map_take, List.map_map, List.map_map, List.map_map]
      refine List.map_congr_left fun r hr => ?_
      obtain ⟨l, hl, hrl, hsub⟩ := rows_shape (List.mem_of_mem_take hr)
      have hz : (0 : UInt8) ∉ r := fun hm => htext (hsub 0 hm)
      simp only [Function.comp_apply, taskLine_take hl hrl hz]
    · rw [length_loadTasks]
      exact hinj.2 hfit

/-- `oneTaskPerLine_iff` on two tasks, the second without a newline. -/
theorem oneTaskPerLine_two : OneTaskPerLine (text "5 + 3\n2 * 4") ↔ ∀ r ∈ (rows (text "5 + 3\n2 * 4")).take 99, r.length ≤ 49 :=
  oneTaskPerLine_iff (text "5 + 3\n2 * 4") (by decide)

/-- A comment of 49 characters before a task on the same line becomes a task, and so does the rest of the line. -/
theorem long_line_two_tasks : ¬OneTaskPerLine (text "# the sums of the first exercise sheet, task one: 5 + 3\n") := by
  intro h
  have hlen := congrArg List.length h.tasks
  exact absurd hlen (by decide)

end NetLabs.Tasks
