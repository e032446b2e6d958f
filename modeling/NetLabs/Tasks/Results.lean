import NetLabs.Lib.Double
import NetLabs.Tasks.Server

/-!
# Results

What a worker sends for the task it was given, and what the server prints of it. The worker computes in `int`, so a result out of its range
is one for which C defines nothing, and it reports a division by zero as the number `INT_MAX`.
-/

namespace NetLabs.Tasks

open CText Doubles

/-- The range of an `int`. -/
def inInt (n : Int) : Bool := -2147483648 ≤ n && n ≤ 2147483647

/-- `INT_MAX`. -/
def intMax : Int := 2147483647

/-- The result of an `int` operation as a double; `none` where it overflows. -/
def checked (n : Int) : Option Double := if inInt n then some (ofInt n) else none

/-- `perform_operation`. -/
def performOperation (num1 : Int) (op : UInt8) (num2 : Int) : Option Double :=
  if op = 43 then checked (num1 + num2)
  else if op = 45 then checked (num1 - num2)
  else if op = 42 then checked (num1 * num2)
  else if op = 47 then if num2 = 0 then some (ofInt intMax) else some (divide num1 num2)
  else some (ofInt 0)

/-- `sscanf(task_str, "%d %c %d", &num1, &op, &num2) == 3`. -/
def scanTask (task : List UInt8) : Option (Int × UInt8 × Int) :=
  match scanD task with
  | none => none
  | some (num1, rest) =>
    match rest.dropWhile isSpace with
    | [] => none
    | op :: rest => (scanD rest).map fun (num2, _) => (num1, op, num2)

/-- What the worker does with a response of the server: it ends, or asks again after a while, or sends a result, or does not understand the
task, or asks again at once; or it does something that C does not define. -/
inductive Answer where
  | ends
  | retries
  | sends (message : List UInt8)
  | invalidTask
  | ignores
  | undefined
  deriving DecidableEq

/-- The message for a task that has been read. -/
def resultMessage (num1 : Int) (op : UInt8) (num2 : Int) : Answer :=
  if inInt num1 && inInt num2 then
    match performOperation num1 op num2 with
    | some result => .sends (text "RESULT " ++ fixed2 result)
    | none => .undefined
  else .undefined

/-- The loop of the worker's `main`, from the server's response on. -/
def workerAnswer (buffer : List UInt8) : Answer :=
  if buffer = text "No tasks available" then .ends
  else if startsWith buffer (text "Error:") then .retries
  else if startsWith buffer (text "Is") then .retries
  else if startsWith buffer (text "Task:") then
    match scanTask (buffer.drop 6) with
    | some (num1, op, num2) => resultMessage num1 op num2
    | none => .invalidTask
  else .ignores

/-- The beginning of the line that the server prints when a task is completed. -/
def completedBy (clientId : Nat) (description : List UInt8) : List UInt8 :=
  text "Task completed by client " ++ decimal clientId ++ text ": " ++ description

/-- What the server prints when it takes a message as the result of a client's task: nothing if the client has no task. -/
def printsResult (tasks : List Task) (clientId : Nat) (currentTask : Option Nat) (buffer : List UInt8) : Option (List UInt8) :=
  currentTask.map fun i =>
    if (atof (buffer.drop 7)).value = (intMax : ℚ) then
      completedBy clientId (description tasks i) ++ text ", Result: Division by Zero Error\n"
    else completedBy clientId (description tasks i) ++ text ", Result: " ++ cstr (buffer.drop 6) ++ text "\n"

/-- The operators whose result is an integer. -/
inductive Operator where
  | add
  | sub
  | mul
  deriving DecidableEq

/-- Its sign. -/
def Operator.symbol : Operator → UInt8
  | .add => 43
  | .sub => 45
  | .mul => 42

/-- Its value, in the integers. -/
def Operator.apply : Operator → Int → Int → Int
  | .add, a, b => a + b
  | .sub, a, b => a - b
  | .mul, a, b => a * b

/-- The text of a task. -/
def taskText (a : Int) (op : UInt8) (b : Int) : List UInt8 := printInt a ++ [32, op, 32] ++ printInt b

/-- The worker sends the exact result of a task, and the server prints it as the result, whoever it is from and whatever task it is for. -/
def ReportedExactly (a : Int) (op : Operator) (b : Int) : Prop :=
  ∃ message, workerAnswer (text "Task: " ++ taskText a op.symbol b) = .sends message ∧
    (atof (message.drop 7)).value = (op.apply a b : ℚ) ∧
    ∀ tasks clientId i, printsResult tasks clientId (some i) message =
      some (completedBy clientId (description tasks i) ++ text ", Result: " ++ message.drop 6 ++ text "\n")

/-- The worker sends something for a division by zero, and the server prints it as one. -/
def ReportedAsDivisionByZero (a : Int) : Prop :=
  ∃ message, workerAnswer (text "Task: " ++ taskText a 47 0) = .sends message ∧
    ∀ tasks clientId i, printsResult tasks clientId (some i) message =
      some (completedBy clientId (description tasks i) ++ text ", Result: Division by Zero Error\n")

variable {a b n : Int} {op : UInt8}

/-! ## The task and the message -/

/-- The worker reads the task that was printed. -/
theorem scanTask_taskText (hop : isSpace op = false) : scanTask (taskText a op b) = some (a, op, b) := by
  have hblank : ∀ c ∈ ([32, op, 32] ++ printInt b).head?, isDigit c = false := by
    intro c hc
    obtain rfl : 32 = c := by simpa using hc
    rfl
  have hspace : isSpace 32 = true := rfl
  have hsecond : scanD (32 :: printInt b) = some (b, []) := by
    have : scanD (printInt b ++ []) = some (b, []) := scanD_printInt b (by simp)
    rw [List.append_nil] at this
    rw [scanD_space hspace, this]
  rw [scanTask, taskText, List.append_assoc, scanD_printInt a hblank]
  have hskip : ([32, op, 32] ++ printInt b).dropWhile isSpace = op :: 32 :: printInt b := by
    simp [hspace, hop]
  simp only [hskip, hsecond, Option.map_some]

/-- A task makes the worker send its result. -/
theorem workerAnswer_task (hop : isSpace op = false) :
    workerAnswer (text "Task: " ++ taskText a op b) = resultMessage a op b := by
  have htask : text "Task: " = [84, 97, 115, 107, 58, 32] := by decide
  have hnone : ¬text "Task: " ++ taskText a op b = text "No tasks available" := by
    have : text "No tasks available" = 78 :: (text "No tasks available").tail := by decide
    rw [htask, this]
    simp
  have hstart : ∀ p : List UInt8, p ≠ [] → p.head? ≠ some 84 → startsWith (text "Task: " ++ taskText a op b) p = false := by
    intro p hp hhead
    exact not_startsWith_both (p := text "Task:") (startsWith_iff.2 ⟨32 :: taskText a op b, rfl⟩) (by decide) hp
      fun e => hhead (e.symm.trans (by decide))
  have hyes : startsWith (text "Task: " ++ taskText a op b) (text "Task:") = true := startsWith_iff.2 ⟨32 :: taskText a op b, rfl⟩
  have hdrop : (text "Task: " ++ taskText a op b).drop 6 = taskText a op b := by
    rw [htask]
    rfl
  rw [workerAnswer, if_neg hnone, hstart (text "Error:") (by decide) (by decide), hstart (text "Is") (by decide) (by decide), hyes,
    hdrop, scanTask_taskText hop]
  rfl

theorem zero_not_mem_printInt (z : Int) : (0 : UInt8) ∉ printInt z := by
  have hdecimal : (0 : UInt8) ∉ decimal z.natAbs := by
    intro h
    exact absurd (isDigit_of_mem_decimal h) (by decide)
  rw [printInt, List.mem_append, not_or]
  refine ⟨?_, hdecimal⟩
  split <;> decide

/-- The message that reports an integer. -/
def integerMessage (n : Int) : List UInt8 := text "RESULT " ++ printInt n ++ text ".00"

theorem drop_integerMessage (n : Int) :
    (integerMessage n).drop 7 = printInt n ++ text ".00" ∧ (integerMessage n).drop 6 = 32 :: (printInt n ++ text ".00") := by
  have hresult : text "RESULT " = [82, 69, 83, 85, 76, 84, 32] := by decide
  rw [integerMessage, hresult, List.append_assoc]
  exact ⟨rfl, rfl⟩

/-- What the server makes of it: the number, and a line that depends on it. -/
theorem printsResult_integer (hn : n.natAbs < 2 ^ 53) (tasks : List Task) (clientId i : Nat) :
    printsResult tasks clientId (some i) (integerMessage n) =
      if n = intMax then some (completedBy clientId (description tasks i) ++ text ", Result: Division by Zero Error\n")
      else some (completedBy clientId (description tasks i) ++ text ", Result: " ++ (integerMessage n).drop 6 ++ text "\n") := by
  obtain ⟨hseven, hsix⟩ := drop_integerMessage n
  have hnul : (0 : UInt8) ∉ 32 :: (printInt n ++ text ".00") := by
    rw [List.mem_cons, List.mem_append, not_or, not_or]
    exact ⟨by decide, zero_not_mem_printInt n, by decide⟩
  rw [printsResult, hseven, hsix, atof_printed, value_ofInt hn, cstr_of_not_mem hnul, Option.map_some]
  by_cases hmax : n = intMax
  · rw [if_pos hmax, if_pos (by rw [hmax])]
  · rw [if_neg hmax, if_neg (by exact_mod_cast hmax)]

theorem natAbs_lt_of_inInt (h : inInt n = true) : n.natAbs < 2 ^ 53 := by
  simp only [inInt, Bool.and_eq_true, decide_eq_true_eq] at h
  omega

/-- The two lines are not the same. -/
theorem lines_ne (p : List UInt8) (n : Int) :
    p ++ text ", Result: Division by Zero Error\n" ≠ p ++ text ", Result: " ++ (integerMessage n).drop 6 ++ text "\n" := by
  have herror : text ", Result: Division by Zero Error\n" = text ", Result: " ++ 68 :: text "ivision by Zero Error\n" := by decide
  rw [herror, (drop_integerMessage n).2, ← List.append_assoc, List.append_assoc (p ++ text ", Result: ")]
  intro heq
  have := List.append_cancel_left heq
  simp at this

/-- What the worker does with an integer operation. -/
theorem resultMessage_operator (ha : inInt a = true) (hb : inInt b = true) (op : Operator) :
    resultMessage a op.symbol b = if inInt (op.apply a b) then .sends (integerMessage (op.apply a b)) else .undefined := by
  have hperform : performOperation a op.symbol b = checked (op.apply a b) := by
    cases op <;> rfl
  rw [resultMessage, ha, hb, hperform, checked]
  by_cases hr : inInt (op.apply a b) = true
  · simp only [hr, Bool.and_self, if_true]
    rw [fixed2_ofInt (natAbs_lt_of_inInt hr), integerMessage, List.append_assoc]
  · simp only [hr, Bool.and_self, if_true, Bool.false_eq_true, if_false]

theorem inInt_toInt (a : Int32) : inInt a.toInt = true := by
  have hlow := Int32.le_toInt a
  have hhigh := Int32.toInt_lt a
  simp only [inInt, Bool.and_eq_true, decide_eq_true_eq]
  omega

/-- An exact result is reported as such when it is in the range of an `int` and is not `INT_MAX`. -/
theorem reportedExactly_iff (ha : inInt a = true) (hb : inInt b = true) (op : Operator) :
    ReportedExactly a op b ↔ inInt (op.apply a b) = true ∧ op.apply a b ≠ intMax := by
  have hspace : isSpace op.symbol = false := by cases op <;> rfl
  rw [ReportedExactly, workerAnswer_task hspace, resultMessage_operator ha hb]
  by_cases hr : inInt (op.apply a b) = true
  · have hnat := natAbs_lt_of_inInt hr
    rw [if_pos hr]
    constructor
    · rintro ⟨message, hsends, -, hprints⟩
      obtain rfl : integerMessage (op.apply a b) = message := Answer.sends.inj hsends
      refine ⟨hr, fun hmax => ?_⟩
      have hline := hprints [] 0 0
      rw [printsResult_integer hnat, if_pos hmax] at hline
      exact lines_ne _ _ (Option.some.inj hline)
    · rintro ⟨-, hmax⟩
      refine ⟨_, rfl, ?_, fun tasks clientId i => ?_⟩
      · rw [(drop_integerMessage _).1, atof_printed, value_ofInt hnat]
      · rw [printsResult_integer hnat, if_neg hmax]
  · rw [if_neg hr]
    constructor
    · rintro ⟨message, hsends, -⟩
      cases hsends
    · rintro ⟨hr', -⟩
      exact absurd hr' hr

/-- When results are reported exactly. For every pair of 32-bit integers: the worker sends the exact sum, difference or product of a task and
the server prints it as a result, if and only if that is at least `INT_MIN` and below `INT_MAX`; and the division by zero of every 32-bit
integer is printed as one. -/
theorem results_reported (a b : Int32) :
    (∀ op : Operator, ReportedExactly a.toInt op b.toInt ↔
      -2147483648 ≤ op.apply a.toInt b.toInt ∧ op.apply a.toInt b.toInt < 2147483647) ∧
    ReportedAsDivisionByZero a.toInt := by
  constructor
  · intro op
    rw [reportedExactly_iff (inInt_toInt a) (inInt_toInt b)]
    simp only [inInt, intMax, Bool.and_eq_true, decide_eq_true_eq]
    omega
  · have hmax : (intMax.natAbs) < 2 ^ 53 := by decide
    have hmessage : resultMessage a.toInt 47 0 = .sends (integerMessage intMax) := by
      have hperform : performOperation a.toInt 47 0 = some (ofInt intMax) := rfl
      have hzero : inInt 0 = true := rfl
      rw [resultMessage, inInt_toInt, hzero, hperform]
      simp only [Bool.and_self, if_true]
      rw [fixed2_ofInt hmax, integerMessage, List.append_assoc]
    refine ⟨integerMessage intMax, ?_, ?_⟩
    · rw [workerAnswer_task rfl, hmessage]
    · intro tasks clientId i
      rw [printsResult_integer hmax, if_pos rfl]

/-- The sum of 2147483646 and 1 is printed as a division by zero. -/
theorem sum_printed_as_division : ¬ReportedExactly 2147483646 .add 1 := by
  intro h
  obtain ⟨-, hmax⟩ := (reportedExactly_iff (by decide) (by decide) .add).1 h
  exact hmax rfl

end NetLabs.Tasks
