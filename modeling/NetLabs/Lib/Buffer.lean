import Mathlib.Logic.Function.Basic
import Mathlib.Data.List.Basic
import Mathlib.Data.Option.Basic

/-!
# Programs over a buffer

What C code does with a packet it has received: it reads and writes bytes of a buffer, one at a time. The buffer holds the packet and,
behind it, whatever was there before. `runKnown` runs a program on a buffer of which only some bytes are known and stops when it reads
another one; so a program that goes through on the packet alone does the same whatever is behind it (`readsOnly_iff`), and its result
can be worked out from the packet. The rules for reading and writing a buffer that holds a known list come last.
-/

namespace NetLabs.Buffer

open Function

/-- A program over a buffer. -/
inductive Prog (α : Type) where
  | done (a : α)
  | read (i : Nat) (k : UInt8 → Prog α)
  | write (i : Nat) (b : UInt8) (k : Prog α)

namespace Prog

variable {α β : Type}

/-- One program after another. -/
def bind : Prog α → (α → Prog β) → Prog β
  | done a, f => f a
  | read i k, f => read i fun b => (k b).bind f
  | write i b k, f => write i b (k.bind f)

instance : Monad Prog where
  pure := done
  bind := bind

/-- The result of a program on a buffer. -/
def run : Prog α → (Nat → UInt8) → α
  | done a, _ => a
  | read i k, m => (k (m i)).run m
  | write i b k, m => k.run (update m i b)

/-- The offsets a program reads without having written there before; `own` says where it has. -/
def readsFrom : Prog α → (Nat → Bool) → (Nat → UInt8) → List Nat
  | done _, _, _ => []
  | read i k, own, m => if own i then (k (m i)).readsFrom own m else i :: (k (m i)).readsFrom own m
  | write i b k, own, m => k.readsFrom (update own i true) (update m i b)

/-- The offsets of which a program reads what was in the buffer when it started. -/
def reads (p : Prog α) (m : Nat → UInt8) : List Nat := p.readsFrom (fun _ => false) m

/-- The run on a buffer of which some bytes are known, and the buffer after it; `none` once another byte is read. -/
def runKnown : Prog α → (Nat → Option UInt8) → Option (α × (Nat → Option UInt8))
  | done a, m => some (a, m)
  | read i k, m =>
    match m i with
    | none => none
    | some b => (k b).runKnown m
  | write i b k, m => k.runKnown (update m i (some b))

/-! ## The packet and what is behind it -/

/-- A buffer that holds `packet` and, behind it, what was there before. -/
def overlay (packet : List UInt8) (before : Nat → UInt8) : Nat → UInt8 := fun i => packet.getD i (before i)

/-- A buffer of which the packet is known. -/
def only (packet : List UInt8) : Nat → Option UInt8 := fun i => packet[i]?

/-- What a program does with a packet does not depend on what was in the buffer before, and it reads nothing of that. -/
def ReadsOnly (p : Prog α) (packet : List UInt8) : Prop :=
  (∀ before before', p.run (overlay packet before) = p.run (overlay packet before')) ∧
    ∀ before, ∀ i ∈ p.reads (overlay packet before), i < packet.length

variable {p : Prog α} {f : α → Prog β} {a : α} {m : Nat → UInt8} {known known' : Nat → Option UInt8} {own : Nat → Bool}
  {packet l : List UInt8} {before : Nat → UInt8} {i j n : Nat} {b : UInt8}

/-- What is known of a buffer: the bytes before `n`, and those the program has written. -/
structure Knows (n : Nat) (own : Nat → Bool) (m : Nat → UInt8) (known : Nat → Option UInt8) : Prop where
  eq : ∀ i, ∀ b ∈ known i, m i = b
  isSome : ∀ i, (known i).isSome = true ↔ i < n ∨ own i = true

theorem Knows.write (h : Knows n own m known) (i : Nat) (b : UInt8) :
    Knows n (update own i true) (update m i b) (update known i (some b)) := by
  constructor
  · intro j c hc
    by_cases hj : j = i
    · subst hj
      rw [update_self] at hc ⊢
      exact Option.some.inj hc
    · rw [update_of_ne hj] at hc ⊢
      exact h.eq j c hc
  · intro j
    by_cases hj : j = i
    · subst hj
      simp
    · rw [update_of_ne hj, update_of_ne hj]
      exact h.isSome j

/-- A run that goes through on what is known is the run, and it has read nothing else; one that does not has read something else. -/
theorem runKnown_spec (h : Knows n own m known) :
    (∀ r, p.runKnown known = some r → p.run m = r.1 ∧ ∀ i ∈ p.readsFrom own m, i < n) ∧
      (p.runKnown known = none → ∃ i ∈ p.readsFrom own m, n ≤ i) := by
  induction p generalizing own m known with
  | done a =>
    refine ⟨fun r hr => ?_, nofun⟩
    cases hr
    exact ⟨rfl, nofun⟩
  | read i k ih =>
    have hi := h.isSome i
    unfold runKnown run readsFrom
    cases hb : known i with
    | none =>
      rw [hb] at hi
      have hnot : ¬(i < n ∨ own i = true) := fun hor => absurd (hi.2 hor) (by simp)
      rw [if_neg fun ho => hnot (Or.inr ho)]
      refine ⟨nofun, fun _ => ⟨i, List.mem_cons_self, ?_⟩⟩
      exact Nat.not_lt.1 fun hlt => hnot (Or.inl hlt)
    | some b =>
      obtain ⟨hsome, hnone⟩ := ih b h
      have hmi : m i = b := h.eq i b hb
      rw [hb] at hi
      have hor : i < n ∨ own i = true := hi.1 rfl
      simp only [hmi]
      by_cases ho : own i = true
      · rw [if_pos ho]
        exact ⟨hsome, hnone⟩
      · have hlt : i < n := hor.resolve_right ho
        rw [if_neg ho]
        refine ⟨fun r hr => ⟨(hsome r hr).1, List.forall_mem_cons.2 ⟨hlt, (hsome r hr).2⟩⟩, fun hr => ?_⟩
        obtain ⟨j, hj, hge⟩ := hnone hr
        exact ⟨j, List.mem_cons_of_mem i hj, hge⟩
  | write i b k ih => exact ih (h.write i b)

theorem knows_overlay (packet : List UInt8) (before : Nat → UInt8) :
    Knows packet.length (fun _ => false) (overlay packet before) (only packet) := by
  constructor
  · intro i b hb
    have hat : packet[i]? = some b := hb
    rw [overlay, List.getD_eq_getElem?_getD, hat]
    rfl
  · intro i
    simp [only]

/-- A program that goes through on the packet alone has its result whatever is behind it. -/
theorem run_overlay {r : α × (Nat → Option UInt8)} (h : p.runKnown (only packet) = some r) (before : Nat → UInt8) :
    p.run (overlay packet before) = r.1 :=
  ((runKnown_spec (knows_overlay packet before)).1 r h).1

/-- Going through on the packet alone is reading only the packet. -/
theorem readsOnly_iff : ReadsOnly p packet ↔ (p.runKnown (only packet)).isSome = true := by
  constructor
  · intro h
    rw [Option.isSome_iff_ne_none]
    intro hnone
    obtain ⟨i, hi, hge⟩ := (runKnown_spec (knows_overlay packet fun _ => 0)).2 hnone
    exact absurd (h.2 _ i hi) (Nat.not_lt.2 hge)
  · intro h
    obtain ⟨r, hr⟩ := Option.isSome_iff_exists.1 h
    refine ⟨fun before before' => ?_, fun before => ?_⟩
    · rw [run_overlay hr, run_overlay hr]
    · exact ((runKnown_spec (knows_overlay packet before)).1 r hr).2

/-- Every result that a program can have, whatever is in the buffer, satisfies `P`. -/
inductive Returns (P : α → Prop) : Prog α → Prop where
  | done (a : α) (h : P a) : Returns P (.done a)
  | read (i : Nat) (k : UInt8 → Prog α) (h : ∀ b, Returns P (k b)) : Returns P (.read i k)
  | write (i : Nat) (b : UInt8) (k : Prog α) (h : Returns P k) : Returns P (.write i b k)

theorem returns_run {P : α → Prop} (h : p.Returns P) (m : Nat → UInt8) : P (p.run m) := by
  induction h generalizing m with
  | done a h => exact h
  | read i k h ih => exact ih (m i) m
  | write i b k h ih => exact ih (update m i b)

theorem returns_bind {P : β → Prop} {Q : α → Prop} (h : p.Returns Q) (hf : ∀ a, Q a → (f a).Returns P) : (p >>= f).Returns P := by
  change (p.bind f).Returns P
  induction h with
  | done a h => exact hf a h
  | read i k h ih => exact .read i _ ih
  | write i b k h ih => exact .write i b _ ih

/-- What comes before does not matter where the rest always returns such a result. -/
theorem returns_of_rest {P : β → Prop} (hf : ∀ a, (f a).Returns P) : (p >>= f).Returns P := by
  change (p.bind f).Returns P
  induction p with
  | done a => exact hf a
  | read i k ih => exact .read i _ ih
  | write i b k ih => exact .write i b _ ih

/-! ## Reading and writing -/

/-- One byte. -/
def byte (i : Nat) : Prog UInt8 := read i done

def setByte (i : Nat) (b : UInt8) : Prog Unit := write i b (done ())

/-- `n` bytes from `i` on. -/
def bytes (i : Nat) : Nat → Prog (List UInt8)
  | 0 => done []
  | n + 1 => read i fun b => (bytes (i + 1) n).bind fun l => done (b :: l)

/-- Whether the bytes from `i` on begin with `p`; the comparison stops at the first byte that differs. -/
def beginsAt (i : Nat) : List UInt8 → Prog Bool
  | [] => done true
  | a :: p => read i fun b => if b = a then beginsAt (i + 1) p else done false

/-- `memcpy` into the buffer at `i`. -/
def setBytes (i : Nat) : List UInt8 → Prog Unit
  | [] => done ()
  | b :: l => write i b (setBytes (i + 1) l)

theorem bind_assoc {γ : Type} (p : Prog α) (f : α → Prog β) (g : β → Prog γ) : (p.bind f).bind g = p.bind fun a => (f a).bind g := by
  induction p with
  | done a => rfl
  | read i k ih => exact congrArg (read i) (funext fun b => ih b)
  | write i b k ih => exact congrArg (write i b) ih

theorem bind_right_done (p : Prog α) : p.bind done = p := by
  induction p with
  | done a => rfl
  | read i k ih => exact congrArg (read i) (funext fun b => ih b)
  | write i b k ih => exact congrArg (write i b) ih

/-- A program that goes on with the bytes read. -/
theorem run_bytes_bind (i n : Nat) (g : List UInt8 → Prog β) (m : Nat → UInt8) :
    ((bytes i n).bind g).run m = (g ((List.range' i n).map m)).run m := by
  induction n generalizing i g with
  | zero => rfl
  | succ n ih =>
    have hrest : ((bytes (i + 1) n).bind fun l => (done (m i :: l)).bind g).run m = _ := ih (i + 1) _
    rw [← bind_assoc] at hrest
    exact hrest

/-- It has read them, where they have not been written. -/
theorem readsFrom_bytes_bind (i n : Nat) (g : List UInt8 → Prog β) (m : Nat → UInt8) :
    ((bytes i n).bind g).readsFrom (fun _ => false) m =
      List.range' i n ++ (g ((List.range' i n).map m)).readsFrom (fun _ => false) m := by
  induction n generalizing i g with
  | zero => rfl
  | succ n ih =>
    have hrest : ((bytes (i + 1) n).bind fun l => (done (m i :: l)).bind g).readsFrom (fun _ => false) m = _ := ih (i + 1) _
    rw [← bind_assoc] at hrest
    exact congrArg (i :: ·) hrest

theorem runKnown_pure (a : α) (known : Nat → Option UInt8) : (pure a : Prog α).runKnown known = some (a, known) := rfl

theorem runKnown_bind : (p >>= f).runKnown known = (p.runKnown known).bind fun r => (f r.1).runKnown r.2 := by
  change (p.bind f).runKnown known = _
  induction p generalizing known with
  | done a => rfl
  | read i k ih =>
    simp only [bind, runKnown]
    cases known i with
    | none => rfl
    | some b => exact ih b
  | write i b k ih => exact ih

/-- The buffer begins with `l`. -/
def Holds (known : Nat → Option UInt8) (l : List UInt8) : Prop := ∀ i, i < l.length → known i = l[i]?

theorem holds_only (packet : List UInt8) : Holds (only packet) packet := fun _ _ => rfl

theorem Holds.write (h : Holds known l) (i : Nat) (b : UInt8) : Holds (update known i (some b)) (l.set i b) := by
  intro j hj
  rw [List.length_set] at hj
  by_cases hji : j = i
  · subst hji
    rw [update_self, List.getElem?_set_self hj]
  · rw [update_of_ne hji, List.getElem?_set_ne (Ne.symm hji)]
    exact h j hj

theorem runKnown_byte (h : Holds known l) (hi : l[i]? = some b) : (byte i).runKnown known = some (b, known) := by
  have hk : known i = some b := (h i (List.getElem?_eq_some_iff.1 hi).1).trans hi
  simp only [byte, runKnown, hk]

/-- A byte that is there. -/
theorem byte_known (h : Holds known l) (hi : i < l.length) : (byte i).runKnown known = some (l.getD i 0, known) := by
  refine runKnown_byte h ?_
  rw [List.getD_eq_getElem?_getD, List.getElem?_eq_getElem hi]
  rfl

theorem runKnown_setByte (i : Nat) (b : UInt8) (known : Nat → Option UInt8) :
    (setByte i b).runKnown known = some ((), update known i (some b)) := rfl

theorem runKnown_bytes (h : Holds known l) (hn : i + n ≤ l.length) :
    (bytes i n).runKnown known = some ((l.drop i).take n, known) := by
  induction n generalizing i with
  | zero => rfl
  | succ n ih =>
    have hlt : i < l.length := by omega
    have hk : known i = some l[i] := (h i hlt).trans (List.getElem?_eq_getElem hlt)
    have hbind : (bytes (i + 1) n >>= fun t => done (l[i] :: t)).runKnown known = _ := runKnown_bind
    rw [ih (by omega)] at hbind
    simp only [bytes, runKnown, hk]
    refine hbind.trans ?_
    rw [List.drop_eq_getElem_cons hlt, List.take_succ_cons]
    rfl

/-- A byte among those read that is not known ends the run. -/
theorem runKnown_bytes_none (hj : j < n) (hk : known (i + j) = none) : (bytes i n).runKnown known = none := by
  induction n generalizing i j with
  | zero => exact absurd hj (Nat.not_lt_zero j)
  | succ n ih =>
    simp only [bytes, runKnown]
    cases hi : known i with
    | none => rfl
    | some b =>
      have hbind : (bytes (i + 1) n >>= fun t => done (b :: t)).runKnown known = _ := runKnown_bind
      obtain ⟨j, rfl⟩ : ∃ j', j = j' + 1 := by
        refine Nat.exists_eq_succ_of_ne_zero ?_
        rintro rfl
        rw [Nat.add_zero, hi] at hk
        cases hk
      rw [ih (Nat.lt_of_succ_lt_succ hj) (by rw [Nat.add_right_comm, Nat.add_assoc]; exact hk)] at hbind
      exact hbind

theorem runKnown_beginsAt {p : List UInt8} (h : Holds known l) (hi : i + p.length ≤ l.length) :
    (beginsAt i p).runKnown known = some (p.isPrefixOf (l.drop i), known) := by
  induction p generalizing i with
  | nil => rfl
  | cons a p ih =>
    rw [List.length_cons] at hi
    have hlt : i < l.length := by omega
    have hk : known i = some l[i] := (h i hlt).trans (List.getElem?_eq_getElem hlt)
    rw [List.drop_eq_getElem_cons hlt]
    simp only [beginsAt, runKnown, hk, List.isPrefixOf]
    by_cases hb : l[i] = a
    · rw [if_pos hb, ih (by omega), hb, beq_self_eq_true, Bool.true_and]
    · rw [if_neg hb, beq_false_of_ne (Ne.symm hb)]
      rfl

/-- A comparison that has failed does not read on. -/
theorem runKnown_beginsAt_false {p q : List UInt8} (h : Holds known l) (hi : i + p.length ≤ l.length)
    (hp : p.isPrefixOf (l.drop i) = false) : (beginsAt i (p ++ q)).runKnown known = some (false, known) := by
  induction p generalizing i with
  | nil => cases hp
  | cons a p ih =>
    rw [List.length_cons] at hi
    have hlt : i < l.length := by omega
    have hk : known i = some l[i] := (h i hlt).trans (List.getElem?_eq_getElem hlt)
    rw [List.drop_eq_getElem_cons hlt] at hp
    simp only [List.cons_append, beginsAt, runKnown, hk]
    by_cases hb : l[i] = a
    · rw [List.isPrefixOf, hb, beq_self_eq_true, Bool.true_and] at hp
      rw [if_pos hb]
      exact ih (by omega) hp
    · rw [if_neg hb]
      rfl

theorem runKnown_setBytes (i : Nat) (l : List UInt8) (known : Nat → Option UInt8) : ∃ known',
    (setBytes i l).runKnown known = some ((), known') ∧ (∀ j, j < i → known' j = known j) ∧
      ∀ j, j < l.length → known' (i + j) = l[j]? := by
  induction l generalizing i known with
  | nil => exact ⟨known, rfl, fun _ _ => rfl, nofun⟩
  | cons b l ih =>
    obtain ⟨known', hrun, hbefore, hat⟩ := ih (i + 1) (update known i (some b))
    refine ⟨known', hrun, fun j hj => ?_, fun j hj => ?_⟩
    · rw [hbefore j (by omega), update_of_ne (by omega)]
    · cases j with
      | zero => rw [Nat.add_zero, hbefore i (by omega), update_self, List.getElem?_cons_zero]
      | succ j =>
        have hshift : i + (j + 1) = i + 1 + j := by omega
        rw [hshift, hat j (Nat.lt_of_succ_lt_succ hj), List.getElem?_cons_succ]

/-- What is copied behind the first bytes of a buffer follows them. -/
theorem Holds.setBytes (h : Holds known l) (hi : i ≤ l.length) (x : List UInt8) :
    ∃ known', (setBytes i x).runKnown known = some ((), known') ∧ Holds known' (l.take i ++ x) := by
  obtain ⟨known', hrun, hbefore, hat⟩ := runKnown_setBytes i x known
  have hlen : (l.take i).length = i := List.length_take_of_le hi
  refine ⟨known', hrun, fun j hj => ?_⟩
  rw [List.length_append, hlen] at hj
  by_cases hji : j < i
  · rw [hbefore j hji, h j (by omega), List.getElem?_append_left (by omega), List.getElem?_take_of_lt hji]
  · obtain ⟨k, rfl⟩ := Nat.exists_eq_add_of_le (Nat.not_lt.1 hji)
    rw [hat k (by omega), List.getElem?_append_right (by omega), hlen, Nat.add_sub_cancel_left]

end Prog

end NetLabs.Buffer
