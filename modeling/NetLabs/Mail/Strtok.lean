import NetLabs.Lib.Machine
import NetLabs.Mail.Server

/-!
# `strtok` and its one position

`strtok` works in the caller's buffer: it skips delimiters, writes a NUL over the one that ends the token, returns where the token
starts and keeps where to go on in a variable of its own. Over one buffer, calling it until it returns NULL gives the tokens of the
C string (`strtokLines_eq`), which is what `chunkLines` says.

The variable is the process's, and every client has its thread. A session gets the lines of its own chunks along the runs in which
each continuing call finds the position in the caller's own buffer.
-/

namespace NetLabs.Mail

open CText Tokens Machine Function

/-! ## One call -/

/-- The C string at an offset. -/
def stringAt (b : List UInt8) (off : Nat) : List UInt8 := cstr (b.drop off)

/-- There is a C string at an offset: a NUL follows. -/
def HasString (b : List UInt8) (off : Nat) : Prop := (0 : UInt8) ∈ b.drop off

instance (b : List UInt8) (off : Nat) : Decidable (HasString b off) := inferInstanceAs (Decidable (_ ∈ _))

/-- `strtok` from offset `off` of a buffer: the buffer, the position it keeps and the token, or NULL. Without a NUL from there on, it
reads past the buffer. -/
def strtok (b : List UInt8) (off : Nat) : Option (List UInt8 × Nat × Option Nat) :=
  if HasString b off then
    let s := stringAt b off
    let start := off + (s.takeWhile isCrlf).length
    let token := (s.dropWhile isCrlf).takeWhile fun c => !isCrlf c
    let stop := start + token.length
    if token.isEmpty then some (b, start, none)
    else if b[stop]? = some 0 then some (b, stop, some start)
    else some (b.set stop 0, stop + 1, some start)
  else none

variable {b b' x y z : List UInt8} {off off' p : Nat}

theorem stringAt_append (hx : x.length = off) (h : (0 : UInt8) ∉ y) : stringAt (x ++ (y ++ 0 :: z)) off = y := by
  rw [stringAt, ← hx, List.drop_left, cstr_append_zero h]

theorem hasString_append (hx : x.length = off) : HasString (x ++ (y ++ 0 :: z)) off := by
  rw [HasString, ← hx, List.drop_left]
  simp

/-- A buffer with a string at an offset: what comes before, the string, its NUL, what comes after. -/
theorem HasString.split (h : HasString b off) :
    ∃ x z, b = x ++ (stringAt b off ++ 0 :: z) ∧ x.length = off ∧ (0 : UInt8) ∉ stringAt b off := by
  obtain ⟨z, hz⟩ := exists_eq_cstr_append h
  refine ⟨b.take off, z, ?_, ?_, zero_not_mem_cstr _⟩
  · rw [stringAt, ← hz, List.take_append_drop]
  · rw [List.length_take]
    have : off < b.length := by
      by_contra hle
      rw [HasString, List.drop_eq_nil_of_le (by omega)] at h
      cases h
    omega

section OneCall

variable {d t u : List UInt8} {e : UInt8}

/-- No token is left. -/
theorem strtok_none (hx : x.length = off) (hd : ∀ c ∈ d, isCrlf c = true) :
    strtok (x ++ (d ++ 0 :: z)) off = some (x ++ (d ++ 0 :: z), off + d.length, none) := by
  have h0 : (0 : UInt8) ∉ d := fun hm => absurd (hd 0 hm) (by decide)
  have hs : stringAt (x ++ (d ++ 0 :: z)) off = d := stringAt_append hx h0
  have hspan := span_append (r := []) hd (by simp)
  rw [List.append_nil] at hspan
  rw [strtok, if_pos (hasString_append hx)]
  simp [hs, hspan]

/-- What a call finds of a string that has a token: the delimiters, the token, and what follows. -/
theorem span_token (hd : ∀ c ∈ d, isCrlf c = true) (ht : ∀ c ∈ t, isCrlf c = false) (hne : t ≠ [])
    (hu : ∀ c ∈ u.head?, isCrlf c = true) :
    (d ++ (t ++ u)).takeWhile isCrlf = d ∧ ((d ++ (t ++ u)).dropWhile isCrlf).takeWhile (fun c => !isCrlf c) = t := by
  obtain ⟨c, t', rfl⟩ := List.exists_cons_of_ne_nil hne
  have hfirst := span_append (r := c :: t' ++ u) hd fun b hb => by
    obtain rfl : c = b := by simpa using hb
    exact ht c List.mem_cons_self
  have hsecond := span_append (p := fun c => !isCrlf c) (l := c :: t') (r := u) (fun b hb => by simp [ht b hb])
    fun b hb => by simp [hu b hb]
  rw [hfirst.2]
  exact ⟨hfirst.1, hsecond.1⟩

/-- The last token: the string ends after it. -/
theorem strtok_last (hx : x.length = off) (hd : ∀ c ∈ d, isCrlf c = true) (ht : ∀ c ∈ t, isCrlf c = false) (hne : t ≠ [])
    (h0 : (0 : UInt8) ∉ t) :
    strtok (x ++ (d ++ t ++ 0 :: z)) off =
      some (x ++ (d ++ t ++ 0 :: z), off + d.length + t.length, some (off + d.length)) := by
  have h0s : (0 : UInt8) ∉ d ++ t := by
    rw [List.mem_append, not_or]
    exact ⟨fun hm => absurd (hd 0 hm) (by decide), h0⟩
  have hs : stringAt (x ++ (d ++ t ++ 0 :: z)) off = d ++ (t ++ []) := by
    rw [List.append_nil]
    exact stringAt_append hx h0s
  obtain ⟨htake, htoken⟩ := span_token (u := []) hd ht hne (by simp)
  have hlen : (x ++ d ++ t).length = off + d.length + t.length := by rw [List.length_append, List.length_append, hx]
  have hb : x ++ (d ++ t ++ 0 :: z) = (x ++ d ++ t) ++ 0 :: z := by simp
  have hat : (x ++ (d ++ t ++ 0 :: z))[off + d.length + t.length]? = some 0 := by
    rw [hb, ← hlen, List.getElem?_append_right (Nat.le_refl _), Nat.sub_self]
    rfl
  rw [strtok, if_pos (hasString_append hx)]
  simp only [hs, htake, htoken, hat, if_true]
  rw [if_neg (by simpa using hne)]

/-- A token with a delimiter after it. -/
theorem strtok_more (hx : x.length = off) (hd : ∀ c ∈ d, isCrlf c = true) (ht : ∀ c ∈ t, isCrlf c = false) (hne : t ≠ [])
    (he : isCrlf e = true) (h0 : (0 : UInt8) ∉ d ++ (t ++ e :: u)) :
    strtok (x ++ (d ++ (t ++ e :: u) ++ 0 :: z)) off =
      some (x ++ d ++ (t ++ 0 :: (u ++ 0 :: z)), off + d.length + t.length + 1, some (off + d.length)) := by
  have hs : stringAt (x ++ (d ++ (t ++ e :: u) ++ 0 :: z)) off = d ++ (t ++ e :: u) := stringAt_append hx h0
  obtain ⟨htake, htoken⟩ := span_token (u := e :: u) hd ht hne (by simpa using he)
  have he0 : e ≠ 0 := by
    rintro rfl
    exact absurd he (by decide)
  have hlen : (x ++ d ++ t).length = off + d.length + t.length := by rw [List.length_append, List.length_append, hx]
  have hb : x ++ (d ++ (t ++ e :: u) ++ 0 :: z) = (x ++ d ++ t) ++ e :: (u ++ 0 :: z) := by simp
  have hat : (x ++ (d ++ (t ++ e :: u) ++ 0 :: z))[off + d.length + t.length]? = some e := by
    rw [hb, ← hlen, List.getElem?_append_right (Nat.le_refl _), Nat.sub_self]
    rfl
  have hset : (x ++ (d ++ (t ++ e :: u) ++ 0 :: z)).set (off + d.length + t.length) 0 = x ++ d ++ (t ++ 0 :: (u ++ 0 :: z)) := by
    rw [hb, ← hlen, List.set_append_right _ _ (Nat.le_refl _), Nat.sub_self]
    simp
  rw [strtok, if_pos (hasString_append hx)]
  simp only [hs, htake, htoken, hat, hset, Option.some.injEq, he0, if_false]
  rw [if_neg (by simpa using hne)]

end OneCall

/-- A call of `strtok` on a string: NULL when it has no token left; else the position of its first token, ended by a NUL, and the kept
position, from which on the string has the other tokens. -/
theorem strtok_spec (h : HasString b off) : ∃ b' off' r, strtok b off = some (b', off', r) ∧
    match r with
    | none => tokens isCrlf (stringAt b off) = []
    | some p => HasString b' p ∧ HasString b' off' ∧
        tokens isCrlf (stringAt b off) = stringAt b' p :: tokens isCrlf (stringAt b' off') := by
  obtain ⟨x, z, hb, hx, h0⟩ := h.split
  generalize stringAt b off = s at hb h0
  subst hb
  -- the string: delimiters, the token, and what a delimiter starts
  obtain ⟨d, r, rfl, hd, hr⟩ := exists_span isCrlf s
  obtain ⟨t, u, rfl, ht, hu⟩ := exists_span (fun c => !isCrlf c) r
  simp only [Bool.not_eq_true', Bool.not_eq_false'] at ht hu
  cases t with
  | nil =>
    cases u with
    | nil =>
      refine ⟨_, _, _, strtok_none (z := z) hx (d := d ++ ([] ++ [])) (by simpa using hd), ?_⟩
      simpa using tokens_of_seps hd
    | cons c u =>
      have hc := hr c rfl
      rw [hu c rfl] at hc
      cases hc
  | cons c t =>
    have hne : c :: t ≠ [] := by simp
    generalize c :: t = t at ht hne hr h0
    have hxd : (x ++ d).length = off + d.length := by rw [List.length_append, hx]
    have h0t : (0 : UInt8) ∉ t := fun hm => h0 (List.mem_append_right _ (List.mem_append_left _ hm))
    cases u with
    | nil =>
      rw [List.append_nil]
      have hb : x ++ (d ++ t ++ 0 :: z) = (x ++ d) ++ (t ++ 0 :: z) := by simp
      have hb' : x ++ (d ++ t ++ 0 :: z) = (x ++ d ++ t) ++ ([] ++ 0 :: z) := by simp
      have hlen : (x ++ d ++ t).length = off + d.length + t.length := by rw [List.length_append, hxd]
      refine ⟨_, _, _, strtok_last hx hd ht hne h0t, ?_, ?_, ?_⟩
      · rw [hb]
        exact hasString_append hxd
      · rw [hb']
        exact hasString_append hlen
      · have htok : stringAt (x ++ (d ++ t ++ 0 :: z)) (off + d.length) = t := by
          rw [hb]
          exact stringAt_append hxd h0t
        have hend : stringAt (x ++ (d ++ t ++ 0 :: z)) (off + d.length + t.length) = [] := by
          rw [hb']
          exact stringAt_append hlen (by simp)
        rw [htok, hend, tokens_skip hd, tokens_of_forall ht, emit_of_ne_nil hne]
        rfl
    | cons e u =>
      have he : isCrlf e = true := hu e rfl
      have hlen : (x ++ d ++ t ++ [0]).length = off + d.length + t.length + 1 := by
        rw [List.length_append, List.length_append, hxd]
        rfl
      have hb' : x ++ d ++ (t ++ 0 :: (u ++ 0 :: z)) = (x ++ d ++ t ++ [0]) ++ (u ++ 0 :: z) := by simp
      have h0u : (0 : UInt8) ∉ u := fun hm =>
        h0 (List.mem_append_right _ (List.mem_append_right _ (List.mem_cons_of_mem _ hm)))
      refine ⟨_, _, _, strtok_more hx hd ht hne he h0, ?_, ?_, ?_⟩
      · exact hasString_append hxd
      · rw [hb']
        exact hasString_append hlen
      · have hrest : stringAt (x ++ d ++ (t ++ 0 :: (u ++ 0 :: z))) (off + d.length + t.length + 1) = u := by
          rw [hb']
          exact stringAt_append hlen h0u
        rw [stringAt_append hxd h0t, hrest, tokens_skip hd, tokens_run ht hne he]

/-- The tokens that repeated calls give, from offset `off` of a buffer on. -/
def strtokLines : Nat → List UInt8 → Nat → Option (List (List UInt8))
  | 0, _, _ => none
  | fuel + 1, b, off =>
    match strtok b off with
    | none => none
    | some (_, _, none) => some []
    | some (b', off', some p) => (strtokLines fuel b' off').map fun lines => stringAt b' p :: lines

/-- Calling `strtok` until it returns NULL gives the tokens of the string. -/
theorem strtokLines_eq {fuel : Nat} (h : HasString b off) (hf : (tokens isCrlf (stringAt b off)).length < fuel) :
    strtokLines fuel b off = some (tokens isCrlf (stringAt b off)) := by
  induction fuel generalizing b off with
  | zero => exact absurd hf (Nat.not_lt_zero _)
  | succ fuel ih =>
    obtain ⟨b', off', r, heq, hr⟩ := strtok_spec h
    rw [strtokLines, heq]
    cases r with
    | none => rw [hr]
    | some p =>
      obtain ⟨_, hoff, htok⟩ := hr
      rw [htok, List.length_cons] at hf
      simp only [ih hoff (by omega), Option.map_some, htok]

/-- On what `recv` has left in the buffer, that is `chunkLines`. -/
theorem strtokLines_chunk (chunk junk : List UInt8) {fuel : Nat} (hf : (chunkLines chunk).length < fuel) :
    strtokLines fuel (chunk ++ 0 :: junk) 0 = some (chunkLines chunk) := by
  have hcstr : stringAt (chunk ++ 0 :: junk) 0 = cstr chunk := by
    rw [stringAt, List.drop_zero]
    by_cases h0 : (0 : UInt8) ∈ chunk
    · obtain ⟨y, hy⟩ := exists_eq_cstr_append h0
      have hchunk : chunk ++ 0 :: junk = cstr chunk ++ 0 :: (y ++ 0 :: junk) := by
        rw [← List.cons_append, ← List.append_assoc, ← hy]
      rw [hchunk, cstr_append_zero (zero_not_mem_cstr _)]
    · rw [cstr_append_zero h0, cstr_of_not_mem h0]
  have hstring : HasString (chunk ++ 0 :: junk) 0 := by
    rw [HasString, List.drop_zero]
    simp
  rw [strtokLines_eq hstring (by rw [hcstr]; exact hf), hcstr]
  rfl

/-! ## Many threads -/

/-- Where a thread is in the loops of `handle_client`: at `recv`, at the first `strtok`, about to handle the line that starts at an
offset of some thread's buffer, at the continuing `strtok`. -/
inductive ThreadPhase where
  | receiving
  | first
  | handling (owner offset : Nat)
  | next
  deriving DecidableEq

/-- A thread: the array `buffer`, where it is, and, for the statements, the chunks it has received and the lines it has passed to
`process_command` or `handle_data_content`. -/
structure Thread where
  buffer : List UInt8
  phase : ThreadPhase
  received : List (List UInt8)
  handled : List (List UInt8)

/-- The threads, the number of the next one, and the position `strtok` keeps: an offset of some thread's buffer. -/
structure Threads where
  thread : Nat → Option Thread
  clients : Nat
  saved : Option (Nat × Nat)

/-- One step of a thread; `junk` is what its stack held where `buffer` is. -/
inductive ThreadMove where
  | connect (junk : List UInt8)
  | recv (t : Nat) (chunk : List UInt8)
  | close (t : Nat)
  | first (t : Nat)
  | next (t : Nat)
  | handle (t : Nat)

/-- The beginning: nobody has connected. -/
def Threads.begin : Threads := ⟨fun _ => none, 0, none⟩

/-- Thread `t` calls `strtok` on the buffer of `owner` from `off` on. -/
def Threads.strtok (w : Threads) (t owner off : Nat) : Option Threads := do
  let o ← w.thread owner
  let (buffer, off', r) ← Mail.strtok o.buffer off
  let thread := update w.thread owner (some { o with buffer := buffer })
  let caller ← thread t
  some { w with
    thread := update thread t (some { caller with phase := match r with
      | none => .receiving
      | some p => .handling owner p })
    saved := some (owner, off') }

/-- One move. -/
def Threads.step (w : Threads) : ThreadMove → Option Threads
  | .connect junk =>
    if junk.length = 1024 then
      some { w with thread := update w.thread w.clients (some ⟨junk, .receiving, [], []⟩), clients := w.clients + 1 }
    else none
  | .recv t chunk => do
    let th ← w.thread t
    if th.phase = .receiving ∧ 0 < chunk.length ∧ chunk.length ≤ 1023 then
      some { w with thread := update w.thread t (some { th with
        buffer := chunk ++ 0 :: th.buffer.drop (chunk.length + 1)
        phase := .first
        received := th.received ++ [chunk] }) }
    else none
  | .close t => do
    let th ← w.thread t
    if th.phase = .receiving then some { w with thread := update w.thread t none } else none
  | .first t => do
    let th ← w.thread t
    if th.phase = .first then w.strtok t t 0 else none
  | .next t => do
    let th ← w.thread t
    let (owner, off) ← w.saved
    if th.phase = .next then w.strtok t owner off else none
  | .handle t => do
    let th ← w.thread t
    match th.phase with
    | .handling owner p => do
      let o ← w.thread owner
      if HasString o.buffer p then
        some { w with thread := update w.thread t (some { th with
          phase := .next
          handled := th.handled ++ [stringAt o.buffer p] }) }
      else none
    | _ => none

/-- The lines a session has been sent: the non-empty lines of the chunks it has received. -/
def Thread.lines (th : Thread) : List (List UInt8) := th.received.flatMap (tokens isCrlf)

/-- Every session has handled its own lines, in order, and all of them when it goes back to `recv`. -/
def Threads.Isolated (w : Threads) : Prop :=
  ∀ t th, w.thread t = some th → th.handled <+: th.lines ∧ (th.phase = .receiving → th.handled = th.lines)

/-- A chunk has no NUL in it, and a continuing `strtok` finds the position in the caller's own buffer. -/
def Threads.owns (w : Threads) : ThreadMove → Prop
  | .recv _ chunk => (0 : UInt8) ∉ chunk
  | .next t => ∃ off, w.saved = some (t, off)
  | _ => True

instance (w : Threads) (m : ThreadMove) : Decidable (w.owns m) :=
  match m with
  | .recv _ chunk => inferInstanceAs (Decidable ((0 : UInt8) ∉ chunk))
  | .next t => decidable_of_iff (w.saved.map Prod.fst = some t) (by simp [Threads.owns, Option.map_eq_some_iff])
  | .connect _ | .close _ | .first _ | .handle _ => isTrue trivial

/-! ## The invariant -/

variable {w w' : Threads} {t u : Nat} {th : Thread} {saved : Option (Nat × Nat)}

/-- The tokens that thread `t` still has to read are those from `off` on, and that is where the kept position is if it is in the
buffer of `t`. -/
structure Remaining (saved : Option (Nat × Nat)) (t : Nat) (th : Thread) (done : List (List UInt8)) (off : Nat) : Prop where
  string : HasString th.buffer off
  position : ∀ off', saved = some (t, off') → off' = off
  lines : done ++ tokens isCrlf (stringAt th.buffer off) = th.lines

/-- What holds of a thread, by where it is. -/
def ThreadOk (saved : Option (Nat × Nat)) (t : Nat) (th : Thread) : Prop :=
  match th.phase with
  | .receiving => th.handled = th.lines
  | .first => HasString th.buffer 0 ∧ th.handled ++ tokens isCrlf (stringAt th.buffer 0) = th.lines
  | .handling owner p => owner = t ∧ HasString th.buffer p ∧
      ∃ off, Remaining saved t th (th.handled ++ [stringAt th.buffer p]) off
  | .next => ∃ off, Remaining saved t th th.handled off

/-- The invariant of the threads. -/
def Threads.Inv (w : Threads) : Prop := ∀ t th, w.thread t = some th → ThreadOk w.saved t th

/-- A position in the buffer of another thread says nothing about this one. -/
theorem ThreadOk.other (h : ThreadOk saved u th) (hne : t ≠ u) : ThreadOk (some (t, off)) u th := by
  have hpos : ∀ off' off₁, some (t, off) = some (u, off') → off' = off₁ := by
    intro off' off₁ heq
    simp only [Option.some.injEq, Prod.mk.injEq] at heq
    exact absurd heq.1 hne
  unfold ThreadOk at h ⊢
  split at h
  · exact h
  · exact h
  · obtain ⟨howner, hp, off', hrem⟩ := h
    exact ⟨howner, hp, off', hrem.string, fun o ho => hpos o off' ho, hrem.lines⟩
  · obtain ⟨off', hrem⟩ := h
    exact ⟨off', hrem.string, fun o ho => hpos o off' ho, hrem.lines⟩

/-- A thread that has handled its own lines has handled a first part of them, and all when it is at `recv`. -/
theorem ThreadOk.isolated (h : ThreadOk saved t th) :
    th.handled <+: th.lines ∧ (th.phase = .receiving → th.handled = th.lines) := by
  unfold ThreadOk at h
  split at h
  · exact ⟨⟨[], by rw [List.append_nil, h]⟩, fun _ => h⟩
  · rename_i hp
    exact ⟨⟨_, h.2⟩, fun hr => by rw [hp] at hr; cases hr⟩
  · rename_i hp
    obtain ⟨_, _, off, hrem⟩ := h
    exact ⟨⟨_, by rw [← hrem.lines, List.append_assoc]⟩, fun hr => by rw [hp] at hr; cases hr⟩
  · rename_i hp
    obtain ⟨off, hrem⟩ := h
    exact ⟨⟨_, hrem.lines⟩, fun hr => by rw [hp] at hr; cases hr⟩

/-- The other threads are as they were when one thread is written and the kept position is left or put into its buffer. -/
theorem Threads.Inv.update {o : Option Thread} (hi : w.Inv) (hthread : w'.thread = Function.update w.thread t o)
    (hsaved : w'.saved = w.saved ∨ ∃ off, w'.saved = some (t, off)) (ho : ∀ th ∈ o, ThreadOk w'.saved t th) : w'.Inv := by
  intro u th hu
  rw [hthread] at hu
  by_cases hut : u = t
  · subst hut
    rw [update_self] at hu
    exact ho th hu
  · rw [update_of_ne hut] at hu
    rcases hsaved with heq | ⟨off, heq⟩
    · rw [heq]
      exact hi u th hu
    · rw [heq]
      exact (hi u th hu).other fun e => hut e.symm

/-- A thread that calls `strtok` on its own buffer, where its next line is. -/
theorem Threads.Inv.strtok (hi : w.Inv) (ht : w.thread t = some th) (hs : HasString th.buffer off)
    (hlines : th.handled ++ tokens isCrlf (stringAt th.buffer off) = th.lines) (h : w.strtok t t off = some w') : w'.Inv := by
  obtain ⟨b', off', r, heq, hr⟩ := strtok_spec hs
  simp only [Threads.strtok, ht, heq, Option.bind_eq_bind, Option.bind_some, update_self, update_idem, Option.some.injEq] at h
  subst h
  refine hi.update (t := t) rfl (Or.inr ⟨off', rfl⟩) ?_
  intro th' hth'
  obtain rfl := Option.some.inj hth'
  cases r with
  | none =>
    change th.handled = th.lines
    rw [← hlines, hr, List.append_nil]
  | some p =>
    obtain ⟨hp, hoff, htok⟩ := hr
    refine ⟨rfl, hp, off', hoff, fun off₁ h₁ => ?_, ?_⟩
    · simp only [Option.some.injEq, Prod.mk.injEq, true_and] at h₁
      exact h₁.symm
    · change th.handled ++ [stringAt b' p] ++ tokens isCrlf (stringAt b' off') = th.lines
      rw [← hlines, htok, List.append_assoc]
      rfl

/-- What a chunk without a NUL leaves in the buffer. -/
theorem stringAt_chunk {chunk : List UInt8} (h : (0 : UInt8) ∉ chunk) (rest : List UInt8) :
    HasString (chunk ++ 0 :: rest) 0 ∧ stringAt (chunk ++ 0 :: rest) 0 = chunk :=
  ⟨hasString_append (x := []) rfl, stringAt_append (x := []) rfl h⟩

/-- Every move keeps the invariant, if chunks have no NUL and continuing calls find the position in the caller's buffer. -/
theorem threads_step_inv (w : Threads) (m : ThreadMove) (w' : Threads) (hi : w.Inv) (hg : w.owns m) (h : w.step m = some w') :
    w'.Inv := by
  cases m with
  | connect junk =>
    obtain ⟨_, ⟨⟩⟩ := Option.ite_none_right_eq_some.1 h
    refine hi.update (t := w.clients) rfl (Or.inl rfl) ?_
    intro th hth
    obtain rfl := Option.some.inj hth
    rfl
  | recv t chunk =>
    obtain ⟨th, hth, h⟩ := Option.bind_eq_some_iff.1 h
    obtain ⟨⟨hphase, _, _⟩, ⟨⟩⟩ := Option.ite_none_right_eq_some.1 h
    refine hi.update (t := t) rfl (Or.inl rfl) ?_
    intro th' hth'
    obtain rfl := Option.some.inj hth'
    obtain ⟨hstring, hchunk⟩ := stringAt_chunk hg (th.buffer.drop (chunk.length + 1))
    have hall : th.handled = th.lines := by
      have := hi t th hth
      rwa [ThreadOk, hphase] at this
    refine ⟨hstring, ?_⟩
    change th.handled ++ tokens isCrlf (stringAt (chunk ++ 0 :: th.buffer.drop (chunk.length + 1)) 0) =
      (th.received ++ [chunk]).flatMap (tokens isCrlf)
    rw [hchunk, hall, List.flatMap_append, List.flatMap_singleton]
    rfl
  | close t =>
    obtain ⟨th, hth, h⟩ := Option.bind_eq_some_iff.1 h
    obtain ⟨_, ⟨⟩⟩ := Option.ite_none_right_eq_some.1 h
    refine hi.update (t := t) (o := none) rfl (Or.inl rfl) ?_
    intro th' hth'
    cases hth'
  | first t =>
    obtain ⟨th, hth, h⟩ := Option.bind_eq_some_iff.1 h
    obtain ⟨hphase, h⟩ := Option.ite_none_right_eq_some.1 h
    have hok := hi t th hth
    rw [ThreadOk, hphase] at hok
    exact hi.strtok hth hok.1 hok.2 h
  | next t =>
    obtain ⟨th, hth, h⟩ := Option.bind_eq_some_iff.1 h
    obtain ⟨⟨owner, off⟩, hsaved, h⟩ := Option.bind_eq_some_iff.1 h
    obtain ⟨hphase, h⟩ := Option.ite_none_right_eq_some.1 h
    obtain ⟨off₁, hown⟩ := hg
    rw [hsaved] at hown
    obtain ⟨rfl, rfl⟩ : owner = t ∧ off = off₁ := by simpa using hown
    have hok := hi owner th hth
    rw [ThreadOk, hphase] at hok
    obtain ⟨off', hrem⟩ := hok
    obtain rfl := hrem.position off hsaved
    exact hi.strtok hth hrem.string hrem.lines h
  | handle t =>
    obtain ⟨th, hth, h⟩ := Option.bind_eq_some_iff.1 h
    have hok := hi t th hth
    unfold ThreadOk at hok
    split at h
    · rename_i owner p hphase
      rw [hphase] at hok
      obtain ⟨rfl, hp, off, hrem⟩ := hok
      obtain ⟨o, ho, h⟩ := Option.bind_eq_some_iff.1 h
      rw [hth] at ho
      cases ho
      obtain ⟨_, ⟨⟩⟩ := Option.ite_none_right_eq_some.1 h
      refine hi.update (t := owner) rfl (Or.inl rfl) ?_
      intro th' hth'
      obtain rfl := Option.some.inj hth'
      exact ⟨off, hrem.string, hrem.position, hrem.lines⟩
    · cases h

/-- Session isolation, where `strtok` is not shared. In every run of any number of client threads, with any chunks and any
interleaving of their steps, in which chunks have no NUL and every continuing `strtok` comes before any other thread's call, each
session handles exactly its own lines, in order, in every state. -/
theorem sessions_isolated (moves : List ThreadMove) (hm : Meets Threads.step Threads.owns .begin moves) :
    Always Threads.step Threads.Isolated .begin moves := by
  have hinv : Always Threads.step Threads.Inv .begin moves := by
    refine always_of_invariant threads_step_inv (fun t th ht => ?_) hm
    cases ht
  exact hinv.imp fun w hw t th ht => (hw t th ht).isolated

/-- A stack that held zeros. -/
def zeros : List UInt8 := List.replicate 1024 0

/-- One client sends a command, and the server handles it. -/
def oneClient : List ThreadMove := [.connect zeros, .recv 0 (text "QUIT\r\n"), .first 0, .handle 0, .next 0]

/-- `sessions_isolated` on one client. -/
theorem sessions_isolated_one : Always Threads.step Threads.Isolated .begin oneClient :=
  sessions_isolated oneClient (by decide +kernel)

/-- Two clients send two commands each. The second's first `strtok` comes between two calls of the first, whose next line is then the
second's. -/
def twoClients : List ThreadMove :=
  [.connect zeros, .connect zeros, .recv 0 (text "A\r\nB\r\n"), .first 0, .recv 1 (text "C\r\nD\r\n"), .first 1, .handle 0, .next 0,
    .handle 0]

/-- The session of the first client handles `A`, and then `D`, a line of the other client. -/
theorem lines_crossed : ¬Always Threads.step Threads.Isolated .begin twoClients := by
  intro hall
  have hrun : (exec Threads.step .begin twoClients).any (fun w => (w.thread 0).any fun th =>
      th.handled == [text "A", text "D"] && th.received == [text "A\r\nB\r\n"]) = true := by decide +kernel
  obtain ⟨w, hx, hw⟩ := (Option.any_eq_true _ _).1 hrun
  obtain ⟨th, hth, heq⟩ := (Option.any_eq_true _ _).1 hw
  simp only [Bool.and_eq_true, beq_iff_eq] at heq
  have hpre := (hall _ (List.prefix_refl _) w hx 0 th hth).1
  rw [Thread.lines, heq.1, heq.2] at hpre
  exact absurd hpre (by decide)

end NetLabs.Mail
