import NetLabs.Ktp.Life

/-!
# The processes and the daemon

All ten entries, any number of processes that call the library, and the parts of the daemon that hand the entries around: the bind
loop of `main` and the garbage collector. What a call does between `sem_wait(sem_SM)` and `sem_post(sem_SM)` is one move; the bind
loop tests an entry in one move, without the lock, and binds it in a later one. `sem1` and `sem2` are counters: a move that waits on
one can be taken by whoever waits, while the counter is positive.

The state also remembers, for the statements, which process has obtained an entry from `k_socket` and not given it up (`holder`),
and the call of `k_bind` that has returned 0 in the last move (`returned`).
-/

namespace NetLabs.Ktp

open Function Machine

/-- Where a process is inside the library. -/
inductive Phase where
  | idle
  /-- in the search of `k_socket`, before entry `i` -/
  | scanning (i : Sock)
  /-- in `k_bind`, before `sem_post(sem2)` -/
  | posting (i : Sock) (a : BindArgs)
  /-- in `k_bind`, at `sem_wait(sem1)` -/
  | waiting (i : Sock) (a : BindArgs)
  /-- in `k_bind`, before it copies the entry and returns 0 -/
  | copying (i : Sock) (a : BindArgs)

/-- Where the bind loop of `main` is. -/
inductive MainPhase where
  | waiting
  | testing (i : Sock)
  | binding (i : Sock)
  | posting

/-- A library call on a descriptor. -/
inductive EntryCall where
  | bind (a : BindArgs)
  | sendto (junk : Message) (message : List UInt8)
  | recvfrom
  | close

/-- What a call of `self` does to the entry it names: whether it is accepted (it does not return -1 here), and the new entry. -/
def libraryCall (e : Entry) (self : Nat) : EntryCall → Bool × Entry
  | .bind a => ((kBind e a).isSome, (kBind e a).getD e)
  | .sendto junk message => ((kSendto e self junk message).1.isSome, (kSendto e self junk message).2)
  | .recvfrom => ((kRecvfrom e self).1.isSome, (kRecvfrom e self).2)
  | .close => ((kClose e self).isSome, (kClose e self).getD e)

/-- The shared memory, the semaphores, the processes, the bind loop and the addresses UDP sockets are bound to. -/
structure World where
  mem : Sock → Entry
  lock : Bool
  sem1 : Nat
  sem2 : Nat
  alive : Nat → Bool
  phase : Nat → Phase
  main : MainPhase
  bound : Int → Option (CString × UInt16)
  holder : Sock → Option Nat
  returned : Option (Nat × Sock × BindArgs)

/-- One move of a process, of the bind loop, of the collector, or of threads R and S on an entry. -/
inductive Move where
  | callSocket (p : Nat)
  | scan (p : Nat)
  | call (p : Nat) (i : Sock) (c : EntryCall)
  | post (p : Nat)
  | wait (p : Nat)
  | copy (p : Nat)
  | die (p : Nat)
  | mainWait
  | mainTest
  | mainBind
  | mainPost
  | collect
  | traffic (i : Sock) (ev : Event)

/-- What threads R and S do. -/
def Event.isDaemon : Event → Bool
  | .datagram _ _ => true
  | .update => true
  | .wakeUp _ _ => true
  | _ => false

/-- The next entry of a search, or what comes after the last one. -/
def following {α : Type} (i : Sock) (f : Sock → α) (done : α) : α := if h : i.val + 1 < 10 then f ⟨i.val + 1, h⟩ else done

/-- The owners `kill(pid, 0)` fails for: the dead processes. Number 0 is the caller's own process group. -/
def World.gone (w : World) (p : Nat) : Bool := p != 0 && !w.alive p

/-- The collector frees the entry. -/
def World.collects (w : World) (i : Sock) : Bool := (w.mem i).isFree != 1 && w.gone (w.mem i).pid

/-- The process can move. -/
def World.ready (w : World) (p : Nat) : Bool := p != 0 && w.alive p

/-- The lock after a locked section: `k_bind` on a free entry returns without `sem_post(sem_SM)`. -/
def EntryCall.unlocks (accepted : Bool) : EntryCall → Bool
  | .bind _ => accepted
  | _ => true

/-- Where the caller is after the locked section of a call. -/
def EntryCall.phaseAfter (i : Sock) (accepted : Bool) : EntryCall → Phase
  | .bind a => if accepted then .posting i a else .idle
  | _ => .idle

/-- Who holds the entries after a call. -/
def EntryCall.holderAfter (holder : Sock → Option Nat) (i : Sock) (accepted : Bool) : EntryCall → Sock → Option Nat
  | .close => if accepted then update holder i none else holder
  | _ => holder

/-- A move, with `returned` cleared. -/
def World.act (w : World) : Move → Option World
  | .callSocket p =>
    match w.ready p, w.phase p with
    | true, .idle => some { w with phase := update w.phase p (.scanning 0) }
    | _, _ => none
  | .scan p =>
    match w.ready p && w.lock, w.phase p with
    | true, .scanning i =>
      match kSocket (w.mem i) p with
      | none => some { w with phase := update w.phase p (following i .scanning .idle) }
      | some e =>
        some { w with
          mem := update w.mem i e
          holder := update w.holder i (some p)
          phase := update w.phase p .idle }
    | _, _ => none
  | .call p i c =>
    match w.ready p && w.lock, w.phase p with
    | true, .idle =>
      some { w with
        mem := update w.mem i (libraryCall (w.mem i) p c).2
        lock := c.unlocks (libraryCall (w.mem i) p c).1
        holder := c.holderAfter w.holder i (libraryCall (w.mem i) p c).1
        phase := update w.phase p (c.phaseAfter i (libraryCall (w.mem i) p c).1) }
    | _, _ => none
  | .post p =>
    match w.ready p, w.phase p with
    | true, .posting i a => some { w with sem2 := w.sem2 + 1, phase := update w.phase p (.waiting i a) }
    | _, _ => none
  | .wait p =>
    match w.ready p && decide (0 < w.sem1), w.phase p with
    | true, .waiting i a => some { w with sem1 := w.sem1 - 1, phase := update w.phase p (.copying i a) }
    | _, _ => none
  | .copy p =>
    match w.ready p && w.lock, w.phase p with
    | true, .copying i a => some { w with phase := update w.phase p .idle, returned := some (p, i, a) }
    | _, _ => none
  | .die p => if w.ready p then some { w with alive := update w.alive p false } else none
  | .mainWait =>
    match decide (0 < w.sem2), w.main with
    | true, .waiting => some { w with sem2 := w.sem2 - 1, main := .testing 0 }
    | _, _ => none
  | .mainTest =>
    match w.main with
    | .testing i => some { w with main := if (w.mem i).isFree = 2 then .binding i else following i .testing .posting }
    | _ => none
  | .mainBind =>
    match w.lock, w.main with
    | true, .binding i =>
      some { w with
        mem := update w.mem i (bindServed (w.mem i))
        bound := update w.bound (w.mem i).udpSocket (some ((w.mem i).srcIp, (w.mem i).srcPort))
        main := .posting }
    | _, _ => none
  | .mainPost =>
    match w.main with
    | .posting => some { w with sem1 := w.sem1 + 1, main := .waiting }
    | _ => none
  | .collect =>
    if w.lock then
      some { w with
        mem := fun i => collect w.gone (w.mem i)
        holder := fun i => if w.collects i then none else w.holder i
        bound := fun fd => if (List.finRange 10).any (fun i => w.collects i && (w.mem i).udpSocket == fd) then none
          else w.bound fd }
    else none
  | .traffic i ev =>
    match w.lock && ev.isDaemon, (w.mem i).step ev with
    | true, .ok (e, _) => some { w with mem := update w.mem i e }
    | _, _ => none

/-- One move. -/
def World.step (w : World) (m : Move) : Option World := World.act { w with returned := none } m

/-- The beginning: what `init_ksocket` writes, and everybody idle. -/
def World.begin (udpSocket : Sock → Int) (alive : Nat → Bool) : World where
  mem := initKsocket udpSocket
  lock := true
  sem1 := 0
  sem2 := 0
  alive := alive
  phase _ := .idle
  main := .waiting
  bound _ := none
  holder _ := none
  returned := none

/-! ## What a move does to the entries -/

/-- What a move does to the shared memory, to who holds the entries and to the bound addresses. -/
inductive Change (w : World) : Move → (Sock → Entry) → (Sock → Option Nat) → (Int → Option (CString × UInt16)) → Prop where
  | none (m : Move) : Change w m w.mem w.holder w.bound
  | handedOut (p : Nat) (i : Sock) (e : Entry) (hp : w.ready p = true) (h : kSocket (w.mem i) p = some e) :
      Change w (.scan p) (update w.mem i e) (update w.holder i (some p)) w.bound
  | asked (p : Nat) (i : Sock) (a : BindArgs) (e : Entry) (h : kBind (w.mem i) a = some e) :
      Change w (.call p i (.bind a)) (update w.mem i e) w.holder w.bound
  | closed (p : Nat) (i : Sock) (e : Entry) (h : kClose (w.mem i) p = some e) :
      Change w (.call p i .close) (update w.mem i e) (update w.holder i Option.none) w.bound
  | traffic (m : Move) (i : Sock) (q : Protocol) : Change w m (update w.mem i ((w.mem i).withProtocol q)) w.holder w.bound
  | served (i : Sock) (h : w.main = .binding i) : Change w .mainBind (update w.mem i (bindServed (w.mem i))) w.holder
      (update w.bound (w.mem i).udpSocket (some ((w.mem i).srcIp, (w.mem i).srcPort)))
  | collected : Change w .collect (fun i => collect w.gone (w.mem i)) (fun i => if w.collects i then Option.none else w.holder i)
      (fun fd => if (List.finRange 10).any (fun i => w.collects i && (w.mem i).udpSocket == fd) then Option.none
        else w.bound fd)

/-- A call leaves the entry alone, writes its protocol fields, asks for it to be bound, or frees it. -/
theorem call_change (w : World) (p : Nat) (i : Sock) (c : EntryCall) :
    Change w (.call p i c) (update w.mem i (libraryCall (w.mem i) p c).2)
      (c.holderAfter w.holder i (libraryCall (w.mem i) p c).1) w.bound := by
  have hsame : ∀ c' : EntryCall, Change w (.call p i c') (update w.mem i (w.mem i)) w.holder w.bound := by
    intro c'
    rw [update_eq_self]
    exact Change.none _
  cases c with
  | bind a =>
    cases hb : kBind (w.mem i) a with
    | none =>
      simp only [libraryCall, hb, Option.getD_none]
      exact hsame _
    | some e =>
      simp only [libraryCall, hb, Option.getD_some]
      exact Change.asked p i a e hb
  | sendto junk message =>
    simp only [libraryCall]
    rw [kSendto_side (w.mem i).toControl (w.mem i).toProtocol]
    exact Change.traffic _ i _
  | recvfrom =>
    simp only [libraryCall]
    rw [kRecvfrom_side (w.mem i).toControl (w.mem i).toProtocol]
    exact Change.traffic _ i _
  | close =>
    cases hc : kClose (w.mem i) p with
    | none =>
      simp only [libraryCall, hc, Option.getD_none]
      exact hsame _
    | some e =>
      simp only [libraryCall, hc, Option.getD_some]
      exact Change.closed p i e hc

/-- What threads R and S do writes protocol fields. -/
theorem daemon_step {e e' : Entry} {ev : Event} {out : List Datagram} (hev : ev.isDaemon = true)
    (h : e.step ev = .ok (e', out)) : ∃ q, e' = e.withProtocol q := by
  cases ev with
  | datagram d dropped =>
    simp only [Entry.step] at h
    split at h
    · cases h
    · cases h
      exact ⟨_, rfl⟩
  | update =>
    simp only [Entry.step] at h
    rcases windowUpdate_cases e with hu | ⟨-, -, -, hu⟩ <;> rw [hu] at h <;> cases h
    · exact ⟨e.toProtocol, rfl⟩
    · exact ⟨_, rfl⟩
  | wakeUp scan stamp =>
    obtain ⟨t, rfl⟩ := threadS_sendTime h
    exact ⟨_, rfl⟩
  | _ => cases hev

/-- Every move is one of these changes. -/
theorem World.step_change {w w' : World} {m : Move} (h : w.step m = some w') : Change w m w'.mem w'.holder w'.bound := by
  unfold World.step at h
  cases m with
  | scan p =>
    simp only [World.act] at h
    split at h
    · rename_i hready hphase
      split at h
      · cases h
        exact Change.none _
      · rename_i e he
        cases h
        exact Change.handedOut p _ e (by simp only [Bool.and_eq_true] at hready; exact hready.1) he
    · cases h
  | call p i c =>
    simp only [World.act] at h
    split at h
    · cases h
      exact call_change w p i c
    · cases h
  | mainBind =>
    simp only [World.act] at h
    split at h
    · rename_i hlock hmain
      cases h
      exact Change.served _ hmain
    · cases h
  | collect =>
    simp only [World.act] at h
    split at h
    · cases h
      exact Change.collected
    · cases h
  | traffic i ev =>
    simp only [World.act] at h
    split at h
    · rename_i hev hs
      cases h
      rw [Bool.and_eq_true] at hev
      obtain ⟨q, rfl⟩ := daemon_step hev.2 hs
      exact Change.traffic _ i q
    · cases h
  | _ =>
    -- the moves that touch semaphores, phases and processes only
    simp only [World.act] at h
    split at h <;> cases h
    exact Change.none _

/-! ## What a move does to one entry -/

/-- The collector leaves an entry alone, or frees it. -/
theorem collect_of_not_collects {w : World} {i : Sock} (h : w.collects i = false) : collect w.gone (w.mem i) = w.mem i := by
  unfold collect
  split
  · rfl
  · rename_i hfree
    rw [if_neg]
    intro hgone
    simp [World.collects, hfree, hgone] at h

theorem collect_of_collects {w : World} {i : Sock} (h : w.collects i = true) :
    (collect w.gone (w.mem i)).isFree = 1 ∧ (collect w.gone (w.mem i)).pid = 0 := by
  obtain ⟨hfree, hgone⟩ : ¬(w.mem i).isFree = 1 ∧ w.gone (w.mem i).pid = true := by simpa [World.collects] using h
  unfold collect
  rw [if_neg hfree, if_pos hgone]
  exact ⟨rfl, rfl⟩

/-- What a move does to entry `j` and to who holds it. -/
inductive EntryChange (w : World) (j : Sock) : Move → Entry → Option Nat → Prop where
  | same (m : Move) : EntryChange w j m (w.mem j) (w.holder j)
  | handedOut (p : Nat) (e : Entry) (hp : w.ready p = true) (h : kSocket (w.mem j) p = some e) :
      EntryChange w j (.scan p) e (some p)
  | asked (p : Nat) (a : BindArgs) (e : Entry) (h : kBind (w.mem j) a = some e) :
      EntryChange w j (.call p j (.bind a)) e (w.holder j)
  | closed (p : Nat) (e : Entry) (h : kClose (w.mem j) p = some e) : EntryChange w j (.call p j .close) e none
  | traffic (m : Move) (q : Protocol) : EntryChange w j m ((w.mem j).withProtocol q) (w.holder j)
  | served (h : w.main = .binding j) : EntryChange w j .mainBind (bindServed (w.mem j)) (w.holder j)
  | collected (h : w.collects j = true) : EntryChange w j .collect (collect w.gone (w.mem j)) none

/-- A move that changes one entry, seen from any entry. -/
theorem EntryChange.spread {w : World} {m : Move} {i : Sock} {e : Entry} {o : Option Nat} (h : EntryChange w i m e o) (j : Sock) :
    EntryChange w j m (update w.mem i e j) (update w.holder i o j) := by
  by_cases hj : j = i
  · subst hj
    rw [update_self, update_self]
    exact h
  · rw [update_of_ne hj, update_of_ne hj]
    exact EntryChange.same _

/-- The same when the entry stays whose it was. -/
theorem EntryChange.spread_mem {w : World} {m : Move} {i : Sock} {e : Entry} (h : EntryChange w i m e (w.holder i)) (j : Sock) :
    EntryChange w j m (update w.mem i e j) (w.holder j) := by
  have hchange := h.spread j
  rwa [update_eq_self] at hchange

theorem Change.entry {w : World} {m : Move} {mem : Sock → Entry} {holder : Sock → Option Nat}
    {bound : Int → Option (CString × UInt16)} (h : Change w m mem holder bound) (j : Sock) :
    EntryChange w j m (mem j) (holder j) := by
  cases h with
  | none => exact EntryChange.same m
  | handedOut p i e hp he => exact (EntryChange.handedOut p e hp he).spread j
  | asked p i a e he => exact (EntryChange.asked p a e he).spread_mem j
  | closed p i e he => exact (EntryChange.closed p e he).spread j
  | traffic m i q => exact (EntryChange.traffic m q).spread_mem j
  | served i hmain => exact (EntryChange.served hmain).spread_mem j
  | collected =>
    cases hc : w.collects j with
    | true =>
      simp only [hc, ↓reduceIte]
      exact EntryChange.collected hc
    | false =>
      simp only [collect_of_not_collects hc, hc, Bool.false_eq_true, ↓reduceIte]
      exact EntryChange.same _

theorem World.step_entry {w w' : World} {m : Move} (h : w.step m = some w') (j : Sock) :
    EntryChange w j m (w'.mem j) (w'.holder j) := (World.step_change h).entry j

end NetLabs.Ktp
