import NetLabs.Ktp.World

/-!
# The lock of the shared memory

The five library calls as they use `sem_SM`: every `sem_open`, `sem_wait` and `sem_post`, and between them what is read and written.
A call is a `Code`, one constructor an operation; `Code.alone` runs it by itself and agrees with `libraryCall` (`call_alone`). The
machine `Locks` interleaves the operations of any number of processes with the locked sections of the daemon.

Every path of every call posts what it has waited for, but one: `k_bind` on a free entry.
-/

namespace NetLabs.Ktp

open Function Machine

/-- What is left to do of a call; `ret` when it has returned. `open_` is a `sem_open`, which can fail; `wait` and `post` are on
`sem_SM`, `post2` is `sem_post(sem2)`, `wait1` is `sem_wait(sem1)`. -/
inductive Code where
  | ret (value : Int)
  | open_ (next : Bool → Code)
  | wait (next : Code)
  | post (next : Code)
  | post2 (next : Code)
  | wait1 (next : Code)
  | load (next : (Sock → Entry) → Code)
  | store (i : Sock) (e : Entry) (next : Code)

theorem toNat_lt_ten {n : Int} (h : 0 ≤ n ∧ n < 10) : n.toNat < 10 := by omega

/-- `sockfd < 0 || sockfd >= MAX_KTP_SOCKETS`, or the entry. -/
def sock? (sockfd : Int) : Option Sock := if h : 0 ≤ sockfd ∧ sockfd < 10 then some ⟨sockfd.toNat, toNat_lt_ten h⟩ else none

/-- `SOCK_KTP`. -/
def sockKtp : Int := 3

/-- The search of `k_socket`, one locked section an entry. -/
def kSocketScan (self : Nat) : List Sock → Code
  | [] => .ret (-1)
  | i :: is => .wait (.load fun mem =>
      match kSocket (mem i) self with
      | some e => .store i e (.post (.ret i))
      | none => .post (kSocketScan self is))

/-- `k_socket`. -/
def kSocketCode (self : Nat) (type : Int) : Code :=
  .open_ fun ok =>
    if !ok then .ret (-1)
    else if type ≠ sockKtp then .ret (-1)
    else kSocketScan self (List.finRange 10)

/-- `k_bind` with the lock, at its test of the entry: the path of a free entry has no `sem_post(sem_SM)`. -/
def kBindTest (i : Sock) (a : BindArgs) : Code :=
  .load fun mem =>
    match kBind (mem i) a with
    | none => .ret (-1)
    | some e => .store i e (.post (.post2 (.wait1 (.wait (.post (.ret 0))))))

/-- `k_bind`. The third `sem_open` answers its failure with `EXIT_FAILURE`. -/
def kBindCode (sockfd : Int) (a : BindArgs) : Code :=
  .open_ fun ok1 =>
    if !ok1 then .ret (-1)
    else .open_ fun ok2 =>
      if !ok2 then .ret (-1)
      else .open_ fun ok =>
        if !ok then .ret 1
        else match sock? sockfd with
          | none => .ret (-1)
          | some i => .wait (kBindTest i a)

/-- `k_sendto` with the lock: the owner, the length, the free slot. -/
def kSendtoLocked (i : Sock) (self : Nat) (junk : Message) (message : List UInt8) : Code :=
  .load fun mem =>
    if (mem i).refused self then .post (.ret (-1))
    else if 512 - 3 < message.length then .post (.ret (-1))
    else match firstFree (mem i).sbuffFree with
      | none => .post (.ret (-1))
      | some freeIndex =>
        .store i ((mem i).withProtocol ((mem i).toProtocol.withSend (fillSlot (mem i).toSendSide freeIndex junk message)))
          (.post (.ret message.length))

/-- `k_sendto`. -/
def kSendtoCode (sockfd : Int) (self : Nat) (junk : Message) (message : List UInt8) : Code :=
  match sock? sockfd with
  | none => .ret (-1)
  | some i => .open_ fun ok => if !ok then .ret (-1) else .wait (kSendtoLocked i self junk message)

/-- `k_recvfrom` with the lock: the owner, the number that is next, the slot. -/
def kRecvfromLocked (i : Sock) (self : Nat) : Code :=
  .load fun mem =>
    if (mem i).refused self then .post (.ret (-1))
    else if (mem i).rwnd.startSequence < (pick (mem i).toRecvSide).2 ∨ (pick (mem i).toRecvSide).2 = 257 then .post (.ret (-1))
    else match (pick (mem i).toRecvSide).1 with
      | none => .post (.ret (-1))
      | some index =>
        .store i ((mem i).withProtocol ((mem i).toProtocol.withRecv
            (freeSlot (mem i).toRecvSide index (pick (mem i).toRecvSide).2)))
          (.post (.ret (slotString (mem i).toRecvSide index).length))

/-- `k_recvfrom`. -/
def kRecvfromCode (sockfd : Int) (self : Nat) : Code :=
  match sock? sockfd with
  | none => .ret (-1)
  | some i => .open_ fun ok => if !ok then .ret (-1) else .wait (kRecvfromLocked i self)

/-- `k_close` with the lock. -/
def kCloseLocked (i : Sock) (self : Nat) : Code :=
  .load fun mem =>
    if (mem i).isFree = 1 then .post (.ret (-1))
    else if (mem i).pid ≠ self then .post (.ret (-1))
    else .store i ((mem i).withControl { (mem i).toControl with isFree := 1, pid := 0 }) (.post (.ret 0))

/-- `k_close`, which uses the handle an earlier call has opened. -/
def kCloseCode (sockfd : Int) (self : Nat) : Code :=
  match sock? sockfd with
  | none => .ret (-1)
  | some i => .wait (kCloseLocked i self)

/-- A call of the library. -/
inductive LibraryCall where
  | socket (type : Int)
  | bind (sockfd : Int) (a : BindArgs)
  | sendto (sockfd : Int) (junk : Message) (message : List UInt8)
  | recvfrom (sockfd : Int)
  | close (sockfd : Int)

/-- The code a process runs for a call. -/
def LibraryCall.code (self : Nat) : LibraryCall → Code
  | .socket type => kSocketCode self type
  | .bind sockfd a => kBindCode sockfd a
  | .sendto sockfd junk message => kSendtoCode sockfd self junk message
  | .recvfrom sockfd => kRecvfromCode sockfd self
  | .close sockfd => kCloseCode sockfd self

/-! ## A call by itself -/

/-- A call run by itself, every `sem_open` succeeding: what it returns, the shared memory after it, and how many more times it has
waited on `sem_SM` than posted it. -/
def Code.alone : Code → (Sock → Entry) → Int × (Sock → Entry) × Int
  | .ret value, mem => (value, mem, 0)
  | .open_ next, mem => (next true).alone mem
  | .wait next, mem => ((next.alone mem).1, (next.alone mem).2.1, (next.alone mem).2.2 + 1)
  | .post next, mem => ((next.alone mem).1, (next.alone mem).2.1, (next.alone mem).2.2 - 1)
  | .post2 next, mem => next.alone mem
  | .wait1 next, mem => next.alone mem
  | .load next, mem => (next mem).alone mem
  | .store i e next, mem => next.alone (update mem i e)

/-- The code of a call on an entry. -/
def EntryCall.code (i : Sock) (self : Nat) : EntryCall → Code
  | .bind a => kBindCode i a
  | .sendto junk message => kSendtoCode i self junk message
  | .recvfrom => kRecvfromCode i self
  | .close => kCloseCode i self

theorem sock?_coe (i : Sock) : sock? i = some i := by
  have : (0 : Int) ≤ i.val ∧ (i.val : Int) < 10 := by omega
  simp [sock?, this]

/-- Run by itself, the code of a call does to the entry what `libraryCall` says, leaves the lock as `EntryCall.unlocks` says, and
returns -1 exactly when the call is not accepted. -/
theorem call_alone (i : Sock) (self : Nat) (c : EntryCall) (mem : Sock → Entry) :
    ((c.code i self).alone mem).2 =
        (update mem i (libraryCall (mem i) self c).2, if c.unlocks (libraryCall (mem i) self c).1 then 0 else 1) ∧
      (((c.code i self).alone mem).1 = -1 ↔ (libraryCall (mem i) self c).1 = false) := by
  cases c with
  | bind a =>
    cases hb : kBind (mem i) a with
    | none => simp [EntryCall.code, kBindCode, Code.alone, sock?_coe, kBindTest, libraryCall, EntryCall.unlocks, hb]
    | some e => simp [EntryCall.code, kBindCode, Code.alone, sock?_coe, kBindTest, libraryCall, EntryCall.unlocks, hb]
  | sendto junk message =>
    simp only [EntryCall.code, kSendtoCode, Code.alone, Bool.not_true, Bool.false_eq_true, if_false, sock?_coe, kSendtoLocked,
      libraryCall, EntryCall.unlocks, kSendto, queueMessage]
    by_cases hr : (mem i).refused self = true
    · simp [hr, Code.alone]
    · by_cases hlen : 512 - 3 < message.length
      · simp [hr, hlen, Code.alone]
      · cases firstFree (mem i).sbuffFree with
        | none => simp [hr, hlen, Code.alone]
        | some freeIndex =>
          simp only [hr, hlen, Code.alone, Bool.false_eq_true, if_false, Option.isSome_some, if_true]
          exact ⟨by simp, by simp⟩
  | recvfrom =>
    simp only [EntryCall.code, kRecvfromCode, Code.alone, Bool.not_true, Bool.false_eq_true, if_false, sock?_coe, kRecvfromLocked,
      libraryCall, EntryCall.unlocks, kRecvfrom, takeMessage]
    by_cases hr : (mem i).refused self = true
    · simp [hr, Code.alone]
    · by_cases hnum : (mem i).rwnd.startSequence < (pick (mem i).toRecvSide).2 ∨ (pick (mem i).toRecvSide).2 = 257
      · simp [hr, hnum, Code.alone]
      · cases (pick (mem i).toRecvSide).1 with
        | none => simp [hr, hnum, Code.alone]
        | some index =>
          simp only [hr, hnum, Code.alone, Bool.false_eq_true, if_false, Option.isSome_some, if_true]
          exact ⟨by simp, by simp⟩
  | close =>
    simp only [EntryCall.code, kCloseCode, Code.alone, sock?_coe, kCloseLocked, libraryCall, EntryCall.unlocks, kClose]
    by_cases hfree : (mem i).isFree = 1
    · simp [hfree, Code.alone]
    · by_cases hpid : (mem i).pid = self
      · simp [hfree, hpid, Code.alone]
      · simp [hfree, hpid, Code.alone]

/-! ## The machine -/

/-- The three semaphores, the shared memory, what is left of each process's call (`ret` for one that is in no call), and how many
more times each process has waited on `sem_SM` than posted it. -/
structure Locks where
  semSM : Nat
  sem1 : Nat
  sem2 : Nat
  mem : Sock → Entry
  code : Nat → Code
  held : Nat → Int

/-- What can happen: a process outside the library starts a call; a process in a call does its next operation (`ok` says whether a
`sem_open` succeeds); a daemon thread goes through a locked section, which leaves any shared memory behind; the bind loop takes a
post of `sem2` and gives one of `sem1`. -/
inductive LockMove where
  | call (p : Nat) (c : LibraryCall)
  | run (p : Nat) (ok : Bool)
  | daemon (mem : Sock → Entry)
  | serve

/-- The next operation of process `p`. -/
def Locks.run (w : Locks) (p : Nat) (ok : Bool) : Option Locks :=
  match w.code p with
  | .ret _ => none
  | .open_ next => some { w with code := update w.code p (next ok) }
  | .wait next =>
    if 0 < w.semSM then
      some { w with semSM := w.semSM - 1, code := update w.code p next, held := update w.held p (w.held p + 1) }
    else none
  | .post next => some { w with semSM := w.semSM + 1, code := update w.code p next, held := update w.held p (w.held p - 1) }
  | .post2 next => some { w with sem2 := w.sem2 + 1, code := update w.code p next }
  | .wait1 next => if 0 < w.sem1 then some { w with sem1 := w.sem1 - 1, code := update w.code p next } else none
  | .load next => some { w with code := update w.code p (next w.mem) }
  | .store i e next => some { w with mem := update w.mem i e, code := update w.code p next }

/-- One move. -/
def Locks.step (w : Locks) : LockMove → Option Locks
  | .call p c =>
    match w.code p with
    | .ret _ => some { w with code := update w.code p (c.code p) }
    | _ => none
  | .run p ok => w.run p ok
  | .daemon mem => if 0 < w.semSM then some { w with mem := mem } else none
  | .serve => if 0 < w.sem2 then some { w with sem2 := w.sem2 - 1, sem1 := w.sem1 + 1 } else none

/-- The beginning: `sem_SM` is 1, nobody is in a call. -/
def Locks.begin (mem : Sock → Entry) : Locks where
  semSM := 1
  sem1 := 0
  sem2 := 0
  mem := mem
  code _ := .ret 0
  held _ := 0

/-- The lock discipline: nobody has waited twice without a post, or posted without waiting; whoever is not in a call holds nothing;
and the lock is available, or exactly one process holds it. -/
structure Locks.Disciplined (w : Locks) : Prop where
  once : ∀ p, w.held p = 0 ∨ w.held p = 1
  returned : ∀ p value, w.code p = .ret value → w.held p = 0
  available : w.semSM = 1 ∧ (∀ p, w.held p = 0) ∨ w.semSM = 0 ∧ ∃ p, w.held p = 1 ∧ ∀ q, q ≠ p → w.held q = 0

/-- The next operation is the test of `k_bind` on a free entry. -/
def Locks.bindsFree (w : Locks) : LockMove → Prop
  | .run p _ => ∃ i a, w.code p = kBindTest i a ∧ (w.mem i).isFree = 1
  | _ => False

/-- When every process has returned, the lock is available. -/
theorem Locks.Disciplined.free {w : Locks} (h : w.Disciplined) (hall : ∀ p, ∃ value, w.code p = .ret value) : w.semSM = 1 := by
  rcases h.available with ⟨hsem, _⟩ | ⟨_, p, hp, _⟩
  · exact hsem
  · obtain ⟨value, hv⟩ := hall p
    rw [h.returned p value hv] at hp
    cases hp

/-! ## What a call holds -/

/-- A call that has waited on `sem_SM` `held` times more than it has posted it, and on every path from here waits only when it holds
nothing, posts only what it holds and returns with nothing; the test of `k_bind` excepted. -/
inductive Guarded : Int → Code → Prop where
  | ret (value : Int) : Guarded 0 (.ret value)
  | open_ (next : Bool → Code) (h : ∀ ok, Guarded 0 (next ok)) : Guarded 0 (.open_ next)
  | wait (next : Code) (h : Guarded 1 next) : Guarded 0 (.wait next)
  | post (next : Code) (h : Guarded 0 next) : Guarded 1 (.post next)
  | post2 (next : Code) (h : Guarded 0 next) : Guarded 0 (.post2 next)
  | wait1 (next : Code) (h : Guarded 0 next) : Guarded 0 (.wait1 next)
  | load (next : (Sock → Entry) → Code) (h : ∀ mem, Guarded 1 (next mem)) : Guarded 1 (.load next)
  | store (i : Sock) (e : Entry) (next : Code) (h : Guarded 1 next) : Guarded 1 (.store i e next)
  | bindTest (i : Sock) (a : BindArgs) : Guarded 1 (kBindTest i a)

/-- The last two operations of a path that has the lock. -/
theorem guarded_post_ret (value : Int) : Guarded 1 (.post (.ret value)) := .post _ (.ret value)

theorem guarded_socketScan (self : Nat) (is : List Sock) : Guarded 0 (kSocketScan self is) := by
  induction is with
  | nil => exact .ret (-1)
  | cons i is ih =>
    refine .wait _ (.load _ fun mem => ?_)
    split
    · exact .store _ _ _ (guarded_post_ret _)
    · exact .post _ ih

theorem guarded_socket (self : Nat) (type : Int) : Guarded 0 (kSocketCode self type) := by
  refine .open_ _ fun ok => ?_
  split
  · exact .ret (-1)
  · split
    · exact .ret (-1)
    · exact guarded_socketScan self _

theorem guarded_bind (sockfd : Int) (a : BindArgs) : Guarded 0 (kBindCode sockfd a) := by
  refine .open_ _ fun ok1 => ?_
  split
  · exact .ret (-1)
  · refine .open_ _ fun ok2 => ?_
    split
    · exact .ret (-1)
    · refine .open_ _ fun ok => ?_
      split
      · exact .ret 1
      · split
        · exact .ret (-1)
        · exact .wait _ (.bindTest _ a)

/-- A call that opens the handle and takes the lock. -/
theorem guarded_locked {locked : Code} (h : Guarded 1 locked) :
    Guarded 0 (.open_ fun ok => if !ok then .ret (-1) else .wait locked) := by
  refine .open_ _ fun ok => ?_
  split
  · exact .ret (-1)
  · exact .wait _ h

theorem guarded_sendtoLocked (i : Sock) (self : Nat) (junk : Message) (message : List UInt8) :
    Guarded 1 (kSendtoLocked i self junk message) := by
  refine .load _ fun mem => ?_
  split
  · exact guarded_post_ret (-1)
  · split
    · exact guarded_post_ret (-1)
    · split
      · exact guarded_post_ret (-1)
      · exact .store _ _ _ (guarded_post_ret _)

theorem guarded_sendto (sockfd : Int) (self : Nat) (junk : Message) (message : List UInt8) :
    Guarded 0 (kSendtoCode sockfd self junk message) := by
  unfold kSendtoCode
  split
  · exact .ret (-1)
  · exact guarded_locked (guarded_sendtoLocked _ self junk message)

theorem guarded_recvfromLocked (i : Sock) (self : Nat) : Guarded 1 (kRecvfromLocked i self) := by
  refine .load _ fun mem => ?_
  split
  · exact guarded_post_ret (-1)
  · split
    · exact guarded_post_ret (-1)
    · split
      · exact guarded_post_ret (-1)
      · exact .store _ _ _ (guarded_post_ret _)

theorem guarded_recvfrom (sockfd : Int) (self : Nat) : Guarded 0 (kRecvfromCode sockfd self) := by
  unfold kRecvfromCode
  split
  · exact .ret (-1)
  · exact guarded_locked (guarded_recvfromLocked _ self)

theorem guarded_closeLocked (i : Sock) (self : Nat) : Guarded 1 (kCloseLocked i self) := by
  refine .load _ fun mem => ?_
  split
  · exact guarded_post_ret (-1)
  · split
    · exact guarded_post_ret (-1)
    · exact .store _ _ _ (guarded_post_ret 0)

theorem guarded_close (sockfd : Int) (self : Nat) : Guarded 0 (kCloseCode sockfd self) := by
  unfold kCloseCode
  split
  · exact .ret (-1)
  · exact .wait _ (guarded_closeLocked _ self)

/-- Every call starts out holding nothing. -/
theorem guarded_code (self : Nat) (c : LibraryCall) : Guarded 0 (c.code self) := by
  cases c with
  | socket type => exact guarded_socket self type
  | bind sockfd a => exact guarded_bind sockfd a
  | sendto sockfd junk message => exact guarded_sendto sockfd self junk message
  | recvfrom sockfd => exact guarded_recvfrom sockfd self
  | close sockfd => exact guarded_close sockfd self

/-! ## Every run -/

variable {w w' : Locks} {p : Nat} {n : Int}

/-- The invariant while the discipline lasts: what each process holds is what its code expects. -/
def Locks.Inv (w : Locks) : Prop := ∀ p, Guarded (w.held p) (w.code p)

/-- A call holds the lock once or not at all. -/
theorem Guarded.held {c : Code} (h : Guarded n c) : n = 0 ∨ n = 1 := by
  cases h <;> simp

/-- Under the invariant, the discipline is a matter of the semaphore. -/
theorem Locks.Inv.disciplined (hi : w.Inv)
    (hav : w.semSM = 1 ∧ (∀ p, w.held p = 0) ∨ w.semSM = 0 ∧ ∃ p, w.held p = 1 ∧ ∀ q, q ≠ p → w.held q = 0) :
    w.Disciplined := by
  refine ⟨fun p => (hi p).held, fun p value hv => ?_, hav⟩
  have := hi p
  rw [hv] at this
  generalize w.held p = n at this
  cases this
  rfl

/-- One process goes on, holding what it held or something else; the others keep what they hold and do. -/
theorem Locks.Inv.update {c : Code} (hi : w.Inv) (hc : Guarded n c) (hcode : w'.code = Function.update w.code p c)
    (hheld : w'.held = Function.update w.held p n) : w'.Inv := by
  intro q
  rw [hcode, hheld]
  by_cases hq : q = p
  · subst hq
    rw [update_self, update_self]
    exact hc
  · rw [update_of_ne hq, update_of_ne hq]
    exact hi q

/-- An operation that is not on the lock keeps the discipline. -/
theorem Locks.Inv.goes_on {c : Code} (hi : w.Inv) (hd : w.Disciplined) (hc : Guarded (w.held p) c)
    (hcode : w'.code = Function.update w.code p c) (hheld : w'.held = w.held) (hsem : w'.semSM = w.semSM) :
    w'.Inv ∧ w'.Disciplined := by
  have hi' : w'.Inv := hi.update hc hcode (by rw [hheld, update_eq_self])
  exact ⟨hi', hi'.disciplined (by rw [hheld, hsem]; exact hd.available)⟩

/-- `sem_wait(sem_SM)` by a process that holds nothing. -/
theorem Locks.Inv.acquires {c : Code} (hi : w.Inv) (hd : w.Disciplined) (hc : Guarded 1 c) (hn : w.held p = 0) (hpos : 0 < w.semSM)
    (hcode : w'.code = Function.update w.code p c) (hheld : w'.held = Function.update w.held p (w.held p + 1))
    (hsem : w'.semSM = w.semSM - 1) : w'.Inv ∧ w'.Disciplined := by
  have hfree : w.semSM = 1 ∧ ∀ q, w.held q = 0 := by
    rcases hd.available with hav | ⟨hzero, _⟩
    · exact hav
    · omega
  rw [hn, Int.zero_add] at hheld
  have hi' : w'.Inv := hi.update hc hcode hheld
  refine ⟨hi', hi'.disciplined (Or.inr ⟨by omega, p, ?_, fun q hq => ?_⟩)⟩
  · rw [hheld, update_self]
  · rw [hheld, update_of_ne hq]
    exact hfree.2 q

/-- `sem_post(sem_SM)` by the process that holds the lock. -/
theorem Locks.Inv.releases {c : Code} (hi : w.Inv) (hd : w.Disciplined) (hc : Guarded 0 c) (hn : w.held p = 1)
    (hcode : w'.code = Function.update w.code p c) (hheld : w'.held = Function.update w.held p (w.held p - 1))
    (hsem : w'.semSM = w.semSM + 1) : w'.Inv ∧ w'.Disciplined := by
  have hbusy : w.semSM = 0 ∧ ∀ q, q ≠ p → w.held q = 0 := by
    rcases hd.available with ⟨_, hall⟩ | ⟨hzero, q, hq, hothers⟩
    · rw [hall p] at hn
      cases hn
    · have hpq : p = q := by
        by_contra hne
        rw [hothers p hne] at hn
        cases hn
      rw [hpq]
      exact ⟨hzero, hothers⟩
  rw [hn, Int.sub_self] at hheld
  have hi' : w'.Inv := hi.update hc hcode hheld
  refine ⟨hi', hi'.disciplined (Or.inl ⟨by omega, fun q => ?_⟩)⟩
  rw [hheld]
  by_cases hq : q = p
  · rw [hq, update_self]
  · rw [update_of_ne hq]
    exact hbusy.2 q hq

/-- What a read of the shared memory leads to, the test of `k_bind` on a free entry excepted. -/
theorem Guarded.load_next {next : (Sock → Entry) → Code} (h : Guarded n (.load next)) (mem : Sock → Entry)
    (hg : ∀ i a, Code.load next = kBindTest i a → (mem i).isFree ≠ 1) : Guarded n (next mem) := by
  generalize hcode : Code.load next = code at h
  cases h with
  | load _ hall =>
    cases hcode
    exact hall mem
  | bindTest i a =>
    have hnot := hg i a hcode
    cases hcode
    simp only [kBind, if_neg hnot]
    exact .store _ _ _ (.post _ (.post2 _ (.wait1 _ (.wait _ (guarded_post_ret 0)))))
  | _ => cases hcode

/-- An operation of a process keeps the discipline, unless it is the test of `k_bind` on a free entry. -/
theorem run_disciplined {ok : Bool} (hi : w.Inv) (hd : w.Disciplined) (hg : ¬w.bindsFree (.run p ok))
    (h : w.run p ok = some w') : w'.Inv ∧ w'.Disciplined := by
  have hp := hi p
  unfold Locks.run at h
  split at h
  · cases h
  · rename_i next hc
    cases h
    rw [hc] at hp
    generalize hn : w.held p = n at hp
    cases hp with
    | open_ _ hnext => exact hi.goes_on hd (by rw [hn]; exact hnext ok) rfl rfl rfl
  · rename_i next hc
    rw [hc] at hp
    obtain ⟨hpos, ⟨⟩⟩ := Option.ite_none_right_eq_some.1 h
    generalize hn : w.held p = n at hp
    cases hp with
    | wait _ hnext => exact hi.acquires hd hnext hn hpos rfl (by rw [hn]) rfl
  · rename_i next hc
    cases h
    rw [hc] at hp
    generalize hn : w.held p = n at hp
    cases hp with
    | post _ hnext => exact hi.releases hd hnext hn rfl (by rw [hn]) rfl
  · rename_i next hc
    cases h
    rw [hc] at hp
    generalize hn : w.held p = n at hp
    cases hp with
    | post2 _ hnext => exact hi.goes_on hd (by rw [hn]; exact hnext) rfl rfl rfl
  · rename_i next hc
    rw [hc] at hp
    obtain ⟨_, ⟨⟩⟩ := Option.ite_none_right_eq_some.1 h
    generalize hn : w.held p = n at hp
    cases hp with
    | wait1 _ hnext => exact hi.goes_on hd (by rw [hn]; exact hnext) rfl rfl rfl
  · rename_i next hc
    cases h
    rw [hc] at hp
    have hnext := hp.load_next w.mem fun i a hcode hfree => hg ⟨i, a, hc.trans hcode, hfree⟩
    exact hi.goes_on hd hnext rfl rfl rfl
  · rename_i i e next hc
    cases h
    rw [hc] at hp
    generalize hn : w.held p = n at hp
    cases hp with
    | store _ _ _ hnext => exact hi.goes_on hd (by rw [hn]; exact hnext) rfl rfl rfl

/-- So does every move. -/
theorem lock_step_disciplined (w : Locks) (m : LockMove) (w' : Locks) (hi : w.Inv) (hd : w.Disciplined) (hg : ¬w.bindsFree m)
    (h : w.step m = some w') : w'.Inv ∧ w'.Disciplined := by
  cases m with
  | call p c =>
    simp only [Locks.step] at h
    split at h
    · rename_i value hc
      cases h
      have hn : w.held p = 0 := hd.returned p value hc
      exact hi.goes_on hd (by rw [hn]; exact guarded_code p c) rfl rfl rfl
    · cases h
  | run p ok => exact run_disciplined hi hd hg h
  | daemon mem =>
    obtain ⟨_, ⟨⟩⟩ := Option.ite_none_right_eq_some.1 h
    exact ⟨hi, hd.once, hd.returned, hd.available⟩
  | serve =>
    obtain ⟨_, ⟨⟩⟩ := Option.ite_none_right_eq_some.1 h
    exact ⟨hi, hd.once, hd.returned, hd.available⟩

/-- The test of `k_bind` on a free entry returns with the lock. -/
theorem lock_step_leaks (w : Locks) (m : LockMove) (w' : Locks) (hi : w.Inv) (hg : ¬¬w.bindsFree m)
    (h : w.step m = some w') : ¬w'.Disciplined := by
  cases m with
  | run p ok =>
    obtain ⟨i, a, hc, hfree⟩ := not_not.1 hg
    have hp := hi p
    simp only [Locks.step, Locks.run] at h
    rw [hc] at h hp
    simp only [kBindTest, kBind, hfree, if_true] at h hp
    cases h
    intro hd
    have hzero : w.held p = 0 := hd.returned p (-1) (update_self ..)
    rw [hzero] at hp
    cases hp
  | call | daemon | serve => exact absurd id hg

/-- The lock discipline of the library, over any shared memory, processes, calls, arguments, failures of `sem_open` and daemon: along
exactly those runs in which no `k_bind` comes to test a free entry, no process waits twice without a post, nobody who has returned
holds the lock, and the lock is available whenever nobody holds it. -/
theorem lock_discipline_iff (mem : Sock → Entry) (moves : List LockMove) (hx : exec Locks.step (Locks.begin mem) moves = some w') :
    Always Locks.step Locks.Disciplined (Locks.begin mem) moves ↔
      Meets Locks.step (fun w m => ¬w.bindsFree m) (Locks.begin mem) moves := by
  have h0 : (Locks.begin mem).Inv := fun _ => .ret 0
  exact always_iff_meets_while lock_step_disciplined (fun w m w' hi _ hg h => lock_step_leaks w m w' hi hg h) h0
    (h0.disciplined (Or.inl ⟨rfl, fun _ => rfl⟩)) hx

/-- A free shared memory. -/
def freeMemory : Sock → Entry := initKsocket fun i => i.val

/-- `lock_discipline_iff` on a process that obtains a socket from `k_socket`. -/
theorem lock_discipline_socket : ∃ w', exec Locks.step (Locks.begin freeMemory)
      ([.call 7 (.socket 3)] ++ List.replicate 5 (.run 7 true)) = some w' ∧
    (Always Locks.step Locks.Disciplined (Locks.begin freeMemory) ([.call 7 (.socket 3)] ++ List.replicate 5 (.run 7 true)) ↔
      Meets Locks.step (fun w m => ¬w.bindsFree m) (Locks.begin freeMemory)
        ([.call 7 (.socket 3)] ++ List.replicate 5 (.run 7 true))) :=
  ⟨_, rfl, lock_discipline_iff freeMemory _ rfl⟩

/-- A process calls `k_bind` on an entry that is free: the call returns -1 and keeps the lock. -/
theorem lock_kept_by_bind :
    ¬Always Locks.step Locks.Disciplined (Locks.begin freeMemory)
      ([.call 7 (.bind 0 ⟨[49], 80, [50], 90⟩)] ++ List.replicate 5 (.run 7 true)) := by
  intro hall
  have hrun : ∃ w', exec Locks.step (Locks.begin freeMemory)
      ([.call 7 (.bind 0 ⟨[49], 80, [50], 90⟩)] ++ List.replicate 5 (.run 7 true)) = some w' ∧
      w'.code 7 = .ret (-1) ∧ w'.held 7 = 1 := ⟨_, rfl, rfl, rfl⟩
  obtain ⟨w', hx, hret, hheld⟩ := hrun
  have hzero := (hall _ (List.prefix_refl _) w' hx).returned 7 (-1) hret
  rw [hheld] at hzero
  cases hzero

end NetLabs.Ktp
