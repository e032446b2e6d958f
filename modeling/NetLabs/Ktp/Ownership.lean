import NetLabs.Ktp.World

/-!
# Who owns an entry

`k_socket` hands out free entries only, and an entry that is held keeps its owner until `k_close` or the collector frees it
(`Holders`). Two places miss a check. `k_bind` does not compare the owner, so anybody can have an allocated entry bound again
(`foreign_call_iff`). And the bind loop of `main` tests an entry without the lock: when the entry is freed before the loop binds it, it
is left allocated with nobody to own it (`noOwnerless_iff`).
-/

namespace NetLabs.Ktp

open Function Machine

/-! ## What the calls do to the control fields -/

section Calls

variable {e e' : Entry} {p : Nat} {a : BindArgs}

theorem kSocket_some (h : kSocket e p = some e') : e.isFree = 1 ∧ e'.isFree = 0 ∧ e'.pid = p ∧ e'.udpSocket = e.udpSocket := by
  unfold kSocket at h
  split at h
  · rename_i hfree
    cases h
    exact ⟨hfree, rfl, rfl, rfl⟩
  · cases h

theorem kBind_some (h : kBind e a = some e') : e.isFree ≠ 1 ∧ e'.isFree = 2 ∧ e'.pid = e.pid ∧ e'.udpSocket = e.udpSocket ∧
    e'.srcIp = copyIp a.srcIp ∧ e'.srcPort = a.srcPort := by
  unfold kBind at h
  split at h
  · cases h
  · rename_i hfree
    cases h
    exact ⟨hfree, rfl, rfl, rfl, rfl, rfl⟩

theorem kClose_some (h : kClose e p = some e') : e.isFree ≠ 1 ∧ e.pid = p ∧ e'.isFree = 1 ∧ e'.pid = 0 ∧
    e'.udpSocket = e.udpSocket := by
  unfold kClose at h
  split at h
  · cases h
  · rename_i hfree
    split at h
    · cases h
    · rename_i hpid
      cases h
      exact ⟨hfree, not_not.1 hpid, rfl, rfl, rfl⟩

end Calls

/-! ## Holders -/

/-- A process that holds an entry is its owner, and the entry is not free. -/
def Holders (w : World) : Prop := ∀ i p, w.holder i = some p → (w.mem i).isFree ≠ 1 ∧ (w.mem i).pid = p

theorem holders_begin (udpSocket : Sock → Int) (alive : Nat → Bool) : Holders (World.begin udpSocket alive) := by
  intro i p h
  cases h

theorem holders_step (w : World) (m : Move) (w' : World) (h : Holders w) (hs : w.step m = some w') : Holders w' := by
  intro j q hq
  have hchange := World.step_entry hs j
  generalize w'.mem j = e at hchange ⊢
  rw [hq] at hchange
  generalize hholder : some q = holder at hchange
  cases hchange with
  | same => exact h j q hholder.symm
  | handedOut p e hp he =>
    obtain ⟨-, hfree, hpid, -⟩ := kSocket_some he
    exact ⟨by omega, hpid.trans (Option.some.inj hholder.symm)⟩
  | asked p a e he =>
    obtain ⟨-, hfree, hpid, -⟩ := kBind_some he
    exact ⟨by omega, hpid.trans (h j q hholder.symm).2⟩
  | closed => cases hholder
  | traffic => exact h j q hholder.symm
  | served => exact ⟨Nat.zero_ne_one, (h j q hholder.symm).2⟩
  | collected => cases hholder

/-- What a call does to the shared memory: the entry it names is what the call makes of it. -/
theorem call_mem {w w' : World} {p : Nat} {i : Sock} {c : EntryCall} (h : w.step (.call p i c) = some w') :
    w'.mem = update w.mem i (libraryCall (w.mem i) p c).2 := by
  simp only [World.step, World.act] at h
  split at h
  · cases h
    rfl
  · cases h

/-! ## Calls on an entry of somebody else -/

/-- A call that is refused leaves the entry alone; of the calls on a free entry or one of another process, all are refused but
`k_bind` on an entry in use. -/
theorem libraryCall_foreign {e : Entry} {p : Nat} (hforeign : e.isFree = 1 ∨ e.pid ≠ p) (c : EntryCall) :
    libraryCall e p c = (false, e) ∨ (∃ a, c = .bind a) ∧ e.isFree ≠ 1 ∧ (libraryCall e p c).1 = true := by
  have hrefused : e.refused p = true := decide_eq_true hforeign
  cases c with
  | bind a =>
    by_cases hfree : e.isFree = 1
    · left
      simp [libraryCall, kBind, hfree]
    · right
      exact ⟨⟨a, rfl⟩, hfree, by simp [libraryCall, kBind, hfree]⟩
  | sendto junk message =>
    left
    simp [libraryCall, kSendto, hrefused]
  | recvfrom =>
    left
    simp [libraryCall, kRecvfrom, hrefused]
  | close =>
    left
    rcases hforeign with hfree | hpid
    · simp [libraryCall, kClose, hfree]
    · by_cases hfree : e.isFree = 1 <;> simp [libraryCall, kClose, hfree, hpid]

/-- Ownership. In every reachable shared memory: a call of a process on a descriptor whose entry is free or belongs to another
process fails and leaves every entry as it was, if and only if it is not a `k_bind` on an entry in use; and `k_socket` hands out
only entries no process holds. -/
theorem foreign_call_iff (udpSocket : Sock → Int) (alive : Nat → Bool) (ms : List Move) (w : World)
    (hx : exec World.step (World.begin udpSocket alive) ms = some w) :
    (∀ p i c w', ((w.mem i).isFree = 1 ∨ (w.mem i).pid ≠ p) → w.step (.call p i c) = some w' →
      (((libraryCall (w.mem i) p c).1 = false ∧ w'.mem = w.mem) ↔ ¬((∃ a, c = .bind a) ∧ (w.mem i).isFree ≠ 1))) ∧
    ∀ p i e, kSocket (w.mem i) p = some e → w.holder i = none := by
  have hinv : Holders w :=
    exec_invariant (g := fun _ _ => True) (fun w m w' h _ hs => holders_step w m w' h hs) (holders_begin udpSocket alive)
      (meets_of_forall fun _ _ => trivial) hx
  constructor
  · intro p i c w' hforeign hs
    rcases libraryCall_foreign hforeign c with hc | ⟨hbind, hfree, hc⟩
    · refine ⟨fun _ hno => ?_, fun _ => ⟨by rw [hc], by rw [call_mem hs, hc, update_eq_self]⟩⟩
      obtain ⟨⟨a, rfl⟩, hfree⟩ := hno
      simp [libraryCall, kBind, hfree] at hc
    · refine ⟨fun h => ?_, fun h => absurd ⟨hbind, hfree⟩ h⟩
      rw [h.1] at hc
      cases hc
  · intro p i e he
    cases hh : w.holder i with
    | none => rfl
    | some q => exact absurd (kSocket_some he).1 (hinv i q hh).1

/-- `foreign_call_iff` after process 7 has obtained entry 0, for a `k_recvfrom` of process 8. -/
theorem foreign_call_iff_one :
    ∃ w w', exec World.step (World.begin (fun i => 3 + (i.val : Int)) fun _ => true) [.callSocket 7, .scan 7] = some w ∧
      w.step (.call 8 0 .recvfrom) = some w' ∧ (libraryCall (w.mem 0) 8 .recvfrom).1 = false ∧ w'.mem = w.mem ∧
      ∀ p i e, kSocket (w.mem i) p = some e → w.holder i = none := by
  have h := foreign_call_iff (fun i => 3 + (i.val : Int)) (fun _ => true) [.callSocket 7, .scan 7] _ rfl
  have hcall := (h.1 8 0 .recvfrom _ (Or.inr (by decide)) rfl).2 (by rintro ⟨⟨a, ha⟩, -⟩; cases ha)
  exact ⟨_, _, rfl, rfl, hcall.1, hcall.2, h.2⟩

/-- Process 7 has obtained entry 0; process 8 calls `k_bind` on it, which is not refused and overwrites the addresses. -/
theorem foreign_bind_accepted :
    ∃ w w', exec World.step (World.begin (fun i => 3 + (i.val : Int)) fun _ => true) [.callSocket 7, .scan 7] = some w ∧
      (w.mem 0).pid = 7 ∧
      w.step (.call 8 0 (.bind { srcIp := [49], srcPort := 80, destIp := [50], destPort := 90 })) = some w' ∧
      (w'.mem 0).srcPort = 80 ∧ (w'.mem 0).isFree = 2 ∧ w'.mem ≠ w.mem := by
  refine ⟨_, _, rfl, rfl, rfl, rfl, rfl, fun h => ?_⟩
  exact absurd (congrArg (fun mem => (mem 0).isFree) h) (by decide)

/-! ## Entries without an owner -/

/-- The entry is free and has no owner, or it is in use and its owner is the process that obtained it from `k_socket`. -/
def Owned (w : World) (i : Sock) : Prop :=
  ((w.mem i).isFree = 1 ∧ (w.mem i).pid = 0) ∨
    ((w.mem i).isFree ≠ 1 ∧ (w.mem i).pid ≠ 0 ∧ w.holder i = some (w.mem i).pid)

/-- No entry is without an owner. -/
def NoOwnerless (w : World) : Prop := ∀ i, Owned w i

/-- The bind loop writes only an entry that is still in use. -/
def BindsUsed (w : World) : Move → Prop
  | .mainBind => ∀ i, w.main = .binding i → (w.mem i).isFree ≠ 1
  | _ => True

theorem noOwnerless_keep (w : World) (m : Move) (w' : World) (h : NoOwnerless w) (hg : BindsUsed w m)
    (hs : w.step m = some w') : NoOwnerless w' := by
  intro j
  have hchange := World.step_entry hs j
  have hj := h j
  unfold Owned at hj ⊢
  generalize w'.mem j = e at hchange ⊢
  generalize w'.holder j = holder at hchange ⊢
  cases hchange with
  | same => exact hj
  | handedOut p e hp he =>
    obtain ⟨-, hfree, hpid, -⟩ := kSocket_some he
    have hp0 : p ≠ 0 := by
      simp only [World.ready, Bool.and_eq_true, bne_iff_ne] at hp
      exact hp.1
    exact Or.inr ⟨by omega, by rw [hpid]; exact hp0, by rw [hpid]⟩
  | asked p a e he =>
    obtain ⟨hused, hfree, hpid, -⟩ := kBind_some he
    rcases hj with ⟨hfree', -⟩ | ⟨-, hpid', hholder⟩
    · exact absurd hfree' hused
    · exact Or.inr ⟨by omega, by rw [hpid]; exact hpid', by rw [hpid]; exact hholder⟩
  | closed p e he =>
    obtain ⟨-, -, hfree, hpid, -⟩ := kClose_some he
    exact Or.inl ⟨hfree, hpid⟩
  | traffic m q => exact hj
  | served hmain =>
    rcases hj with ⟨hfree, -⟩ | ⟨-, hpid, hholder⟩
    · exact absurd hfree (hg j hmain)
    · exact Or.inr ⟨Nat.zero_ne_one, hpid, hholder⟩
  | collected hc => exact Or.inl (collect_of_collects hc)

/-- Where the bind loop writes an entry that has been freed, the entry is left without an owner. -/
theorem noOwnerless_break (w : World) (m : Move) (w' : World) (h : NoOwnerless w) (hg : ¬BindsUsed w m)
    (hs : w.step m = some w') : ¬NoOwnerless w' := by
  cases m with
  | mainBind =>
    simp only [BindsUsed, not_forall, not_not] at hg
    obtain ⟨i, hmain, hfree⟩ := hg
    have hpid : (w.mem i).pid = 0 := by
      rcases h i with ⟨-, hpid⟩ | ⟨hused, -⟩
      · exact hpid
      · exact absurd hfree hused
    have hmem : w'.mem i = bindServed (w.mem i) := by
      simp only [World.step, World.act, hmain] at hs
      split at hs
      · rename_i i' hlock hmain'
        cases hmain'
        cases hs
        exact update_self i _ w.mem
      · cases hs
    intro hp
    rcases hp i with ⟨hfree', -⟩ | ⟨-, hpid', -⟩
    · rw [hmem] at hfree'
      cases hfree'
    · rw [hmem] at hpid'
      exact hpid' hpid
  | _ => exact absurd trivial hg

/-- The collector frees every entry that no living process holds. -/
def Reclaims (w : World) : Prop :=
  ∀ w', w.step .collect = some w' → ∀ i, (∀ p, w.holder i = some p → w.alive p = false) → (w'.mem i).isFree = 1

theorem NoOwnerless.reclaims {w : World} (h : NoOwnerless w) : Reclaims w := by
  intro w' hs i hdead
  have hmem : w'.mem i = collect w.gone (w.mem i) := by
    simp only [World.step, World.act] at hs
    split at hs
    · cases hs
      rfl
    · cases hs
  rw [hmem]
  rcases h i with ⟨hfree, -⟩ | ⟨hused, hpid, hholder⟩
  · rw [collect, if_pos hfree]
    exact hfree
  · refine (collect_of_collects ?_).1
    simp [World.collects, World.gone, hused, hpid, hdead _ hholder]

/-- When no entry is ever without an owner. Along every run of processes that call the library and die, of the collector and of the
bind loop, every entry is in every state free with pid 0 or in use with the pid of the process that obtained it from `k_socket`, if
and only if the bind loop never writes an entry that has been freed since it was tested; and in such a state a pass of the collector
frees every entry that no living process holds. -/
theorem noOwnerless_iff (udpSocket : Sock → Int) (alive : Nat → Bool) (ms : List Move) (w : World)
    (hx : exec World.step (World.begin udpSocket alive) ms = some w) :
    (Always World.step NoOwnerless (World.begin udpSocket alive) ms ↔
      Meets World.step BindsUsed (World.begin udpSocket alive) ms) ∧ (NoOwnerless w → Reclaims w) := by
  refine ⟨always_iff_meets (I := fun _ => True) (fun _ _ _ _ _ => trivial)
    (fun w m w' _ hp hg hs => noOwnerless_keep w m w' hp hg hs) (fun w m w' _ hp hg hs => noOwnerless_break w m w' hp hg hs)
    trivial ?_ hx, NoOwnerless.reclaims⟩
  exact fun i => Or.inl ⟨rfl, rfl⟩

/-- `noOwnerless_iff` on a socket that is obtained and bound and whose owner then ends. -/
theorem noOwnerless_iff_bound :
    Always World.step NoOwnerless (World.begin (fun i => 3 + (i.val : Int)) fun _ => true)
        [.callSocket 7, .scan 7, .call 7 0 (.bind { srcIp := [49], srcPort := 80, destIp := [50], destPort := 90 }), .post 7,
          .mainWait, .mainTest, .mainBind, .mainPost, .wait 7, .copy 7, .die 7, .collect] ↔
      Meets World.step BindsUsed (World.begin (fun i => 3 + (i.val : Int)) fun _ => true)
        [.callSocket 7, .scan 7, .call 7 0 (.bind { srcIp := [49], srcPort := 80, destIp := [50], destPort := 90 }), .post 7,
          .mainWait, .mainTest, .mainBind, .mainPost, .wait 7, .copy 7, .die 7, .collect] :=
  (noOwnerless_iff (fun i => 3 + (i.val : Int)) (fun _ => true) _ _ rfl).1

/-- Process 7 asks for entry 0 to be bound; the bind loop tests the entry, process 7 dies, the collector frees the entry, and the bind
loop marks it as bound: it is in use and nobody owns it. -/
theorem bind_leaves_ownerless :
    ∃ w, exec World.step (World.begin (fun i => 3 + (i.val : Int)) fun _ => true)
        [.callSocket 7, .scan 7, .call 7 0 (.bind { srcIp := [49], srcPort := 80, destIp := [50], destPort := 90 }), .post 7,
          .mainWait, .mainTest, .die 7, .collect, .mainBind] = some w ∧
      (w.mem 0).isFree = 0 ∧ (w.mem 0).pid = 0 ∧ ¬NoOwnerless w := by
  refine ⟨_, rfl, rfl, rfl, fun h => ?_⟩
  rcases h 0 with ⟨hfree, -⟩ | ⟨-, hpid, -⟩
  · cases hfree
  · exact hpid rfl

end NetLabs.Ktp
