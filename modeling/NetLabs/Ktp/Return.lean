import Mathlib.Data.Finset.Card
import NetLabs.Ktp.Rendezvous

/-!
# Whether a `k_bind` returns

Every process at `sem_wait(sem1)` has posted `sem2` once, and the bind loop posts `sem1` once for every post of `sem2` that it takes. So
there are as many processes at `sem_wait(sem1)` as there are posts under way, whichever of them the posts are for, and the bind loop
goes round as long as it gets the lock. What can keep a `k_bind` from returning is the death of its process, and the lock that another
one has left locked.
-/

namespace NetLabs.Ktp

open Function Machine

/-- Some run from here leads to a state in which the call has just returned 0. -/
def World.CanReturn (w : World) (p : Nat) (i : Sock) (a : BindArgs) : Prop :=
  CanReach World.step (fun w => w.returned = some (p, i, a)) w

/-- At `sem_wait(sem1)`. -/
def Phase.isWaiting : Phase → Bool
  | .waiting _ _ => true
  | _ => false

/-- The posts of `sem2` that the bind loop has taken and not answered. -/
def MainPhase.taken : MainPhase → Nat
  | .waiting => 0
  | _ => 1

/-- There are as many processes at `sem_wait(sem1)` as posts under way. -/
def World.Balanced (w : World) : Prop :=
  ∃ waiters : Finset Nat, (∀ p, p ∈ waiters ↔ (w.phase p).isWaiting = true) ∧ waiters.card = w.sem1 + w.sem2 + w.main.taken

variable {w w' : World} {m : Move} {p : Nat} {i : Sock} {a : BindArgs} {ph : Phase}

/-! ## The posts -/

/-- A process that moves outside `sem_wait(sem1)`. -/
theorem isWaiting_update (hold : (w.phase p).isWaiting = false) (hnew : ph.isWaiting = false) (q : Nat) :
    (update w.phase p ph q).isWaiting = (w.phase q).isWaiting := by
  by_cases hq : q = p
  · subst hq
    rw [update_self, hnew, hold]
  · rw [update_of_ne hq]

theorem following_testing (i : Sock) : (following i MainPhase.testing .posting).taken = 1 := by
  unfold following
  split <;> rfl

theorem phaseAfter_isWaiting (c : EntryCall) (accepted : Bool) : (c.phaseAfter i accepted).isWaiting = false := by
  cases c with
  | bind a => cases accepted <;> rfl
  | sendto junk message | recvfrom | close => rfl

theorem scanning_isWaiting : (following i Phase.scanning .idle).isWaiting = false := by
  unfold following
  split <;> rfl

theorem balanced_begin (udpSocket : Sock → Int) (alive : Nat → Bool) : (World.begin udpSocket alive).Balanced :=
  ⟨∅, fun p => ⟨fun hp => absurd hp (Finset.notMem_empty p), fun hp => by cases hp⟩, rfl⟩

/-- Where the process is makes no difference to the posts as long as it is not at `sem_wait(sem1)`. -/
theorem World.Balanced.of_update {q : Nat} (hi : w.Balanced) (hold : (w.phase q).isWaiting = false) (hnew : ph.isWaiting = false)
    (hphase : w'.phase = update w.phase q ph) (hsum : w'.sem1 + w'.sem2 + w'.main.taken = w.sem1 + w.sem2 + w.main.taken) :
    w'.Balanced := by
  obtain ⟨waiters, hmem, hcard⟩ := hi
  exact ⟨waiters, fun p => by rw [hmem, hphase, isWaiting_update hold hnew], hcard.trans hsum.symm⟩

theorem balanced_step (hi : w.Balanced) (hs : w.step m = some w') : w'.Balanced := by
  unfold World.step at hs
  cases m with
  | callSocket q =>
    simp only [World.act] at hs
    split at hs
    · rename_i hready hphase
      cases hs
      exact hi.of_update (by rw [hphase]; rfl) (by rfl) rfl rfl
    · cases hs
  | scan q =>
    simp only [World.act] at hs
    split at hs
    · rename_i j hready hphase
      split at hs
      · cases hs
        exact hi.of_update (by rw [hphase]; rfl) scanning_isWaiting rfl rfl
      · cases hs
        exact hi.of_update (by rw [hphase]; rfl) (by rfl) rfl rfl
    · cases hs
  | call q j c =>
    simp only [World.act] at hs
    split at hs
    · rename_i hready hphase
      cases hs
      exact hi.of_update (by rw [hphase]; rfl) (phaseAfter_isWaiting c _) rfl rfl
    · cases hs
  | copy q =>
    simp only [World.act] at hs
    split at hs
    · rename_i j b hready hphase
      cases hs
      exact hi.of_update (by rw [hphase]; rfl) (by rfl) rfl rfl
    · cases hs
  | post q =>
    obtain ⟨waiters, hmem, hcard⟩ := hi
    simp only [World.act] at hs
    split at hs
    · rename_i j b hready hphase
      cases hs
      have hnew : q ∉ waiters := by
        rw [hmem, hphase]
        exact Bool.false_ne_true
      refine ⟨insert q waiters, fun p => ?_, ?_⟩
      · rw [Finset.mem_insert, hmem]
        change _ ↔ (update w.phase q (.waiting j b) p).isWaiting = true
        by_cases hp : p = q
        · subst hp
          rw [update_self]
          exact ⟨fun _ => rfl, fun _ => Or.inl rfl⟩
        · rw [update_of_ne hp]
          exact ⟨fun h => h.resolve_left hp, Or.inr⟩
      · rw [Finset.card_insert_of_notMem hnew, hcard]
        simp only
        omega
    · cases hs
  | wait q =>
    obtain ⟨waiters, hmem, hcard⟩ := hi
    simp only [World.act] at hs
    split at hs
    · rename_i j b hready hphase
      cases hs
      have hold : q ∈ waiters := by
        rw [hmem, hphase]
        rfl
      refine ⟨waiters.erase q, fun p => ?_, ?_⟩
      · rw [Finset.mem_erase, hmem]
        change _ ↔ (update w.phase q (.copying j b) p).isWaiting = true
        by_cases hp : p = q
        · subst hp
          rw [update_self]
          exact ⟨fun h => absurd rfl h.1, fun h => by cases h⟩
        · rw [update_of_ne hp]
          exact ⟨fun h => h.2, fun h => ⟨hp, h⟩⟩
      · have hpos := of_decide_eq_true (Bool.and_eq_true_iff.1 hready).2
        rw [Finset.card_erase_of_mem hold, hcard]
        simp only at hpos ⊢
        omega
    · cases hs
  | mainWait =>
    obtain ⟨waiters, hmem, hcard⟩ := hi
    simp only [World.act] at hs
    split at hs
    · rename_i hpos hmain
      cases hs
      refine ⟨waiters, hmem, ?_⟩
      have hpos := of_decide_eq_true hpos
      rw [hmain] at hcard
      simp only [MainPhase.taken] at hpos hcard ⊢
      omega
    · cases hs
  | mainTest =>
    obtain ⟨waiters, hmem, hcard⟩ := hi
    simp only [World.act] at hs
    split at hs
    · rename_i j hmain
      cases hs
      refine ⟨waiters, hmem, ?_⟩
      rw [hmain] at hcard
      simp only at hcard ⊢
      split
      · exact hcard
      · rw [following_testing]
        exact hcard
    · cases hs
  | mainBind =>
    obtain ⟨waiters, hmem, hcard⟩ := hi
    simp only [World.act] at hs
    split at hs
    · rename_i j hlock hmain
      cases hs
      rw [hmain] at hcard
      exact ⟨waiters, hmem, hcard⟩
    · cases hs
  | mainPost =>
    obtain ⟨waiters, hmem, hcard⟩ := hi
    simp only [World.act] at hs
    split at hs
    · rename_i hmain
      cases hs
      refine ⟨waiters, hmem, ?_⟩
      rw [hmain] at hcard
      simp only [MainPhase.taken] at hcard ⊢
      omega
    · cases hs
  | die q | collect | traffic j ev =>
    simp only [World.act] at hs
    split at hs
    · cases hs
      exact hi
    · cases hs

/-! ## The bind loop goes round -/

/-- `sem1` has been posted, the lock is free, and the processes are where they were. -/
structure Posted (phase : Nat → Phase) (alive : Nat → Bool) (w : World) : Prop where
  lock : w.lock = true
  phase : w.phase = phase
  alive : w.alive = alive
  sem1 : 0 < w.sem1

theorem posted_of_posting (hlock : w.lock = true) (hmain : w.main = .posting) :
    CanReach World.step (Posted w.phase w.alive) w := by
  have hs : w.step .mainPost = some { w with returned := none, sem1 := w.sem1 + 1, main := .waiting } := by
    simp only [World.step, World.act, hmain]
  exact .of_step hs (.here ⟨hlock, rfl, rfl, Nat.succ_pos _⟩)

theorem posted_of_binding (hlock : w.lock = true) (hmain : w.main = .binding i) :
    CanReach World.step (Posted w.phase w.alive) w := by
  obtain ⟨w', hs, hlock', hphase, halive, hmain'⟩ : ∃ w', w.step .mainBind = some w' ∧ w'.lock = true ∧ w'.phase = w.phase ∧
      w'.alive = w.alive ∧ w'.main = .posting := by
    simp only [World.step, World.act, hlock, hmain]
    exact ⟨_, rfl, rfl, rfl, rfl, rfl⟩
  rw [← hphase, ← halive]
  exact .of_step hs (posted_of_posting hlock' hmain')

/-- The search of the bind loop ends, whether it finds a marked entry or not. -/
theorem posted_of_testing (hlock : w.lock = true) (hmain : w.main = .testing i) :
    CanReach World.step (Posted w.phase w.alive) w := by
  induction hn : 10 - i.val generalizing w i with
  | zero => exact absurd i.isLt (by omega)
  | succ n ih =>
    have hs : w.step .mainTest =
        some { w with returned := none, main := if (w.mem i).isFree = 2 then .binding i else following i .testing .posting } := by
      simp only [World.step, World.act, hmain]
    refine .of_step hs ?_
    by_cases hmarked : (w.mem i).isFree = 2
    · exact posted_of_binding hlock (if_pos hmarked)
    · by_cases hlast : i.val + 1 < 10
      · refine ih (i := ⟨i.val + 1, hlast⟩) hlock ?_ (by simp only; omega)
        exact (if_neg hmarked).trans (dif_pos hlast)
      · exact posted_of_posting hlock ((if_neg hmarked).trans (dif_neg hlast))

/-- As long as there is a post under way, the bind loop gets to posting `sem1`. -/
theorem posted_of_pending (hlock : w.lock = true) (hpending : 0 < w.sem1 + w.sem2 + w.main.taken) :
    CanReach World.step (Posted w.phase w.alive) w := by
  by_cases hsem1 : 0 < w.sem1
  · exact .here ⟨hlock, rfl, rfl, hsem1⟩
  · cases hmain : w.main with
    | waiting =>
      rw [hmain] at hpending
      have hsem2 : 0 < w.sem2 := by
        simp only [MainPhase.taken] at hpending
        omega
      have hs : w.step .mainWait = some { w with returned := none, sem2 := w.sem2 - 1, main := .testing 0 } := by
        simp only [World.step, World.act, hmain, hsem2, decide_true]
      exact .of_step hs (posted_of_testing hlock rfl)
    | testing j => exact posted_of_testing hlock hmain
    | binding j => exact posted_of_binding hlock hmain
    | posting => exact posted_of_posting hlock hmain

/-! ## A call that can return -/

theorem canReturn_of_copying (hready : w.ready p = true) (hlock : w.lock = true) (hphase : w.phase p = .copying i a) :
    w.CanReturn p i a := by
  have hs : w.step (.copy p) = some { w with phase := update w.phase p .idle, returned := some (p, i, a) } := by
    have hgo : (World.ready { w with returned := none } p && w.lock) = true := Bool.and_eq_true_iff.2 ⟨hready, hlock⟩
    simp only [World.step, World.act, hgo, hphase]
  exact .of_step hs (.here rfl)

theorem canReturn_of_waiting (hready : w.ready p = true) (hlock : w.lock = true) (hi : w.Balanced)
    (hphase : w.phase p = .waiting i a) : w.CanReturn p i a := by
  obtain ⟨waiters, hmem, hcard⟩ := hi
  have hwaits : p ∈ waiters := by
    rw [hmem, hphase]
    rfl
  obtain ⟨ms, w1, hrun, hposted⟩ := posted_of_pending hlock (hcard ▸ Finset.card_pos.2 ⟨p, hwaits⟩)
  have hready1 : World.ready { w1 with returned := none } p = true := by
    change (p != 0 && w1.alive p) = true
    rw [hposted.alive]
    exact hready
  have hphase1 : w1.phase p = .waiting i a := by rw [hposted.phase, hphase]
  have hs : w1.step (.wait p) =
      some { w1 with returned := none, sem1 := w1.sem1 - 1, phase := update w1.phase p (.copying i a) } := by
    simp only [World.step, World.act, hready1, hphase1, hposted.sem1, decide_true, Bool.and_self]
  exact .of_run hrun (.of_step hs (canReturn_of_copying hready1 hposted.lock (update_self ..)))

theorem canReturn_of_posting (hready : w.ready p = true) (hlock : w.lock = true) (hi : w.Balanced)
    (hphase : w.phase p = .posting i a) : w.CanReturn p i a := by
  have hready' : World.ready { w with returned := none } p = true := hready
  have hs : w.step (.post p) = some { w with returned := none, sem2 := w.sem2 + 1, phase := update w.phase p (.waiting i a) } := by
    simp only [World.step, World.act, hready', hphase]
  exact .of_step hs (canReturn_of_waiting hready' hlock (balanced_step hi hs) (update_self ..))

/-! ## A call that cannot return -/

/-- Nobody unlocks what has been left locked. -/
theorem locked_step (hlock : w.lock = false) (hs : w.step m = some w') : w'.lock = false := by
  unfold World.step at hs
  cases m with
  | scan q | call q j c | copy q =>
    simp only [World.act, hlock, Bool.and_false] at hs
    cases hs
  | mainBind | collect | traffic j ev =>
    simp only [World.act, hlock, Bool.false_and] at hs
    cases hs
  | _ =>
    simp only [World.act] at hs
    split at hs
    · cases hs
      exact hlock
    · cases hs

/-- A call that has just returned: its process is alive and outside the library, and has had the lock. -/
theorem returned_idle (hs : w.step m = some w') (hr : w'.returned = some (p, i, a)) :
    w.ready p = true ∧ w.lock = true ∧ w'.phase p = .idle := by
  unfold World.step at hs
  cases m with
  | copy q =>
    simp only [World.act] at hs
    split at hs
    · rename_i hready hphase
      cases hs
      cases hr
      obtain ⟨hready, hlock⟩ := Bool.and_eq_true_iff.1 hready
      exact ⟨hready, hlock, update_self ..⟩
    · cases hs
  | scan q =>
    simp only [World.act] at hs
    split at hs
    · split at hs <;> cases hs <;> cases hr
    · cases hs
  | _ => simp only [World.act] at hs; split at hs <;> cases hs; cases hr

/-- Without the lock, or dead, a process does not return from `k_bind`. -/
theorem not_canReturn (hstuck : w.lock = false ∨ w.ready p = false) (hr : w.returned ≠ some (p, i, a)) : ¬w.CanReturn p i a := by
  refine not_canReach (I := fun w => (w.lock = false ∨ w.ready p = false) ∧ w.returned ≠ some (p, i, a)) ?_ (fun _ h => h.2)
    ⟨hstuck, hr⟩
  rintro w m w' ⟨hstuck, -⟩ hs
  refine ⟨?_, fun hr => ?_⟩
  · rcases hstuck with hlock | hready
    · exact Or.inl (locked_step hlock hs)
    · refine Or.inr (Bool.eq_false_iff.2 fun hready' => ?_)
      obtain ⟨hne, halive⟩ := Bool.and_eq_true_iff.1 hready'
      rw [World.ready, hne, World.step_alive hs halive] at hready
      cases hready
  · obtain ⟨hready, hlock, -⟩ := returned_idle hs hr
    rcases hstuck with hlock' | hready'
    · exact Bool.false_ne_true (hlock'.symm.trans hlock)
    · exact Bool.false_ne_true (hready'.symm.trans hready)

/-! ## Every reachable state -/

/-- A call that has returned is over. -/
theorem returned_step (hs : w.step m = some w') : ∀ p i a, w'.returned = some (p, i, a) → w'.phase p = .idle :=
  fun _ _ _ hr => (returned_idle hs hr).2.2

/-- When a `k_bind` returns. In every reachable state, whatever other processes, the bind loop and the collector have done, a process
inside `k_bind` can still come to return 0 if and only if it is alive and nobody has left the lock locked: the semaphores never keep
it waiting for ever, whoever their posts were made for. -/
theorem canReturn_iff (udpSocket : Sock → Int) (alive : Nat → Bool) (ms : List Move) (w : World)
    (hx : exec World.step (World.begin udpSocket alive) ms = some w) (p : Nat) (i : Sock) (a : BindArgs)
    (hp : (w.phase p).binding? = some (i, a)) : w.CanReturn p i a ↔ w.ready p = true ∧ w.lock = true := by
  obtain ⟨hi, hidle⟩ := always_of_kept
    (I := fun w : World => w.Balanced ∧ ∀ p i a, w.returned = some (p, i, a) → w.phase p = .idle)
    (fun _ _ _ hi hs => ⟨balanced_step hi.1 hs, returned_step hs⟩)
    ⟨balanced_begin udpSocket alive, fun p i a hr => by cases hr⟩ ms (List.prefix_refl ms) w hx
  constructor
  · intro hreturn
    by_contra hstuck
    refine not_canReturn ?_ (fun hr => ?_) hreturn
    · rw [not_and_or, Bool.not_eq_true, Bool.not_eq_true] at hstuck
      exact hstuck.symm
    · rw [hidle p i a hr] at hp
      cases hp
  · rintro ⟨hready, hlock⟩
    cases hphase : w.phase p with
    | idle | scanning j =>
      rw [hphase] at hp
      cases hp
    | posting j b =>
      rw [hphase] at hp
      cases hp
      exact canReturn_of_posting hready hlock hi hphase
    | waiting j b =>
      rw [hphase] at hp
      cases hp
      exact canReturn_of_waiting hready hlock hi hphase
    | copying j b =>
      rw [hphase] at hp
      cases hp
      exact canReturn_of_copying hready hlock hphase

/-- `canReturn_iff` on a process that waits while another one has called `k_bind` on a free entry. -/
theorem canReturn_iff_leaked : ∃ w, exec World.step (World.begin (fun i => 3 + (i.val : Int)) fun _ => true)
    [.callSocket 7, .scan 7, .call 7 0 (.bind ⟨[49], 80, [50], 90⟩), .post 7, .call 8 1 (.bind ⟨[49], 81, [50], 91⟩)] = some w ∧
      ¬w.CanReturn 7 0 ⟨[49], 80, [50], 90⟩ := by
  refine ⟨_, rfl, fun hreturn => ?_⟩
  have hlock := ((canReturn_iff (fun i => 3 + (i.val : Int)) (fun _ => true)
    [.callSocket 7, .scan 7, .call 7 0 (.bind ⟨[49], 80, [50], 90⟩), .post 7, .call 8 1 (.bind ⟨[49], 81, [50], 91⟩)] _ rfl
    7 0 ⟨[49], 80, [50], 90⟩ rfl).1 hreturn).2
  cases hlock

end NetLabs.Ktp
