import NetLabs.Ktp.Ownership

/-!
# The rendezvous of `k_bind`

`k_bind` marks its entry, posts `sem2` and waits on `sem1`; the bind loop waits on `sem2`, binds the first entry that is marked and
posts `sem1`. The semaphores do not say whose entry has been bound, so a caller may be woken by the post that was made for another
one. As long as every caller that is woken finds its own entry bound (`WokenServed`), a `k_bind` that returns 0 has done what it says.
-/

namespace NetLabs.Ktp

open Function Machine

/-- The entry a process is binding, while it is inside `k_bind`. -/
def Phase.binding? : Phase → Option (Sock × BindArgs)
  | .posting i a => some (i, a)
  | .waiting i a => some (i, a)
  | .copying i a => some (i, a)
  | _ => none

/-- The entry is in use and its UDP socket bound to the source address and port of the call. -/
def Bound (w : World) (i : Sock) (a : BindArgs) : Prop :=
  (w.mem i).isFree = 0 ∧ w.bound (w.mem i).udpSocket = some (copyIp a.srcIp, a.srcPort)

/-- A `k_bind` that has returned 0 has left its own entry in use and bound as it asked. -/
def BindDone (w : World) : Prop := ∀ p i a, w.returned = some (p, i, a) → (w.mem i).pid = p ∧ Bound w i a

/-- Processes bind their own sockets, and a caller that gets past `sem_wait(sem1)` finds its entry no longer marked. -/
def WokenServed (w : World) : Move → Prop
  | .call p i (.bind _) => (w.mem i).pid = p
  | .wait p => ∀ i a, w.phase p = .waiting i a → (w.mem i).isFree ≠ 2
  | _ => True

/-! ## What a move does to a process -/

/-- What a move does to where process `p` is: it stays, it is outside `k_bind`, or it takes a step in `k_bind`. -/
inductive PhaseChange (w : World) (p : Nat) : Move → Phase → Prop where
  | same (m : Move) (h : ∀ i c, m ≠ .call p i c) : PhaseChange w p m (w.phase p)
  | outside (m : Move) (ph : Phase) (h : ph.binding? = none) : PhaseChange w p m ph
  | asked (i : Sock) (a : BindArgs) (e : Entry) (h : kBind (w.mem i) a = some e) :
      PhaseChange w p (.call p i (.bind a)) (.posting i a)
  | posted (i : Sock) (a : BindArgs) (h : w.phase p = .posting i a) : PhaseChange w p (.post p) (.waiting i a)
  | woken (i : Sock) (a : BindArgs) (h : w.phase p = .waiting i a) : PhaseChange w p (.wait p) (.copying i a)

/-- Where a caller is after a call. -/
theorem call_phase (w : World) (p : Nat) (i : Sock) (c : EntryCall) :
    PhaseChange w p (.call p i c) (c.phaseAfter i (libraryCall (w.mem i) p c).1) := by
  cases c with
  | bind a =>
    cases hb : kBind (w.mem i) a with
    | none =>
      simp only [libraryCall, hb, EntryCall.phaseAfter, Option.isSome_none, Bool.false_eq_true, ↓reduceIte]
      exact PhaseChange.outside _ _ rfl
    | some e =>
      simp only [libraryCall, hb, EntryCall.phaseAfter, Option.isSome_some, ↓reduceIte]
      exact PhaseChange.asked i a e hb
  | _ => exact PhaseChange.outside _ _ rfl

theorem following_scanning (i : Sock) : (following i Phase.scanning .idle).binding? = none := by
  unfold following
  split <;> rfl

theorem World.step_phase {w w' : World} {m : Move} (hs : w.step m = some w') (p : Nat) : PhaseChange w p m (w'.phase p) := by
  unfold World.step at hs
  -- a move of process `q` that puts it into phase `ph`
  have hmove : ∀ (m : Move) (q : Nat) (ph : Phase), (∀ i c, m = .call p i c → p = q) → PhaseChange w q m ph →
      PhaseChange w p m (update w.phase q ph p) := by
    intro m q ph hcall hq
    by_cases hpq : p = q
    · subst hpq
      rw [update_self]
      exact hq
    · rw [update_of_ne hpq]
      exact PhaseChange.same m fun i c hm => hpq (hcall i c hm)
  cases m with
  | callSocket q =>
    simp only [World.act] at hs
    split at hs
    · cases hs
      exact hmove _ q _ (by simp) (PhaseChange.outside _ _ rfl)
    · cases hs
  | scan q =>
    simp only [World.act] at hs
    split at hs
    · split at hs
      · cases hs
        exact hmove _ q _ (by simp) (PhaseChange.outside _ _ (following_scanning _))
      · cases hs
        exact hmove _ q _ (by simp) (PhaseChange.outside _ _ rfl)
    · cases hs
  | call q i c =>
    simp only [World.act] at hs
    split at hs
    · cases hs
      exact hmove _ q _ (fun i' c' hm => by cases hm; rfl) (call_phase w q i c)
    · cases hs
  | post q =>
    simp only [World.act] at hs
    split at hs
    · rename_i hready hphase
      cases hs
      exact hmove _ q _ (by simp) (PhaseChange.posted _ _ hphase)
    · cases hs
  | wait q =>
    simp only [World.act] at hs
    split at hs
    · rename_i hready hphase
      cases hs
      exact hmove _ q _ (by simp) (PhaseChange.woken _ _ hphase)
    · cases hs
  | copy q =>
    simp only [World.act] at hs
    split at hs
    · cases hs
      exact hmove _ q _ (by simp) (PhaseChange.outside _ _ rfl)
    · cases hs
  | _ =>
    -- the moves of the daemon, and a death
    simp only [World.act] at hs
    split at hs <;> cases hs
    exact PhaseChange.same _ (by simp)

/-! ## What a move does to the bound addresses -/

/-- The UDP socket of an entry stays the same. -/
theorem EntryChange.udpSocket {w : World} {j : Sock} {m : Move} {e : Entry} {holder : Option Nat}
    (h : EntryChange w j m e holder) : e.udpSocket = (w.mem j).udpSocket := by
  cases h with
  | same => rfl
  | handedOut p e hp he => exact (kSocket_some he).2.2.2
  | asked p a e he => exact (kBind_some he).2.2.2.1
  | closed p e he => exact (kClose_some he).2.2.2.2
  | traffic => rfl
  | served => rfl
  | collected =>
    unfold collect
    split
    · rfl
    · split <;> rfl

/-- The bind loop binds the UDP socket of the entry it serves to the addresses in the entry. -/
theorem bound_of_served {w w' : World} {m : Move} {i : Sock} (hs : w.step m = some w') (hm : m = .mainBind)
    (hmain : w.main = .binding i) :
    w'.bound (w.mem i).udpSocket = some ((w.mem i).srcIp, (w.mem i).srcPort) ∧ w'.mem i = bindServed (w.mem i) := by
  subst hm
  simp only [World.step, World.act, hmain] at hs
  split at hs
  · rename_i i' hlock hmain'
    cases hmain'
    cases hs
    exact ⟨update_self _ _ _, update_self i _ w.mem⟩
  · cases hs

/-- Otherwise the address of a UDP socket stays, unless the collector closes the socket. -/
theorem bound_of_not_served {w w' : World} {m : Move} {i : Sock} (hinj : Injective fun i => (w.mem i).udpSocket)
    (hs : w.step m = some w') (hserved : ¬(m = .mainBind ∧ w.main = .binding i)) (hc : w.collects i = false) :
    w'.bound (w.mem i).udpSocket = w.bound (w.mem i).udpSocket := by
  have hchange := World.step_change hs
  generalize w'.mem = mem at hchange
  generalize w'.holder = holder at hchange
  generalize w'.bound = bound at hchange ⊢
  cases hchange with
  | served j hmain =>
    refine update_of_ne (fun heq => ?_) _ _
    obtain rfl : i = j := hinj heq
    exact hserved ⟨rfl, hmain⟩
  | collected =>
    refine if_neg ?_
    simp only [List.any_eq_true, Bool.and_eq_true, beq_iff_eq, not_exists, not_and]
    intro j _ hj heq
    obtain rfl : j = i := hinj heq
    rw [hc] at hj
    cases hj
  | _ => rfl

/-! ## A process inside `k_bind` -/

/-- The entry of a call of `k_bind` that is under way: it has its owner and the addresses of the call, and is marked or bound. -/
structure InBind (w : World) (p : Nat) (i : Sock) (a : BindArgs) : Prop where
  owner : (w.mem i).pid = p
  srcIp : (w.mem i).srcIp = copyIp a.srcIp
  srcPort : (w.mem i).srcPort = a.srcPort
  state : (w.mem i).isFree = 2 ∨ Bound w i a

namespace InBind

variable {w w' : World} {m : Move} {p : Nat} {i : Sock} {a : BindArgs}

theorem used (h : InBind w p i a) : (w.mem i).isFree ≠ 1 := by
  rcases h.state with hf | ⟨hf, -⟩ <;> omega

theorem not_collected (h : InBind w p i a) (halive : w.alive p = true) : w.collects i = false := by
  simp [World.collects, World.gone, h.owner, halive]

/-- A call that is under way is not disturbed by the moves of others, and an entry bound for it stays bound. -/
theorem keep (h : InBind w p i a) (hinj : Injective fun i => (w.mem i).udpSocket) (halive : w.alive p = true)
    (hg : WokenServed w m) (hcall : ∀ c, m ≠ .call p i c) (hs : w.step m = some w') :
    InBind w' p i a ∧ (Bound w i a → Bound w' i a) := by
  have hchange := World.step_entry hs i
  have hudp := hchange.udpSocket
  have hquiet := h.not_collected halive
  by_cases hserved : m = .mainBind ∧ w.main = .binding i
  · -- the bind loop serves the entry
    obtain ⟨hbound, hmem⟩ := bound_of_served hs hserved.1 hserved.2
    have hdone : Bound w' i a := by
      refine ⟨by rw [hmem]; rfl, ?_⟩
      rw [hudp, hbound, h.srcIp, h.srcPort]
    exact ⟨⟨by rw [hmem]; exact h.owner, by rw [hmem]; exact h.srcIp, by rw [hmem]; exact h.srcPort, Or.inr hdone⟩,
      fun _ => hdone⟩
  · have hbound := bound_of_not_served hinj hs hserved hquiet
    -- the control fields of the entry are as they were
    have hcontrol : (w'.mem i).toControl = (w.mem i).toControl := by
      generalize w'.mem i = e at hchange
      generalize w'.holder i = holder at hchange
      cases hchange with
      | same => rfl
      | handedOut q e hq he => exact absurd (kSocket_some he).1 h.used
      | asked q b e he =>
        obtain rfl : p = q := h.owner.symm.trans hg
        exact absurd rfl (hcall _)
      | closed q e he =>
        obtain rfl : p = q := h.owner.symm.trans (kClose_some he).2.1
        exact absurd rfl (hcall _)
      | traffic => rfl
      | served hmain => exact absurd ⟨rfl, hmain⟩ hserved
      | collected hc =>
        rw [hquiet] at hc
        cases hc
    have hstays : Bound w i a → Bound w' i a := by
      rintro ⟨hf, hb⟩
      refine ⟨by rw [hcontrol]; exact hf, ?_⟩
      rw [hudp, hbound]
      exact hb
    refine ⟨⟨by rw [hcontrol]; exact h.owner, by rw [hcontrol]; exact h.srcIp, by rw [hcontrol]; exact h.srcPort, ?_⟩, hstays⟩
    rcases h.state with hf | hb
    · exact Or.inl (by rw [hcontrol]; exact hf)
    · exact Or.inr (hstays hb)

end InBind

/-! ## Every run -/

/-- No process comes back to life. -/
theorem World.step_alive {w w' : World} {m : Move} (hs : w.step m = some w') {p : Nat} (h : w'.alive p = true) :
    w.alive p = true := by
  unfold World.step at hs
  cases m with
  | die q =>
    simp only [World.act] at hs
    split at hs
    · cases hs
      have h : update w.alive q false p = true := h
      by_cases hpq : p = q
      · subst hpq
        rw [update_self] at h
        cases h
      · rwa [update_of_ne hpq] at h
    · cases hs
  | scan q =>
    simp only [World.act] at hs
    split at hs
    · split at hs <;> cases hs <;> exact h
    · cases hs
  | _ => simp only [World.act] at hs; split at hs <;> cases hs; exact h

/-- A `k_bind` returns 0 by the move that follows the copy, which changes no entry. -/
theorem World.step_returned {w w' : World} {m : Move} (hs : w.step m = some w') {p : Nat} {i : Sock} {a : BindArgs}
    (h : w'.returned = some (p, i, a)) :
    w.alive p = true ∧ w.phase p = .copying i a ∧ w'.mem = w.mem ∧ w'.bound = w.bound := by
  unfold World.step at hs
  cases m with
  | copy q =>
    simp only [World.act] at hs
    split at hs
    · rename_i hready hphase
      cases hs
      cases h
      simp only [World.ready, Bool.and_eq_true] at hready
      exact ⟨hready.1.2, hphase, rfl, rfl⟩
    · cases hs
  | scan q =>
    simp only [World.act] at hs
    split at hs
    · split at hs <;> cases hs <;> cases h
    · cases hs
  | _ => simp only [World.act] at hs; split at hs <;> cases hs; cases h

/-- The invariant of the rendezvous. -/
structure RendezvousInv (w : World) : Prop where
  sockets : Injective fun i => (w.mem i).udpSocket
  inBind : ∀ p i a, w.alive p = true → (w.phase p).binding? = some (i, a) → InBind w p i a
  woken : ∀ p i a, w.alive p = true → w.phase p = .copying i a → Bound w i a
  done : BindDone w

theorem rendezvousInv_begin {udpSocket : Sock → Int} (hinj : Injective udpSocket) (alive : Nat → Bool) :
    RendezvousInv (World.begin udpSocket alive) where
  sockets := hinj
  inBind p i a _ h := by cases h
  woken p i a _ h := by cases h
  done p i a h := by cases h

/-- A `k_bind` that is accepted begins with the entry marked, under its owner, with the addresses of the call. -/
theorem inBind_asked {w w' : World} {p : Nat} {i : Sock} {a : BindArgs} {e : Entry} (hs : w.step (.call p i (.bind a)) = some w')
    (hown : (w.mem i).pid = p) (hb : kBind (w.mem i) a = some e) : InBind w' p i a := by
  have hmem : w'.mem i = e := by
    rw [call_mem hs, update_self]
    simp [libraryCall, hb]
  obtain ⟨-, hfree, hpid, -, hip, hport⟩ := kBind_some hb
  exact ⟨by rw [hmem, hpid, hown], by rw [hmem, hip], by rw [hmem, hport], Or.inl (by rw [hmem, hfree])⟩

theorem rendezvous_step (w : World) (m : Move) (w' : World) (h : RendezvousInv w) (hg : WokenServed w m)
    (hs : w.step m = some w') : RendezvousInv w' := by
  -- a process in `k_bind` after a move that is not its own call was there before, at the same entry
  have hkeep : ∀ p i a, w'.alive p = true → (w.phase p).binding? = some (i, a) → (∀ c, m ≠ .call p i c) →
      InBind w' p i a ∧ (Bound w i a → Bound w' i a) := fun p i a halive hb hcall =>
    (h.inBind p i a (World.step_alive hs halive) hb).keep h.sockets (World.step_alive hs halive) hg hcall hs
  refine ⟨?_, ?_, ?_, ?_⟩
  · have hudp : (fun i => (w'.mem i).udpSocket) = fun i => (w.mem i).udpSocket :=
      funext fun i => (World.step_entry hs i).udpSocket
    rw [hudp]
    exact h.sockets
  · intro p i a halive hb
    have hphase := World.step_phase hs p
    generalize w'.phase p = ph at hphase hb
    cases hphase with
    | same _ hcall => exact (hkeep p i a halive hb (hcall i)).1
    | outside _ _ hout =>
      rw [hout] at hb
      cases hb
    | asked j b e he =>
      cases hb
      exact inBind_asked hs hg he
    | posted j b hph =>
      cases hb
      exact (hkeep p i a halive (by rw [hph]; rfl) nofun).1
    | woken j b hph =>
      cases hb
      exact (hkeep p i a halive (by rw [hph]; rfl) nofun).1
  · intro p i a halive hcopy
    have hphase := World.step_phase hs p
    generalize w'.phase p = ph at hphase hcopy
    cases hphase with
    | same _ hcall =>
      exact (hkeep p i a halive (by rw [hcopy]; rfl) (hcall i)).2 (h.woken p i a (World.step_alive hs halive) hcopy)
    | outside _ _ hout =>
      rw [hcopy] at hout
      cases hout
    | asked => cases hcopy
    | posted => cases hcopy
    | woken j b hph =>
      cases hcopy
      have hb : (w.phase p).binding? = some (i, a) := by
        rw [hph]
        rfl
      refine (hkeep p i a halive hb nofun).2 ?_
      rcases (h.inBind p i a (World.step_alive hs halive) hb).state with hmarked | hbound
      · exact absurd hmarked (hg i a hph)
      · exact hbound
  · intro p i a hr
    obtain ⟨halive, hcopy, hmem, hbound⟩ := World.step_returned hs hr
    have howner := (h.inBind p i a halive (by rw [hcopy]; rfl)).owner
    have hdone := h.woken p i a halive hcopy
    unfold Bound at hdone ⊢
    rw [hmem, hbound]
    exact ⟨howner, hdone⟩

/-- The rendezvous of `k_bind`. In every run of processes that bind their own sockets, of the bind loop, the collector and
everything else, with the UDP sockets of the entries distinct: if every caller that gets past `sem_wait(sem1)` finds its own entry no
longer marked, then in every state a `k_bind` that has just returned 0 has left its own entry in use and its UDP socket bound to the
source address and port it wrote. -/
theorem bind_done (udpSocket : Sock → Int) (hinj : Injective udpSocket) (alive : Nat → Bool) (ms : List Move)
    (hms : Meets World.step WokenServed (World.begin udpSocket alive) ms) :
    Always World.step BindDone (World.begin udpSocket alive) ms :=
  (always_of_invariant rendezvous_step (rendezvousInv_begin hinj alive) hms).imp fun _ h => h.done

/-- `bind_done` on one process that obtains a socket and binds it. -/
theorem bind_done_one :
    Always World.step BindDone (World.begin (fun i => 3 + (i.val : Int)) fun _ => true)
      [.callSocket 7, .scan 7, .call 7 0 (.bind { srcIp := [49], srcPort := 80, destIp := [50], destPort := 90 }), .post 7,
        .mainWait, .mainTest, .mainBind, .mainPost, .wait 7, .copy 7] := by
  have hinj : Injective fun i : Sock => 3 + (i.val : Int) := by
    intro i j h
    have h : 3 + (i.val : Int) = 3 + (j.val : Int) := h
    exact Fin.ext (by omega)
  refine bind_done (fun i => 3 + (i.val : Int)) hinj (fun _ => true) _ ?_
  refine ⟨trivial, fun w1 h1 => ⟨trivial, fun w2 h2 => ⟨?_, fun w3 h3 => ⟨trivial, fun w4 h4 => ⟨trivial, fun w5 h5 =>
    ⟨trivial, fun w6 h6 => ⟨trivial, fun w7 h7 => ⟨trivial, fun w8 h8 => ⟨?_, fun _ _ => ⟨trivial, fun _ _ => trivial⟩⟩⟩⟩⟩⟩⟩⟩⟩⟩
  · obtain rfl := Option.some.inj h1
    obtain rfl := Option.some.inj h2
    rfl
  · obtain rfl := Option.some.inj h1
    obtain rfl := Option.some.inj h2
    obtain rfl := Option.some.inj h3
    obtain rfl := Option.some.inj h4
    obtain rfl := Option.some.inj h5
    obtain rfl := Option.some.inj h6
    obtain rfl := Option.some.inj h7
    obtain rfl := Option.some.inj h8
    intro i a hph
    cases hph
    exact (by decide : (0 : Nat) ≠ 2)

/-- Processes 7 and 8 have both marked their entries and posted; the bind loop serves entry 0 and posts `sem1`, which wakes process 8:
its `k_bind` returns 0 with entry 1 still marked and its UDP socket not bound. -/
theorem bind_wakes_other :
    ∃ w, exec World.step (World.begin (fun i => 3 + (i.val : Int)) fun _ => true)
        [.callSocket 7, .scan 7, .callSocket 8, .scan 8, .scan 8,
          .call 7 0 (.bind { srcIp := [49], srcPort := 80, destIp := [50], destPort := 90 }),
          .call 8 1 (.bind { srcIp := [49], srcPort := 81, destIp := [50], destPort := 91 }), .post 7, .post 8,
          .mainWait, .mainTest, .mainBind, .mainPost, .wait 8, .copy 8] = some w ∧
      w.returned = some (8, 1, { srcIp := [49], srcPort := 81, destIp := [50], destPort := 91 }) ∧
      (w.mem 1).isFree = 2 ∧ w.bound (w.mem 1).udpSocket = none ∧ ¬BindDone w := by
  refine ⟨_, rfl, rfl, rfl, rfl, fun h => ?_⟩
  obtain ⟨-, hfree, -⟩ := h 8 1 _ rfl
  cases hfree

end NetLabs.Ktp
