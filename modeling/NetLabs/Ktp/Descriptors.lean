import NetLabs.Ktp.Rendezvous

/-!
# The UDP sockets of the daemon

`init_ksocket` opens ten UDP sockets in the daemon, one for each entry, and nobody ever opens another. `k_close` runs in a user process
and closes a descriptor of that process, the one whose number is its process id; the collector runs in the daemon and does close the
socket, but leaves its number in the entry. So an entry is handed out with a socket that can be bound only until its socket has been
bound or the collector has freed it (`handedOut_usable_iff`).
-/

namespace NetLabs.Ktp

open Function Machine

/-- What a descriptor of the daemon refers to. -/
inductive Descriptor where
  | closed
  | unbound
  | bound
deriving DecidableEq

/-- The world, the descriptors of the daemon, and which descriptors are open in each user process. -/
structure Host where
  world : World
  daemon : Int → Descriptor
  own : Nat → Int → Bool

/-- `bind` on the socket of an entry: it fails unless the socket is open and not bound yet, and may fail then (`granted`). -/
def Host.bind (h : Host) (i : Sock) (granted : Bool) : Int → Descriptor :=
  if granted = true ∧ h.daemon (h.world.mem i).udpSocket = .unbound
  then update h.daemon (h.world.mem i).udpSocket .bound else h.daemon

/-- The descriptors of the daemon after a move: the bind loop binds, the collector closes. -/
def Host.daemonAfter (h : Host) (granted : Bool) : Move → Int → Descriptor
  | .mainBind =>
    match h.world.main with
    | .binding i => h.bind i granted
    | _ => h.daemon
  | .collect => fun fd =>
    if (List.finRange 10).any (fun i => h.world.collects i && (h.world.mem i).udpSocket == fd) then .closed else h.daemon fd
  | _ => h.daemon

/-- The descriptors of the user processes after a move: an accepted `k_close` does `close(getpid())`. -/
def Host.ownAfter (h : Host) : Move → Nat → Int → Bool
  | .call p i .close =>
    if (libraryCall (h.world.mem i) p .close).1 then update h.own p (update (h.own p) (p : Int) false) else h.own
  | _ => h.own

/-- One move, and whether `bind` is granted in it. -/
def Host.step (h : Host) (x : Move × Bool) : Option Host :=
  match h.world.step x.1 with
  | none => none
  | some w => some { world := w, daemon := h.daemonAfter x.2 x.1, own := h.ownAfter x.1 }

/-- The beginning: the ten sockets are open and not bound. -/
def Host.begin (udpSocket : Sock → Int) (alive : Nat → Bool) (own : Nat → Int → Bool) : Host where
  world := World.begin udpSocket alive
  daemon fd := if (List.finRange 10).any (fun i => udpSocket i == fd) then .unbound else .closed
  own := own

/-- The moves of `k_socket`, `k_bind` and `k_close`, of processes that die, of the bind loop and of the collector. -/
def Move.isLifecycle : Move → Bool
  | .call _ _ (.sendto _ _) => false
  | .call _ _ .recvfrom => false
  | .traffic _ _ => false
  | _ => true

/-- Process `p` can move, and the move is that `k_socket` hands it entry `i`. -/
def HandsOut (h : Host) (p : Nat) (i : Sock) : Prop :=
  ∃ h' e, h.step (.scan p, false) = some h' ∧ h.world.phase p = .scanning i ∧ kSocket (h.world.mem i) p = some e

/-- The entry refers to an open UDP socket of the daemon that is not bound. -/
def Usable (h : Host) (i : Sock) : Prop := h.daemon (h.world.mem i).udpSocket = .unbound

/-- The bind loop binds the socket of entry `i`, or the collector frees the entry. -/
def Spends (i : Sock) (h : Host) (x : Move × Bool) : Prop :=
  (x.1 = .mainBind ∧ h.world.main = .binding i ∧ x.2 = true) ∨ (x.1 = .collect ∧ h.world.collects i = true)

section Steps

variable {h h' : Host} {x : Move × Bool} {xs : List (Move × Bool)} {i j : Sock}

theorem Host.step_some (hs : h.step x = some h') : h.world.step x.1 = some h'.world ∧ h'.daemon = h.daemonAfter x.2 x.1 := by
  unfold Host.step at hs
  split at hs
  · cases hs
  · rename_i w hw
    cases hs
    exact ⟨hw, rfl⟩

/-- No move changes which socket an entry refers to. -/
theorem Host.step_udpSocket (hs : h.step x = some h') (i : Sock) : (h'.world.mem i).udpSocket = (h.world.mem i).udpSocket :=
  (World.step_entry (Host.step_some hs).1 i).udpSocket

/-- Where no two entries share a socket, the collector closes the socket of an entry exactly when it collects the entry. -/
theorem Host.closes_socket (hinj : Injective fun i => (h.world.mem i).udpSocket) (i : Sock) :
    ((List.finRange 10).any fun j => h.world.collects j && (h.world.mem j).udpSocket == (h.world.mem i).udpSocket) =
      h.world.collects i := by
  rw [Bool.eq_iff_iff, List.any_eq_true]
  constructor
  · rintro ⟨j, -, hj⟩
    rw [Bool.and_eq_true, beq_iff_eq] at hj
    rw [← hinj hj.2]
    exact hj.1
  · intro hc
    exact ⟨i, List.mem_finRange i, by simp [hc]⟩

/-- One move: a usable socket stays usable unless the move spends it, and no move makes one usable. -/
theorem usable_step (hinj : Injective fun i => (h.world.mem i).udpSocket) (hs : h.step x = some h') (i : Sock) :
    Usable h' i ↔ Usable h i ∧ ¬Spends i h x := by
  obtain ⟨m, granted⟩ := x
  have hudp := Host.step_udpSocket hs i
  obtain ⟨hw, hd⟩ := Host.step_some hs
  unfold Usable
  rw [hudp, hd]
  cases m with
  | mainBind =>
    have hspends : Spends i h (.mainBind, granted) ↔ h.world.main = .binding i ∧ granted = true := by simp [Spends]
    rw [hspends]
    cases hmain : h.world.main with
    | binding j =>
      simp only [Host.daemonAfter, hmain, MainPhase.binding.injEq, Host.bind]
      by_cases hji : j = i
      · subst hji
        cases granted with
        | true => by_cases hu : h.daemon (h.world.mem j).udpSocket = .unbound <;> simp [hu]
        | false => simp
      · have hne : (h.world.mem i).udpSocket ≠ (h.world.mem j).udpSocket := fun he => hji (hinj he).symm
        split
        · rw [update_of_ne hne]
          simp [hji]
        · simp [hji]
    | _ => simp [Host.daemonAfter, hmain]
  | collect =>
    have hspends : Spends i h (.collect, granted) ↔ h.world.collects i = true := by simp [Spends]
    simp only [hspends, Host.daemonAfter, Host.closes_socket hinj]
    cases h.world.collects i with
    | true => simp
    | false => simp
  | _ => simp [Host.daemonAfter, Spends]

/-- A run: a socket is usable at its end exactly when it was at its beginning and no move has spent it. -/
theorem usable_run (hinj : Injective fun i => (h.world.mem i).udpSocket) (hx : exec Host.step h xs = some h') (i : Sock) :
    Usable h' i ↔ Usable h i ∧ Meets Host.step (fun h x => ¬Spends i h x) h xs := by
  induction xs generalizing h with
  | nil =>
    obtain rfl : h = h' := by simpa using hx
    simp
  | cons x xs ih =>
    obtain ⟨t, ht, hx⟩ := exec_cons_eq_some.1 hx
    have hudp : (fun i => (t.world.mem i).udpSocket) = fun i => (h.world.mem i).udpSocket :=
      funext fun i => Host.step_udpSocket ht i
    rw [ih (hudp ▸ hinj) hx, usable_step hinj ht i, and_assoc, meets_cons_iff ht]

end Steps

theorem usable_begin (udpSocket : Sock → Int) (alive : Nat → Bool) (own : Nat → Int → Bool) (i : Sock) :
    Usable (Host.begin udpSocket alive own) i := by
  have hany : ((List.finRange 10).any fun j => udpSocket j == udpSocket i) = true :=
    List.any_eq_true.2 ⟨i, List.mem_finRange i, by simp⟩
  simp only [Usable, Host.begin, World.begin, initKsocket, hany, ↓reduceIte]

/-- When `k_socket` hands out an entry that can be bound. In every history of calls of `k_socket`, `k_bind` and `k_close` by any
processes, of processes that die, of the bind loop and of the collector, an entry that is handed out refers to an open UDP socket of the
daemon that is not bound, if and only if in the history so far the bind loop has not bound that socket and the collector has not freed
the entry. -/
theorem handedOut_usable_iff (udpSocket : Sock → Int) (hinj : Injective udpSocket) (alive : Nat → Bool) (own : Nat → Int → Bool)
    (xs : List (Move × Bool)) (h : Host) (hx : exec Host.step (Host.begin udpSocket alive own) xs = some h) :
    (∀ x ∈ xs, x.1.isLifecycle = true) → ∀ p i, HandsOut h p i →
      (Usable h i ↔ Meets Host.step (fun h x => ¬Spends i h x) (Host.begin udpSocket alive own) xs) := by
  intro _ p i _
  rw [usable_run hinj hx i]
  exact and_iff_right (usable_begin udpSocket alive own i)

/-- `handedOut_usable_iff` on the first call of `k_socket`. -/
theorem handedOut_usable_first :
    ∃ h, exec Host.step (Host.begin (fun i => 3 + (i.val : Int)) (fun _ => true) fun _ _ => false) [(.callSocket 7, false)] = some h ∧
      HandsOut h 7 0 ∧ (Usable h 0 ↔ Meets Host.step (fun h x => ¬Spends 0 h x)
        (Host.begin (fun i => 3 + (i.val : Int)) (fun _ => true) fun _ _ => false) [(.callSocket 7, false)]) := by
  have hinj : Injective fun i : Sock => 3 + (i.val : Int) := by
    intro i j h
    have h : 3 + (i.val : Int) = 3 + (j.val : Int) := h
    exact Fin.ext (by omega)
  refine ⟨_, rfl, ⟨_, _, rfl, rfl, rfl⟩, ?_⟩
  exact handedOut_usable_iff (fun i => 3 + (i.val : Int)) hinj _ _ [(.callSocket 7, false)] _ rfl (by decide) 7 0 ⟨_, _, rfl, rfl, rfl⟩

/-- Process 7 calls `k_socket`, which gives it entry `i`, and `k_bind`, and ends; the collector frees the entry, and process 8 calls
`k_socket`. -/
def bindAndEnd (i : Sock) : List (Move × Bool) :=
  [(.callSocket 7, false), (.scan 7, false),
    (.call 7 i (.bind { srcIp := [49], srcPort := 80, destIp := [50], destPort := 90 }), false), (.post 7, false), (.mainWait, false),
    (.mainTest, false), (.mainBind, true), (.mainPost, false), (.wait 7, false), (.copy 7, false), (.die 7, false), (.collect, false),
    (.callSocket 8, false)]

/-- The entry is handed out again with a socket that is closed. -/
theorem handedOut_closed :
    ∃ h, exec Host.step (Host.begin (fun i => 3 + (i.val : Int)) (fun _ => true) fun _ _ => false) (bindAndEnd 0) = some h ∧
      (∀ x ∈ bindAndEnd 0, x.1.isLifecycle = true) ∧ HandsOut h 8 0 ∧ h.daemon (h.world.mem 0).udpSocket = .closed ∧
      ¬Usable h 0 := by
  refine ⟨_, rfl, by decide, ⟨_, _, rfl, rfl, rfl⟩, rfl, fun hu => ?_⟩
  have hu : Descriptor.closed = .unbound := hu
  cases hu

end NetLabs.Ktp
