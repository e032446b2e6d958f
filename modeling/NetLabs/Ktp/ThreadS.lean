import NetLabs.Ktp.Entry

/-!
# KTP: thread S

`initksocket.c`, `thread_S_function`, for one entry and one wake-up. The clock is not the code's: `scan j` is what `time(NULL)`
gives when slot `j` is tested for a timeout, `stamp k` what it gives when number `k` is sent.
-/

namespace NetLabs.Ktp

open Function Loop

/-- The timeout `T`, in seconds. -/
def T : Int := 5

/-- The state of a pass over the window: the number looked at, how many were sent, and what was sent. -/
structure Sweep where
  side : SendSide
  k : Nat
  cnt : Nat
  out : List Datagram

/-- `k != (start + size) % 255 + 1 && cnt != size`. -/
def inSweep (start size : Nat) (x : Sweep) : Bool := x.k != (start + size) % 255 + 1 && x.cnt != size

/-- Number `k`, in slot `i`, is stamped with the time and sent. -/
def Sweep.transmit (x : Sweep) (i : Slot) (now : Int) : Sweep where
  side := { x.side with sendTime := update x.side.sendTime i now }
  k := next x.k
  cnt := x.cnt + 1
  out := x.out ++ [dataDatagram (x.side.sendBuffer i)]

/-- One iteration of the retransmission loop: the slot noted for `k` is sent again, whatever is noted there. -/
def resend (stamp : Nat → Int) (x : Sweep) : Except Fault Sweep :=
  match slot? (x.side.swnd.indexSeqNum x.k) with
  | .error f => .error f
  | .ok i => .ok (x.transmit i (stamp x.k))

/-- One iteration of the loop for new messages: `k` is sent when a slot is noted for it that has not been sent. -/
def sendNew (stamp : Nat → Int) (x : Sweep) : Except Fault Sweep :=
  if 0 ≤ x.side.swnd.indexSeqNum x.k then
    match slot? (x.side.swnd.indexSeqNum x.k) with
    | .error f => .error f
    | .ok i => if x.side.sendTime i = -1 then .ok (x.transmit i (stamp x.k)) else .ok { x with k := next x.k }
  else .ok { x with k := next x.k }

/-- A pass over the window with one of the two loop bodies. -/
def sweep (body : Sweep → Except Fault Sweep) (s : SendSide) : Except Fault (SendSide × List Datagram) :=
  match loopWhile .endless (inSweep s.swnd.startSequence s.swnd.size) body 256
    { side := s, k := s.swnd.startSequence, cnt := 0, out := [] } with
  | .error f => .error f
  | .ok x => .ok (x.side, x.out)

/-- `time(NULL) - send_time[j] >= T && send_time[j] != -1` for some slot `j`. -/
def timedOut (s : SendSide) (scan : Slot → Int) : Bool :=
  (List.finRange 10).any fun j => decide (T ≤ scan j - s.sendTime j ∧ s.sendTime j ≠ -1)

/-- A wake-up on the sending side of an entry in use. With a timeout the window is sent again, and with a window of size 0
nothing is (the `continue` goes to the next slot, so no branch is left to take); without one, what has not been sent is. -/
def wakeUp (s : SendSide) (scan : Slot → Int) (stamp : Nat → Int) : Except Fault (SendSide × List Datagram) :=
  if timedOut s scan then
    if s.swnd.size = 0 then .ok (s, []) else sweep (resend stamp) s
  else
    if s.swnd.size = 0 then .ok (s, []) else sweep (sendNew stamp) s

/-- A wake-up of thread S on one entry: the new entry and what was sent. -/
def threadS (e : Entry) (scan : Slot → Int) (stamp : Nat → Int) : Except Fault (Entry × List Datagram) :=
  if e.isFree = 0 then
    match wakeUp e.toSendSide scan stamp with
    | .error f => .error f
    | .ok (s, out) => .ok (e.withProtocol (e.toProtocol.withSend s), out)
  else .ok (e, [])

/-! ## What a wake-up changes -/

/-- A pass changes nothing but `send_time`, when its body does. -/
theorem sweep_sendTime {body : Sweep → Except Fault Sweep} {s s' : SendSide} {out : List Datagram}
    (hbody : ∀ x x', (∃ t, x.side = { s with sendTime := t }) → body x = .ok x' → ∃ t, x'.side = { s with sendTime := t })
    (h : sweep body s = .ok (s', out)) : ∃ t, s' = { s with sendTime := t } := by
  unfold sweep at h
  split at h
  · cases h
  · rename_i x hx
    cases h
    exact (loopWhile_keeps (fun x : Sweep => ∃ t, x.side = { s with sendTime := t }) (fun x x' hi _ => hbody x x' hi)
      ⟨s.sendTime, rfl⟩ hx).1

theorem transmit_sendTime {x : Sweep} {s : SendSide} (h : ∃ t, x.side = { s with sendTime := t }) (i : Slot) (now : Int) :
    ∃ t, (x.transmit i now).side = { s with sendTime := t } := by
  obtain ⟨t, ht⟩ := h
  exact ⟨update t i now, by simp only [Sweep.transmit, ht]⟩

/-- A wake-up changes nothing but `send_time`. -/
theorem wakeUp_sendTime {s s' : SendSide} {scan : Slot → Int} {stamp : Nat → Int} {out : List Datagram}
    (h : wakeUp s scan stamp = .ok (s', out)) : ∃ t, s' = { s with sendTime := t } := by
  unfold wakeUp at h
  split at h <;> split at h
  · cases h
    exact ⟨s.sendTime, rfl⟩
  · refine sweep_sendTime (fun x x' hi hb => ?_) h
    unfold resend at hb
    split at hb
    · cases hb
    · cases hb
      exact transmit_sendTime hi _ _
  · cases h
    exact ⟨s.sendTime, rfl⟩
  · refine sweep_sendTime (fun x x' hi hb => ?_) h
    unfold sendNew at hb
    split at hb
    · split at hb
      · cases hb
      · split at hb
        · cases hb
          exact transmit_sendTime hi _ _
        · cases hb
          exact hi
    · cases hb
      exact hi

/-- A wake-up of thread S changes nothing but `send_time`. -/
theorem threadS_sendTime {e e' : Entry} {scan : Slot → Int} {stamp : Nat → Int} {out : List Datagram}
    (h : threadS e scan stamp = .ok (e', out)) :
    ∃ t, e' = e.withProtocol (e.toProtocol.withSend { e.toSendSide with sendTime := t }) := by
  unfold threadS at h
  split at h
  · split at h
    · cases h
    · rename_i s out' hw
      cases h
      obtain ⟨t, rfl⟩ := wakeUp_sendTime hw
      exact ⟨t, rfl⟩
  · cases h
    exact ⟨e.sendTime, rfl⟩

end NetLabs.Ktp
