import NetLabs.StopWait.Calls

/-!
# What `k_recvfrom` reads of a datagram

The bytes of `recv_buffer` behind a datagram are what earlier calls have left on the stack. All tests of `k_recvfrom` stop inside the
datagram, and so does every copy but one: of a data frame as many bytes are handed over as its length field says.
-/

namespace NetLabs.StopWait

open Buffer Prog CText

/-! ## What is meant -/

/-- The length field of a frame. -/
def lengthField (datagram : List UInt8) : Nat := (datagram.getD 2 0).toNat + 256 * (datagram.getD 3 0).toNat

/-- What a call returns and stores is of the datagram and no more than the caller's buffer holds. -/
structure Within (r : Received) (datagram : List UInt8) (length : Nat) : Prop where
  value : r.value ≤ datagram.length
  stored : r.stored <:+: datagram
  stored_le : r.stored.length ≤ length

/-- With whatever was in `recv_buffer` before, the call reads the datagram only and returns what is within it. -/
def InBounds (datagram : List UInt8) (dropped : Bool) (length : Nat) : Prop :=
  ∀ before, Within ((kRecvfrom datagram.length dropped length).run (overlay datagram before)) datagram length ∧
    ∀ i ∈ (kRecvfrom datagram.length dropped length).reads (overlay datagram before), i < datagram.length

/-- A data frame that is not dropped has as many bytes behind its header as it says or, if that is less, as the caller's buffer holds. -/
def Fits (datagram : List UInt8) (dropped : Bool) (length : Nat) : Prop :=
  dropped = false → 4 ≤ datagram.length → datagram.head? = some frameData → 4 + min (lengthField datagram) length ≤ datagram.length

variable {l datagram : List UInt8} {dropped : Bool} {length n i : Nat} {reply : Option (List UInt8)} {r : Received}

/-! ## The copies -/

theorem within_nothing (datagram : List UInt8) (length : Nat) : Within ⟨-1, [], none⟩ datagram length :=
  ⟨Int.le_trans (by decide) (Int.natCast_nonneg _), List.nil_infix, Nat.zero_le _⟩

/-- A copy that stays inside the datagram. -/
theorem within_deliver (hn : i + min n length ≤ l.length) :
    ∃ r, (deliver i n length reply).runKnown (only l) = some (r, only l) ∧ Within r l length := by
  refine ⟨_, runKnown_deliver (holds_only l) hn, ?_, ?_, ?_⟩
  · change ((min n length : Nat) : Int) ≤ _
    omega
  · exact (List.take_prefix _ _).isInfix.trans (List.drop_suffix i l).isInfix
  · rw [List.length_take]
    omega

/-- A copy that does not. -/
theorem deliver_outside (hi : i ≤ l.length) (hn : l.length < i + min n length) :
    (deliver i n length reply).runKnown (only l) = none := by
  have hbehind : only l (i + (l.length - i)) = none := List.getElem?_eq_none (by omega)
  rw [deliver, runKnown_bind, runKnown_bytes_none (by omega) hbehind, Option.bind_none]

/-! ## The call -/

/-- A frame, by its type. -/
theorem runKnown_recvFrame (h : 4 ≤ l.length) : (recvFrame l.length length).runKnown (only l) =
    if l.head? = some frameData then
      (deliver 4 (lengthField l) length (some (ackFrame (l.getD 1 0)))).runKnown (only l)
    else (deliver 0 l.length length none).runKnown (only l) := by
  have hread : ∀ i, i < 4 → (byte i).runKnown (only l) = some (l.getD i 0, only l) := by
    intro i hi
    exact byte_known (holds_only l) (by omega)
  have hhead : l.head? = some (l.getD 0 0) := by
    cases l with
    | nil => cases h
    | cons b rest => rfl
  rw [recvFrame, runKnown_bind, hread 0 (by omega), Option.bind_some]
  simp only [hhead, Option.some.injEq]
  by_cases htype : l.getD 0 0 = frameData
  · rw [if_neg (not_not_intro htype), if_pos htype, runKnown_bind, hread 1 (by omega), Option.bind_some, runKnown_bind,
      hread 2 (by omega), Option.bind_some, runKnown_bind, hread 3 (by omega), Option.bind_some, lengthField]
  · rw [if_pos htype, if_neg htype]

/-- A data frame begins with no control text. -/
theorem not_beginsControl (h : datagram.head? = some frameData) : beginsControl datagram = false := by
  have hno : ∀ p : List UInt8, p ≠ [] → p.head? ≠ some frameData → startsWith datagram p = false := by
    intro p hp hhead
    rw [Bool.eq_false_iff]
    intro hstarts
    exact hhead ((head?_of_startsWith hstarts hp).symm.trans h)
  rw [beginsControl, hno (text "EOF") (by decide) (by decide), hno (text "FIN") (by decide) (by decide), Bool.or_false]

/-- Where a data frame has as many bytes as it says, the call goes through on the datagram alone and returns what is within it. -/
theorem kRecvfrom_inside (h : Fits datagram dropped length) :
    ∃ r, (kRecvfrom datagram.length dropped length).runKnown (only datagram) = some (r, only datagram) ∧ Within r datagram length := by
  by_cases hthree : 3 ≤ datagram.length
  · rw [runKnown_kRecvfrom hthree]
    split
    · exact within_deliver (by omega)
    · split
      · exact ⟨_, rfl, within_nothing datagram length⟩
      · rename_i hframe
        rw [not_or, Bool.not_eq_true, not_lt] at hframe
        rw [runKnown_recvFrame hframe.2]
        split
        · rename_i htype
          exact within_deliver (h hframe.1 hframe.2 htype)
        · exact within_deliver (by omega)
  · refine ⟨⟨-1, [], none⟩, ?_, within_nothing datagram length⟩
    have hshort : dropped = true ∨ datagram.length < 4 := Or.inr (by omega)
    rw [kRecvfrom, if_neg hthree, runKnown_bind, runKnown_pure, Option.bind_some]
    simp only [Bool.false_eq_true, if_false, hshort, if_true]
    rfl

/-- Where it has not, the call reads behind the datagram. -/
theorem kRecvfrom_outside (h : ¬Fits datagram dropped length) :
    (kRecvfrom datagram.length dropped length).runKnown (only datagram) = none := by
  simp only [Fits, Classical.not_imp, not_le] at h
  obtain ⟨hdropped, hfour, htype, hlen⟩ := h
  have hframe : ¬(dropped = true ∨ datagram.length < 4) := by
    rw [hdropped]
    simp only [Bool.false_eq_true, false_or]
    omega
  rw [runKnown_kRecvfrom (by omega), not_beginsControl htype, if_neg Bool.false_ne_true, if_neg hframe, runKnown_recvFrame hfour,
    if_pos htype, deliver_outside hfour hlen]

theorem reads_behind (h : ¬Fits datagram dropped length) (before : Nat → UInt8) :
    ∃ i ∈ (kRecvfrom datagram.length dropped length).reads (overlay datagram before), datagram.length ≤ i :=
  (runKnown_spec (knows_overlay datagram before)).2 (kRecvfrom_outside h)

/-- `k_recvfrom` stays within the datagram exactly when a data frame has as many bytes as its length field says. -/
theorem inBounds_iff (datagram : List UInt8) (dropped : Bool) (length : Nat) :
    InBounds datagram dropped length ↔ Fits datagram dropped length := by
  constructor
  · intro h
    by_contra hfits
    obtain ⟨i, hi, hbehind⟩ := reads_behind hfits fun _ => 0
    exact absurd ((h fun _ => 0).2 i hi) (Nat.not_lt.2 hbehind)
  · intro h before
    obtain ⟨r, hruns, hwithin⟩ := kRecvfrom_inside h
    refine ⟨?_, ((runKnown_spec (knows_overlay datagram before)).1 _ hruns).2⟩
    rw [run_overlay hruns before]
    exact hwithin

/-- A frame of four bytes that says it carries 200 is answered with bytes from behind it. -/
theorem length_field_trusted : ¬∀ (datagram : List UInt8) (dropped : Bool) (length : Nat), datagram.length ≤ messageSize →
    InBounds datagram dropped length := by
  intro h
  have hfits : ¬Fits [frameData, 7, 200, 0] false messageSize := by
    intro hf
    exact absurd (hf rfl (by decide) rfl) (by decide)
  obtain ⟨i, hi, hbehind⟩ := reads_behind hfits fun _ => 0
  exact absurd ((h _ _ _ (by decide) fun _ => 0).2 i hi) (Nat.not_lt.2 hbehind)

end NetLabs.StopWait
