import NetLabs.Cldp.Client
import NetLabs.Cldp.Server

/-!
# Packets that end early

Neither program looks at the number of bytes it has received. So each is right about the packets that have all the fields it reads, and
what it reads depends on the fields before: `Server.Complete` and `Client.Complete` say which packets these are. With any other packet a
program reads what an earlier one has left in the buffer.
-/

namespace NetLabs.Cldp

open Buffer Prog CText

/-- The fields the server reads are within the packet. -/
def Server.Complete (s : Server) (l : List UInt8) : Prop :=
  10 ≤ l.length ∧ (l.getD 9 0 = cldpProtocol → 20 ≤ l.length ∧
    (Verifies l → 21 ≤ l.length ∧ (l.getD 20 0 = queryType → addrAt l 16 = s.ip → 29 ≤ l.length)))

/-- The fields the client reads are within the packet. -/
def Client.Complete (c : Client) (l : List UInt8) : Prop :=
  20 ≤ l.length ∧ (addrAt l 16 = c.ip → l.getD 9 0 = cldpProtocol → Verifies l → 24 ≤ l.length ∧
    (addrAt l 12 ≠ c.ip → addrAt l 12 ∈ c.nodes.map Node.addr → l.getD 20 0 = responseType →
      l.getD 21 0 = 0 ∨ 28 + (l.getD 21 0).toNat ≤ l.length))

variable {α : Type} {f : UInt8 → Prog α} {l : List UInt8} {i n : Nat}

/-! ## How far a program gets on the packet alone -/

theorem isSome_byte : (((byte i >>= f).runKnown (only l)).isSome = true) ↔
    i < l.length ∧ ((f (l.getD i 0)).runKnown (only l)).isSome = true := by
  rw [runKnown_bind]
  by_cases hi : i < l.length
  · rw [byte_known (holds_only l) hi, Option.bind_some, and_iff_right hi]
  · rw [byte_unknown (by omega)]
    simp [hi]

theorem isSome_loadNet {f : UInt16 → Prog α} : (((loadNet i >>= f).runKnown (only l)).isSome = true) ↔
    i + 2 ≤ l.length ∧ ((f (netAt l i)).runKnown (only l)).isSome = true := by
  rw [runKnown_bind]
  by_cases hi : i + 2 ≤ l.length
  · rw [loadNet_known (holds_only l) hi, Option.bind_some, and_iff_right hi]
  · rw [loadNet_unknown (by omega)]
    simp [hi]

theorem isSome_loadAddr {f : Addr → Prog α} : (((loadAddr i >>= f).runKnown (only l)).isSome = true) ↔
    i + 4 ≤ l.length ∧ ((f (addrAt l i)).runKnown (only l)).isSome = true := by
  rw [runKnown_bind]
  by_cases hi : i + 4 ≤ l.length
  · rw [loadAddr_known (holds_only l) hi, Option.bind_some, and_iff_right hi]
  · rw [loadAddr_unknown (by omega)]
    simp [hi]

theorem isSome_headerVerifies {f : Bool → Prog α} : (((headerVerifies >>= f).runKnown (only l)).isSome = true) ↔
    20 ≤ l.length ∧ ((f (decide (Verifies l))).runKnown (only (putWord l 10 0))).isSome = true := by
  rw [runKnown_bind]
  by_cases hl : 20 ≤ l.length
  · rw [headerVerifies_known hl, Option.bind_some, and_iff_right hl]
  · rw [headerVerifies_unknown (by omega)]
    simp [hl]

/-- Reading nothing is always possible. -/
theorem isSome_bytes {f : List UInt8 → Prog α} : (((bytes i n >>= f).runKnown (only l)).isSome = true) ↔
    (n = 0 ∨ i + n ≤ l.length) ∧ ((f ((l.drop i).take n)).runKnown (only l)).isSome = true := by
  rw [runKnown_bind]
  by_cases hn : n = 0
  · subst hn
    rw [List.take_zero, and_iff_right (Or.inl rfl)]
    rfl
  · by_cases hi : i + n ≤ l.length
    · rw [runKnown_bytes (holds_only l) hi, Option.bind_some, and_iff_right (Or.inr hi)]
    · rw [bytes_unknown (by omega) (by omega)]
      simp [hn, hi]

/-- A test that ends the program. -/
theorem isSome_unless {t : Prop} [Decidable t] {a : α} {p : Prog α} :
    (((if t then pure a else p).runKnown (only l)).isSome = true) ↔ (¬t → (p.runKnown (only l)).isSome = true) := by
  by_cases ht : t
  · rw [if_pos ht, runKnown_pure]
    simp [ht]
  · rw [if_neg ht]
    simp [ht]

theorem isSome_when {t : Prop} [Decidable t] {a : α} {p : Prog α} :
    (((if t then p else pure a).runKnown (only l)).isSome = true) ↔ (t → (p.runKnown (only l)).isSome = true) := by
  rw [← ite_not, isSome_unless, not_not]

/-! ## The server -/

theorem isSome_answer (s : Server) (host : Host) (id : UInt16) :
    (((s.answer host id).runKnown (only l)).isSome = true) ↔ 29 ≤ l.length := by
  constructor
  · intro h
    rw [Server.answer, isSome_byte] at h
    exact h.1
  · intro hl
    obtain ⟨s', known', hanswer⟩ := answer_known s host id (holds_only l) hl
    rw [hanswer]
    rfl

/-- The server goes through on a packet alone when the packet is complete for it. -/
theorem handle_isSome_iff (s : Server) (host : Host) (id : UInt16) :
    ((s.handle host id).runKnown (only l)).isSome = true ↔ s.Complete l := by
  rw [Server.handle, isSome_byte, isSome_unless, isSome_headerVerifies, isSome_unless, isSome_byte, isSome_unless, isSome_loadAddr,
    isSome_unless, isSome_answer, length_putWord, getD_putWord (by decide), addrAt_putWord (by decide), not_not, not_not, not_not,
    decide_eq_false_iff_not, not_not]
  constructor
  · rintro ⟨h10, h⟩
    refine ⟨h10, fun hp => ?_⟩
    obtain ⟨h20, h⟩ := h hp
    refine ⟨h20, fun hv => ?_⟩
    obtain ⟨h21, h⟩ := h hv
    exact ⟨h21, fun ht hd => (h ht).2 hd.symm⟩
  · rintro ⟨h10, h⟩
    refine ⟨h10, fun hp => ?_⟩
    obtain ⟨h20, h⟩ := h hp
    refine ⟨h20, fun hv => ?_⟩
    obtain ⟨h21, h⟩ := h hv
    exact ⟨h21, fun ht => ⟨h20, fun hd => h ht hd.symm⟩⟩

/-! ## The client -/

/-- The client goes through on a packet alone when the packet is complete for it. -/
theorem processResponse_isSome_iff (c : Client) : (c.processResponse.runKnown (only l)).isSome = true ↔ c.Complete l := by
  have hpure : ∀ (a : List Output) known, ((pure a : Prog (List Output)).runKnown known).isSome = true ↔ True := by
    intro a known
    rw [runKnown_pure, Option.isSome_some, eq_self]
  have hzero : (l.getD 21 0).toNat = 0 ↔ l.getD 21 0 = 0 := UInt8.toNat_inj (b := 0)
  rw [Client.processResponse, isSome_loadAddr, isSome_unless, isSome_byte, isSome_unless, isSome_headerVerifies, isSome_unless,
    isSome_loadAddr, isSome_byte, isSome_byte, isSome_loadNet, isSome_unless, isSome_unless, isSome_when, isSome_bytes, hpure, and_true,
    length_putWord, addrAt_putWord (by decide), getD_putWord (by decide), getD_putWord (by decide), decide_eq_false_iff_not, not_not,
    not_not, not_not, not_not, hzero]
  constructor
  · rintro ⟨h20, h⟩
    refine ⟨h20, fun hd hp hv => ?_⟩
    obtain ⟨-, -, -, h24, h⟩ := (h hd).2 hp |>.2 hv
    exact ⟨h24, fun hs hn ht => h (Ne.symm hs) hn ht⟩
  · rintro ⟨h20, h⟩
    refine ⟨h20, fun hd => ⟨by omega, fun hp => ⟨h20, fun hv => ?_⟩⟩⟩
    obtain ⟨h24, h⟩ := h hd hp hv
    exact ⟨by omega, by omega, by omega, h24, fun hs hn ht => h (Ne.symm hs) hn ht⟩

/-! ## Every packet -/

/-- What the server and the client do with a packet depends on the packet alone exactly when it is complete for them. -/
theorem readsOnly_iff_complete (s : Server) (host : Host) (id : UInt16) (c : Client) (packet : List UInt8) :
    (ReadsOnly (s.handle host id) packet ↔ s.Complete packet) ∧ (ReadsOnly c.processResponse packet ↔ c.Complete packet) := by
  constructor
  · rw [readsOnly_iff, handle_isSome_iff]
  · rw [readsOnly_iff, processResponse_isSome_iff]

/-- An IP packet from 127.0.0.2 to 127.0.0.1 that ends with its header. -/
def headerOnly : List UInt8 :=
  (cldpPacket 20 7 ⟨127, 0, 0, 2⟩ ⟨127, 0, 0, 1⟩ queryType 1 9 []).take 20

/-- Where an earlier packet has been, a query for another server, it is answered like a query; in a buffer that has not been used it is
not. -/
theorem headerOnly_answered :
    ¬ReadsOnly ((⟨⟨127, 0, 0, 1⟩, 0⟩ : Server).handle ⟨invalidQuery, invalidQuery, invalidQuery⟩ 5) headerOnly := by
  intro h
  have hsame := h.1 (overlay (cldpPacket 29 7 ⟨127, 0, 0, 2⟩ ⟨127, 0, 0, 9⟩ queryType 1 9 [1]) fun _ => 0) fun _ => 0
  have hfirst : (((⟨⟨127, 0, 0, 1⟩, 0⟩ : Server).handle ⟨invalidQuery, invalidQuery, invalidQuery⟩ 5).run (overlay headerOnly
    (overlay (cldpPacket 29 7 ⟨127, 0, 0, 2⟩ ⟨127, 0, 0, 9⟩ queryType 1 9 [1]) fun _ => 0))).2.isSome = true := by decide +kernel
  have hsecond : (((⟨⟨127, 0, 0, 1⟩, 0⟩ : Server).handle ⟨invalidQuery, invalidQuery, invalidQuery⟩ 5).run (overlay headerOnly
    fun _ => 0)).2.isSome = false := by decide +kernel
  rw [hsame, hsecond] at hfirst
  cases hfirst

end NetLabs.Cldp
