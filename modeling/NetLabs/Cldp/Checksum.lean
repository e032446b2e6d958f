import NetLabs.Cldp.Packet
import NetLabs.Lib.EndAround

/-!
# What the checksum is and what it finds

`calculate_checksum` adds up the words of a buffer in 32 bits and folds the carries in afterwards. For a buffer of at most 131070 bytes
nothing is lost on the way, and two folds are enough: the result is the complement of the sum with end-around carry. A header with one
word changed is accepted only if the word is the same modulo 65535.
-/

namespace NetLabs.Cldp

open Buffer Prog EndAround

/-! ## What it should be -/

/-- The words of a buffer; a last single byte is one. -/
def words : List UInt8 → List UInt16
  | lo :: hi :: rest => word lo hi :: words rest
  | [b] => [b.toUInt16]
  | [] => []

/-- The sum of words. -/
def wordSum (ws : List UInt16) : Nat := (ws.map UInt16.toNat).sum

/-- The sum of words with end-around carry. -/
def onesSum (ws : List UInt16) : Nat := sumCarry 65536 (ws.map UInt16.toNat)

/-- A header with its checksum filled in, as the senders do it. -/
def fillChecksum (header : List UInt8) : List UInt8 := putWord header 10 (calculateChecksum (putWord header 10 0))

/-- The receivers refuse every packet with this header, whatever the rest of the buffer holds. -/
def Refused (header : List UInt8) : Prop := ∀ rest before, headerVerifies.run (overlay (header ++ rest) before) = false

variable {b l header : List UInt8} {ws : List UInt16} {acc : UInt32} {x w : UInt16} {k : Nat}

/-! ## The accumulator -/

theorem wordSum_cons (x : UInt16) (ws : List UInt16) : wordSum (x :: ws) = x.toNat + wordSum ws := by
  rw [wordSum, List.map_cons, List.sum_cons, wordSum]

/-- Half as many words as bytes, a last single byte counted as one. -/
theorem wordSum_words_le (b : List UInt8) : wordSum (words b) ≤ 65535 * ((b.length + 1) / 2) := by
  induction b using words.induct with
  | case1 lo hi rest ih =>
    have hword := (word lo hi).toNat_lt
    rw [words, wordSum_cons, List.length_cons, List.length_cons]
    omega
  | case2 b =>
    have hword := b.toUInt16.toNat_lt
    have hnil : wordSum [] = 0 := rfl
    rw [words, wordSum_cons, hnil, List.length_singleton]
    omega
  | case3 => exact Nat.zero_le _

theorem wordSum_words_lt (h : b.length ≤ 131070) : wordSum (words b) < 2 ^ 32 := by
  have hle := wordSum_words_le b
  omega

/-- While the sum of the words fits in 32 bits the accumulator is that sum. -/
theorem toNat_sumWords (h : acc.toNat + wordSum (words b) < 2 ^ 32) : (sumWords b acc).toNat = acc.toNat + wordSum (words b) := by
  induction b using words.induct generalizing acc with
  | case1 lo hi rest ih =>
    rw [words, wordSum_cons] at h ⊢
    have hacc : (acc + (word lo hi).toUInt32).toNat = acc.toNat + (word lo hi).toNat := by
      rw [UInt32.toNat_add, UInt16.toNat_toUInt32, Nat.mod_eq_of_lt (by omega)]
    rw [sumWords, ih (by rw [hacc]; omega), hacc, Nat.add_assoc]
  | case2 b =>
    have hone : wordSum (words [b]) = b.toNat := by
      rw [words, wordSum_cons, UInt8.toNat_toUInt16]
      rfl
    rw [hone] at h ⊢
    rw [sumWords, UInt32.toNat_add, UInt8.toNat_toUInt32, Nat.mod_eq_of_lt h]
  | case3 => rfl

/-- The accumulator does not overflow. -/
theorem toNat_sumWords_zero (h : b.length ≤ 131070) : (sumWords b 0).toNat = wordSum (words b) := by
  have hzero : (0 : UInt32).toNat + wordSum (words b) < 2 ^ 32 := by
    have := wordSum_words_lt h
    simpa using this
  rw [toNat_sumWords hzero]
  exact Nat.zero_add _

/-! ## The folds -/

theorem toNat_high (s : UInt32) : (s >>> 16).toNat = s.toNat / 65536 := by
  rw [UInt32.toNat_shiftRight]
  exact Nat.shiftRight_eq_div_pow _ 16

theorem toNat_low (s : UInt32) : (s &&& 0xFFFF).toNat = s.toNat % 65536 := by
  rw [UInt32.toNat_and]
  exact Nat.and_two_pow_sub_one_eq_mod _ 16

theorem toNat_firstFold (s : UInt32) : ((s >>> 16) + (s &&& 0xFFFF)).toNat = fold 65536 s.toNat := by
  have hs := s.toNat_lt
  rw [UInt32.toNat_add, toNat_high, toNat_low, fold]
  omega

/-- What is left above 16 bits after the second fold is cut off. -/
theorem toNat_secondFold (s : UInt32) (h : s.toNat < 131071) : (s + (s >>> 16)).toNat % 65536 = fold 65536 s.toNat := by
  rw [fold_eq_mod h, UInt32.toNat_add, toNat_high]
  omega

theorem lt_of_mem_map_toNat : ∀ n ∈ ws.map UInt16.toNat, n < 65536 := by
  intro n hn
  obtain ⟨w, -, rfl⟩ := List.mem_map.1 hn
  exact w.toNat_lt

/-- The result is the complement of the sum with end-around carry. -/
theorem toNat_calculateChecksum (h : b.length ≤ 131070) : (calculateChecksum b).toNat = 65535 - onesSum (words b) := by
  have hsum := toNat_sumWords_zero h
  have hlt : wordSum (words b) < 65536 * 65536 := wordSum_words_lt h
  have hfirst := toNat_firstFold (sumWords b 0)
  rw [hsum] at hfirst
  have hsecond := toNat_secondFold ((sumWords b 0 >>> 16) + (sumWords b 0 &&& 0xFFFF)) (by rw [hfirst]; exact fold_lt_two_mul hlt)
  rw [hfirst, wordSum, fold_fold_eq lt_of_mem_map_toNat hlt, ← onesSum] at hsecond
  unfold calculateChecksum
  rw [UInt32.toUInt16_not, UInt16.toNat_not, UInt32.toNat_toUInt16, ← hsecond]
  rfl

/-! ## One word changed -/

/-- The words of a buffer, by their place in it. -/
theorem getElem?_words (h : 2 * k + 1 < l.length) : (words l)[k]? = some (wordAt l (2 * k)) := by
  induction l using words.induct generalizing k with
  | case1 lo hi rest ih =>
    cases k with
    | zero => rfl
    | succ k =>
      rw [List.length_cons, List.length_cons] at h
      rw [words, List.getElem?_cons_succ, ih (by omega)]
      rfl
  | case2 b =>
    rw [List.length_singleton] at h
    omega
  | case3 => cases h

/-- A word is stored at its place. -/
theorem words_putWord (h : 2 * k + 1 < l.length) : words (putWord l (2 * k) x) = (words l).set k x := by
  induction l using words.induct generalizing k with
  | case1 lo hi rest ih =>
    cases k with
    | zero =>
      have hput : putWord (lo :: hi :: rest) (2 * 0) x = loByte x :: hiByte x :: rest := rfl
      rw [hput, words, word_lo_hi]
      rfl
    | succ k =>
      have hput : putWord (lo :: hi :: rest) (2 * (k + 1)) x = lo :: hi :: putWord rest (2 * k) x := rfl
      rw [List.length_cons, List.length_cons] at h
      rw [hput, words, ih (by omega)]
      rfl
  | case2 b =>
    rw [List.length_singleton] at h
    omega
  | case3 => cases h

/-- A list of numbers with one changed. -/
theorem sum_set {ns : List Nat} {m n : Nat} (h : ns[k]? = some m) : (ns.set k n).sum + m = ns.sum + n := by
  induction ns generalizing k with
  | nil => cases h
  | cons a ns ih =>
    cases k with
    | zero =>
      cases h
      rw [List.set_cons_zero, List.sum_cons, List.sum_cons]
      omega
    | succ k =>
      have := ih (k := k) h
      rw [List.set_cons_succ, List.sum_cons, List.sum_cons]
      omega

theorem onesSum_lt (ws : List UInt16) : onesSum ws < 65536 := (represents_sumCarry lt_of_mem_map_toNat (by decide)).lt

/-- A word that is changed without changing the sum is the same modulo 65535. -/
theorem modEq_of_onesSum_eq (hw : ws[k]? = some w) (h : onesSum (ws.set k x) = onesSum ws) : x.toNat ≡ w.toNat [MOD 65535] := by
  have hmod : wordSum (ws.set k x) ≡ wordSum ws [MOD 65535] := modEq_of_sumCarry_eq lt_of_mem_map_toNat lt_of_mem_map_toNat (by decide) h
  have hget : (ws.map UInt16.toNat)[k]? = some w.toNat := by rw [List.getElem?_map, hw, Option.map_some]
  have hset : wordSum (ws.set k x) + w.toNat = wordSum ws + x.toNat := by
    rw [wordSum, List.map_set]
    exact sum_set hget
  have hadd := hmod.add_right w.toNat
  rw [hset] at hadd
  exact Nat.ModEq.add_left_cancel' _ hadd

/-- A header verifies when the word of the checksum is the complement of the sum of the others. -/
theorem verifies_iff_words (hlen : l.length = 20) (hx : (words l)[5]? = some x) :
    Verifies l ↔ x.toNat = 65535 - onesSum ((words l).set 5 0) := by
  have hword : wordAt l (2 * 5) = x := Option.some.inj ((getElem?_words (by omega)).symm.trans hx)
  have hput : (putWord l (2 * 5) 0).length = 20 := length_putWord.trans hlen
  have hset : words (putWord l (2 * 5) 0) = (words l).set 5 0 := words_putWord (by omega)
  rw [← hset, ← toNat_calculateChecksum (by omega), UInt16.toNat_inj, ← hword, Verifies,
    List.take_of_length_le (by rw [length_putWord, hlen])]

theorem getElem?_words_five (hlen : l.length = 20) : (words l)[5]? = some (wordAt l 10) :=
  getElem?_words (show 2 * 5 + 1 < l.length by omega)

/-- The words of a header with another checksum. -/
theorem words_putWord_ten (hlen : l.length = 20) (x : UInt16) :
    words (putWord l 10 x) = (words l).set 5 x ∧ (words (putWord l 10 x))[5]? = some x := by
  have hwords : words (putWord l 10 x) = (words l).set 5 x := words_putWord (show 2 * 5 + 1 < l.length by omega)
  refine ⟨hwords, ?_⟩
  rw [hwords, List.getElem?_set_self (List.getElem?_eq_some_iff.1 (getElem?_words_five hlen)).1]

theorem verifies_fillChecksum (hlen : header.length = 20) : Verifies (fillChecksum header) := by
  obtain ⟨hwords, hfive⟩ := words_putWord_ten hlen (calculateChecksum (putWord header 10 0))
  have hzero := (words_putWord_ten hlen 0).1
  refine (verifies_iff_words (length_putWord.trans hlen) hfive).2 ?_
  rw [hwords, List.set_set, ← hzero]
  exact toNat_calculateChecksum (by rw [length_putWord, hlen]; decide)

/-- Two headers that verify and differ in one word besides the checksum have the same word modulo 65535. -/
theorem modEq_of_verifies (hlen : l.length = 20) (hv : Verifies l) (hk : k < 10) (hfive : k ≠ 5)
    (hv' : Verifies (putWord l (2 * k) x)) : x.toNat ≡ (wordAt l (2 * k)).toNat [MOD 65535] := by
  have hx := getElem?_words_five hlen
  have hwords : words (putWord l (2 * k) x) = (words l).set k x := words_putWord (by omega)
  have hx' : (words (putWord l (2 * k) x))[5]? = some (wordAt l 10) := by
    rw [hwords, List.getElem?_set_ne hfive, hx]
  rw [verifies_iff_words hlen hx] at hv
  rw [verifies_iff_words (length_putWord.trans hlen) hx', hwords, List.set_comm _ _ hfive] at hv'
  have hword : ((words l).set 5 0)[k]? = some (wordAt l (2 * k)) := by
    rw [List.getElem?_set_ne (Ne.symm hfive), getElem?_words (by omega)]
  have hlt := onesSum_lt ((words l).set 5 0)
  have hlt' := onesSum_lt (((words l).set 5 0).set k x)
  exact modEq_of_onesSum_eq hword (by omega)

/-- Two headers that verify and differ in the checksum at most are the same. -/
theorem eq_of_verifies (hlen : l.length = 20) (hv : Verifies l) (hv' : Verifies (putWord l 10 x)) : x = wordAt l 10 := by
  obtain ⟨hwords, hfive⟩ := words_putWord_ten hlen x
  rw [verifies_iff_words hlen (getElem?_words_five hlen)] at hv
  rw [verifies_iff_words (length_putWord.trans hlen) hfive, hwords, List.set_set] at hv'
  exact UInt16.toNat_inj.1 (hv'.trans hv.symm)

/-- A header that does not verify is refused, whatever comes behind it. -/
theorem refused_of_not_verifies (hlen : header.length = 20) (h : ¬Verifies header) : Refused header := by
  intro rest before
  have hword : wordAt (header ++ rest) 10 = wordAt header 10 := by
    rw [wordAt, wordAt]
    simp only [List.getD_eq_getElem?_getD, List.getElem?_append_left (show 10 < header.length by omega),
      List.getElem?_append_left (show 10 + 1 < header.length by omega)]
  have hput : putWord (header ++ rest) 10 0 = putWord header 10 0 ++ rest := by
    rw [putWord, List.set_append_left _ _ (by omega), List.set_append_left _ _ (by rw [List.length_set]; omega), putWord]
  have htake : (putWord (header ++ rest) 10 0).take 20 = (putWord header 10 0).take 20 := by
    rw [hput, List.take_append_of_le_length (by rw [length_putWord, hlen])]
  have hknown := headerVerifies_known (l := header ++ rest) (by rw [List.length_append]; omega)
  rw [run_overlay hknown before, decide_eq_false_iff_not, Verifies, hword, htake]
  exact h

/-- The checksum of at most 131070 bytes is the complement of the sum of their words with end-around carry, without an overflow on the
way; and of a header that has its checksum filled in, one changed word is found out, except one that is the same modulo 65535. -/
theorem checksum_finds :
    (∀ b : List UInt8, b.length ≤ 131070 → wordSum (words b) < 2 ^ 32 ∧ (sumWords b 0).toNat = wordSum (words b) ∧
      (calculateChecksum b).toNat = 65535 - onesSum (words b)) ∧
    ∀ header : List UInt8, header.length = 20 →
      (∀ k < 10, k ≠ 5 → ∀ x : UInt16, ¬x.toNat ≡ (wordAt (fillChecksum header) (2 * k)).toNat [MOD 65535] →
        Refused (putWord (fillChecksum header) (2 * k) x)) ∧
      ∀ x : UInt16, x ≠ wordAt (fillChecksum header) 10 → Refused (putWord (fillChecksum header) 10 x) := by
  refine ⟨fun b hb => ⟨wordSum_words_lt hb, toNat_sumWords_zero hb, toNat_calculateChecksum hb⟩, ?_⟩
  intro header hlen
  have hfill : (fillChecksum header).length = 20 := length_putWord.trans hlen
  have hv := verifies_fillChecksum hlen
  refine ⟨?_, ?_⟩
  · intro k hk hfive x hx
    exact refused_of_not_verifies (length_putWord.trans hfill) fun hv' => hx (modEq_of_verifies hfill hv hk hfive hv')
  · intro x hx
    exact refused_of_not_verifies (length_putWord.trans hfill) fun hv' => hx (eq_of_verifies hfill hv hv')

/-- A query header with its first word changed. -/
theorem checksum_finds_version :
    Refused (putWord (fillChecksum (ipHeader 28 7 ⟨10, 0, 0, 1⟩ ⟨10, 0, 0, 2⟩ 0)) (2 * 0) 0x46) :=
  (checksum_finds.2 (ipHeader 28 7 ⟨10, 0, 0, 1⟩ ⟨10, 0, 0, 2⟩ 0) rfl).1 0 (by decide) (by decide) 0x46 (by decide)

end NetLabs.Cldp
