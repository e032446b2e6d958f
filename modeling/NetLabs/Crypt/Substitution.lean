import NetLabs.Lib.Relabel
import NetLabs.Crypt.Cipher
import Mathlib.Data.Fintype.EquivFin
import Mathlib.Data.Fintype.Basic
import Mathlib.Data.List.FinRange

/-!
# The cipher on a whole file

The loop of the server as it works on its array: `fgets` puts a piece and a NUL over what was there, the inner loop edits the array up to
the NUL with `char`s that have a sign, and `fputs` writes it. For a key of capital letters this is, wherever the reads fall, the
substitution of the alphabet that the key says; and the key of the inverse permutation takes the file back.
-/

namespace NetLabs.Crypt

open CText Lines Relabel

/-! ## The loop -/

/-- A `char` in an expression. -/
def asInt (c : UInt8) : Int := c.toInt8.toInt

/-- An `int` stored in a `char`. -/
def asChar (n : Int) : UInt8 := (Int8.ofInt n).toUInt8

/-- The body of the inner loop. -/
def editByte (key : List UInt8) (c : UInt8) : UInt8 :=
  if asInt c ≥ 65 ∧ asInt c ≤ 90 then key.getD (asInt c - 65).toNat 0
  else if asInt c ≥ 97 ∧ asInt c ≤ 122 then asChar (asInt (key.getD (asInt c - 97).toNat 0) + 97 - 65)
  else c

/-- The inner loop, in place, up to the first NUL of the array. -/
def editBuffer (key : List UInt8) : List UInt8 → List UInt8
  | [] => []
  | c :: cs => if c = 0 then c :: cs else editByte key c :: editBuffer key cs

/-- `fgets` writes a piece and a NUL to the front of the array. -/
def readInto (buffer piece : List UInt8) : List UInt8 := piece ++ 0 :: buffer.drop (piece.length + 1)

/-- What the `while` loop writes, from what the calls of `fgets` return. -/
def encryptionLoop (key : List UInt8) : List UInt8 → List (List UInt8) → List UInt8
  | _, [] => []
  | buffer, piece :: rest =>
    cstr (editBuffer key (readInto buffer piece)) ++ encryptionLoop key (editBuffer key (readInto buffer piece)) rest

/-! ## Keys and what they say -/

/-- A letter of the alphabet as a capital, or as a small letter. -/
def glyph : Bool × Fin 26 → UInt8
  | (false, i) => UInt8.ofNat (65 + i)
  | (true, i) => UInt8.ofNat (97 + i)

/-- A key of 26 capital letters. -/
structure UpperKey where
  letters : List UInt8
  length : letters.length = 26
  upper : ∀ b ∈ letters, 65 ≤ b.toNat ∧ b.toNat ≤ 90

/-- The letter that the key has for a letter. -/
def UpperKey.letter (k : UpperKey) (i : Fin 26) : Fin 26 :=
  have hi : i.val < k.letters.length := by rw [k.length]; exact i.isLt
  have hb := k.upper k.letters[i.val] (List.getElem_mem hi)
  ⟨k.letters[i.val].toNat - 65, by omega⟩

/-- The array of the server with the key in it. -/
def UpperKey.array (k : UpperKey) : List UInt8 := k.letters ++ [0]

/-- What a byte should become: a letter its letter of the key, in its own case, and everything else itself. -/
noncomputable def UpperKey.image (k : UpperKey) : UInt8 → UInt8 := relabel glyph (Prod.map id k.letter)

/-- The key that has for every letter of the other the letter it stands for. -/
def UpperKey.IsInverse (k' k : UpperKey) : Prop := Function.LeftInverse k'.letter k.letter

/-- `A` to `Z`. -/
def alphabet : List UInt8 := List.ofFn fun i : Fin 26 => glyph (false, i)

variable {key buffer piece content : List UInt8} {k k' : UpperKey} {b c : UInt8}

/-! ## The arithmetic of one byte -/

theorem asInt_eq (c : UInt8) : asInt c = if c.toNat < 128 then (c.toNat : Int) else (c.toNat : Int) - 256 := by
  have hcond := BitVec.toInt_eq_toNat_cond c.toBitVec
  rw [UInt8.toNat_toBitVec] at hcond
  rw [asInt, ← Int8.toInt_toBitVec, UInt8.toBitVec_toInt8, hcond]
  have h : 2 * c.toNat < 2 ^ 8 ↔ c.toNat < 128 := by omega
  simp only [h]
  rfl

theorem asChar_add (c : UInt8) (n : Int) : asChar (asInt c + n) = c + asChar n := by
  rw [asChar, asInt, Int8.ofInt_add, Int8.ofInt_toInt, Int8.toUInt8_add, UInt8.toUInt8_toInt8, asChar]

/-- A byte from 128 on is negative and lies in no range of letters. -/
theorem asInt_between (c : UInt8) {lo hi : Nat} (hhi : hi < 128) :
    (asInt c ≥ lo ∧ asInt c ≤ hi) ↔ lo ≤ c.toNat ∧ c.toNat ≤ hi := by
  have hlt := c.toNat_lt
  rw [asInt_eq]
  split <;> omega

theorem editByte_eq (key : List UInt8) (c : UInt8) : editByte key c = substitute key c := by
  have hupper : (asInt c ≥ 65 ∧ asInt c ≤ 90) ↔ 65 ≤ c ∧ c ≤ 90 := by
    rw [UInt8.le_iff_toNat_le, UInt8.le_iff_toNat_le]
    exact asInt_between c (by decide)
  have hlower : (asInt c ≥ 97 ∧ asInt c ≤ 122) ↔ 97 ≤ c ∧ c ≤ 122 := by
    rw [UInt8.le_iff_toNat_le, UInt8.le_iff_toNat_le]
    exact asInt_between c (by decide)
  have hindex : ∀ n : UInt8, n ≤ c → c ≤ 127 → (asInt c - n.toNat).toNat = (c - n).toNat := by
    intro n hn hc
    rw [UInt8.toNat_sub_of_le _ _ hn]
    rw [UInt8.le_iff_toNat_le] at hn hc
    simp only [UInt8.reduceToNat] at hc
    rw [asInt_eq, if_pos (by omega)]
    omega
  unfold editByte substitute
  simp only [hupper, hlower]
  split
  · rename_i h
    exact congrArg (key.getD · 0) (hindex 65 h.1 (UInt8.le_trans h.2 (by decide)))
  · split
    · rename_i h
      have hchar : ∀ d : UInt8, asChar (asInt d + 97 - 65) = d + 32 := by
        intro d
        rw [Int.add_sub_assoc, asChar_add]
        rfl
      rw [hchar]
      exact congrArg (key.getD · 0 + 32) (hindex 97 h.1 (UInt8.le_trans h.2 (by decide)))
    · rfl

/-! ## The array -/

/-- Up to its first NUL the array has the letters replaced. -/
theorem editBuffer_append_zero (key : List UInt8) (x y : List UInt8) :
    ∃ z, editBuffer key (x ++ 0 :: y) = (cstr x).map (substitute key) ++ 0 :: z := by
  induction x with
  | nil => exact ⟨y, by simp [editBuffer, cstr]⟩
  | cons c cs ih =>
    by_cases hc : c = 0
    · exact ⟨cs ++ 0 :: y, by simp [editBuffer, cstr, hc]⟩
    · obtain ⟨z, hz⟩ := ih
      have hcstr : cstr (c :: cs) = c :: cstr cs := by simp [cstr, hc]
      refine ⟨z, ?_⟩
      rw [hcstr, List.cons_append, editBuffer, if_neg hc, hz, editByte_eq]
      rfl

/-- `fputs` writes the piece with its letters replaced, whatever was in the array. -/
theorem cstr_editBuffer (key buffer piece : List UInt8) : cstr (editBuffer key (readInto buffer piece)) = encryptPiece key piece := by
  obtain ⟨z, hz⟩ := editBuffer_append_zero key piece (buffer.drop (piece.length + 1))
  rw [readInto, hz, encryptPiece, cstr_append_nul]

/-- The loop on its array is the encryption piece by piece. -/
theorem encryptionLoop_eq (key buffer : List UInt8) (pieces : List (List UInt8)) :
    encryptionLoop key buffer pieces = pieces.flatMap (encryptPiece key) := by
  induction pieces generalizing buffer with
  | nil => rfl
  | cons piece rest ih => rw [encryptionLoop, cstr_editBuffer, ih, List.flatMap_cons]

/-! ## What the key says -/

theorem toNat_glyph (small : Bool) (i : Fin 26) : (glyph (small, i)).toNat = (if small then 97 else 65) + i := by
  have hi := i.isLt
  cases small
  · exact UInt8.toNat_ofNat_of_lt' (by rw [UInt8.size]; omega)
  · exact UInt8.toNat_ofNat_of_lt' (by rw [UInt8.size]; omega)

theorem glyph_injective : Function.Injective glyph := by
  intro x y h
  obtain ⟨small, i⟩ := x
  obtain ⟨small', j⟩ := y
  have hi := i.isLt
  have hj := j.isLt
  have hnat := congrArg UInt8.toNat h
  rw [toNat_glyph, toNat_glyph] at hnat
  cases small <;> cases small' <;> simp only [Bool.false_eq_true, if_true, if_false] at hnat
  · rw [Fin.ext (show i.val = j.val by omega)]
  · omega
  · omega
  · rw [Fin.ext (show i.val = j.val by omega)]

/-- The capitals are the bytes of one range, the small letters those of the other. -/
theorem exists_glyph (small : Bool) (b : UInt8) :
    (∃ i, glyph (small, i) = b) ↔ (if small then 97 else 65) ≤ b.toNat ∧ b.toNat ≤ (if small then 122 else 90) := by
  constructor
  · rintro ⟨i, rfl⟩
    have hi := i.isLt
    rw [toNat_glyph]
    cases small <;> simp only [Bool.false_eq_true, if_true, if_false] <;> omega
  · intro h
    refine ⟨⟨b.toNat - if small then 97 else 65, ?_⟩, UInt8.toNat_inj.1 ?_⟩
    · cases small <;> simp only [Bool.false_eq_true, if_true, if_false] at h ⊢ <;> omega
    · rw [toNat_glyph]
      cases small <;> simp only [Bool.false_eq_true, if_true, if_false] at h ⊢ <;> omega

theorem getElem_letters (k : UpperKey) (i : Fin 26) (h : i.val < k.letters.length) : k.letters[i.val] = glyph (false, k.letter i) := by
  have hb := k.upper _ (List.getElem_mem h)
  apply UInt8.toNat_inj.1
  rw [toNat_glyph, UpperKey.letter]
  simp only [Bool.false_eq_true, if_false]
  omega

theorem getD_array (k : UpperKey) (i : Fin 26) : k.array.getD i 0 = glyph (false, k.letter i) := by
  have hi : i.val < k.letters.length := by rw [k.length]; exact i.isLt
  rw [UpperKey.array, List.getD_eq_getElem?_getD, List.getElem?_append_left hi, List.getElem?_eq_getElem hi, Option.getD_some,
    getElem_letters]

/-- The code finds a letter of the key by the place of the byte in its range. -/
theorem getD_array_glyph (k : UpperKey) (small : Bool) (i : Fin 26) :
    k.array.getD (glyph (small, i) - if small then 97 else 65).toNat 0 = glyph (false, k.letter i) := by
  have hindex : (glyph (small, i) - if small then 97 else 65).toNat = i := by
    rw [UInt8.toNat_sub_of_le, toNat_glyph]
    · cases small <;> exact Nat.add_sub_cancel_left _ _
    · rw [UInt8.le_iff_toNat_le, toNat_glyph]
      cases small <;> exact Nat.le_add_right _ _
  rw [hindex, getD_array]

/-- The small letter is 32 behind its capital. -/
theorem glyph_small (i : Fin 26) : glyph (false, i) + 32 = glyph (true, i) := by
  have hi := i.isLt
  apply UInt8.toNat_inj.1
  rw [UInt8.toNat_add, toNat_glyph, toNat_glyph]
  simp only [Bool.false_eq_true, if_true, if_false, UInt8.reduceToNat]
  omega

/-- With a key of capitals the code substitutes as the key says. -/
theorem substitute_array (k : UpperKey) (b : UInt8) : substitute k.array b = k.image b := by
  have hupper : 65 ≤ b ∧ b ≤ 90 ↔ ∃ i, glyph (false, i) = b := by
    rw [UInt8.le_iff_toNat_le, UInt8.le_iff_toNat_le]
    exact (exists_glyph false b).symm
  have hlower : 97 ≤ b ∧ b ≤ 122 ↔ ∃ i, glyph (true, i) = b := by
    rw [UInt8.le_iff_toNat_le, UInt8.le_iff_toNat_le]
    exact (exists_glyph true b).symm
  unfold substitute
  simp only [hupper, hlower]
  split
  · rename_i h
    obtain ⟨i, rfl⟩ := h
    rw [UpperKey.image, relabel_letter glyph_injective]
    exact getD_array_glyph k false i
  · rename_i hcapital
    split
    · rename_i h
      obtain ⟨i, rfl⟩ := h
      rw [UpperKey.image, relabel_letter glyph_injective]
      exact (congrArg (· + 32) (getD_array_glyph k true i)).trans (glyph_small _)
    · rename_i hsmall
      refine (relabel_other _ ?_).symm
      rintro ⟨small, i⟩ hi
      cases small
      · exact hcapital ⟨i, hi⟩
      · exact hsmall ⟨i, hi⟩

/-- The key writes no NUL. -/
theorem image_ne_zero (k : UpperKey) (h : b ≠ 0) : k.image b ≠ 0 := by
  have hzero : ∀ x, glyph x ≠ 0 := by
    rintro ⟨small, i⟩ hx
    have := congrArg UInt8.toNat hx
    rw [toNat_glyph] at this
    cases small <;> simp at this
  exact fun himage => h (relabel_eq_other glyph_injective hzero himage)

theorem zero_not_mem_image (k : UpperKey) (h : (0 : UInt8) ∉ content) : (0 : UInt8) ∉ content.map k.image := by
  intro hz
  obtain ⟨b, hb, himage⟩ := List.mem_map.1 hz
  exact image_ne_zero k (fun hb0 => h (hb0 ▸ hb)) himage

/-- However a file without a NUL is read in pieces, what is written is its image under the key. -/
theorem encryptionLoop_image (k : UpperKey) (buffer : List UInt8) {pieces : List (List UInt8)} (h : (0 : UInt8) ∉ pieces.flatten) :
    encryptionLoop k.array buffer pieces = pieces.flatten.map k.image := by
  have hsub : substitute k.array = k.image := funext (substitute_array k)
  have hpieces : ∀ piece ∈ pieces, encryptPiece k.array piece = piece.map k.image := by
    intro piece hp
    rw [encryptPiece_eq, hsub]
    rw [hsub]
    exact zero_not_mem_image k fun hz => h (List.mem_flatten_of_mem hp hz)
  rw [encryptionLoop_eq, List.flatMap_def, List.map_congr_left hpieces, ← List.map_flatten]

/-! ## Permutations -/

/-- A key that is a permutation of the alphabet has two letters for two letters. -/
theorem letter_bijective (h : k.letters.Perm alphabet) : Function.Bijective k.letter := by
  have hnodup : alphabet.Nodup :=
    List.nodup_ofFn.2 fun i j hij => (Prod.mk.inj (glyph_injective hij)).2
  have hletters : k.letters.Nodup := h.nodup_iff.2 hnodup
  refine Finite.injective_iff_bijective.1 ?_
  intro i j hij
  have hi : i.val < k.letters.length := by rw [k.length]; exact i.isLt
  have hj : j.val < k.letters.length := by rw [k.length]; exact j.isLt
  have hget : k.letters[i.val] = k.letters[j.val] := by rw [getElem_letters, getElem_letters, hij]
  exact Fin.ext (hletters.getElem_inj_iff.1 hget)

/-- A substitution of the alphabet as a key. -/
def UpperKey.ofLetter (σ : Fin 26 → Fin 26) : UpperKey where
  letters := List.ofFn fun i => glyph (false, σ i)
  length := List.length_ofFn
  upper := by
    intro b hb
    obtain ⟨i, hi⟩ := List.mem_ofFn.1 hb
    exact (exists_glyph false b).1 ⟨σ i, hi⟩

theorem letter_ofLetter (σ : Fin 26 → Fin 26) : (UpperKey.ofLetter σ).letter = σ := by
  funext i
  have hget := getElem_letters (UpperKey.ofLetter σ) i (by rw [UpperKey.length]; exact i.isLt)
  have hof : glyph (false, σ i) = glyph (false, (UpperKey.ofLetter σ).letter i) := by
    have hlist : (UpperKey.ofLetter σ).letters = List.ofFn fun i => glyph (false, σ i) := rfl
    rw [← hget]
    simp only [hlist, List.getElem_ofFn]
  exact (Prod.mk.inj (glyph_injective hof)).2.symm

/-- The inverse permutation is a key again. -/
theorem exists_inverse (h : k.letters.Perm alphabet) : ∃ k' : UpperKey, k'.letters.Perm alphabet ∧ k'.IsInverse k := by
  let π : Equiv.Perm (Fin 26) := Equiv.ofBijective k.letter (letter_bijective h)
  refine ⟨UpperKey.ofLetter π.symm, ?_, ?_⟩
  · exact Equiv.Perm.ofFn_comp_perm π.symm fun i => glyph (false, i)
  · intro i
    rw [letter_ofLetter]
    exact π.symm_apply_apply i

theorem image_inverse (h : k'.IsInverse k) (content : List UInt8) : (content.map k.image).map k'.image = content := by
  refine map_relabel_leftInverse glyph_injective ?_ content
  rintro ⟨small, i⟩
  exact congrArg (small, ·) (h i)

/-- The encrypted file is the file with every letter replaced as the key says, wherever the reads fall; and for a key that permutes the
alphabet there is the key of the inverse permutation, with which the same loop gives the file back. -/
theorem encryptionLoop_inverts (k : UpperKey) (buffer content : List UInt8) (h : (0 : UInt8) ∉ content) :
    encryptionLoop k.array buffer (fgets 99 content) = content.map k.image ∧
      (∀ pieces : List (List UInt8), pieces.flatten = content → encryptionLoop k.array buffer pieces = content.map k.image) ∧
      (k.letters.Perm alphabet → ∃ k' : UpperKey, k'.letters.Perm alphabet ∧ k'.IsInverse k) ∧
      ∀ k' : UpperKey, k'.IsInverse k → ∀ buffer' : List UInt8,
        encryptionLoop k'.array buffer' (fgets 99 (encryptionLoop k.array buffer (fgets 99 content))) = content := by
  have hall : ∀ pieces : List (List UInt8), pieces.flatten = content → encryptionLoop k.array buffer pieces = content.map k.image := by
    intro pieces hp
    rw [encryptionLoop_image k buffer (hp ▸ h), hp]
  have hloop := hall _ (flatten_fgets 99 content)
  refine ⟨hloop, hall, exists_inverse, ?_⟩
  intro k' hk' buffer'
  have hnul := zero_not_mem_image k h
  rw [hloop, encryptionLoop_image k' buffer' (by rwa [flatten_fgets]), flatten_fgets, image_inverse hk']

/-- The key that has the alphabet backwards is its own inverse. -/
theorem isInverse_rev : (UpperKey.ofLetter Fin.rev).IsInverse (UpperKey.ofLetter Fin.rev) := by
  intro i
  rw [letter_ofLetter]
  exact Fin.rev_rev i

/-- A line with letters of both cases, a digit and a newline, there and back. -/
theorem encryptionLoop_inverts_rev :
    encryptionLoop (UpperKey.ofLetter Fin.rev).array []
      (fgets 99 (encryptionLoop (UpperKey.ofLetter Fin.rev).array [] (fgets 99 (text "Lab 3\n")))) = text "Lab 3\n" :=
  (encryptionLoop_inverts (UpperKey.ofLetter Fin.rev) [] (text "Lab 3\n") (by decide)).2.2.2 _ isInverse_rev []

end NetLabs.Crypt
