import NetLabs.Lib.Lines

/-!
# The substitution cipher

The server reads the file it has received with `fgets`, replaces the letters in the buffer and writes the buffer with `fputs`. Unless
a byte becomes NUL, this is the file with every byte replaced, wherever the reads fall.
-/

namespace NetLabs.Crypt

open CText Lines

/-- What becomes of a byte: a letter is replaced by the key's, in its own case. -/
def substitute (key : List UInt8) (b : UInt8) : UInt8 :=
  if 65 ≤ b ∧ b ≤ 90 then key.getD (b - 65).toNat 0
  else if 97 ≤ b ∧ b ≤ 122 then key.getD (b - 97).toNat 0 + 32
  else b

/-- What is written of one piece: the loop goes up to the first NUL of the buffer, and so does `fputs`. -/
def encryptPiece (key piece : List UInt8) : List UInt8 := cstr ((cstr piece).map (substitute key))

/-- The encrypted file, read with a buffer of 100 bytes. -/
def encryptFile (key content : List UInt8) : List UInt8 := (fgets 99 content).flatMap (encryptPiece key)

variable {key key' content : List UInt8}

/-- A NUL is no letter. -/
theorem substitute_zero (key : List UInt8) : substitute key 0 = 0 := rfl

theorem encryptPiece_eq {piece : List UInt8} (h : (0 : UInt8) ∉ piece.map (substitute key)) :
    encryptPiece key piece = piece.map (substitute key) := by
  have hpiece : (0 : UInt8) ∉ piece := fun hz => h (substitute_zero key ▸ List.mem_map_of_mem hz)
  rw [encryptPiece, cstr_of_not_mem hpiece, cstr_of_not_mem h]

/-- Without a NUL in it, the encrypted file is the file with every byte replaced. -/
theorem encryptFile_eq (h : (0 : UInt8) ∉ content.map (substitute key)) :
    encryptFile key content = content.map (substitute key) := by
  have hpieces : ∀ piece ∈ fgets 99 content, encryptPiece key piece = piece.map (substitute key) := by
    intro piece hp
    refine encryptPiece_eq fun hz => h ?_
    rw [← flatten_fgets 99 content, List.map_flatten]
    exact List.mem_flatten_of_mem (List.mem_map_of_mem hp) hz
  rw [encryptFile, List.flatMap_def, List.map_congr_left hpieces, ← List.map_flatten, flatten_fgets]

/-- Only the 26 letters of the key count. -/
theorem substitute_take (h : key.take 26 = key'.take 26) : substitute key = substitute key' := by
  have hget : ∀ i < 26, key.getD i 0 = key'.getD i 0 := by
    intro i hi
    rw [List.getD_eq_getElem?_getD, List.getD_eq_getElem?_getD, ← List.getElem?_take_of_lt hi, h, List.getElem?_take_of_lt hi]
  funext b
  unfold substitute
  split
  · rename_i hb
    refine hget _ ?_
    have h65 := UInt8.le_iff_toNat_le.1 hb.1
    have h90 := UInt8.le_iff_toNat_le.1 hb.2
    rw [UInt8.toNat_sub_of_le _ _ hb.1]
    simp only [UInt8.reduceToNat] at *
    omega
  · split
    · rename_i hb
      rw [hget]
      have h97 := UInt8.le_iff_toNat_le.1 hb.1
      have h122 := UInt8.le_iff_toNat_le.1 hb.2
      rw [UInt8.toNat_sub_of_le _ _ hb.1]
      simp only [UInt8.reduceToNat] at *
      omega
    · rfl

end NetLabs.Crypt
