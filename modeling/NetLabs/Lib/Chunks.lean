import Mathlib.Data.List.Range
import Mathlib.Data.List.Infix

/-!
# A file read in pieces

`fread` of `n` bytes at a time: the `k`-th piece, the first `k` pieces, and what they make up. The pieces are those of the file in
order, so a beginning of the pieces is determined by how many it has.
-/

namespace NetLabs.Chunks

variable {α : Type*} {n k j : Nat} {content : List α} {l : List (List α)}

/-- The `k`-th piece. -/
def chunk (n : Nat) (content : List α) (k : Nat) : List α := (content.drop (n * k)).take n

/-- The first `k` pieces. -/
def chunks (n : Nat) (content : List α) (k : Nat) : List (List α) := (List.range k).map (chunk n content)

@[simp] theorem length_chunks : (chunks n content k).length = k := by
  rw [chunks, List.length_map, List.length_range]

theorem chunks_succ : chunks n content (k + 1) = chunks n content k ++ [chunk n content k] := by
  rw [chunks, List.range_succ, List.map_append]
  rfl

theorem getElem?_chunks (h : j < k) : (chunks n content k)[j]? = some (chunk n content j) := by
  rw [chunks, List.getElem?_map, List.getElem?_range h]
  rfl

theorem length_chunk_le : (chunk n content k).length ≤ n := List.length_take_le ..

theorem take_chunk : content.take (n * k) ++ chunk n content k = content.take (n * (k + 1)) := by
  rw [chunk, Nat.mul_succ, List.take_add]

/-- A beginning of the pieces. -/
theorem eq_chunks_of_prefix (h : l <+: chunks n content k) : l = chunks n content l.length := by
  have hle : l.length ≤ k := by
    have := h.length_le
    rwa [length_chunks] at this
  conv_lhs => rw [List.prefix_iff_eq_take.1 h]
  rw [chunks, ← List.map_take, List.take_range, Nat.min_eq_left hle]
  rfl

end NetLabs.Chunks
