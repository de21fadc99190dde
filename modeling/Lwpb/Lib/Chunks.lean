/-
A list cut into pieces of one length.

`chunk z xs i` is the `i`-th piece of `z` elements, and there are
`chunkCount z xs` of them that are not empty; the last may be shorter. Pieces
are cut by position, so what happens to them when an element is appended
is a matter of arithmetic: the piece at the end grows by it
(`chunk_append_last`), the others stay (`chunk_append_of_lt`).
-/
import Mathlib.Data.List.Basic

namespace Chunks

variable {α β : Type} {xs ys : List α} {x : α} {z i : Nat}

/-- The `i`-th piece of `z` elements. -/
def chunk (z : Nat) (xs : List α) (i : Nat) : List α :=
  (xs.drop (i * z)).take z

/-- How many pieces there are. -/
def chunkCount (z : Nat) (xs : List α) : Nat := (xs.length + z - 1) / z

theorem lt_chunkCount_iff (hz : 0 < z) :
    i < chunkCount z xs ↔ i * z < xs.length := by
  unfold chunkCount
  rw [Nat.lt_iff_add_one_le, Nat.le_div_iff_mul_le hz, Nat.add_mul,
    Nat.one_mul]
  omega

@[simp] theorem chunkCount_nil (hz : 0 < z) :
    chunkCount z ([] : List α) = 0 := by
  unfold chunkCount
  rw [List.length_nil]
  exact Nat.div_eq_of_lt (by omega)

/-- Full pieces only. -/
theorem chunkCount_full (hz : 0 < z) (h : xs.length = i * z) :
    chunkCount z xs = i := by
  unfold chunkCount
  rw [h, Nat.div_eq_iff hz]
  omega

/-- A last piece with at least one element. -/
theorem chunkCount_last (hz : 0 < z) (hlow : i * z < xs.length)
    (hhigh : xs.length ≤ (i + 1) * z) : chunkCount z xs = i + 1 := by
  rw [Nat.add_mul, Nat.one_mul] at hhigh
  unfold chunkCount
  rw [Nat.div_eq_iff hz, Nat.add_mul, Nat.one_mul]
  omega

theorem chunkCount_mono (xs ys : List α) :
    chunkCount z xs ≤ chunkCount z (xs ++ ys) := by
  unfold chunkCount
  rw [List.length_append]
  exact Nat.div_le_div_right (by omega)

theorem chunk_eq_nil (h : xs.length ≤ i * z) : chunk z xs i = [] := by
  unfold chunk
  rw [List.drop_eq_nil_of_le h, List.take_nil]

/-- A piece that another one follows is full. -/
theorem chunk_full (hz : 0 < z) (h : i + 1 < chunkCount z xs) :
    (chunk z xs i).length = z := by
  rw [lt_chunkCount_iff hz, Nat.add_mul, Nat.one_mul] at h
  unfold chunk
  rw [List.length_take, List.length_drop]
  omega

/-- No piece is empty, and none is too long. -/
theorem chunk_length (hz : 0 < z) (h : i < chunkCount z xs) :
    0 < (chunk z xs i).length ∧ (chunk z xs i).length ≤ z := by
  rw [lt_chunkCount_iff hz] at h
  unfold chunk
  rw [List.length_take, List.length_drop]
  omega

theorem flatMap_chunks (n : Nat) :
    (List.range n).flatMap (chunk z xs) = xs.take (n * z) := by
  induction n with
  | zero => simp
  | succ n ih =>
      rw [List.range_succ, List.flatMap_append, ih, List.flatMap_singleton,
        chunk, ← List.take_add, Nat.add_mul, Nat.one_mul]

/-- The pieces together are the list. -/
theorem flatMap_pieces (hz : 0 < z) :
    (List.range (chunkCount z xs)).flatMap (chunk z xs) = xs := by
  have hall : xs.length ≤ chunkCount z xs * z := by
    have hnot : ¬ chunkCount z xs < chunkCount z xs := Nat.lt_irrefl _
    rw [lt_chunkCount_iff hz] at hnot
    omega
  rw [flatMap_chunks, List.take_of_length_le hall]

-- ================================================================== appending

/-- In front of the end, a piece stays when an element is appended. -/
theorem chunk_append_of_lt (h : (i + 1) * z ≤ xs.length) :
    chunk z (xs ++ ys) i = chunk z xs i := by
  rw [Nat.add_mul, Nat.one_mul] at h
  unfold chunk
  rw [List.drop_append_of_le_length (by omega),
    List.take_append_of_le_length (by rw [List.length_drop]; omega)]

/-- The piece at the end grows. -/
theorem chunk_append_last (hlow : i * z ≤ xs.length)
    (hhigh : xs.length < (i + 1) * z) :
    chunk z (xs ++ [x]) i = chunk z xs i ++ [x] := by
  rw [Nat.add_mul, Nat.one_mul] at hhigh
  unfold chunk
  rw [List.drop_append_of_le_length hlow, List.take_append,
    List.length_drop, List.take_of_length_le (l := [x]) (by
      rw [List.length_singleton]
      omega)]

end Chunks
