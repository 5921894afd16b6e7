import Mathlib.Tactic

/-!
# Fixed-size chunks of a list

A list cut into pieces of `size` elements, the last one shorter. The empty list
counts as one empty piece, so that there is always something to send.
-/

namespace Chunks

variable {α : Type} {size : Nat} {xs : List α} {i : Nat}

def count (size length : Nat) : Nat := max ((length + size - 1) / size) 1

def piece (size : Nat) (xs : List α) (i : Nat) : List α := (xs.drop (i * size)).take size

theorem length_piece : (piece size xs i).length = min size (xs.length - i * size) := by
  simp [piece]

theorem count_pos (size length : Nat) : 0 < count size length := by
  unfold count
  omega

theorem le_count_mul (hs : 0 < size) (length : Nat) : length ≤ count size length * size := by
  have hdiv : length + size - 1 < ((length + size - 1) / size + 1) * size :=
    Nat.lt_mul_of_div_lt (Nat.lt_succ_self _) hs
  have hmax : (length + size - 1) / size * size ≤ count size length * size :=
    Nat.mul_le_mul_right _ (le_max_left _ _)
  rw [Nat.add_mul] at hdiv
  omega

theorem mul_le_of_lt_count (hi : i < count size length) : i * size ≤ length := by
  rcases Nat.eq_zero_or_pos size with rfl | hs
  · simp
  rcases Nat.eq_zero_or_pos i with rfl | hpos
  · simp
  have hlt : i + 1 ≤ (length + size - 1) / size := by
    unfold count at hi
    omega
  have hmul : (i + 1) * size ≤ length + size - 1 := (Nat.le_div_iff_mul_le hs).mp hlt
  rw [Nat.add_mul] at hmul
  omega

theorem flatten_range (k : Nat) : ((List.range k).map (piece size xs)).flatten = xs.take
    (k * size) := by
  induction k with
  | zero => simp
  | succ k ih =>
    rw [List.range_succ, List.map_append, List.flatten_append, ih, Nat.add_mul, Nat.one_mul,
      List.take_add]
    simp [piece]

theorem flatten_pieces (hs : 0 < size) :
    ((List.range (count size xs.length)).map (piece size xs)).flatten = xs := by
  rw [flatten_range]
  exact List.take_of_length_le (le_count_mul hs _)

end Chunks
