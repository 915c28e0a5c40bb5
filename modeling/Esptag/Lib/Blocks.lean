/-
Output assembled from numbered blocks and cut to length: the first `n` elements of
`f 1 ++ f 2 ++ …`, for blocks of one positive size. The cut does not depend on how many blocks are
produced, as long as they reach it, and a shorter output is a prefix of a longer one.
-/
import Mathlib.Tactic

namespace Blocks

variable {α : Type}

/-- The first `k` blocks, in order, counted from 1. -/
def blocks (f : Nat → List α) : Nat → List α
  | 0 => []
  | k + 1 => blocks f k ++ f (k + 1)

/-- How many blocks of size `b` an output of length `n` takes. -/
def count (b n : Nat) : Nat := (n + b - 1) / b

/-- The first `n` elements of the blocks. -/
def output (f : Nat → List α) (b n : Nat) : List α := (blocks f (count b n)).take n

theorem le_count_mul {b : Nat} (hb : 0 < b) (n : Nat) : n ≤ b * count b n := by
  have h1 := Nat.div_add_mod (n + b - 1) b
  have h2 := Nat.mod_lt (n + b - 1) hb
  unfold count
  omega

theorem count_mul_lt {b : Nat} (hb : 0 < b) (n : Nat) : b * count b n < n + b := by
  have := Nat.mul_div_le (n + b - 1) b
  unfold count
  omega

/-- The blocks before the last one are full. -/
theorem mul_lt_of_lt_count {b n k : Nat} (hb : 0 < b) (hk : k < count b n) : b * k < n := by
  have h := count_mul_lt hb n
  have : b * (k + 1) ≤ b * count b n := Nat.mul_le_mul_left b hk
  rw [Nat.mul_succ] at this
  omega

section

variable {f : Nat → List α} {b : Nat} (hf : ∀ i, (f (i + 1)).length = b)
include hf

theorem length_blocks (k : Nat) : (blocks f k).length = b * k := by
  induction k with
  | zero => rfl
  | succ k ih => rw [blocks, List.length_append, ih, hf, Nat.mul_succ]

/-- Blocks past the cut do not show. -/
theorem take_blocks_add {n k : Nat} (h : n ≤ b * k) (j : Nat) :
    (blocks f (k + j)).take n = (blocks f k).take n := by
  induction j with
  | zero => rfl
  | succ j ih =>
    rw [← Nat.add_assoc, blocks, List.take_append_of_le_length, ih]
    rw [length_blocks hf, Nat.mul_add]
    omega

theorem take_blocks {n k : Nat} (hb : 0 < b) (h : n ≤ b * k) : (blocks f k).take n = output f b n := by
  have hc := le_count_mul hb n
  unfold output
  rcases le_total (count b n) k with hk | hk
  · obtain ⟨j, rfl⟩ := Nat.exists_eq_add_of_le hk
    exact take_blocks_add hf hc j
  · obtain ⟨j, hj⟩ := Nat.exists_eq_add_of_le hk
    rw [hj, take_blocks_add hf h j]

theorem length_output (hb : 0 < b) (n : Nat) : (output f b n).length = n := by
  rw [output, List.length_take, length_blocks hf]
  exact Nat.min_eq_left (le_count_mul hb n)

/-- A shorter output is a prefix of a longer one. -/
theorem take_output (hb : 0 < b) {m n : Nat} (h : m ≤ n) : (output f b n).take m = output f b m := by
  unfold output
  rw [List.take_take, Nat.min_eq_left h]
  exact take_blocks hf hb (le_trans h (le_count_mul hb n))

end

end Blocks
