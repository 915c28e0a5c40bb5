/-
Binary numbers read from the top bit down, as loops over the bits of a scalar read them: the
number so far doubles and takes the next bit.
-/
import Mathlib.Tactic

namespace Bits

/-- The number of the bits `bits` behind the number `m`. -/
def value (bits : List Bool) (m : Nat) : Nat := bits.foldl (fun m bit => 2 * m + bit.toNat) m

@[simp] theorem value_nil (m : Nat) : value [] m = m := rfl

@[simp] theorem value_cons (bit : Bool) (bits : List Bool) (m : Nat) :
    value (bit :: bits) m = value bits (2 * m + bit.toNat) := rfl

/-- The bits of `k` below bit `len`, the highest first. -/
def below (k : Nat) : Nat → List Bool
  | 0 => []
  | len + 1 => k.testBit len :: below k len

theorem below_eq_map (k len : Nat) : below k len = (List.range len).reverse.map k.testBit := by
  induction len with
  | zero => rfl
  | succ len ih => rw [below, ih, List.range_succ, List.reverse_append, List.map_append]; rfl

theorem below_congr {k k' len : Nat} (h : ∀ i < len, k.testBit i = k'.testBit i) : below k len = below k' len := by
  induction len with
  | zero => rfl
  | succ len ih => rw [below, below, h len (Nat.lt_succ_self len), ih fun i hi => h i (Nat.lt_succ_of_lt hi)]

/-- A bit above those read is not read. -/
theorem below_two_pow_add (k len : Nat) : below (2 ^ len + k) len = below k len :=
  below_congr fun _ hi => Nat.testBit_two_pow_add_gt hi k

/-- The lowest bit is read last. -/
theorem below_succ (k len : Nat) : below k (len + 1) = below (k / 2) len ++ [k.testBit 0] := by
  induction len with
  | zero => rfl
  | succ len ih => rw [below, ih, below, List.cons_append, Nat.testBit_div_two]

/-- The next bit behind the bits above it. -/
theorem div_two_pow (k len : Nat) : 2 * (k / 2 ^ (len + 1)) + (k.testBit len).toNat = k / 2 ^ len := by
  rw [pow_succ, ← Nat.div_div_eq_div_mul, Nat.testBit_eq_decide_div_mod_eq]
  rcases Nat.mod_two_eq_zero_or_one (k / 2 ^ len) with h | h <;> simp [h] <;> omega

/-- The bits of a number behind those above spell it. -/
@[simp] theorem value_below (k len : Nat) : value (below k len) (k / 2 ^ len) = k := by
  induction len with
  | zero => simp [below]
  | succ len ih => rw [below, value_cons, div_two_pow, ih]

theorem value_below_of_lt {k len : Nat} (h : k < 2 ^ len) : value (below k len) 0 = k := by
  have := value_below k len
  rwa [Nat.div_eq_of_lt h] at this

end Bits
