/-
Multi-word numbers: lists of 32-bit words, least significant first. The value of a list, how it
changes when one word does, and the reading of single words and bytes out of it.
-/
import Mathlib.Algebra.BigOperators.Intervals
import Mathlib.Data.List.GetD
import Mathlib.Tactic

namespace Words

/-- The number a word list spells, least significant word first. -/
def val : List UInt32 → Nat
  | [] => 0
  | w :: ws => w.toNat + 2 ^ 32 * val ws

@[simp] theorem val_nil : val [] = 0 := rfl

@[simp] theorem val_cons (w : UInt32) (ws : List UInt32) : val (w :: ws) = w.toNat + 2 ^ 32 * val ws := rfl

theorem val_lt (ws : List UInt32) : val ws < (2 ^ 32) ^ ws.length := by
  induction ws with
  | nil => simp
  | cons w ws ih =>
    have hw := w.toNat_lt
    rw [val_cons, List.length_cons, pow_succ (2 ^ 32) ws.length]
    omega

@[simp] theorem val_replicate_zero (n : Nat) : val (List.replicate n 0) = 0 := by
  induction n with
  | zero => rfl
  | succ n ih => rw [List.replicate_succ, val_cons, ih]; rfl

theorem val_eq_zero_iff (ws : List UInt32) : val ws = 0 ↔ ∀ w ∈ ws, w = 0 := by
  induction ws with
  | nil => simp
  | cons w ws ih =>
    rw [val_cons, List.forall_mem_cons, ← ih, ← UInt32.toNat_inj]
    simp only [UInt32.toNat_zero]
    omega

/-- Numbers of one length are equal when their values are. -/
theorem val_inj : ∀ {a b : List UInt32}, a.length = b.length → (val a = val b ↔ a = b)
  | [], [], _ => by simp
  | v :: a, w :: b, h => by
    have hv := v.toNat_lt
    have hw := w.toNat_lt
    rw [List.cons.injEq, ← val_inj (by simpa using h), ← UInt32.toNat_inj, val_cons, val_cons]
    omega

/-- Word `j` of a number. -/
theorem toNat_getD (ws : List UInt32) (j : Nat) :
    (ws.getD j 0).toNat = val ws / (2 ^ 32) ^ j % 2 ^ 32 := by
  induction ws generalizing j with
  | nil => simp
  | cons w ws ih =>
    have hw := w.toNat_lt
    cases j with
    | zero =>
      simp only [List.getD_cons_zero, val_cons, pow_zero, Nat.div_one]
      omega
    | succ j =>
      have h : (w.toNat + 2 ^ 32 * val ws) / 2 ^ 32 = val ws := by omega
      rw [List.getD_cons_succ, ih, val_cons, pow_succ' (2 ^ 32) j, ← Nat.div_div_eq_div_mul, h]

/-- The low `n` words of a number. -/
def ofNat (n N : Nat) : List UInt32 := (List.range n).map fun j => UInt32.ofNat (N / (2 ^ 32) ^ j)

@[simp] theorem length_ofNat (n N : Nat) : (ofNat n N).length = n := by rw [ofNat, List.length_map, List.length_range]

theorem val_ofNat {n N : Nat} (h : N < (2 ^ 32) ^ n) : val (ofNat n N) = N := by
  induction n generalizing N with
  | zero => exact (Nat.lt_one_iff.1 h).symm
  | succ n ih =>
    have htail : (List.range n).map ((fun j => UInt32.ofNat (N / (2 ^ 32) ^ j)) ∘ Nat.succ) = ofNat n (N / 2 ^ 32) := by
      refine List.map_congr_left fun j _ => ?_
      rw [Function.comp_apply, Nat.succ_eq_add_one, pow_succ', Nat.div_div_eq_div_mul]
    rw [pow_succ] at h
    rw [ofNat, List.range_succ_eq_map, List.map_cons, List.map_map, htail, val_cons,
      ih (Nat.div_lt_of_lt_mul (mul_comm _ (2 ^ 32) ▸ h)), pow_zero, Nat.div_one, UInt32.toNat_ofNat', Nat.mod_add_div]

theorem val_append (a b : List UInt32) : val (a ++ b) = val a + (2 ^ 32) ^ a.length * val b := by
  induction a with
  | nil => simp
  | cons w a ih =>
    rw [List.cons_append, val_cons, val_cons, ih, List.length_cons, pow_succ']
    ring

/-- A number is the sum of its words, each at its place. -/
theorem val_eq_sum (ws : List UInt32) {n : Nat} (h : ws.length ≤ n) :
    val ws = ∑ i ∈ Finset.range n, (ws.getD i 0).toNat * (2 ^ 32) ^ i := by
  induction ws generalizing n with
  | nil => simp
  | cons w ws ih =>
    obtain ⟨n, rfl⟩ : ∃ m, n = m + 1 := ⟨n - 1, by simp at h; omega⟩
    rw [Finset.sum_range_succ', val_cons, ih (n := n) (by simpa using h), Finset.mul_sum, List.getD_cons_zero, pow_zero,
      Nat.mul_one, Nat.add_comm]
    congr 1
    refine Finset.sum_congr rfl fun i _ => ?_
    rw [List.getD_cons_succ, pow_succ']
    ring

/-- Changing word `j` changes the number by the difference at that place. -/
theorem val_modify (ws : List UInt32) (j : Nat) (f : UInt32 → UInt32) (hj : j < ws.length) :
    val (ws.modify j f) + (ws.getD j 0).toNat * (2 ^ 32) ^ j =
      val ws + (f (ws.getD j 0)).toNat * (2 ^ 32) ^ j := by
  induction ws generalizing j with
  | nil => simp at hj
  | cons w ws ih =>
    cases j with
    | zero =>
      simp only [List.modify_zero_cons, List.getD_cons_zero, val_cons, pow_zero]
      omega
    | succ j =>
      have h := ih j (by simpa using hj)
      simp only [List.modify_succ_cons, List.getD_cons_succ, val_cons, pow_succ']
      calc w.toNat + 2 ^ 32 * val (ws.modify j f) + (ws.getD j 0).toNat * (2 ^ 32 * (2 ^ 32) ^ j)
          = w.toNat + 2 ^ 32 * (val (ws.modify j f) + (ws.getD j 0).toNat * (2 ^ 32) ^ j) := by ring
        _ = w.toNat + 2 ^ 32 * (val ws + (f (ws.getD j 0)).toNat * (2 ^ 32) ^ j) := by rw [h]
        _ = _ := by ring

/-! ## Bytes of a word -/

/-- Or-ing byte `k` into a word that is zero up to and including that byte adds the byte there. -/
theorem toNat_or_byte (w : UInt32) (b : UInt8) {k : Nat} (hk : k < 4) (hw : 256 ^ (k + 1) ∣ w.toNat) :
    (w ||| (b.toUInt32 <<< UInt32.ofNat (8 * k))).toNat = w.toNat + b.toNat * 256 ^ k := by
  have hb := b.toNat_lt
  have hpow : ∀ j, 256 ^ j = 2 ^ (8 * j) := fun j => by rw [pow_mul]; norm_num
  have hlt : b.toNat * 256 ^ k < 256 ^ (k + 1) := by
    rw [pow_succ', Nat.mul_lt_mul_right (by positivity)]; exact hb
  have hle : 256 ^ (k + 1) ≤ 2 ^ 32 := by
    rw [hpow]; exact Nat.pow_le_pow_right (by norm_num) (by omega)
  have hshift : (b.toUInt32 <<< UInt32.ofNat (8 * k)).toNat = b.toNat * 256 ^ k := by
    rw [UInt32.toNat_shiftLeft, UInt8.toNat_toUInt32, UInt32.toNat_ofNat',
      Nat.mod_eq_of_lt (show 8 * k % 2 ^ 32 < 32 by omega), Nat.mod_eq_of_lt (show 8 * k < 2 ^ 32 by omega),
      Nat.shiftLeft_eq, ← hpow k]
    exact Nat.mod_eq_of_lt (lt_of_lt_of_le hlt hle)
  obtain ⟨a, ha⟩ := hw
  rw [hpow (k + 1)] at ha hlt
  rw [UInt32.toNat_or, hshift, ha]
  exact (Nat.two_pow_add_eq_or_of_lt hlt a).symm

end Words
