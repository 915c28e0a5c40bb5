/-
What `EccPoint_mult` returns for a private key: the affine coordinates of its multiple of the base
point, whatever the initial Z, except for the three keys 1, n - 2 and n - 1. There the ladder runs
into opposite points one bit before its end, and the result is the origin.
-/
import Esptag.Uecc.Point

namespace Esptag.Uecc

open Crypto

/-! ## The regular scalar -/

/-- `curve_secp224r1.num_n_bits`. -/
def numNBits : Nat := 224

/-- `regularize_k`: the carry, `k0` and `k1`. -/
def regularizeK (k : List UInt32) : Bool × List UInt32 × List UInt32 :=
  let (k0, out) := vliAdd k curveN 0
  let carry := out != 0 || (decide (numNBits < 7 * 4 * 8) && vliTestBit k0 numNBits)
  let (k1, _) := vliAdd k0 curveN 0
  (carry, k0, k1)

/-- The scalar of `EccPoint_compute_public_key`: `p2[!carry]`. -/
def regularScalar (k : List UInt32) : List UInt32 :=
  let (carry, k0, k1) := regularizeK k
  if carry then k0 else k1

/-- The number of 225 bits that stands for a private key: its top bit is implicit. -/
def regular (d : Nat) : Nat := if 2 ^ 224 ≤ d + order then d + order else d + 2 * order

theorem val_curveN : Words.val curveN = order := curveOrder_eq

/-- `regularize_k` leaves the bits below the top one. -/
theorem val_regularScalar {k : List UInt32} (hl : k.length = 7) (hk : Words.val k < order) :
    2 ^ 224 + Words.val (regularScalar k) = regular (Words.val k) := by
  obtain ⟨h1, hc1, h3⟩ := vliAdd_spec k curveN 0 hl (by decide)
  have hlt := Words.val_lt (vliAdd k curveN 0).1
  have ho : (2 : Nat) ^ 224 < 2 * order ∧ order < 2 ^ 224 := by norm_num [order]
  have hcarry : regularScalar k =
      if (vliAdd k curveN 0).2 ≠ 0 then (vliAdd k curveN 0).1 else (vliAdd (vliAdd k curveN 0).1 curveN 0).1 := by
    simp only [regularScalar, regularizeK, numNBits, Nat.reduceMul, lt_irrefl, decide_false, Bool.false_and,
      Bool.or_false, bne_iff_ne]
  rw [hcarry]
  generalize vliAdd k curveN 0 = p at h1 hc1 h3 hlt ⊢
  obtain ⟨k0, out⟩ := p
  simp only [UInt32.toNat_zero, Nat.add_zero, val_curveN, hl] at h1 hc1 h3 hlt ⊢
  rw [h3] at hlt
  by_cases hc : out = 0
  · subst hc
    rw [UInt32.toNat_zero] at h1
    have hreg : regular (Words.val k) = Words.val k + 2 * order := if_neg (by omega)
    have hk1 := val_vliAdd_of (show k0.length = curveN.length from h3) (x := Words.val k0 + order - 2 ^ 224) (k := 1)
      (by rw [h3]; omega) (by rw [h3, val_curveN]; omega)
    rw [if_neg (by simp), hk1, hreg]
    omega
  · have : out.toNat ≠ 0 := fun h0 => hc (UInt32.toNat_inj.1 h0)
    rw [show out.toNat = 1 by omega] at h1
    have hreg : regular (Words.val k) = Words.val k + order := if_pos (by omega)
    rw [if_pos hc, hreg]
    omega

/-! ## Multiples of the base point -/

theorem nsmul_base_ne_zero {k : Nat} (h0 : 0 < k) (hlt : k < 3 * order) (h1 : k ≠ order) (h2 : k ≠ 2 * order) :
    k • base ≠ 0 := by
  rw [ne_eq, nsmul_base_eq_zero_iff]
  rintro ⟨t, rfl⟩
  have ht : t < 3 := by
    rw [Nat.mul_comm] at hlt
    exact Nat.lt_of_mul_lt_mul_right hlt
  interval_cases t <;> omega

/-- The regular scalar of a key has the multiple of the key. -/
theorem regular_nsmul_base (d : Nat) : regular d • base = d • base := by
  unfold regular
  split
  · rw [add_nsmul, order_nsmul_base, add_zero]
  · rw [add_nsmul, mul_nsmul', order_nsmul_base, nsmul_zero, add_zero]

/-- The keys whose ladder runs into opposite points. -/
def Exceptional (d : Nat) : Prop := d = 1 ∨ d = order - 2 ∨ d = order - 1

instance instDecidableExceptional (d : Nat) : Decidable (Exceptional d) :=
  inferInstanceAs (Decidable (d = 1 ∨ d = order - 2 ∨ d = order - 1))

section

variable {d : Nat}

theorem regular_bounds (hd : 0 < d ∧ d < order) : 2 ^ 224 ≤ regular d ∧ regular d < 2 ^ 225 := by
  have ho : order = 26959946667150639794667015087019625940457807714424391721682722368061 := rfl
  unfold regular
  split <;> omega

/-- The exceptional keys are those whose regular scalar, without its last two bits, is half the order. -/
theorem exceptional_iff (hd : 0 < d ∧ d < order) : Exceptional d ↔ 2 * (regular d / 2 / 2) + 1 = order := by
  have ho : order = 26959946667150639794667015087019625940457807714424391721682722368061 := rfl
  unfold Exceptional regular
  split <;> omega

/-- The ladder meets no zero before its last two bits. -/
theorem regular_high (hd : 0 < d ∧ d < order) : CoZ.Regular base (Bits.below (regular d / 2 / 2) 222) 1 := by
  have ho : order = 26959946667150639794667015087019625940457807714424391721682722368061 := rfl
  have hb := regular_bounds hd
  rw [show 1 = regular d / 2 / 2 / 2 ^ 222 by omega]
  refine CoZ.regular_below fun j hj => ?_
  have hpos : 0 < regular d / 2 / 2 / 2 ^ (j + 1) :=
    Nat.div_pos (le_trans (Nat.pow_le_pow_right (by norm_num) hj) (by omega : 2 ^ 222 ≤ _)) (by positivity)
  have hle : regular d / 2 / 2 / 2 ^ (j + 1) ≤ regular d / 2 / 2 / 2 :=
    Nat.div_le_div_left (Nat.le_self_pow (Nat.succ_ne_zero j) 2) (by norm_num)
  generalize regular d / 2 / 2 / 2 ^ (j + 1) = m at hpos hle
  refine ⟨nsmul_base_ne_zero ?_ ?_ ?_ ?_, nsmul_base_ne_zero ?_ ?_ ?_ ?_, nsmul_base_ne_zero ?_ ?_ ?_ ?_⟩ <;> omega

/-- The ladder with all but the last two bits read. -/
theorem exists_pair (hd : 0 < d ∧ d < order) {z : Fp} (hz : z ≠ 0) :
    ∃ r Z, CoZ.ladder (Bits.below (regular d / 2 / 2) 222) (CoZ.start (-3) (baseX, baseY) z) = r ∧
      CoZ.Pair base (regular d / 2 / 2) Z r := by
  have hy : baseY ≠ 0 := by decide +kernel
  have hb := regular_bounds hd
  have hvalue := Bits.value_below (regular d / 2 / 2) 222
  rw [show regular d / 2 / 2 / 2 ^ 222 = 1 by omega] at hvalue
  obtain ⟨Z, hpair⟩ := (CoZ.pair_start two_ne_zero_fp hy hz).ladder (regular_high hd)
  rw [hvalue] at hpair
  exact ⟨_, Z, rfl, hpair⟩

/-- The multiple of the base point, for a key that is not exceptional. -/
theorem rep_mult (hd : 0 < d ∧ d < order) (he : ¬ Exceptional d) {z : Fp} (hz : z ≠ 0) :
    CoZ.Rep 1 (CoZ.mult (-3) (baseX, baseY) z (Bits.below (regular d / 2) 223) ((regular d).testBit 0)) (d • base) := by
  have ho : order = 26959946667150639794667015087019625940457807714424391721682722368061 := rfl
  have hb := regular_bounds hd
  rw [exceptional_iff hd] at he
  obtain ⟨r, Z, hr, hpair⟩ := exists_pair hd hz
  rw [CoZ.mult, Bits.below_succ, CoZ.ladder_concat, hr]
  -- the last bit but one, where the exceptional keys are left out
  have hne := hpair.fst_ne (nsmul_base_ne_zero (by omega) (by omega) he (by omega))
  have hne' := hpair.conj_fst_ne ((regular d / 2).testBit 0) hne
    (nsmul_base_ne_zero (by omega) (by omega) (by omega) (by omega))
    (nsmul_base_ne_zero (by omega) (by omega) (by omega) (by omega))
  have hlast := hpair.step _ hne hne'
  have hhalf : 2 * (regular d / 2 / 2) + ((regular d / 2).testBit 0).toNat = regular d / 2 := by
    have := Bits.div_two_pow (regular d / 2) 0
    simpa using this
  rw [hhalf] at hlast
  -- the last bit
  have hne1 := hlast.fst_ne (nsmul_base_ne_zero (by omega) (by omega) (by omega) (by omega))
  have hne1' := hlast.conj_fst_ne ((regular d).testBit 0) hne1
    (nsmul_base_ne_zero (by omega) (by omega) (by omega) (by omega))
    (nsmul_base_ne_zero (by omega) (by omega) (by omega) (by omega))
  have hfin := CoZ.Pair.finish hlast ((regular d).testBit 0) (by decide +kernel) (by decide +kernel) hne1 hne1'
  have hwhole : 2 * (regular d / 2) + ((regular d).testBit 0).toNat = regular d := by
    have := Bits.div_two_pow (regular d) 0
    simpa using this
  rw [hwhole] at hfin
  rw [← regular_nsmul_base]
  exact hfin

/-- The exceptional keys lose the point. -/
theorem mult_exceptional (hd : 0 < d ∧ d < order) (he : Exceptional d) {z : Fp} (hz : z ≠ 0) :
    CoZ.mult (-3) (baseX, baseY) z (Bits.below (regular d / 2) 223) ((regular d).testBit 0) = (0, 0) := by
  rw [exceptional_iff hd] at he
  obtain ⟨r, Z, hr, hpair⟩ := exists_pair hd hz
  obtain ⟨hx, hy⟩ := hpair.opposite (by rw [he, order_nsmul_base])
  rw [CoZ.mult, Bits.below_succ, CoZ.ladder_concat, hr]
  exact CoZ.finish_of_opposite hx hy _ _ _

end

/-! ## EccPoint_mult -/

/-- The base point as micro-ecc holds it. -/
def baseCoords : Coords :=
  (⟨curveG.take 7, rfl, by decide +kernel⟩, ⟨curveG.drop 7, rfl, by decide +kernel⟩)

/-- The affine coordinates of a point, the origin for the point at infinity. -/
def affine : secp224r1.Point → Fp × Fp
  | .zero => (0, 0)
  | .some x y _ => (x, y)

theorem affine_eq_of_rep {p : Fp × Fp} {P : secp224r1.Point} (h : CoZ.Rep 1 p P) : p = affine P := by
  obtain ⟨-, x, y, hn, rfl, rfl⟩ := h
  rw [one_pow, one_pow, mul_one, mul_one]
  rfl

/-- `EccPoint_mult` on the base point and the regular scalar of a key: the key's multiple, whatever
the initial Z, or the origin for an exceptional key. -/
theorem coords_eccPointMult_base {k : List UInt32} (hl : k.length = 7)
    (hd : 0 < Words.val k ∧ Words.val k < order) {initialZ : Option Fe} (hz : (initialZ.getD Fe.one).toFp ≠ 0) :
    coords (eccPointMult baseCoords (regularScalar k) initialZ (numNBits + 1)) =
      if Exceptional (Words.val k) then (0, 0) else affine (Words.val k • base) := by
  have hs := val_regularScalar hl hd.2
  have hbits : Bits.below (Words.val (regularScalar k) / 2) 223 = Bits.below (regular (Words.val k) / 2) 223 := by
    rw [← Bits.below_two_pow_add, ← hs]
    congr 1
    omega
  have hbit : (Words.val (regularScalar k)).testBit 0 = (regular (Words.val k)).testBit 0 := by
    rw [Nat.testBit_zero, Nat.testBit_zero, ← hs]
    congr 2
    omega
  rw [coords_eccPointMult _ _ _ hz, show numNBits + 1 - 2 = 223 from rfl, hbits, hbit,
    show coords baseCoords = (baseX, baseY) from rfl]
  split
  · exact mult_exceptional hd ‹_› hz
  · exact affine_eq_of_rep (rep_mult hd ‹_› hz)

end Esptag.Uecc
