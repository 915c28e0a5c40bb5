/-
The group of secp224r1 behind the constants of `curve-specific.inc`: its field is a field, its
order is prime, and the base point has that order.
-/
import Esptag.Lib.CoZ
import Esptag.Lib.Lucas
import Esptag.Uecc.Mod

namespace Esptag.Uecc

open Crypto

/-! ## The primes -/

/-- The order of the group of secp224r1. -/
def order : Nat := 26959946667150639794667015087019625940457807714424391721682722368061

theorem curveOrder_eq : curveOrder = order := by decide +kernel

/-- The primes of the certificate below that need none. -/
def smallPrimes : List Nat :=
  [2, 3, 5, 17, 31, 37, 47, 61, 89, 257, 347, 373, 631, 641, 2153, 2707, 20599, 30859, 65537, 85999, 87739, 166823,
    274177, 2998279, 6700417, 11105363, 13928737]

theorem smallPrimes_prime : ∀ q ∈ smallPrimes, q.Prime := by
  simp only [smallPrimes, List.forall_mem_cons]
  norm_num

/-- The primality of the field's prime and of the order of the group. -/
def certificate : List Lucas.Entry :=
  [⟨67280421310721, 3, [(2, 8), (5, 1), (47, 1), (373, 1), (2998279, 1)]⟩,
    ⟨prime, 22, [(2, 96), (3, 1), (5, 1), (17, 1), (257, 1), (641, 1), (65537, 1), (274177, 1), (6700417, 1),
      (67280421310721, 1)]⟩,
    ⟨821796863, 5, [(2, 1), (37, 1), (11105363, 1)]⟩,
    ⟨432621809776543, 3, [(2, 1), (3, 1), (87739, 1), (821796863, 1)]⟩,
    ⟨136401162692544977256234449, 3, [(2, 4), (31, 1), (20599, 1), (30859, 1), (432621809776543, 1)]⟩,
    ⟨34646440928557194402992574983797, 2, [(2, 2), (3, 1), (61, 1), (347, 1), (136401162692544977256234449, 1)]⟩,
    ⟨375503554633724504423937478103159147573209, 19, [(2, 3), (3, 1), (2707, 1), (166823, 1),
      (34646440928557194402992574983797, 1)]⟩,
    ⟨50520606258875818707470860153287666700917696099933389351507, 2, [(2, 1), (89, 1), (631, 1), (85999, 1),
      (13928737, 1), (375503554633724504423937478103159147573209, 1)]⟩,
    ⟨order, 2, [(2, 2), (3, 6), (5, 1), (17, 1), (2153, 1),
      (50520606258875818707470860153287666700917696099933389351507, 1)]⟩]

theorem check_certificate : Lucas.check smallPrimes certificate = true := by decide +kernel

theorem prime_prime : prime.Prime :=
  Lucas.prime_of_check smallPrimes_prime check_certificate certificate[1] (List.getElem_mem _)

theorem order_prime : order.Prime :=
  Lucas.prime_of_check smallPrimes_prime check_certificate certificate[8] (List.getElem_mem _)

instance instFactPrime : Fact prime.Prime := ⟨prime_prime⟩

/-- The field of secp224r1. -/
abbrev Fp : Type := ZMod prime

theorem two_ne_zero_fp : (2 : Fp) ≠ 0 := by decide +kernel

/-! ## The base point -/

/-- `curve_secp224r1.G`: both coordinates. -/
def curveG : List UInt32 :=
  [0x115C1D21, 0x343280D6, 0x56C21122, 0x4A03C1D3, 0x321390B9, 0x6BB4BF7F, 0xB70E0CBD,
    0x85007E34, 0x44D58199, 0x5A074764, 0xCD4375A0, 0x4C22DFE6, 0xB5F723FB, 0xBD376388]

/-- `curve_secp224r1.b`. -/
def curveB : List UInt32 :=
  [0x2355FFB4, 0x270B3943, 0xD7BFD8BA, 0x5044B0B7, 0xF5413256, 0x0C04B3AB, 0xB4050A85]

/-- The coordinates of the base point. -/
def baseX : Fp := Words.val (curveG.take 7)
def baseY : Fp := Words.val (curveG.drop 7)

/-- The curve `y² = x³ - 3 x + b`. -/
abbrev secp224r1 := CoZ.short (Words.val curveB : Fp)

theorem discriminant_ne_zero : secp224r1.Δ ≠ 0 := by
  have h : secp224r1.Δ = -16 * (4 * (-3) ^ 3 + 27 * (Words.val curveB : Fp) ^ 2) := by
    simp only [CoZ.curve, WeierstrassCurve.Δ, WeierstrassCurve.b₂, WeierstrassCurve.b₄, WeierstrassCurve.b₆,
      WeierstrassCurve.b₈]
    ring
  rw [h]
  decide +kernel

theorem nonsingular_iff (x y : Fp) :
    secp224r1.Nonsingular x y ↔ y ^ 2 = x ^ 3 + -3 * x + (Words.val curveB : Fp) := by
  rw [← WeierstrassCurve.Affine.equation_iff_nonsingular_of_Δ_ne_zero discriminant_ne_zero, CoZ.equation_iff]

theorem nonsingular_base : secp224r1.Nonsingular baseX baseY := by
  rw [nonsingular_iff]
  decide +kernel

/-- The base point. -/
def base : secp224r1.Point := .some baseX baseY nonsingular_base

theorem rep_base : CoZ.Rep 1 (baseX, baseY) base := by
  refine ⟨one_ne_zero, baseX, baseY, nonsingular_base, rfl, by simp⟩

/-! ## Its order -/

theorem pair_base : CoZ.Pair base 1 baseY (CoZ.scale (baseX, baseY) baseY, CoZ.double (-3) (baseX, baseY) 1) := by
  have hy : (baseX, baseY).2 ≠ 0 := by decide +kernel
  have hlo := rep_base.scale hy
  have hhi := CoZ.rep_double two_ne_zero_fp rep_base hy
  rw [one_mul] at hlo
  rw [mul_one, ← two_nsmul] at hhi
  exact ⟨by rw [one_nsmul]; exact hlo, hhi⟩

/-- The double of the base point over its y-coordinate, without the division. -/
def baseDouble : Fp × Fp := CoZ.shortDouble ((prime + 1) / 2 : Nat) (baseX, baseY)

theorem double_base : CoZ.double (-3) (baseX, baseY) 1 = baseDouble :=
  CoZ.double_eq_shortDouble (by decide +kernel) _

theorem ladder_base : (CoZ.ladderChecked (Bits.below ((order - 1) / 2) 222)
    (CoZ.scale (baseX, baseY) baseY, baseDouble)).any (fun r => r.1.1 = r.2.1 ∧ r.1.2 = -r.2.2) = true := by
  decide +kernel

theorem order_nsmul_base : order • base = 0 := by
  have h := pair_base
  rw [double_base] at h
  have h0 := h.sum_eq_zero_of_ladderChecked ladder_base
  have hone : (order - 1) / 2 / 2 ^ 222 = 1 := by norm_num [order]
  have hodd : 2 * ((order - 1) / 2) + 1 = order := by norm_num [order]
  have hbits := Bits.value_below ((order - 1) / 2) 222
  generalize (order - 1) / 2 = k at h0 hone hodd hbits
  rw [hone] at hbits
  rw [hbits, hodd] at h0
  exact h0

theorem base_ne_zero : base ≠ 0 := rep_base.ne_zero

theorem addOrderOf_base : addOrderOf base = order :=
  haveI : Fact order.Prime := ⟨order_prime⟩
  addOrderOf_eq_prime order_nsmul_base base_ne_zero

/-- The multiples of the base point that are zero. -/
theorem nsmul_base_eq_zero_iff (k : Nat) : k • base = 0 ↔ order ∣ k := by
  rw [← addOrderOf_base, addOrderOf_dvd_iff_nsmul_eq_zero]

end Esptag.Uecc
