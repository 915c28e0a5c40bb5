/-
Field elements of secp224r1 as micro-ecc holds them, seven words below the prime, with the
operations of `uECC.c` on them. Each operation is the one of the field, so that an element is
known by its value there.
-/
import Esptag.Uecc.Curve
import Esptag.Uecc.ModInv

namespace Esptag.Uecc

open Crypto

theorem val_curveP_odd : Words.val curveP % 2 = 1 := by decide +kernel

/-! ## Halving -/

/-- The halving modulo the prime inside `double_jacobian_default`. -/
def vliHalf (vli mod : List UInt32) : List UInt32 :=
  if vliTestBit vli 0 then
    let (sum, lCarry) := vliAdd vli mod 0
    vliOrTop (vliRshift1 sum) (lCarry <<< 31)
  else vliRshift1 vli

theorem vliHalf_spec {vli mod : List UInt32} (hl : vli.length = mod.length) (hpos : 0 < mod.length)
    (hodd : Words.val mod % 2 = 1) (hlt : Words.val vli < Words.val mod) :
    2 * Words.val (vliHalf vli mod) ≡ Words.val vli [MOD Words.val mod] ∧
      Words.val (vliHalf vli mod) < Words.val mod ∧ (vliHalf vli mod).length = mod.length := by
  unfold vliHalf
  rw [vliTestBit_eq, Nat.testBit_zero]
  by_cases he : Words.val vli % 2 = 1
  · obtain ⟨h1, hc1, h3⟩ := vliAdd_spec vli mod 0 hl (by decide)
    rw [if_pos (decide_eq_true he)]
    generalize vliAdd vli mod 0 = p at h1 hc1 h3 ⊢
    obtain ⟨sum, carry⟩ := p
    simp only [UInt32.toNat_zero, Nat.add_zero] at h1 hc1 h3 ⊢
    have hw : (carry <<< 31).toNat = 2 ^ 31 * carry.toNat := by
      rw [UInt32.toNat_shiftLeft, show (31 : UInt32).toNat % 32 = 31 from rfl, Nat.shiftLeft_eq]
      omega
    rw [val_vliOrTop_vliRshift1 (by omega) hw, h3, h1, length_vliOrTop, length_vliRshift1, h3, hl]
    refine ⟨?_, by omega, rfl⟩
    rw [Nat.mul_div_cancel' (by omega), Nat.ModEq, Nat.add_mod_right]
  · rw [if_neg (by simpa using he), val_vliRshift1, length_vliRshift1, hl]
    exact ⟨by rw [Nat.mul_div_cancel' (by omega)], by omega, rfl⟩

/-! ## Elements -/

/-- A field element: seven words below the prime. -/
@[ext] structure Fe where
  words : List UInt32
  length : words.length = 7
  lt : Words.val words < prime
  deriving DecidableEq

namespace Fe

/-- The element of the field. -/
def toFp (a : Fe) : Fp := Words.val a.words

theorem toFp_inj {a b : Fe} : a.toFp = b.toFp ↔ a = b := by
  rw [toFp, toFp, ZMod.natCast_eq_natCast_iff', Nat.mod_eq_of_lt a.lt, Nat.mod_eq_of_lt b.lt,
    Words.val_inj (by rw [a.length, b.length]), Fe.ext_iff]

theorem lt' (a : Fe) : Words.val a.words < Words.val curveP := by rw [val_curveP]; exact a.lt

theorem length' (a : Fe) : a.words.length = curveP.length := a.length

/-- `uECC_vli_modAdd(.., curve->p, num_words)`. -/
def modAdd (a b : Fe) : Fe where
  words := vliModAdd a.words b.words curveP
  length := (vliModAdd_spec a.length' b.length' a.lt' b.lt'.le).2
  lt := by
    rw [(vliModAdd_spec a.length' b.length' a.lt' b.lt'.le).1, val_curveP]
    exact Nat.mod_lt _ prime_prime.pos

/-- `uECC_vli_modSub(.., curve->p, num_words)`. -/
def modSub (a b : Fe) : Fe where
  words := vliModSub a.words b.words curveP
  length := (vliModSub_spec a.length' b.length' a.lt' b.lt').2
  lt := by
    rw [(vliModSub_spec a.length' b.length' a.lt' b.lt').1, val_curveP]
    exact Nat.mod_lt _ prime_prime.pos

@[simp] theorem toFp_modAdd (a b : Fe) : (a.modAdd b).toFp = a.toFp + b.toFp := by
  rw [toFp, modAdd, (vliModAdd_spec a.length' b.length' a.lt' b.lt'.le).1, val_curveP, ZMod.natCast_mod, Nat.cast_add]
  rfl

@[simp] theorem toFp_modSub (a b : Fe) : (a.modSub b).toFp = a.toFp - b.toFp := by
  rw [toFp, modSub, (vliModSub_spec a.length' b.length' a.lt' b.lt').1, val_curveP, ZMod.natCast_mod, Nat.cast_add,
    Nat.cast_sub b.lt.le, ZMod.natCast_self, zero_sub, ← sub_eq_add_neg]
  rfl

/-- `uECC_vli_isZero`. -/
def isZero (a : Fe) : Bool := vliIsZero a.words

theorem isZero_iff (a : Fe) : a.isZero = true ↔ a.toFp = 0 := by
  rw [isZero, vliIsZero_iff, toFp, ZMod.natCast_eq_zero_iff]
  exact ⟨fun h => h ▸ dvd_zero _, fun h => Nat.eq_zero_of_dvd_of_lt h a.lt⟩

/-- The number 1, as `XYcZ_initial_double` clears and sets it. -/
def one : Fe := ⟨(List.replicate 7 0).set 0 1, rfl, by decide +kernel⟩

@[simp] theorem toFp_one : one.toFp = 1 := by
  rw [toFp, show Words.val one.words = 1 by decide +kernel, Nat.cast_one]

/-- `X1` halved modulo the prime. -/
def half (a : Fe) : Fe where
  words := vliHalf a.words curveP
  length := (vliHalf_spec a.length' (by decide) val_curveP_odd a.lt').2.2
  lt := val_curveP ▸ (vliHalf_spec a.length' (by decide) val_curveP_odd a.lt').2.1

@[simp] theorem toFp_half (a : Fe) : a.half.toFp = a.toFp / 2 := by
  have h := (vliHalf_spec a.length' (by decide) val_curveP_odd a.lt').1
  rw [val_curveP, ← ZMod.natCast_eq_natCast_iff, Nat.cast_mul, Nat.cast_ofNat, mul_comm] at h
  rw [eq_div_iff two_ne_zero_fp]
  exact h

/-- The reduction of a product of seven words each ends. -/
theorem vliMmodFast_vliMult {left right : List UInt32} (hl : left.length = 7) (hr : right.length = 7) :
    ∃ r, vliMmodFast 3 (vliMult left right 7) = some r ∧ r.length = 7 ∧
      Words.val r = Words.val left * Words.val right % prime := by
  obtain ⟨hval, hlen⟩ := vliMult_spec hl hr (by norm_num) (by norm_num)
  rw [← hval]
  exact vliMmodFast_spec hlen (le_refl 3)

/-- `uECC_vli_modMult_fast` on words. -/
def ofProduct (left right : List UInt32) (hl : left.length = 7) (hr : right.length = 7) : Fe where
  words := (vliMmodFast 3 (vliMult left right 7)).get (by
    obtain ⟨r, h, -⟩ := vliMmodFast_vliMult hl hr
    rw [h, Option.isSome_some])
  length := by
    obtain ⟨r, h, hlen, -⟩ := vliMmodFast_vliMult hl hr
    simp only [h, Option.get_some, hlen]
  lt := by
    obtain ⟨r, h, -, hval⟩ := vliMmodFast_vliMult hl hr
    simp only [h, Option.get_some, hval]
    exact Nat.mod_lt _ prime_prime.pos

theorem toFp_ofProduct {left right : List UInt32} (hl : left.length = 7) (hr : right.length = 7) :
    (ofProduct left right hl hr).toFp = (Words.val left : Fp) * (Words.val right : Fp) := by
  obtain ⟨r, h, -, hval⟩ := vliMmodFast_vliMult hl hr
  simp only [toFp, ofProduct, h, Option.get_some, hval]
  rw [ZMod.natCast_mod, Nat.cast_mul]

/-- `uECC_vli_modMult_fast`. -/
def modMultFast (a b : Fe) : Fe := ofProduct a.words b.words a.length b.length

@[simp] theorem toFp_modMultFast (a b : Fe) : (a.modMultFast b).toFp = a.toFp * b.toFp :=
  toFp_ofProduct a.length b.length

/-- `uECC_vli_modSquare_fast`. -/
def modSquareFast (a : Fe) : Fe := a.modMultFast a

@[simp] theorem toFp_modSquareFast (a : Fe) : a.modSquareFast.toFp = a.toFp ^ 2 := by
  rw [modSquareFast, toFp_modMultFast, sq]

theorem modInv_spec (a : Fe) :
    ∃ r, vliModInv 448 a.words curveP = some r ∧ r.length = 7 ∧ Words.val r < prime ∧
      ((Words.val r : Nat) : Fp) = a.toFp⁻¹ := by
  by_cases hz : Words.val a.words = 0
  · refine ⟨List.replicate a.words.length 0, by rw [vliModInv, (vliIsZero_iff _).2 hz, if_pos rfl],
      by rw [List.length_replicate, a.length], ?_, ?_⟩
    · rw [Words.val_replicate_zero]
      exact prime_prime.pos
    · rw [Words.val_replicate_zero, toFp, hz, Nat.cast_zero, inv_zero]
  · obtain ⟨r, hr, hl, hlt, hcong⟩ := vliModInv_spec a.length' val_curveP_odd
      (by rw [val_curveP]; exact prime_prime.one_lt) hz (show 64 * curveP.length ≤ 448 by decide)
    refine ⟨r, hr, hl, val_curveP ▸ hlt, ?_⟩
    have hcop : Nat.gcd (Words.val a.words) prime = 1 :=
      (Nat.coprime_of_lt_prime hz a.lt prime_prime).symm
    rw [val_curveP, hcop, ← ZMod.natCast_eq_natCast_iff, Nat.cast_mul, Nat.cast_one] at hcong
    exact eq_inv_of_mul_eq_one_left hcong

/-- `uECC_vli_modInv(.., curve->p, num_words)`. -/
def modInv (a : Fe) : Fe where
  words := (vliModInv 448 a.words curveP).get (by obtain ⟨r, hr, -⟩ := a.modInv_spec; rw [hr, Option.isSome_some])
  length := by obtain ⟨r, hr, hl, -⟩ := a.modInv_spec; simp only [hr, Option.get_some, hl]
  lt := by obtain ⟨r, hr, -, hlt, -⟩ := a.modInv_spec; simp only [hr, Option.get_some, hlt]

@[simp] theorem toFp_modInv (a : Fe) : a.modInv.toFp = a.toFp⁻¹ := by
  obtain ⟨r, hr, -, -, hv⟩ := a.modInv_spec
  simp only [toFp, modInv, hr, Option.get_some] at hv ⊢
  exact hv

end Fe

end Esptag.Uecc
