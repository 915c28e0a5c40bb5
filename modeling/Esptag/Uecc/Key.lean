/-
The public key of a private one: `EccPoint_compute_public_key` with a random initial Z, and the
bytes that `uECC_compute_public_key` makes of it. The key is the encoding of the scalar's multiple
of the base point, whatever the generator draws; a generator without an acceptable draw, and the
three exceptional scalars, have none.
-/
import Esptag.Uecc.Mult
import Esptag.Uecc.Random

namespace Esptag.Uecc

open Crypto Octets

/-! ## Bytes of a number -/

theorem toBE_eq_map (n x : Nat) : toBE n x = (List.range n).map fun i => UInt8.ofNat (x / 256 ^ (n - 1 - i)) := by
  induction n generalizing x with
  | zero => rfl
  | succ n ih =>
    rw [toBE, ih, List.range_succ, List.map_append, List.map_singleton]
    congr 1
    · refine List.map_congr_left fun i hi => ?_
      have hi := List.mem_range.1 hi
      rw [Nat.div_div_eq_div_mul, ← pow_succ', show n - 1 - i + 1 = n + 1 - 1 - i by omega]
    · rw [Nat.add_sub_cancel, Nat.sub_self, pow_zero, Nat.div_one]

/-- Byte `b` of a number, out of its word. -/
theorem toUInt8_shiftRight (ws : List UInt32) (b : Nat) :
    (ws.getD (b / 4) 0 >>> UInt32.ofNat (8 * (b % 4))).toUInt8 = UInt8.ofNat (Words.val ws / 256 ^ b) := by
  have hr : b % 4 < 4 := Nat.mod_lt _ (by norm_num)
  have hpow : 256 ^ b = (2 ^ 32) ^ (b / 4) * 256 ^ (b % 4) := by
    rw [show (2 : Nat) ^ 32 = 256 ^ 4 by norm_num, ← pow_mul, ← pow_add, Nat.div_add_mod]
  have hshift : (2 : Nat) ^ (8 * (b % 4)) = 256 ^ (b % 4) := by rw [pow_mul]; norm_num
  apply UInt8.toNat_inj.1
  rw [UInt32.toNat_toUInt8, UInt32.toNat_shiftRight, UInt32.toNat_ofNat', UInt8.toNat_ofNat',
    Nat.mod_eq_of_lt (show 8 * (b % 4) < 2 ^ 32 by omega), Nat.mod_eq_of_lt (show 8 * (b % 4) < 32 by omega),
    Nat.shiftRight_eq_div_pow, hshift, Words.toNat_getD, hpow, ← Nat.div_div_eq_div_mul]
  generalize Words.val ws / (2 ^ 32) ^ (b / 4) = m
  interval_cases b % 4 <;> omega

/-- `uECC_vli_nativeToBytes` writes the number in big-endian form. -/
theorem vliNativeToBytes_eq (numBytes : Nat) (ws : List UInt32) :
    vliNativeToBytes numBytes ws = toBE numBytes (Words.val ws) := by
  rw [vliNativeToBytes, toBE_eq_map]
  exact List.map_congr_left fun i _ => toUInt8_shiftRight ws _

/-! ## EccPoint_compute_public_key -/

/-- `EccPoint_isZero`. -/
def eccPointIsZero (point : Coords) : Bool := vliIsZero (point.1.words ++ point.2.words)

theorem eccPointIsZero_iff (p : Coords) : eccPointIsZero p = true ↔ coords p = (0, 0) := by
  rw [eccPointIsZero, vliIsZero_iff, Words.val_append, Nat.add_eq_zero_iff, Nat.mul_eq_zero, coords, Prod.mk.injEq,
    ← Fe.isZero_iff, ← Fe.isZero_iff, Fe.isZero, Fe.isZero, vliIsZero_iff, vliIsZero_iff]
  simp

/-- A random integer below the prime. -/
def RandomInt.toFe (z : RandomInt curveP) : Fe := ⟨z.words, z.length, val_curveP ▸ z.lt⟩

theorem RandomInt.toFp_ne_zero (z : RandomInt curveP) : z.toFe.toFp ≠ 0 := by
  rw [ne_eq, ← Fe.isZero_iff, Fe.isZero, vliIsZero_iff]
  exact z.pos.ne'

/-- The initial Z of `EccPoint_compute_public_key`: none without a generator; nothing where the
generator has no acceptable draw. -/
def drawInitialZ : RngM (Option (Option Fe)) := do
  if ← Prog.gets Rng.registered then
    return (← generateRandomInt curveP).map fun z => some z.toFe
  else
    return some none

/-- `EccPoint_compute_public_key` once it has its initial Z. -/
def eccPointWith (privateKey : List UInt32) (initialZ : Option Fe) : Option Coords :=
  let result := eccPointMult baseCoords (regularScalar privateKey) initialZ (numNBits + 1)
  if eccPointIsZero result then none else some result

/-- `EccPoint_compute_public_key`: the point, or nothing where it returns 0. -/
def eccPointComputePublicKey (privateKey : List UInt32) : RngM (Option Coords) := do
  match ← drawInitialZ with
  | none => return none
  | some initialZ => return eccPointWith privateKey initialZ

theorem affine_eq_zero_iff (P : secp224r1.Point) : affine P = (0, 0) ↔ P = 0 := by
  cases P with
  | zero => exact ⟨fun _ => rfl, fun _ => rfl⟩
  | some x y h =>
    constructor
    · intro h0
      obtain ⟨rfl, rfl⟩ := Prod.mk.inj h0
      rw [nonsingular_iff] at h
      exact absurd h (by decide +kernel)
    · intro h0
      exact absurd h0 (WeierstrassCurve.Affine.Point.some_ne_zero h)

/-- An initial Z that was drawn is not zero, and the one without a generator is 1. -/
theorem drawInitialZ_ne_zero {r : Rng} {initialZ : Option Fe} (h : (drawInitialZ.run r).1 = some initialZ) :
    (initialZ.getD Fe.one).toFp ≠ 0 := by
  cases hr : r.registered with
  | true =>
    simp only [drawInitialZ, Prog.run_bind, Prog.run_gets, hr, if_true, Prog.run_pure] at h
    obtain ⟨z, -, rfl⟩ := Option.map_eq_some_iff.1 h
    exact z.toFp_ne_zero
  | false =>
    simp only [drawInitialZ, Prog.run_bind, Prog.run_gets, hr, Bool.false_eq_true, if_false, Prog.run_pure] at h
    obtain rfl := Option.some.inj h
    simp

section

variable {k : List UInt32} (hl : k.length = 7) (hd : 0 < Words.val k ∧ Words.val k < order)
include hl hd

/-- `EccPoint_mult` loses the point of an exceptional scalar only. -/
theorem eccPointWith_eq_none_iff {initialZ : Option Fe} (hz : (initialZ.getD Fe.one).toFp ≠ 0) :
    eccPointWith k initialZ = none ↔ Exceptional (Words.val k) := by
  have hne : affine (Words.val k • base) ≠ (0, 0) := by
    rw [ne_eq, affine_eq_zero_iff, nsmul_base_eq_zero_iff]
    exact fun h => absurd (Nat.le_of_dvd hd.1 h) (by omega)
  simp only [eccPointWith, ite_eq_left_iff, reduceCtorEq, imp_false, not_not, eccPointIsZero_iff,
    coords_eccPointMult_base hl hd hz]
  by_cases he : Exceptional (Words.val k)
  · simp [he]
  · simp [he, hne]

/-- The point of a scalar in range, for any initial Z. -/
theorem eccPointWith_eq_some_iff {initialZ : Option Fe} (hz : (initialZ.getD Fe.one).toFp ≠ 0) (p : Coords) :
    eccPointWith k initialZ = some p ↔ ¬ Exceptional (Words.val k) ∧ coords p = affine (Words.val k • base) := by
  have hnone := eccPointWith_eq_none_iff hl hd hz
  have hmult := coords_eccPointMult_base hl hd hz
  simp only [eccPointWith] at hnone ⊢
  by_cases he : Exceptional (Words.val k)
  · rw [hnone.2 he]
    exact iff_of_false (by simp) fun h => h.1 he
  · rw [if_neg he] at hmult
    rw [if_neg fun h => he (hnone.1 (if_pos h)), Option.some.injEq, ← coords_inj, hmult]
    exact ⟨fun h => ⟨he, h.symm⟩, fun h => h.2.symm⟩

/-- The random initial Z does not change the point. -/
theorem eccPointWith_eq {initialZ : Option Fe} (hz : (initialZ.getD Fe.one).toFp ≠ 0) :
    eccPointWith k initialZ = eccPointWith k none := by
  refine Option.ext fun p => ?_
  rw [eccPointWith_eq_some_iff hl hd hz, eccPointWith_eq_some_iff hl hd (by simp)]

/-- `EccPoint_compute_public_key` fails for want of an initial Z, or returns the one point. -/
theorem run_eccPointComputePublicKey (r : Rng) :
    ((eccPointComputePublicKey k).run r).1 = if (drawInitialZ.run r).1.isSome then eccPointWith k none else none := by
  have hwith : ∀ z, (drawInitialZ.run r).1 = some z → eccPointWith k z = eccPointWith k none :=
    fun z hz => eccPointWith_eq hl hd (drawInitialZ_ne_zero hz)
  simp only [eccPointComputePublicKey, Prog.run_bind]
  generalize (drawInitialZ.run r).1 = initialZ at hwith ⊢
  cases initialZ with
  | none => rw [Option.isSome_none, if_neg Bool.false_ne_true, Prog.run_pure]
  | some z => rw [Option.isSome_some, if_pos rfl, Prog.run_pure, hwith z rfl]

end

/-! ## The bytes of a key -/

/-- The words of a point. -/
def toVli (p : Coords) : Vli × Vli := (⟨p.1.words, p.1.length⟩, ⟨p.2.words, p.2.length⟩)

/-- The point of a scalar, as `EccPoint_compute_public_key` computes it from any initial Z. -/
def eccPoint (k : Vli) : Option (Vli × Vli) := (eccPointWith k.val none).map toVli

/-- Two coordinates in the bytes of a public key. -/
def encode (q : Fp × Fp) : Bytes pubKeyLen := ⟨toBE 28 q.1.val ++ toBE 28 q.2.val, by simp⟩

theorem val_lt_256 (a : Fp) : a.val < 256 ^ 28 := lt_trans (ZMod.val_lt a) (by norm_num [prime])

theorem Fe.val_toFp (a : Fe) : a.toFp.val = Words.val a.words := by rw [toFp, ZMod.val_natCast, Nat.mod_eq_of_lt a.lt]

/-- The scalars that have a public key. -/
def Usable (d : Nat) : Prop := 1 < d ∧ d < order - 2

instance instDecidableUsable (d : Nat) : Decidable (Usable d) := inferInstanceAs (Decidable (1 < d ∧ d < order - 2))

theorem usable_iff (d : Nat) : Usable d ↔ (0 < d ∧ d < order) ∧ ¬ Exceptional d := by
  have ho : order = 26959946667150639794667015087019625940457807714424391721682722368061 := rfl
  unfold Usable Exceptional
  omega

theorem usable_nsmul_base_ne_zero {d : Nat} (h : Usable d) : d • base ≠ 0 := by
  obtain ⟨⟨h0, hlt⟩, -⟩ := (usable_iff d).1 h
  rw [ne_eq, nsmul_base_eq_zero_iff]
  exact fun hdvd => absurd (Nat.le_of_dvd h0 hdvd) (by omega)

theorem toVli_bytes {p : Coords} {q : Fp × Fp} (h : coords p = q) :
    vliNativeToBytes 28 (toVli p).1.val ++ vliNativeToBytes 28 (toVli p).2.val = (encode q).val := by
  rw [← h]
  simp only [toVli, vliNativeToBytes_eq, encode, coords, Fe.val_toFp]

/-- The public key of a scalar, where micro-ecc's arithmetic is the environment's. -/
theorem publicKey_eq {env : Env} (henv : env.eccPoint = eccPoint) (d : Bytes dLen) :
    publicKey env d = if Usable (beNat d.val) then some (encode (affine (beNat d.val • base))) else none := by
  rw [publicKey, curveOrder_eq, henv]
  by_cases hd : 0 < beNat d.val ∧ beNat d.val < order
  · have hz : ((none : Option Fe).getD Fe.one).toFp ≠ 0 := by simp
    have hd' := hd
    rw [← val_privateWords d] at hd'
    have hnone := eccPointWith_eq_none_iff (privateWords d).2 hd' hz
    rw [val_privateWords] at hnone
    rw [if_pos hd, eccPoint]
    cases hp : eccPointWith (privateWords d).val none with
    | none =>
      rw [if_neg fun h => ((usable_iff _).1 h).2 (hnone.1 hp)]
      rfl
    | some p =>
      obtain ⟨he, hc⟩ := (eccPointWith_eq_some_iff (privateWords d).2 hd' hz p).1 hp
      rw [val_privateWords] at he hc
      rw [if_pos ((usable_iff _).2 ⟨hd, he⟩), Option.map_some, Option.map_some]
      exact congrArg some (Subtype.ext (toVli_bytes hc))
  · rw [if_neg hd, if_neg fun h => hd ((usable_iff _).1 h).1]

end Esptag.Uecc
