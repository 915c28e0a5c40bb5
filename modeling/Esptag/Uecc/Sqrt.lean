/-
`mod_sqrt_secp224r1`: its routines on the numbers `d`, `e` and `f` are the arithmetic of pairs
`d + e ω` with `ω² = -c`, where `f` keeps `-c e²`. A difference from the prime may be the prime
itself, so that `f` is one above what the other operations are said to be for.
-/
import Esptag.Lib.QuadRoot
import Esptag.Uecc.Field

namespace Esptag.Uecc

/-- Seven words at most the prime. -/
structure Near where
  words : List UInt32
  length : words.length = 7
  le : Words.val words ≤ prime

namespace Near

/-- The element of the field. -/
def toFp (a : Near) : Fp := Words.val a.words

theorem le' (a : Near) : Words.val a.words ≤ Words.val curveP := by rw [val_curveP]; exact a.le

end Near

namespace Fe

def near (a : Fe) : Near := ⟨a.words, a.length, a.lt.le⟩

@[simp] theorem toFp_near (a : Fe) : a.near.toFp = a.toFp := rfl

/-- `uECC_vli_modSub(.., curve_secp224r1.p, a, curve_secp224r1.p, num_words_secp224r1)`. -/
def pSub (a : Fe) : Near where
  words := vliModSub curveP a.words curveP
  length := (vliModSub_of_le rfl a.length' a.lt'.le).2
  le := by
    rw [(vliModSub_of_le rfl a.length' a.lt'.le).1, val_curveP]
    exact Nat.sub_le _ _

@[simp] theorem toFp_pSub (a : Fe) : a.pSub.toFp = -a.toFp := by
  rw [Near.toFp, pSub, (vliModSub_of_le rfl a.length' a.lt'.le).1, val_curveP, Nat.cast_sub a.lt.le, ZMod.natCast_self,
    zero_sub]
  rfl

/-- `uECC_vli_modAdd` with such words on the right. -/
def modAddNear (a : Fe) (b : Near) : Fe where
  words := vliModAdd a.words b.words curveP
  length := (vliModAdd_spec a.length' b.length a.lt' b.le').2
  lt := by
    rw [(vliModAdd_spec a.length' b.length a.lt' b.le').1, val_curveP]
    exact Nat.mod_lt _ prime_prime.pos

@[simp] theorem toFp_modAddNear (a : Fe) (b : Near) : (a.modAddNear b).toFp = a.toFp + b.toFp := by
  rw [toFp, modAddNear, (vliModAdd_spec a.length' b.length a.lt' b.le').1, val_curveP, ZMod.natCast_mod, Nat.cast_add]
  rfl

/-- `uECC_vli_modMult_fast` with such words on the right. -/
def modMultNear (a : Fe) (b : Near) : Fe := ofProduct a.words b.words a.length b.length

@[simp] theorem toFp_modMultNear (a : Fe) (b : Near) : (a.modMultNear b).toFp = a.toFp * b.toFp :=
  toFp_ofProduct a.length b.length

end Fe

/-! ## The routines -/

/-- `d`, `e` and `f` of the routines. -/
structure Sqrt where
  d : Fe
  e : Fe
  f : Near

/-- `mod_sqrt_secp224r1_rs`. -/
def modSqrtRs (s : Sqrt) : Sqrt :=
  let t := s.d.modSquareFast
  let e := s.d.modMultFast s.e
  let d := t.modAddNear s.f
  let e := e.modAdd e
  let f := t.modMultNear s.f
  let f := f.modAdd f
  let f := f.modAdd f
  ⟨d, e, f.near⟩

/-- `mod_sqrt_secp224r1_rss`. -/
def modSqrtRss (s : Sqrt) (j : Nat) : Sqrt := (List.range j).foldl (fun s _ => modSqrtRs s) s

/-- `mod_sqrt_secp224r1_rm`. -/
def modSqrtRm (c d0 e0 d1 e1 : Fe) : Sqrt :=
  let t1 := e0.modMultFast e1
  let t1 := t1.modMultFast c
  let t1 := t1.pSub
  let t2 := d0.modMultFast d1
  let t2 := t2.modAddNear t1
  let t1 := d0.modMultFast e1
  let e2 := d1.modMultFast e0
  let e2 := e2.modAdd t1
  let f2 := e2.modSquareFast
  let f2 := f2.modMultFast c
  ⟨t2, e2, f2.pSub⟩

/-- `mod_sqrt_secp224r1_rp`; `pow2i` is `2 ^ i` in each iteration. -/
def modSqrtRp (c r : Fe) : Sqrt :=
  (List.range 7).foldl (fun s0 i =>
    let s1 := modSqrtRss s0 (2 ^ i)
    modSqrtRm c s1.d s1.e s0.d s0.e) ⟨r, .one, c.pSub⟩

/-- The loop of `mod_sqrt_secp224r1`, with the number of iterations left: `d0`, `e0` and `f0` at its
end, whether it breaks or not. -/
def modSqrtLoop : Nat → Sqrt → Sqrt → Sqrt
  | 0, s0, _ => s0
  | n + 1, _, s1 =>
    let s0 := s1
    let s1 := modSqrtRs s0
    if s1.d.isZero then s0 else modSqrtLoop n s0 s1

/-- `mod_sqrt_secp224r1`. -/
def modSqrt (a : Fe) : Fe :=
  let s0 := modSqrtRp a a
  let s1 := modSqrtRs s0
  let s0 := modSqrtLoop 95 s0 s1
  s0.d.modMultFast s0.e.modInv

/-! ## In the algebra -/

open QuadRoot

/-- The numbers that stand for an element `d + e ω` with `ω² = -c`. -/
structure Sqrt.Rep {c : Fp} (s : Sqrt) (z : Alg c) : Prop where
  d : s.d.toFp = z.re
  e : s.e.toFp = z.im
  f : s.f.toFp = -c * z.im ^ 2

namespace Sqrt.Rep

variable {c : Fp} {s s' : Sqrt} {z z' : Alg c}

/-- RS squares. -/
theorem rs (h : s.Rep z) : (modSqrtRs s).Rep (z ^ 2) := by
  constructor
  · simp only [modSqrtRs, Fe.toFp_modAddNear, Fe.toFp_modSquareFast, h.d, h.f, re_sq]
    ring
  · simp only [modSqrtRs, Fe.toFp_modAdd, Fe.toFp_modMultFast, h.d, h.e, sq, QuadraticAlgebra.im_mul]
    ring
  · simp only [modSqrtRs, Fe.toFp_near, Fe.toFp_modAdd, Fe.toFp_modMultNear, Fe.toFp_modSquareFast, h.d, h.f, sq z,
      QuadraticAlgebra.im_mul]
    ring

/-- RSS raises to a power of two. -/
theorem rss (h : s.Rep z) (j : Nat) : (modSqrtRss s j).Rep (z ^ 2 ^ j) := by
  induction j with
  | zero => rwa [pow_zero, pow_one]
  | succ j ih =>
    rw [modSqrtRss, List.range_succ, List.foldl_append, pow_succ, pow_mul]
    exact ih.rs

/-- RM multiplies. -/
theorem rm {c : Fe} {z z' : Alg c.toFp} (h : s.Rep z) (h' : s'.Rep z') :
    (modSqrtRm c s.d s.e s'.d s'.e).Rep (z * z') := by
  constructor
  · simp only [modSqrtRm, Fe.toFp_modAddNear, Fe.toFp_modMultFast, Fe.toFp_pSub, h.d, h.e, h'.d, h'.e,
      QuadraticAlgebra.re_mul]
    ring
  · simp only [modSqrtRm, Fe.toFp_modAdd, Fe.toFp_modMultFast, h.d, h.e, h'.d, h'.e, QuadraticAlgebra.im_mul]
    ring
  · simp only [modSqrtRm, Fe.toFp_pSub, Fe.toFp_modAdd, Fe.toFp_modMultFast, Fe.toFp_modSquareFast, h.d, h.e, h'.d,
      h'.e, QuadraticAlgebra.im_mul]
    ring

/-- RP raises to the power of `2 ^ 128 - 1`, doubling the bits of the exponent in each iteration. -/
theorem rp (c r : Fe) : (modSqrtRp c r).Rep ((⟨r.toFp, 1⟩ : Alg c.toFp) ^ (2 ^ 128 - 1)) := by
  have hstart : Sqrt.Rep ⟨r, .one, c.pSub⟩ (⟨r.toFp, 1⟩ : Alg c.toFp) := ⟨rfl, Fe.toFp_one, by simp⟩
  have hrun : ∀ n, ((List.range n).foldl (fun s0 i =>
      let s1 := modSqrtRss s0 (2 ^ i)
      modSqrtRm c s1.d s1.e s0.d s0.e) ⟨r, .one, c.pSub⟩ : Sqrt).Rep
      ((⟨r.toFp, 1⟩ : Alg c.toFp) ^ (2 ^ 2 ^ n - 1)) := by
    intro n
    induction n with
    | zero =>
      rw [show 2 ^ 2 ^ 0 - 1 = 1 from rfl, pow_one]
      exact hstart
    | succ n ih =>
      have hexp : 2 ^ 2 ^ (n + 1) - 1 = (2 ^ 2 ^ n - 1) * 2 ^ 2 ^ n + (2 ^ 2 ^ n - 1) := by
        have hpos : 1 ≤ 2 ^ 2 ^ n := Nat.one_le_two_pow
        obtain ⟨m, hm⟩ := Nat.exists_eq_add_of_le' hpos
        rw [pow_succ 2 n, pow_mul, hm, Nat.add_sub_cancel, sq]
        have hsq : (m + 1) * (m + 1) = m * (m + 1) + m + 1 := by ring
        rw [hsq, Nat.add_sub_cancel]
      rw [List.range_succ, List.foldl_append, hexp, pow_add, pow_mul]
      exact (ih.rss _).rm ih
  exact hrun 7

/-- The loop is the search. -/
theorem loop {s0 s1 : Sqrt} {n : Nat} (h0 : s0.Rep z) (h1 : s1.Rep (z ^ 2)) :
    (modSqrtLoop n s0 s1).Rep (search n z) := by
  induction n generalizing s0 s1 z with
  | zero => exact h0
  | succ n ih =>
    have hzero : (modSqrtRs s1).d.isZero = true ↔ ((z ^ 2) ^ 2).re = 0 := by rw [Fe.isZero_iff, h1.rs.d]
    rw [modSqrtLoop, search]
    by_cases hz : ((z ^ 2) ^ 2).re = 0
    · rw [if_pos hz, if_pos (hzero.2 hz)]
      exact h1
    · rw [if_neg hz, if_neg (mt hzero.1 hz)]
      exact ih h1 h1.rs

end Sqrt.Rep

theorem toFp_modSqrt (a : Fe) : (modSqrt a).toFp = root 95 (2 ^ 128 - 1) a.toFp := by
  have hrp := Sqrt.Rep.rp a a
  have hloop := hrp.loop (n := 95) hrp.rs
  rw [modSqrt, root, Fe.toFp_modMultFast, Fe.toFp_modInv, hloop.d, hloop.e, ← div_eq_mul_inv]

/-! ## What it returns -/

/-- A root of -1. -/
def imag : Fp := 3338362603553219996874421406887633712040719456283732096017030791656

theorem imag_mul_imag : imag * imag = -1 := by decide +kernel

theorem pow_order_eq_one (x : Fp) (hx : x ≠ 0) : x ^ ((2 ^ 128 - 1) * 2 ^ (95 + 1)) = 1 := by
  have hcard : (2 ^ 128 - 1) * 2 ^ (95 + 1) = prime - 1 := by norm_num [prime]
  rw [hcard]
  exact ZMod.pow_card_sub_one_eq_one hx

/-- `mod_sqrt_secp224r1` on any field element: it returns a root exactly of zero and of the squares `y²`,
but -1, where the quotient of `y + i` and `y - i` has an order that does not divide `2^130 - 4`. It has
none for at most `2^130 - 3` of the squares. -/
theorem modSqrt_exact :
    (∀ a : Fe, (modSqrt a).toFp ^ 2 = a.toFp ↔ a.toFp = 0 ∨
      ∃ y, y ^ 2 = a.toFp ∧ y ^ 2 ≠ -1 ∧ ((y + imag) / (y - imag)) ^ (4 * (2 ^ 128 - 1)) ≠ 1) ∧
    {a : Fe | IsSquare a.toFp ∧ (modSqrt a).toFp ^ 2 ≠ a.toFp}.encard ≤ (4 * (2 ^ 128 - 1) + 1 : Nat) := by
  have hroot := root_sq_iff two_ne_zero_fp imag_mul_imag (E := 2 ^ 128 - 1) (n := 95) (by norm_num) (by norm_num)
    pow_order_eq_one
  have hfew := encard_not_root_le two_ne_zero_fp imag_mul_imag (E := 2 ^ 128 - 1) (n := 95) (by norm_num)
    (by norm_num) pow_order_eq_one
  have hval := toFp_modSqrt
  generalize 2 ^ 128 - 1 = E at hroot hfew hval ⊢
  constructor
  · intro a
    rw [hval]
    constructor
    · intro h
      generalize hy : root 95 E a.toFp = y at h
      have hsq : root 95 E (y ^ 2) ^ 2 = y ^ 2 := by rw [h, hy, h]
      rcases (hroot y).1 hsq with h0 | hy'
      · exact .inl (by rw [← h, h0, zero_pow two_ne_zero])
      · exact .inr ⟨y, h, hy'⟩
    · rintro (h0 | ⟨y, hy, hy'⟩)
      · have h00 := (hroot 0).2 (.inl rfl)
        rwa [zero_pow two_ne_zero, ← h0] at h00
      · rw [← hy]
        exact (hroot y).2 (.inr hy')
  · have hinj : Function.Injective Fe.toFp := fun a b h => Fe.toFp_inj.1 h
    rw [← hinj.encard_image]
    refine (Set.encard_le_encard ?_).trans hfew
    rintro _ ⟨a, ⟨hsq, hne⟩, rfl⟩
    rw [hval] at hne
    exact ⟨hsq, hne⟩

end Esptag.Uecc
