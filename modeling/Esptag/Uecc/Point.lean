/-
The point operations of `uECC.c`, statement by statement on field elements, and the Montgomery
ladder of `EccPoint_mult`. The coordinates they compute are those of the co-Z formulas, and the
ladder is the one of the library: no random choice and no exceptional case is left out here.
-/
import Esptag.Uecc.Field

namespace Esptag.Uecc

open Crypto

/-- Two coordinates. -/
abbrev Coords : Type := Fe × Fe

/-- Two coordinates as elements of the field. -/
def coords (p : Coords) : Fp × Fp := (p.1.toFp, p.2.toFp)

theorem coords_inj {p q : Coords} : coords p = coords q ↔ p = q := by
  rw [coords, coords, Prod.mk.injEq, Fe.toFp_inj, Fe.toFp_inj, Prod.ext_iff]

/-! ## Point operations -/

/-- `apply_z`. -/
def applyZ (p : Coords) (z : Fe) : Coords :=
  let t1 := z.modSquareFast          -- z^2
  let x1 := p.1.modMultFast t1       -- x1 * z^2
  let t1 := t1.modMultFast z         -- z^3
  let y1 := p.2.modMultFast t1       -- y1 * z^3
  (x1, y1)

theorem coords_applyZ (p : Coords) (z : Fe) : coords (applyZ p z) = CoZ.scale (coords p) z.toFp := by
  simp only [applyZ, coords, CoZ.scale, Fe.toFp_modMultFast, Fe.toFp_modSquareFast, Prod.mk.injEq, true_and]
  ring

/-- `double_jacobian_default`. -/
def doubleJacobian (p : Coords) (z : Fe) : Coords × Fe :=
  if z.isZero then (p, z) else
  let t4 := p.2.modSquareFast        -- t4 = y1^2
  let t5 := p.1.modMultFast t4       -- t5 = x1*y1^2 = A
  let t4 := t4.modSquareFast         -- t4 = y1^4
  let y1 := p.2.modMultFast z        -- t2 = y1*z1 = z3
  let z1 := z.modSquareFast          -- t3 = z1^2
  let x1 := p.1.modAdd z1            -- t1 = x1 + z1^2
  let z1 := z1.modAdd z1             -- t3 = 2*z1^2
  let z1 := x1.modSub z1             -- t3 = x1 - z1^2
  let x1 := x1.modMultFast z1        -- t1 = x1^2 - z1^4
  let z1 := x1.modAdd x1             -- t3 = 2*(x1^2 - z1^4)
  let x1 := x1.modAdd z1             -- t1 = 3*(x1^2 - z1^4)
  let x1 := x1.half                  -- t1 = 3/2*(x1^2 - z1^4) = B
  let z1 := x1.modSquareFast         -- t3 = B^2
  let z1 := z1.modSub t5             -- t3 = B^2 - A
  let z1 := z1.modSub t5             -- t3 = B^2 - 2A = x3
  let t5 := t5.modSub z1             -- t5 = A - x3
  let x1 := x1.modMultFast t5        -- t1 = B * (A - x3)
  let t4 := x1.modSub t4             -- t4 = B * (A - x3) - y1^4 = y3
  ((z1, t4), y1)

theorem coords_doubleJacobian {p : Coords} {z : Fe} (hz : z.toFp ≠ 0) :
    coords (doubleJacobian p z).1 = CoZ.double (-3) (coords p) z.toFp ∧
      (doubleJacobian p z).2.toFp = p.2.toFp * z.toFp := by
  rw [ne_eq, ← Fe.isZero_iff] at hz
  have h2 := two_ne_zero_fp
  simp only [doubleJacobian, if_neg hz, coords, CoZ.double, Fe.toFp_modMultFast, Fe.toFp_modSquareFast,
    Fe.toFp_modAdd, Fe.toFp_modSub, Fe.toFp_half, Prod.mk.injEq, and_true]
  constructor <;> ring

/-- `XYcZ_initial_double`: `2P` and `P'`. -/
def xyczInitialDouble (p : Coords) (initialZ : Option Fe) : Coords × Coords :=
  let z := initialZ.getD Fe.one
  let (p1, z') := doubleJacobian (applyZ p z) z
  (p1, applyZ p z')

/-- `XYcZ_add`: `P'`, `P + Q` and `sub`. -/
def xyczAdd (p q : Coords) : Coords × Coords × Fe :=
  let t5 := q.1.modSub p.1           -- t5 = x2 - x1
  let t5 := t5.modSquareFast         -- t5 = (x2 - x1)^2 = A
  let x1 := p.1.modMultFast t5       -- x1' = x1*A = B
  let x2 := q.1.modMultFast t5       -- t3 = x2*A = C
  let y2 := q.2.modSub p.2           -- t4 = y2 - y1
  let t5 := y2.modSquareFast         -- t5 = (y2 - y1)^2 = D
  let t5 := t5.modSub x1             -- t5 = D - B
  let t5 := t5.modSub x2             -- t5 = D - B - C = x3
  let x2 := x2.modSub x1             -- t3 = C - B
  let y1 := p.2.modMultFast x2       -- y1' = y1*(C - B)
  let sub := x1.modSub t5            -- s = B - x3
  let y2 := y2.modMultFast sub       -- t4 = (y2 - y1)*(B - x3)
  let y2 := y2.modSub y1             -- t4 = y3
  ((x1, y1), (t5, y2), sub)

theorem coords_xyczAdd (p q : Coords) :
    (coords (xyczAdd p q).1, coords (xyczAdd p q).2.1) = CoZ.add (coords p) (coords q) ∧
      (xyczAdd p q).2.2.toFp = (xyczAdd p q).1.1.toFp - (xyczAdd p q).2.1.1.toFp := by
  simp only [xyczAdd, coords, CoZ.add, Fe.toFp_modMultFast, Fe.toFp_modSquareFast, Fe.toFp_modSub, and_true]

/-- `XYcZ_addC`: `P - Q` and `P + Q`. -/
def xyczAddC (p q : Coords) (sub : Fe) : Coords × Coords :=
  let t5 := sub.modSquareFast        -- t5 = (x2 - x1)^2 = A
  let x1 := p.1.modMultFast t5       -- t1 = x1*A = B
  let x2 := q.1.modMultFast t5       -- t3 = x2*A = C
  let t5 := q.2.modAdd p.2           -- t5 = y2 + y1
  let y2 := q.2.modSub p.2           -- t4 = y2 - y1
  let t6 := x2.modSub x1             -- t6 = C - B
  let y1 := p.2.modMultFast t6       -- t2 = y1 * (C - B) = E
  let t6 := x1.modAdd x2             -- t6 = B + C
  let x2 := y2.modSquareFast         -- t3 = (y2 - y1)^2 = D
  let x2 := x2.modSub t6             -- t3 = D - (B + C) = x3
  let t7 := x1.modSub x2             -- t7 = B - x3
  let y2 := y2.modMultFast t7        -- t4 = (y2 - y1)*(B - x3)
  let y2 := y2.modSub y1             -- t4 = (y2 - y1)*(B - x3) - E = y3
  let t7 := t5.modSquareFast         -- t7 = (y2 + y1)^2 = F
  let t7 := t7.modSub t6             -- t7 = F - (B + C) = x3'
  let t6 := t7.modSub x1             -- t6 = x3' - B
  let t6 := t6.modMultFast t5        -- t6 = (y2+y1)*(x3' - B)
  let y1 := t6.modSub y1             -- t2 = (y2+y1)*(x3' - B) - E = y3'
  ((t7, y1), (x2, y2))

/-- `sub` is used only squared: its sign is free. -/
theorem coords_xyczAddC {p q : Coords} {sub : Fe} (hs : sub.toFp ^ 2 = (q.1.toFp - p.1.toFp) ^ 2) :
    (coords (xyczAddC p q sub).1, coords (xyczAddC p q sub).2) = CoZ.addC (coords p) (coords q) := by
  simp only [xyczAddC, coords, CoZ.addC, Fe.toFp_modMultFast, Fe.toFp_modSquareFast, Fe.toFp_modSub, Fe.toFp_modAdd, hs,
    Prod.mk.injEq, true_and, and_true]
  ring

/-! ## The ladder -/

/-- The coordinates of a pair of points. -/
def coordsPair (r : Coords × Coords) : (Fp × Fp) × (Fp × Fp) := (coords r.1, coords r.2)

theorem coordsPair_xyczInitialDouble (p : Coords) {initialZ : Option Fe} (hz : (initialZ.getD Fe.one).toFp ≠ 0) :
    coordsPair (xyczInitialDouble p initialZ).swap = CoZ.start (-3) (coords p) (initialZ.getD Fe.one).toFp := by
  obtain ⟨h1, h2⟩ := coords_doubleJacobian (p := applyZ p (initialZ.getD Fe.one)) hz
  have hy : (applyZ p (initialZ.getD Fe.one)).2.toFp = (coords (applyZ p (initialZ.getD Fe.one))).2 := rfl
  rw [coords_applyZ] at h1 hy
  rw [hy] at h2
  simp only [coordsPair, xyczInitialDouble, Prod.fst_swap, Prod.snd_swap, coords_applyZ, h1, h2, CoZ.start]

/-- `R[1 - nb]` and `R[nb]` of the array `R`, and back. -/
def pick (nb : Bool) (r : Coords × Coords) : Coords × Coords := if nb then r else r.swap

/-- An iteration of the loop of `EccPoint_mult`, for bit `i`: `R` and `sub`. -/
def multStep (scalar : List UInt32) (s : (Coords × Coords) × Fe) (i : Nat) : (Coords × Coords) × Fe :=
  let nb := !vliTestBit scalar i
  let (a, b) := pick nb s.1
  let (a, b) := xyczAddC a b s.2
  let (b, a, sub) := xyczAdd b a
  (pick nb (a, b), sub)

/-- `EccPoint_mult`. -/
def eccPointMult (point : Coords) (scalar : List UInt32) (initialZ : Option Fe) (numBits : Nat) : Coords :=
  let (r1, r0) := xyczInitialDouble point initialZ
  let sub := r0.1.modSub r1.1
  let (r, sub) := (List.range' 1 (numBits - 2)).reverse.foldl (multStep scalar) ((r0, r1), sub)
  let nb := !vliTestBit scalar 0
  let (a, b) := pick nb r
  let (a, b) := xyczAddC a b sub
  let r := pick nb (a, b)
  -- find final 1/Z value
  let z := r.2.1.modSub r.1.1        -- X1 - X0
  let z := z.modMultFast a.2         -- Yb * (X1 - X0)
  let z := z.modMultFast point.1     -- xP * Yb * (X1 - X0)
  let z := z.modInv                  -- 1 / (xP * Yb * (X1 - X0))
  let z := z.modMultFast point.2     -- yP / (xP * Yb * (X1 - X0))
  let z := z.modMultFast a.1         -- Xb * yP / (xP * Yb * (X1 - X0))
  let (b, a, _) := xyczAdd b a
  applyZ (pick nb (a, b)).1 z

/-- `sub` is the difference of the x-coordinates, up to sign. -/
def SubOk (s : (Coords × Coords) × Fe) : Prop := s.2.toFp ^ 2 = (s.1.2.1.toFp - s.1.1.1.toFp) ^ 2

/-- The conjugate addition of an iteration. -/
theorem coords_conj {s : (Coords × Coords) × Fe} (hs : SubOk s) (bit : Bool) :
    coordsPair (xyczAddC (pick (!bit) s.1).1 (pick (!bit) s.1).2 s.2) = CoZ.conj bit (coordsPair s.1) := by
  cases bit with
  | true => exact coords_xyczAddC (show s.2.toFp ^ 2 = (s.1.1.1.toFp - s.1.2.1.toFp) ^ 2 by rw [hs]; ring)
  | false => exact coords_xyczAddC hs

/-- The addition that ends an iteration, of the difference `ab.1` to the sum `ab.2`. -/
theorem coords_pick (bit : Bool) (ab : Coords × Coords) :
    coordsPair (pick (!bit) ((xyczAdd ab.2 ab.1).2.1, (xyczAdd ab.2 ab.1).1)) =
      if bit then CoZ.add (coords ab.2) (coords ab.1) else (CoZ.add (coords ab.2) (coords ab.1)).swap := by
  rw [← (coords_xyczAdd ab.2 ab.1).1]
  cases bit <;> rfl

theorem sub_pick (bit : Bool) (ab : Coords × Coords) :
    SubOk (pick (!bit) ((xyczAdd ab.2 ab.1).2.1, (xyczAdd ab.2 ab.1).1), (xyczAdd ab.2 ab.1).2.2) := by
  unfold SubOk
  rw [(coords_xyczAdd ab.2 ab.1).2]
  cases bit with
  | true => exact sub_sq_comm _ _
  | false => rfl

/-- An iteration is a step of the ladder. -/
theorem multStep_spec (scalar : List UInt32) {s : (Coords × Coords) × Fe} (hs : SubOk s) (i : Nat) :
    coordsPair (multStep scalar s i).1 = CoZ.step ((Words.val scalar).testBit i) (coordsPair s.1) ∧
      SubOk (multStep scalar s i) := by
  have hconj := coords_conj hs ((Words.val scalar).testBit i)
  have hstep : multStep scalar s i =
      let ab := xyczAddC (pick (!vliTestBit scalar i) s.1).1 (pick (!vliTestBit scalar i) s.1).2 s.2
      (pick (!vliTestBit scalar i) ((xyczAdd ab.2 ab.1).2.1, (xyczAdd ab.2 ab.1).1), (xyczAdd ab.2 ab.1).2.2) := rfl
  rw [hstep, vliTestBit_eq, CoZ.step, ← hconj]
  exact ⟨coords_pick _ _, sub_pick _ _⟩

theorem foldl_multStep (scalar : List UInt32) (is : List Nat) {s : (Coords × Coords) × Fe} (hs : SubOk s) :
    coordsPair (is.foldl (multStep scalar) s).1 =
      CoZ.ladder (is.map (Words.val scalar).testBit) (coordsPair s.1) ∧ SubOk (is.foldl (multStep scalar) s) := by
  induction is generalizing s with
  | nil => exact ⟨rfl, hs⟩
  | cons i is ih =>
    obtain ⟨hc, hs'⟩ := multStep_spec scalar hs i
    rw [List.foldl_cons, List.map_cons, CoZ.ladder, List.foldl_cons, ← hc]
    exact ih hs'

/-- The bits the loop of `EccPoint_mult` reads are those of half the scalar. -/
theorem map_testBit_range' (s n : Nat) : (List.range' 1 n).reverse.map s.testBit = Bits.below (s / 2) n := by
  rw [Bits.below_eq_map, List.range'_eq_map_range, ← List.map_reverse, List.map_map]
  refine List.map_congr_left fun i _ => ?_
  rw [Function.comp_apply, Nat.testBit_div_two, Nat.add_comm]

/-- `EccPoint_mult` computes the coordinates of the ladder. -/
theorem coords_eccPointMult (point : Coords) (scalar : List UInt32) {initialZ : Option Fe} (numBits : Nat)
    (hz : (initialZ.getD Fe.one).toFp ≠ 0) :
    coords (eccPointMult point scalar initialZ numBits) =
      CoZ.mult (-3) (coords point) (initialZ.getD Fe.one).toFp
        (Bits.below (Words.val scalar / 2) (numBits - 2)) ((Words.val scalar).testBit 0) := by
  have hstart := coordsPair_xyczInitialDouble point hz
  have hsub : SubOk ((xyczInitialDouble point initialZ).swap,
      (xyczInitialDouble point initialZ).2.1.modSub (xyczInitialDouble point initialZ).1.1) := by
    unfold SubOk
    rw [Fe.toFp_modSub]
    exact sub_sq_comm _ _
  obtain ⟨hloop, hs⟩ := foldl_multStep scalar (List.range' 1 (numBits - 2)).reverse hsub
  rw [map_testBit_range', hstart] at hloop
  rw [CoZ.mult, ← hloop]
  have hmult : eccPointMult point scalar initialZ numBits =
      let s := (List.range' 1 (numBits - 2)).reverse.foldl (multStep scalar) ((xyczInitialDouble point initialZ).swap,
        (xyczInitialDouble point initialZ).2.1.modSub (xyczInitialDouble point initialZ).1.1)
      let nb := !vliTestBit scalar 0
      let ab := xyczAddC (pick nb s.1).1 (pick nb s.1).2 s.2
      applyZ (pick nb ((xyczAdd ab.2 ab.1).2.1, (xyczAdd ab.2 ab.1).1)).1
        ((((((pick nb ab).2.1.modSub (pick nb ab).1.1).modMultFast ab.1.2).modMultFast point.1).modInv.modMultFast
          point.2).modMultFast ab.1.1) := rfl
  rw [hmult]
  generalize (List.range' 1 (numBits - 2)).reverse.foldl (multStep scalar) _ = s at hs ⊢
  have hconj := coords_conj hs ((Words.val scalar).testBit 0)
  rw [CoZ.finish, CoZ.step, ← hconj, vliTestBit_eq]
  simp only [coords_applyZ]
  generalize xyczAddC (pick (!(Words.val scalar).testBit 0) s.1).1 (pick (!(Words.val scalar).testBit 0) s.1).2 s.2 = ab
  have hadd := congrArg Prod.fst (coords_pick ((Words.val scalar).testBit 0) ab)
  simp only [coordsPair, Fe.toFp_modMultFast, Fe.toFp_modInv, Fe.toFp_modSub] at hadd ⊢
  have hdx : (pick (!(Words.val scalar).testBit 0) ab).2.1.toFp - (pick (!(Words.val scalar).testBit 0) ab).1.1.toFp =
      if (Words.val scalar).testBit 0 then ab.1.1.toFp - ab.2.1.toFp else ab.2.1.toFp - ab.1.1.toFp := by
    cases (Words.val scalar).testBit 0 <;> rfl
  rw [hadd, hdx]
  simp only [coords]

end Esptag.Uecc
