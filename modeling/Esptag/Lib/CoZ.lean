/-
Co-Z arithmetic on short Weierstrass curves: pairs of points in Jacobian coordinates over one
denominator, the conjugate addition, and the Montgomery ladder on such a pair, against the group
law of the affine curve. Outside the exceptional cases of the formulas, which show as equal
x-coordinates, the ladder keeps `m • P` and `(m + 1) • P`.
-/
import Esptag.Lib.Bits
import Mathlib.AlgebraicGeometry.EllipticCurve.Affine.Point
import Mathlib.Tactic

namespace CoZ

open WeierstrassCurve

variable {F : Type} [Field F]

/-- The curve `y² = x³ + a x + b`. -/
def curve (a b : F) : Affine F := ⟨0, 0, 0, a, b⟩

variable {a b : F}

theorem equation_iff (x y : F) : (curve a b).Equation x y ↔ y ^ 2 = x ^ 3 + a * x + b := by
  rw [Affine.equation_iff]
  simp [curve]

theorem negY_eq (x y : F) : (curve a b).negY x y = -y := by simp [curve, Affine.negY]

/-- The coordinates `p` stand for the point `P` over the denominator `Z`. -/
structure Rep (Z : F) (p : F × F) (P : (curve a b).Point) : Prop where
  ne : Z ≠ 0
  point : ∃ x y h, P = .some x y h ∧ p = (x * Z ^ 2, y * Z ^ 3)

namespace Rep

variable {Z : F} {p q : F × F} {P Q : (curve a b).Point}

theorem ne_zero (h : Rep Z p P) : P ≠ 0 := by
  obtain ⟨x, y, hn, rfl, -⟩ := h.point
  exact Affine.Point.some_ne_zero hn

theorem neg (h : Rep Z p P) : Rep Z (p.1, -p.2) (-P) := by
  obtain ⟨hZ, x, y, hn, rfl, rfl⟩ := h
  refine ⟨hZ, x, -y, ?_, ?_, by simp⟩
  · rw [← negY_eq (a := a) (b := b) x y, Affine.nonsingular_neg]
    exact hn
  · rw [Affine.Point.neg_some]
    simp only [negY_eq]

theorem eq_of_some {x y : F} {hn : (curve a b).Nonsingular x y} (h : Rep Z p (.some x y hn)) :
    p = (x * Z ^ 2, y * Z ^ 3) := by
  obtain ⟨-, x', y', hn', heq, rfl⟩ := h
  rw [Affine.Point.some.injEq] at heq
  rw [heq.1, heq.2]

/-- Coordinates over a denominator determine the point. -/
theorem eq_of_eq (hp : Rep Z p P) (hq : Rep Z p Q) : P = Q := by
  obtain ⟨hZ, x, y, hn, rfl, rfl⟩ := hp
  obtain ⟨-, x', y', hn', rfl, h⟩ := hq
  rw [Prod.mk.injEq, mul_left_inj' (pow_ne_zero 2 hZ), mul_left_inj' (pow_ne_zero 3 hZ)] at h
  obtain ⟨rfl, rfl⟩ := h
  rfl

/-- The x-coordinates are equal exactly for equal and for opposite points. -/
theorem fst_eq_iff (hp : Rep Z p P) (hq : Rep Z q Q) : p.1 = q.1 ↔ P = Q ∨ P = -Q := by
  obtain ⟨hZ, x, y, hn, rfl, rfl⟩ := hp
  obtain ⟨-, x', y', hn', rfl, rfl⟩ := hq
  rw [← Affine.Point.X_eq_iff, mul_left_inj' (pow_ne_zero 2 hZ)]

end Rep

/-! ## The formulas -/

/-- `XYcZ_add`: the first point over the new denominator, and the sum. -/
def add (p q : F × F) : (F × F) × (F × F) :=
  let A := (q.1 - p.1) ^ 2
  let B := p.1 * A
  let C := q.1 * A
  let y₁ := p.2 * (C - B)
  let x₃ := (q.2 - p.2) ^ 2 - B - C
  ((B, y₁), (x₃, (q.2 - p.2) * (B - x₃) - y₁))

/-- `XYcZ_addC`: the difference and the sum. -/
def addC (p q : F × F) : (F × F) × (F × F) :=
  let A := (q.1 - p.1) ^ 2
  let B := p.1 * A
  let C := q.1 * A
  let E := p.2 * (C - B)
  let x₃ := (q.2 - p.2) ^ 2 - (B + C)
  let x₃' := (q.2 + p.2) ^ 2 - (B + C)
  ((x₃', (q.2 + p.2) * (x₃' - B) - E), (x₃, (q.2 - p.2) * (B - x₃) - E))

/-- The conjugate addition is two additions with one denominator. -/
theorem addC_eq (p q : F × F) : addC p q = ((add p (q.1, -q.2)).2, (add p q).2) := by
  simp only [addC, add, Prod.mk.injEq]
  refine ⟨⟨?_, ?_⟩, ?_, ?_⟩ <;> ring

/-- Jacobian doubling of `(x, y)` over `Z`: the double, over `y Z`. -/
def double (a : F) (p : F × F) (Z : F) : F × F :=
  let A := p.1 * p.2 ^ 2
  let B := (3 * p.1 ^ 2 + a * Z ^ 4) / 2
  let x₃ := B ^ 2 - 2 * A
  (x₃, B * (A - x₃) - p.2 ^ 4)

/-- The curve `y² = x³ - 3 x + b`. -/
abbrev short (b : F) : Affine F := curve (-3) b

/-- `double` on such a curve over `Z = 1`, with the half of one in place of the division. -/
def shortDouble (half : F) (p : F × F) : F × F :=
  let A := p.1 * p.2 ^ 2
  let B := (3 * p.1 ^ 2 + -3) * half
  let x₃ := B ^ 2 - 2 * A
  (x₃, B * (A - x₃) - p.2 ^ 4)

theorem double_eq_shortDouble {half : F} (h : half * 2 = 1) (p : F × F) : double (-3) p 1 = shortDouble half p := by
  have hhalf : (3 * p.1 ^ 2 + -3 * 1 ^ 4) / 2 = (3 * p.1 ^ 2 + -3) * half := by
    rw [one_pow, mul_one, div_eq_mul_inv, eq_inv_of_mul_eq_one_left h]
  simp only [double, shortDouble, hhalf]

/-- Coordinates over a denominator `Z` times larger. -/
def scale (p : F × F) (Z : F) : F × F := (p.1 * Z ^ 2, p.2 * Z ^ 3)

theorem Rep.scale {Z z : F} {p : F × F} {P : (curve a b).Point} (h : Rep Z p P) (hz : z ≠ 0) :
    Rep (Z * z) (scale p z) P := by
  obtain ⟨hZ, x, y, hn, rfl, rfl⟩ := h
  exact ⟨mul_ne_zero hZ hz, x, y, hn, rfl, by simp only [CoZ.scale, mul_pow, mul_assoc]⟩

section

variable [DecidableEq F] {Z : F} {p q : F × F} {P Q : (curve a b).Point}

/-- The sum of two points with different x-coordinates. -/
theorem rep_add (hp : Rep Z p P) (hq : Rep Z q Q) (hne : p.1 ≠ q.1) :
    Rep (Z * (q.1 - p.1)) (add p q).1 P ∧ Rep (Z * (q.1 - p.1)) (add p q).2 (P + Q) := by
  obtain ⟨hZ, x, y, hn, rfl, rfl⟩ := hp
  obtain ⟨-, x', y', hn', rfl, rfl⟩ := hq
  have hx : x ≠ x' := fun h => hne (by rw [h])
  have hZ' : Z * (x' * Z ^ 2 - x * Z ^ 2) ≠ 0 := mul_ne_zero hZ (sub_ne_zero.2 hne.symm)
  have hd : x - x' ≠ 0 := sub_ne_zero.2 hx
  refine ⟨⟨hZ', x, y, hn, rfl, ?_⟩, ⟨hZ', _, _, _, Affine.Point.add_of_X_ne hx, ?_⟩⟩
  · simp only [add, Prod.mk.injEq]
    constructor <;> ring
  · simp only [add, Prod.mk.injEq, Affine.slope_of_X_ne hx, Affine.addX, Affine.addY, Affine.negAddY, negY_eq]
    simp only [curve]
    constructor
    · field_simp
      ring
    · field_simp
      ring

theorem rep_addC (hp : Rep Z p P) (hq : Rep Z q Q) (hne : p.1 ≠ q.1) :
    Rep (Z * (q.1 - p.1)) (addC p q).1 (P - Q) ∧ Rep (Z * (q.1 - p.1)) (addC p q).2 (P + Q) := by
  rw [addC_eq, sub_eq_add_neg P]
  exact ⟨(rep_add hp hq.neg hne).2, (rep_add hp hq hne).2⟩

/-- The double of a point that is not of order two. -/
theorem rep_double (h2 : (2 : F) ≠ 0) (hp : Rep Z p P) (hy : p.2 ≠ 0) :
    Rep (p.2 * Z) (double a p Z) (P + P) := by
  obtain ⟨hZ, x, y, hn, rfl, rfl⟩ := hp
  have hy' : y ≠ 0 := left_ne_zero_of_mul hy
  have hne : y ≠ (curve a b).negY x y := by
    rw [negY_eq, ne_eq, eq_neg_iff_add_eq_zero, ← two_mul, mul_eq_zero, not_or]
    exact ⟨h2, hy'⟩
  refine ⟨mul_ne_zero hy hZ, _, _, _, Affine.Point.add_self_of_Y_ne hne, ?_⟩
  have hd : y - -y ≠ 0 := by rw [sub_neg_eq_add, ← two_mul]; exact mul_ne_zero h2 hy'
  simp only [double, Prod.mk.injEq, Affine.slope_of_Y_ne rfl hne, Affine.addX, Affine.addY, Affine.negAddY, negY_eq]
  simp only [curve, sub_neg_eq_add, ← two_mul]
  constructor
  · field_simp
    ring
  · field_simp
    ring

end

/-! ## The ladder -/

/-- The conjugate addition of a ladder step on the coordinates of `m • P` and `(m + 1) • P`: their
difference, which is `P` up to sign, and their sum. -/
def conj (bit : Bool) (r : (F × F) × (F × F)) : (F × F) × (F × F) := if bit then addC r.2 r.1 else addC r.1 r.2

/-- A ladder step: the difference is added to the sum, which takes the other place. -/
def step (bit : Bool) (r : (F × F) × (F × F)) : (F × F) × (F × F) :=
  let (diff, sum) := conj bit r
  if bit then add sum diff else (add sum diff).swap

/-- The ladder over the bits of a scalar, from the top. -/
def ladder (bits : List Bool) (r : (F × F) × (F × F)) : (F × F) × (F × F) := bits.foldl (fun r bit => step bit r) r

theorem ladder_concat (bits : List Bool) (bit : Bool) (r : (F × F) × (F × F)) :
    ladder (bits ++ [bit]) r = step bit (ladder bits r) := by
  rw [ladder, List.foldl_append]
  rfl

variable [DecidableEq F] {Z : F} {r : (F × F) × (F × F)} {P : (curve a b).Point} {m : Nat}

/-- The coordinates of `m • P` and `(m + 1) • P`. -/
structure Pair (P : (curve a b).Point) (m : Nat) (Z : F) (r : (F × F) × (F × F)) : Prop where
  lo : Rep Z r.1 (m • P)
  hi : Rep Z r.2 ((m + 1) • P)

/-- The denominator after a conjugate addition. -/
def conjZ (bit : Bool) (r : (F × F) × (F × F)) (Z : F) : F := if bit then Z * (r.1.1 - r.2.1) else Z * (r.2.1 - r.1.1)

theorem Pair.conj (h : Pair P m Z r) (bit : Bool) (hne : r.1.1 ≠ r.2.1) :
    Rep (conjZ bit r Z) (CoZ.conj bit r).1 (if bit then P else -P) ∧
      Rep (conjZ bit r Z) (CoZ.conj bit r).2 ((2 * m + 1) • P) := by
  cases bit with
  | true =>
    obtain ⟨hd, hs⟩ := rep_addC h.hi h.lo hne.symm
    rw [show (m + 1) • P - m • P = P by rw [succ_nsmul]; abel] at hd
    rw [← add_nsmul, show m + 1 + m = 2 * m + 1 by ring] at hs
    exact ⟨hd, hs⟩
  | false =>
    obtain ⟨hd, hs⟩ := rep_addC h.lo h.hi hne
    rw [show m • P - (m + 1) • P = -P by rw [succ_nsmul]; abel] at hd
    rw [← add_nsmul, show m + (m + 1) = 2 * m + 1 by ring] at hs
    exact ⟨hd, hs⟩

/-- A step doubles the scalar and adds the bit. -/
theorem Pair.step (h : Pair P m Z r) (bit : Bool) (hne : r.1.1 ≠ r.2.1)
    (hne' : (CoZ.conj bit r).2.1 ≠ (CoZ.conj bit r).1.1) :
    Pair P (2 * m + bit.toNat) (conjZ bit r Z * ((CoZ.conj bit r).1.1 - (CoZ.conj bit r).2.1)) (CoZ.step bit r) := by
  obtain ⟨hd, hs⟩ := h.conj bit hne
  obtain ⟨hs', ha⟩ := rep_add hs hd hne'
  cases bit with
  | true =>
    rw [show (2 * m + 1) • P + (if true then P else -P) = (2 * m + 1 + 1) • P by
      rw [if_pos rfl, succ_nsmul _ (2 * m + 1)]]
      at ha
    exact ⟨hs', ha⟩
  | false =>
    rw [show (2 * m + 1) • P + (if false then P else -P) = (2 * m) • P by
      rw [if_neg (by simp), succ_nsmul]; abel] at ha
    exact ⟨ha, hs'⟩

theorem Pair.ne_zero (h : Pair P m Z r) : P ≠ 0 := by
  rintro rfl
  exact h.lo.ne_zero (smul_zero m)

/-- The x-coordinates of a pair are equal only when the sum of its points is zero. -/
theorem Pair.fst_ne (h : Pair P m Z r) (hm : (2 * m + 1) • P ≠ 0) : r.1.1 ≠ r.2.1 := by
  intro heq
  rcases (h.lo.fst_eq_iff h.hi).1 heq with he | he
  · rw [succ_nsmul, left_eq_add] at he
    exact h.ne_zero he
  · refine hm ?_
    rw [show 2 * m + 1 = m + (m + 1) by ring, add_nsmul, he, neg_add_cancel]

/-- After the conjugate addition they are equal only when one of the neighbours of the sum is zero. -/
theorem Pair.conj_fst_ne (h : Pair P m Z r) (bit : Bool) (hne : r.1.1 ≠ r.2.1) (hm : (2 * m) • P ≠ 0)
    (hm' : (2 * m + 2) • P ≠ 0) : (CoZ.conj bit r).2.1 ≠ (CoZ.conj bit r).1.1 := by
  obtain ⟨hd, hs⟩ := h.conj bit hne
  intro heq
  have hpm : (2 * m + 1) • P = P ∨ (2 * m + 1) • P = -P := by
    rcases (hs.fst_eq_iff hd).1 heq with he | he <;> cases bit <;> simp at he <;> tauto
  rcases hpm with he | he
  · rw [succ_nsmul, add_eq_right] at he
    exact hm he
  · refine hm' ?_
    rw [show 2 * m + 2 = 2 * m + 1 + 1 by ring, succ_nsmul, he, neg_add_cancel]

/-- No multiple next to those the ladder passes is zero. -/
def Regular (P : (curve a b).Point) : List Bool → Nat → Prop
  | [], _ => True
  | bit :: bits, m =>
    ((2 * m) • P ≠ 0 ∧ (2 * m + 1) • P ≠ 0 ∧ (2 * m + 2) • P ≠ 0) ∧ Regular P bits (2 * m + bit.toNat)

/-- What the ladder passes reading a scalar are the numbers of its leading bits. -/
theorem regular_below {k len : Nat}
    (h : ∀ j < len, (2 * (k / 2 ^ (j + 1))) • P ≠ 0 ∧ (2 * (k / 2 ^ (j + 1)) + 1) • P ≠ 0 ∧
      (2 * (k / 2 ^ (j + 1)) + 2) • P ≠ 0) : Regular P (Bits.below k len) (k / 2 ^ len) := by
  induction len with
  | zero => exact trivial
  | succ len ih =>
    refine ⟨h len (Nat.lt_succ_self len), ?_⟩
    rw [Bits.div_two_pow]
    exact ih fun j hj => h j (Nat.lt_succ_of_lt hj)

theorem Pair.ladder {bits : List Bool} (h : Pair P m Z r) (hreg : Regular P bits m) :
    ∃ Z', Pair P (Bits.value bits m) Z' (CoZ.ladder bits r) := by
  induction bits generalizing m Z r with
  | nil => exact ⟨Z, h⟩
  | cons bit bits ih =>
    obtain ⟨⟨h0, h1, h2⟩, hrest⟩ := hreg
    have hne := h.fst_ne h1
    exact ih (h.step bit hne (h.conj_fst_ne bit hne h0 h2)) hrest

/-- The ladder, stopping where x-coordinates are equal. -/
def ladderChecked : List Bool → (F × F) × (F × F) → Option ((F × F) × (F × F))
  | [], r => some r
  | bit :: bits, r =>
    if r.1.1 ≠ r.2.1 ∧ (CoZ.conj bit r).2.1 ≠ (CoZ.conj bit r).1.1 then ladderChecked bits (CoZ.step bit r) else none

theorem Pair.ladderChecked {bits : List Bool} {r' : (F × F) × (F × F)} (h : Pair P m Z r)
    (hr : CoZ.ladderChecked bits r = some r') : ∃ Z', Pair P (Bits.value bits m) Z' r' := by
  induction bits generalizing m Z r with
  | nil => exact ⟨Z, Option.some.inj hr ▸ h⟩
  | cons bit bits ih =>
    rw [CoZ.ladderChecked] at hr
    split at hr
    · rename_i hne
      exact ih (h.step bit hne.1 hne.2) hr
    · cases hr

/-- Where the coordinates are opposite, the sum of the two points is zero. -/
theorem Pair.sum_eq_zero (h : Pair P m Z r) (hx : r.1.1 = r.2.1) (hy : r.1.2 = -r.2.2) : (2 * m + 1) • P = 0 := by
  have hneg := h.hi.neg
  rw [← hx, ← hy] at hneg
  rw [show 2 * m + 1 = m + (m + 1) by ring, add_nsmul, h.lo.eq_of_eq hneg, neg_add_cancel]

/-- A checked ladder that ends at opposite points shows what the order of the point divides. -/
theorem Pair.sum_eq_zero_of_ladderChecked {bits : List Bool} (h : Pair P m Z r)
    (hc : (CoZ.ladderChecked bits r).any (fun r => r.1.1 = r.2.1 ∧ r.1.2 = -r.2.2) = true) :
    (2 * Bits.value bits m + 1) • P = 0 := by
  cases hr : CoZ.ladderChecked bits r with
  | none => simp [hr] at hc
  | some r' =>
    rw [hr, Option.any_some, decide_eq_true_iff] at hc
    obtain ⟨Z', h'⟩ := h.ladderChecked hr
    exact h'.sum_eq_zero hc.1 hc.2

/-! ## Scalar multiplication -/

/-- The pair of `P` and `2 • P`, from affine coordinates and a nonzero number `z` of choice. -/
def start (a : F) (p : F × F) (z : F) : (F × F) × (F × F) :=
  (scale p ((scale p z).2 * z), double a (scale p z) z)

omit [DecidableEq F] in
theorem rep_one {x y : F} (hn : (curve a b).Nonsingular x y) : Rep 1 (x, y) (.some x y hn) :=
  ⟨one_ne_zero, x, y, hn, rfl, by simp⟩

theorem pair_start {x y z : F} {hn : (curve a b).Nonsingular x y} (h2 : (2 : F) ≠ 0) (hy : y ≠ 0) (hz : z ≠ 0) :
    Pair (.some x y hn) 1 ((scale (x, y) z).2 * z) (start a (x, y) z) := by
  have hz' := (rep_one hn).scale hz
  rw [one_mul] at hz'
  have hyz : (scale (x, y) z).2 ≠ 0 := mul_ne_zero hy (pow_ne_zero 3 hz)
  have hlo := (rep_one hn).scale (mul_ne_zero hyz hz)
  have hhi := rep_double h2 hz' hyz
  rw [one_mul] at hlo
  rw [← two_nsmul] at hhi
  exact ⟨by rw [one_nsmul]; exact hlo, hhi⟩

/-- The last step, which recovers the denominator from the difference, known to be `P = (x, y)` up to
sign, and returns affine coordinates. -/
def finish (p : F × F) (bit : Bool) (r : (F × F) × (F × F)) : F × F :=
  let (diff, sum) := conj bit r
  let dx := if bit then diff.1 - sum.1 else sum.1 - diff.1
  scale (step bit r).1 ((dx * diff.2 * p.1)⁻¹ * p.2 * diff.1)

/-- The affine coordinates of a scalar multiple. -/
def mult (a : F) (p : F × F) (z : F) (bits : List Bool) (last : Bool) : F × F :=
  finish p last (ladder bits (start a p z))

theorem Pair.finish {x y : F} {hn : (curve a b).Nonsingular x y} (h : Pair (.some x y hn) m Z r) (bit : Bool)
    (hx : x ≠ 0) (hy : y ≠ 0) (hne : r.1.1 ≠ r.2.1) (hne' : (CoZ.conj bit r).2.1 ≠ (CoZ.conj bit r).1.1) :
    Rep 1 (CoZ.finish (x, y) bit r) ((2 * m + bit.toNat) • .some x y hn) := by
  have hstep := (h.step bit hne hne').lo
  obtain ⟨hd, -⟩ := h.conj bit hne
  have hZ := hd.ne
  -- the number that finish scales by is the inverse of the last denominator
  have hinv : conjZ bit r Z * ((CoZ.conj bit r).1.1 - (CoZ.conj bit r).2.1) *
      (((if bit then (CoZ.conj bit r).1.1 - (CoZ.conj bit r).2.1 else (CoZ.conj bit r).2.1 - (CoZ.conj bit r).1.1) *
        (CoZ.conj bit r).1.2 * x)⁻¹ * y * (CoZ.conj bit r).1.1) = 1 := by
    have hdx := sub_ne_zero.2 hne'.symm
    rw [← neg_sub (CoZ.conj bit r).1.1 (CoZ.conj bit r).2.1]
    generalize (CoZ.conj bit r).1.1 - (CoZ.conj bit r).2.1 = dx at hdx ⊢
    cases bit with
    | true =>
      have hc := hd.eq_of_some
      simp only [if_true, hc]
      field_simp
    | false =>
      have hd' := hd.neg
      rw [if_neg (by simp), neg_neg] at hd'
      have hc := hd'.eq_of_some
      rw [Prod.mk.injEq, neg_eq_iff_eq_neg] at hc
      obtain ⟨h1, h2⟩ := hc
      simp only [Bool.false_eq_true, if_false, h1, h2]
      field_simp
  have hw := right_ne_zero_of_mul_eq_one hinv
  have hrep := hstep.scale hw
  rw [hinv] at hrep
  exact hrep

/-! ## Degeneration -/

/-- The pair a ladder passes where the sum of its points is zero: the points are opposite. -/
theorem Pair.opposite (h : Pair P m Z r) (h0 : (2 * m + 1) • P = 0) : r.1.1 = r.2.1 ∧ r.1.2 = -r.2.2 := by
  have hneg : m • P = -((m + 1) • P) := by
    rw [eq_neg_iff_add_eq_zero, ← add_nsmul, show m + (m + 1) = 2 * m + 1 by ring, h0]
  obtain ⟨hZ, x, y, hn, hx, hr⟩ := h.hi
  obtain ⟨-, x', y', hn', hx', hr'⟩ := h.lo
  rw [hneg, hx, Affine.Point.neg_some, Affine.Point.some.injEq, negY_eq] at hx'
  rw [hr, hr', ← hx'.1, ← hx'.2]
  exact ⟨rfl, by ring⟩

omit [DecidableEq F] in
/-- From opposite points a step leads to the origin beside a point of the cusp `y² = x³`. -/
theorem step_of_opposite (hx : r.1.1 = r.2.1) (hy : r.1.2 = -r.2.2) (bit : Bool) :
    ∃ e, step bit r = ((e ^ 2, e ^ 3), (0, 0)) ∨ step bit r = ((0, 0), (e ^ 2, e ^ 3)) := by
  obtain ⟨⟨x, y⟩, x', y'⟩ := r
  simp only at hx hy
  subst hx hy
  cases bit with
  | true =>
    refine ⟨(-2 * y') ^ 3, Or.inl ?_⟩
    simp only [step, conj, addC, add, if_true, Prod.mk.injEq]
    refine ⟨⟨?_, ?_⟩, ?_, ?_⟩ <;> ring
  | false =>
    refine ⟨(2 * y') ^ 3, Or.inr ?_⟩
    simp only [step, conj, addC, add, Bool.false_eq_true, if_false, Prod.swap, Prod.mk.injEq]
    refine ⟨⟨?_, ?_⟩, ?_, ?_⟩ <;> ring

omit [DecidableEq F] in
/-- The conjugate addition of the origin and a point of the cusp loses both. -/
theorem conj_of_cusp {e : F} (h : r = ((e ^ 2, e ^ 3), (0, 0)) ∨ r = ((0, 0), (e ^ 2, e ^ 3))) (bit : Bool) :
    conj bit r = ((0, 0), (0, 0)) := by
  rcases h with rfl | rfl <;> cases bit <;>
    simp only [conj, addC, if_true, Bool.false_eq_true, if_false, Prod.mk.injEq] <;>
    refine ⟨⟨?_, ?_⟩, ?_, ?_⟩ <;> ring

omit [DecidableEq F] in
/-- Opposite points before the last two steps make the result the origin. -/
theorem finish_of_opposite (hx : r.1.1 = r.2.1) (hy : r.1.2 = -r.2.2) (p : F × F) (bit last : Bool) :
    finish p last (step bit r) = (0, 0) := by
  obtain ⟨e, he⟩ := step_of_opposite hx hy bit
  have hconj := conj_of_cusp he last
  rw [finish, hconj, step, hconj]
  cases last <;> simp [add, scale]

end CoZ
