/-
Square roots from the algebra of a root of `-c` over a field: an element is squared until the square
of its square has no real part, and the quotient of the two parts of the square is a root of `c`.
What decides is the order of the quotient of the element's two values, which has to be large enough
for the search to begin before its end.
-/
import Mathlib.Algebra.QuadraticAlgebra.Basic
import Mathlib.Tactic

namespace QuadRoot

variable {F : Type} [Field F]

/-- Pairs `d + e ω`, where `ω² = -c`. -/
abbrev Alg (c : F) : Type := QuadraticAlgebra F (-c) 0

variable {c t y i : F}

/-- The value of an element where `ω` is `t`. -/
def value (h : t * t = -c) : Alg c →ₐ[F] F :=
  QuadraticAlgebra.lift ⟨t, by rw [h, smul_eq_mul, mul_one, zero_smul, add_zero]⟩

theorem value_apply (h : t * t = -c) (z : Alg c) : value h z = z.re + z.im * t := by
  simp [value]

theorem re_sq (z : Alg c) : (z ^ 2).re = z.re ^ 2 - c * z.im ^ 2 := by
  rw [sq, QuadraticAlgebra.re_mul]
  ring

theorem neg_mul_neg_eq (h : t * t = -c) : -t * -t = -c := by rw [neg_mul_neg, h]

section

variable (h2 : (2 : F) ≠ 0) (h : t * t = -c)
include h2

/-- The real part is zero exactly for opposite values. -/
theorem re_eq_zero_iff (z : Alg c) : z.re = 0 ↔ value h z = -value (neg_mul_neg_eq h) z := by
  have hsum : value h z + value (neg_mul_neg_eq h) z = 2 * z.re := by
    rw [value_apply, value_apply]
    ring
  rw [eq_neg_iff_add_eq_zero, hsum, mul_eq_zero, or_iff_right h2]

/-- The other part is zero exactly for equal values. -/
theorem im_eq_zero_iff (ht : t ≠ 0) (z : Alg c) : z.im = 0 ↔ value h z = value (neg_mul_neg_eq h) z := by
  have hdiff : value h z - value (neg_mul_neg_eq h) z = 2 * t * z.im := by
    rw [value_apply, value_apply]
    ring
  have hmul : 2 * t * z.im = 0 ↔ z.im = 0 := by rw [mul_eq_zero, or_iff_right (mul_ne_zero h2 ht)]
  rw [← hmul, ← hdiff, sub_eq_zero]

end

/-! ## Powers of a power of two -/

theorem pow_eq_one_of_le {x : F} {j k : Nat} (h : x ^ 2 ^ j = 1) (hjk : j ≤ k) : x ^ 2 ^ k = 1 := by
  obtain ⟨d, rfl⟩ := Nat.exists_eq_add_of_le hjk
  rw [pow_add, pow_mul, h, one_pow]

/-- Between a power that is not 1 and one that is, there is one of -1. -/
theorem exists_pow_eq_neg_one {x : F} {a b : Nat} (ha : x ^ 2 ^ a ≠ 1) (hb : x ^ 2 ^ b = 1) :
    ∃ k, a ≤ k ∧ k < b ∧ x ^ 2 ^ k = -1 := by
  induction b with
  | zero => exact absurd (pow_eq_one_of_le hb (Nat.zero_le a)) ha
  | succ b ih =>
    have hsq : (x ^ 2 ^ b) ^ 2 = 1 := by rwa [← pow_mul, ← pow_succ]
    rcases sq_eq_one_iff.1 hsq with h1 | hneg
    · obtain ⟨k, hak, hkb, hk⟩ := ih h1
      exact ⟨k, hak, hkb.trans b.lt_succ_self, hk⟩
    · refine ⟨b, ?_, b.lt_succ_self, hneg⟩
      by_contra hlt
      exact ha (pow_eq_one_of_le hb (Nat.lt_of_not_le hlt))

theorem neg_one_ne_one (h2 : (2 : F) ≠ 0) : (-1 : F) ≠ 1 := by
  intro h
  exact h2 (by linear_combination -h)

/-! ## The search -/

section

variable [DecidableEq F]

/-- Squares of `z`, the first of them whose square has no real part; the last after `n` of them. -/
def search : Nat → Alg c → Alg c
  | 0, z => z
  | n + 1, z => if ((z ^ 2) ^ 2).re = 0 then z ^ 2 else search n (z ^ 2)

theorem search_found {n k : Nat} {z : Alg c} (hk : k < n) (hzero : (z ^ 2 ^ (k + 2)).re = 0)
    (hne : ∀ j < k, (z ^ 2 ^ (j + 2)).re ≠ 0) : search n z = z ^ 2 ^ (k + 1) := by
  induction k generalizing n z with
  | zero =>
    obtain ⟨n, rfl⟩ : ∃ m, n = m + 1 := ⟨n - 1, by omega⟩
    have hsq : ((z ^ 2) ^ 2).re = 0 := by
      rw [← pow_mul]
      exact hzero
    rw [search, if_pos hsq, zero_add, pow_one]
  | succ k ih =>
    obtain ⟨n, rfl⟩ : ∃ m, n = m + 1 := ⟨n - 1, by omega⟩
    have hpow : ∀ j, (z ^ 2) ^ 2 ^ j = z ^ 2 ^ (j + 1) := fun j => by rw [← pow_mul, ← pow_succ']
    have hsq : ((z ^ 2) ^ 2).re ≠ 0 := by
      rw [← pow_mul]
      exact hne 0 (Nat.succ_pos k)
    rw [search, if_neg hsq, ih (by omega), hpow]
    · rw [hpow]
      exact hzero
    · intro j hj
      rw [hpow]
      exact hne (j + 1) (Nat.succ_lt_succ hj)

theorem search_last {n : Nat} {z : Alg c} (hne : ∀ j < n, (z ^ 2 ^ (j + 2)).re ≠ 0) : search n z = z ^ 2 ^ n := by
  induction n generalizing z with
  | zero => rw [search, pow_zero, pow_one]
  | succ n ih =>
    have hpow : ∀ j, (z ^ 2) ^ 2 ^ j = z ^ 2 ^ (j + 1) := fun j => by rw [← pow_mul, ← pow_succ']
    have hsq : ((z ^ 2) ^ 2).re ≠ 0 := by
      rw [← pow_mul]
      exact hne 0 (Nat.succ_pos n)
    rw [search, if_neg hsq, ih, hpow]
    intro j hj
    rw [hpow]
    exact hne (j + 1) (Nat.succ_lt_succ hj)

/-- The root the search from `(c + ω)^E` gives. -/
def root (n E : Nat) (c : F) : F :=
  let z := search n ((⟨c, 1⟩ : Alg c) ^ E)
  z.re / z.im

theorem search_eq_pow (n : Nat) (z : Alg c) : ∃ k, search n z = z ^ 2 ^ k := by
  induction n generalizing z with
  | zero => exact ⟨0, by rw [search, pow_zero, pow_one]⟩
  | succ n ih =>
    rw [search]
    split
    · exact ⟨1, by rw [pow_one]⟩
    · obtain ⟨k, hk⟩ := ih (z ^ 2)
      exact ⟨k + 1, by rw [hk, ← pow_mul, ← pow_succ']⟩

/-! ## When it is a root -/

omit [DecidableEq F] in
theorem root_sq_of_found {z : Alg c} (hre : (z ^ 2).re = 0) (him : z.im ≠ 0) : (z.re / z.im) ^ 2 = c := by
  rw [re_sq, sub_eq_zero] at hre
  rw [div_pow, hre, mul_div_cancel_right₀ _ (pow_ne_zero 2 him)]

theorem root_zero {n E : Nat} (hE : 0 < E) : root n E (0 : F) = 0 := by
  have h0 : (0 : F) * 0 = -0 := by rw [mul_zero, neg_zero]
  obtain ⟨k, hk⟩ := search_eq_pow n ((⟨0, 1⟩ : Alg (0 : F)) ^ E)
  have hre : (search n ((⟨0, 1⟩ : Alg (0 : F)) ^ E)).re = 0 := by
    have hv := value_apply h0 (search n ((⟨0, 1⟩ : Alg (0 : F)) ^ E))
    have hz : value h0 (⟨0, 1⟩ : Alg (0 : F)) = 0 := by rw [value_apply, mul_zero, add_zero]
    rw [mul_zero, add_zero] at hv
    rw [← hv, hk, map_pow, map_pow, hz, zero_pow hE.ne', zero_pow (pow_ne_zero k two_ne_zero)]
  rw [root]
  simp only [hre, zero_div]

section

variable {n : Nat} {z : Alg c} (h2 : (2 : F) ≠ 0) (h : t * t = -c)
include h2

/-- Where exactly one value is zero, a root of `-c` results. -/
theorem search_sq_of_zero (hz : value h z = 0 ∧ value (neg_mul_neg_eq h) z ≠ 0 ∨
    value h z ≠ 0 ∧ value (neg_mul_neg_eq h) z = 0) :
    ((search n z).re / (search n z).im) ^ 2 = -c := by
  have hpow : ∀ k, 0 < k → (z ^ k).re ≠ 0 ∧ ((z ^ k).re / (z ^ k).im) ^ 2 = -c := by
    intro k hk
    have hre : (z ^ k).re ≠ 0 := by
      rw [ne_eq, re_eq_zero_iff h2 h, map_pow, map_pow]
      rcases hz with ⟨h0, hne⟩ | ⟨hne, h0⟩
      · rw [h0, zero_pow hk.ne', eq_comm, neg_eq_zero]
        exact pow_ne_zero k hne
      · rw [h0, zero_pow hk.ne', neg_zero]
        exact pow_ne_zero k hne
    have hval : (z ^ k).re ^ 2 = (z ^ k).im ^ 2 * (t * t) := by
      rcases hz with ⟨h0, -⟩ | ⟨-, h0⟩
      · have hv := value_apply h (z ^ k)
        rw [map_pow, h0, zero_pow hk.ne'] at hv
        linear_combination ((z ^ k).re - (z ^ k).im * t) * hv.symm
      · have hv := value_apply (neg_mul_neg_eq h) (z ^ k)
        rw [map_pow, h0, zero_pow hk.ne'] at hv
        linear_combination ((z ^ k).re + (z ^ k).im * t) * hv.symm
    have him : (z ^ k).im ≠ 0 := by
      intro h0
      rw [h0, zero_pow two_ne_zero, zero_mul] at hval
      exact hre (pow_eq_zero_iff two_ne_zero |>.1 hval)
    refine ⟨hre, ?_⟩
    rw [div_pow, hval, h, mul_div_cancel_left₀ _ (pow_ne_zero 2 him)]
  rw [search_last fun j _ => (hpow _ (pow_pos two_pos _)).1]
  exact (hpow _ (pow_pos two_pos _)).2

/-- Where the quotient of the values is a fourth root of 1, the search ends at an element of the field. -/
theorem search_of_pow_eq_one (ht : t ≠ 0) (hn : 2 ≤ n) (hv : value (neg_mul_neg_eq h) z ≠ 0)
    (hx : (value h z / value (neg_mul_neg_eq h) z) ^ 2 ^ 2 = 1) : (search n z).im = 0 := by
  have hpow : ∀ j, 2 ≤ j → value h (z ^ 2 ^ j) = value (neg_mul_neg_eq h) (z ^ 2 ^ j) := by
    intro j hj
    have h1 := pow_eq_one_of_le hx hj
    rw [div_pow, div_eq_one_iff_eq (pow_ne_zero _ hv)] at h1
    rw [map_pow, map_pow, h1]
  have hne : ∀ j < n, (z ^ 2 ^ (j + 2)).re ≠ 0 := by
    intro j _
    rw [ne_eq, re_eq_zero_iff h2 h, hpow (j + 2) (Nat.le_add_left 2 j), map_pow, eq_neg_iff_add_eq_zero, ← two_mul,
      mul_eq_zero, not_or]
    exact ⟨h2, pow_ne_zero _ hv⟩
  rw [search_last hne, im_eq_zero_iff h2 h ht]
  exact hpow n hn

/-- Where it is not, the search finds a square whose square has no real part. -/
theorem search_of_pow_ne_one (ht : t ≠ 0) (hv : value (neg_mul_neg_eq h) z ≠ 0)
    (hx : (value h z / value (neg_mul_neg_eq h) z) ^ 2 ^ 2 ≠ 1)
    (hord : (value h z / value (neg_mul_neg_eq h) z) ^ 2 ^ (n + 1) = 1) :
    (search n z ^ 2).re = 0 ∧ (search n z).im ≠ 0 := by
  obtain ⟨k, hk2, hkn, hk⟩ := exists_pow_eq_neg_one hx hord
  obtain ⟨k, rfl⟩ := Nat.exists_eq_add_of_le' hk2
  have hneg := neg_one_ne_one h2
  have hre : ∀ j, (z ^ 2 ^ j).re = 0 ↔ (value h z / value (neg_mul_neg_eq h) z) ^ 2 ^ j = -1 := by
    intro j
    rw [re_eq_zero_iff h2 h, map_pow, map_pow, div_pow, div_eq_iff (pow_ne_zero _ hv), neg_one_mul]
  have hne : ∀ j < k, (z ^ 2 ^ (j + 2)).re ≠ 0 := by
    intro j hj h0
    have hone : (value h z / value (neg_mul_neg_eq h) z) ^ 2 ^ (j + 3) = 1 := by
      rw [pow_succ, pow_mul, (hre (j + 2)).1 h0]
      norm_num
    exact hneg (hk.symm.trans (pow_eq_one_of_le hone (by omega)))
  have hfound : search n z = z ^ 2 ^ (k + 1) := search_found (by omega) ((hre _).2 hk) hne
  rw [hfound]
  constructor
  · rw [← pow_mul, ← pow_succ]
    exact (hre _).2 hk
  · rw [ne_eq, im_eq_zero_iff h2 h ht, map_pow, map_pow, ← div_eq_one_iff_eq (pow_ne_zero _ hv), ← div_pow]
    intro h1
    exact hneg (hk.symm.trans (pow_eq_one_of_le h1 (Nat.le_succ _)))

end

/-- Over a field with a root `i` of -1 whose elements have order at most `E * 2 ^ (n + 1)`: when the
root of a square `y²` is one. -/
theorem root_sq_iff {n E : Nat} (h2 : (2 : F) ≠ 0) (hi : i * i = -1) (hE : 0 < E) (hn : 2 ≤ n)
    (hord : ∀ x : F, x ≠ 0 → x ^ (E * 2 ^ (n + 1)) = 1) (y : F) :
    root n E (y ^ 2) ^ 2 = y ^ 2 ↔ y = 0 ∨ y ^ 2 ≠ -1 ∧ ((y + i) / (y - i)) ^ (4 * E) ≠ 1 := by
  by_cases hy : y = 0
  · subst hy
    rw [sq (0 : F), mul_zero, root_zero hE]
    simp
  have hi0 : i ≠ 0 := by
    rintro rfl
    rw [mul_zero] at hi
    exact one_ne_zero (neg_eq_zero.1 hi.symm)
  have h : (i * y) * (i * y) = -(y ^ 2) := by linear_combination y ^ 2 * hi
  have ht : i * y ≠ 0 := mul_ne_zero hi0 hy
  have hu : value h (⟨y ^ 2, 1⟩ : Alg (y ^ 2)) = y * (y + i) := by
    rw [value_apply]
    ring
  have hv : value (neg_mul_neg_eq h) (⟨y ^ 2, 1⟩ : Alg (y ^ 2)) = y * (y - i) := by
    rw [value_apply]
    ring
  have hprod : (y + i) * (y - i) = y ^ 2 + 1 := by linear_combination -hi
  have hu' : value h ((⟨y ^ 2, 1⟩ : Alg (y ^ 2)) ^ E) = (y * (y + i)) ^ E := by rw [map_pow, hu]
  have hv' : value (neg_mul_neg_eq h) ((⟨y ^ 2, 1⟩ : Alg (y ^ 2)) ^ E) = (y * (y - i)) ^ E := by rw [map_pow, hv]
  have hquot : value h ((⟨y ^ 2, 1⟩ : Alg (y ^ 2)) ^ E) / value (neg_mul_neg_eq h) ((⟨y ^ 2, 1⟩ : Alg (y ^ 2)) ^ E) =
      ((y + i) / (y - i)) ^ E := by rw [hu', hv', ← div_pow, mul_div_mul_left _ _ hy]
  have hpow : ((y + i) / (y - i)) ^ (4 * E) = (((y + i) / (y - i)) ^ E) ^ 2 ^ 2 := by
    rw [← pow_mul]
    congr 1
    ring
  rw [or_iff_right hy, root, hpow, ← hquot]
  generalize (⟨y ^ 2, 1⟩ : Alg (y ^ 2)) ^ E = z at hu' hv' hquot ⊢
  have hfalse : ¬ -y ^ 2 = y ^ 2 := by
    intro heq
    have h0 : 2 * y ^ 2 = 0 := by linear_combination -heq
    exact mul_ne_zero h2 (pow_ne_zero 2 hy) h0
  by_cases hm : y ^ 2 = -1
  · -- one of the values is zero, and the other is not
    have hsq : ((search n z).re / (search n z).im) ^ 2 = -y ^ 2 := by
      refine search_sq_of_zero h2 h ?_
      rw [hu', hv']
      rw [hm, neg_add_cancel, mul_eq_zero] at hprod
      rcases hprod with h0 | h0
      · have hdiff : y - i = 2 * y := by linear_combination -h0
        rw [h0, hdiff, mul_zero, zero_pow hE.ne']
        exact .inl ⟨rfl, pow_ne_zero E (mul_ne_zero hy (mul_ne_zero h2 hy))⟩
      · have hsum : y + i = 2 * y := by linear_combination -h0
        rw [h0, hsum, mul_zero, zero_pow hE.ne']
        exact .inr ⟨pow_ne_zero E (mul_ne_zero hy (mul_ne_zero h2 hy)), rfl⟩
    exact iff_of_false (fun heq => hfalse (hsq.symm.trans heq)) fun hne => hne.1 hm
  · have hne : (y + i) * (y - i) ≠ 0 := by
      rw [hprod]
      exact fun h0 => hm (eq_neg_of_add_eq_zero_left h0)
    have hv0 : value (neg_mul_neg_eq h) z ≠ 0 := by
      rw [hv']
      exact pow_ne_zero E (mul_ne_zero hy (right_ne_zero_of_mul hne))
    by_cases hx : (value h z / value (neg_mul_neg_eq h) z) ^ 2 ^ 2 = 1
    · have him := search_of_pow_eq_one h2 h ht hn hv0 hx
      refine iff_of_false ?_ fun hno => hno.2 hx
      rw [him, div_zero, zero_pow two_ne_zero]
      exact (pow_ne_zero 2 hy).symm
    · obtain ⟨hre, him⟩ := search_of_pow_ne_one (n := n) h2 h ht hv0 hx (by
        rw [hquot, ← pow_mul]
        exact hord _ (div_ne_zero (left_ne_zero_of_mul hne) (right_ne_zero_of_mul hne)))
      exact iff_of_true (root_sq_of_found hre him) ⟨hm, hx⟩

/-- There are few squares whose root is none. -/
theorem encard_not_root_le {n E : Nat} (h2 : (2 : F) ≠ 0) (hi : i * i = -1) (hE : 0 < E) (hn : 2 ≤ n)
    (hord : ∀ x : F, x ≠ 0 → x ^ (E * 2 ^ (n + 1)) = 1) :
    {c : F | IsSquare c ∧ root n E c ^ 2 ≠ c}.encard ≤ (4 * E + 1 : Nat) := by
  have hE4 : 0 < 4 * E := by omega
  let few : Finset F := insert (-1)
    ((Polynomial.nthRoots (4 * E) (1 : F)).toFinset.image fun w => (i * (w + 1) / (w - 1)) ^ 2)
  have hsub : {c : F | IsSquare c ∧ root n E c ^ 2 ≠ c} ⊆ few := by
    rintro c ⟨⟨y, rfl⟩, hc⟩
    rw [← sq, ne_eq, root_sq_iff h2 hi hE hn hord, not_or, not_and_or, not_ne_iff, not_ne_iff] at hc
    rw [Finset.mem_coe, Finset.mem_insert, or_iff_not_imp_left, Finset.mem_image, ← sq]
    intro hm
    refine ⟨(y + i) / (y - i), ?_, ?_⟩
    · rw [Multiset.mem_toFinset, Polynomial.mem_nthRoots hE4]
      exact hc.2.resolve_left hm
    · -- the fraction is undone
      have hi0 : i ≠ 0 := by
        rintro rfl
        rw [mul_zero] at hi
        exact one_ne_zero (neg_eq_zero.1 hi.symm)
      have hd : y - i ≠ 0 := by
        intro h0
        rw [sub_eq_zero.1 h0, sq] at hm
        exact hm hi
      have hsum : (y + i) / (y - i) + 1 = 2 * y / (y - i) := by
        field_simp
        ring
      have hdiff : (y + i) / (y - i) - 1 = 2 * i / (y - i) := by
        field_simp
        ring
      rw [hsum, hdiff]
      congr 1
      field_simp
  have hcard : few.card ≤ 4 * E + 1 := by
    refine (Finset.card_insert_le _ _).trans (Nat.succ_le_succ ?_)
    exact Finset.card_image_le.trans ((Multiset.toFinset_card_le _).trans (Polynomial.card_nthRoots _ _))
  refine (Set.encard_le_encard hsub).trans ?_
  rw [Set.encard_coe_eq_coe_finsetCard]
  exact_mod_cast hcard

end

end QuadRoot
