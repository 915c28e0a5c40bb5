/-
The arithmetic of `uECC.c` on numbers of several words: bits, comparison, shift, addition, and the
product by columns. Each function computes exactly what its comment in the source says, on
numbers of any length the accumulator of the product has room for.
-/
import Esptag.Crypto.Uecc
import Mathlib.Data.Nat.Bitwise

namespace Esptag.Uecc

open Crypto

/-! ## Bits and comparison -/

/-- `uECC_vli_testBit`. -/
def vliTestBit (vli : List UInt32) (bit : Nat) : Bool :=
  vli.getD (bit >>> 5) 0 &&& 1 <<< UInt32.ofNat (bit &&& 0x01F) ≠ 0

theorem vliTestBit_eq (ws : List UInt32) (i : Nat) : vliTestBit ws i = (Words.val ws).testBit i := by
  have hm : i &&& 0x01F = i % 2 ^ 5 := Nat.and_two_pow_sub_one_eq_mod i 5
  have hd : i >>> 5 = i / 2 ^ 5 := Nat.shiftRight_eq_div_pow i 5
  have hone : (1 <<< UInt32.ofNat (i % 2 ^ 5) : UInt32).toNat = 2 ^ (i % 2 ^ 5) := by
    have hlt : i % 2 ^ 5 < 32 := Nat.mod_lt _ (by norm_num)
    rw [UInt32.toNat_shiftLeft, UInt32.toNat_ofNat', UInt32.toNat_one,
      Nat.mod_eq_of_lt (show i % 2 ^ 5 < 2 ^ 32 by omega), Nat.mod_eq_of_lt hlt, Nat.one_shiftLeft,
      Nat.mod_eq_of_lt (Nat.pow_lt_pow_right (by norm_num) hlt)]
  unfold vliTestBit
  rw [hm, hd]
  have hbit : (ws.getD (i / 2 ^ 5) 0).toNat.testBit (i % 2 ^ 5) = (Words.val ws).testBit i := by
    rw [Words.toNat_getD, Nat.testBit_mod_two_pow, ← pow_mul, Nat.testBit_div_two_pow]
    have : i % 2 ^ 5 < 32 := Nat.mod_lt _ (by norm_num)
    rw [decide_eq_true this, Bool.true_and]
    congr 1
    omega
  rw [← hbit]
  rw [Bool.eq_iff_iff, decide_eq_true_iff, ne_eq, ← UInt32.toNat_inj, UInt32.toNat_and, hone, Nat.and_two_pow,
    UInt32.toNat_zero]
  cases (ws.getD (i / 2 ^ 5) 0).toNat.testBit (i % 2 ^ 5) <;> simp

/-- `EVEN(vli)`. -/
def vliEven (vli : List UInt32) : Bool := vli.getD 0 0 &&& 1 == 0

theorem vliEven_iff (ws : List UInt32) : vliEven ws = true ↔ Words.val ws % 2 = 0 := by
  have h := Words.toNat_getD ws 0
  rw [pow_zero, Nat.div_one] at h
  rw [vliEven, beq_iff_eq, ← UInt32.toNat_inj, UInt32.toNat_and, UInt32.toNat_one, Nat.and_one_is_mod,
    UInt32.toNat_zero, h]
  omega

/-- `uECC_vli_cmp_unsafe`: the sign of `left - right`, decided by the highest word that differs. -/
def vliCmpUnsafe : List UInt32 → List UInt32 → Int
  | l :: ls, r :: rs =>
    let high := vliCmpUnsafe ls rs
    if high ≠ 0 then high else if l > r then 1 else if l < r then -1 else 0
  | _, _ => 0

/-- `uECC_vli_cmp_unsafe` compares the numbers. -/
theorem vliCmpUnsafe_spec : ∀ left right : List UInt32, left.length = right.length →
    (vliCmpUnsafe left right = 1 ↔ Words.val right < Words.val left) ∧
      (vliCmpUnsafe left right = -1 ↔ Words.val left < Words.val right) ∧
      (vliCmpUnsafe left right = 0 ↔ Words.val left = Words.val right)
  | [], [], _ => by simp [vliCmpUnsafe]
  | l :: ls, r :: rs, hl => by
    obtain ⟨h1, h2, h0⟩ := vliCmpUnsafe_spec ls rs (by simpa using hl)
    have hlw := l.toNat_lt
    have hrw := r.toNat_lt
    have hgt : (l > r) ↔ r.toNat < l.toNat := UInt32.lt_iff_toNat_lt
    have hlt : (l < r) ↔ l.toNat < r.toNat := UInt32.lt_iff_toNat_lt
    simp only [vliCmpUnsafe, Words.val_cons]
    generalize vliCmpUnsafe ls rs = high at h1 h2 h0 ⊢
    by_cases hz : high = 0
    · -- the words above agree
      have he := h0.1 hz
      simp only [hz, ne_eq, not_true, if_false, hgt, hlt]
      split_ifs <;> simp <;> omega
    · rw [if_pos (show high ≠ 0 from hz)]
      rw [h0] at hz
      exact ⟨h1.trans (by omega), h2.trans (by omega), h0.trans (by omega)⟩

/-- `uECC_vli_equal`. -/
def vliEqual (left right : List UInt32) : Bool :=
  (left.zip right).foldr (fun w diff => diff ||| (w.1 ^^^ w.2)) 0 == 0

theorem vliEqual_iff : ∀ left right : List UInt32, left.length = right.length →
    (vliEqual left right = true ↔ left = right)
  | [], [], _ => by simp [vliEqual]
  | l :: ls, r :: rs, hl => by
    have ih := vliEqual_iff ls rs (by simpa using hl)
    unfold vliEqual at ih ⊢
    rw [beq_iff_eq] at ih ⊢
    rw [List.zip_cons_cons, List.foldr_cons, UInt32.or_eq_zero_iff, ih, List.cons.injEq, UInt32.xor_eq_zero_iff]
    exact and_comm

/-! ## Shift and sum -/

/-- `uECC_vli_rshift1`, from the top word down: the words, and the carry for the word below. -/
def vliRshift1Carry : List UInt32 → List UInt32 × UInt32
  | [] => ([], 0)
  | w :: ws =>
    let (high, carry) := vliRshift1Carry ws
    ((w >>> 1 ||| carry) :: high, w <<< 31)

/-- `uECC_vli_rshift1`. -/
def vliRshift1 (vli : List UInt32) : List UInt32 := (vliRshift1Carry vli).1

theorem vliRshift1Carry_spec (ws : List UInt32) :
    Words.val (vliRshift1Carry ws).1 = Words.val ws / 2 ∧
      (vliRshift1Carry ws).2.toNat = 2 ^ 31 * (Words.val ws % 2) ∧ (vliRshift1Carry ws).1.length = ws.length := by
  induction ws with
  | nil => simp [vliRshift1Carry]
  | cons w ws ih =>
    obtain ⟨hval, hcarry, hlen⟩ := ih
    have hw := w.toNat_lt
    have hhigh : (w >>> 1 ||| (vliRshift1Carry ws).2).toNat = w.toNat / 2 + 2 ^ 31 * (Words.val ws % 2) := by
      rw [UInt32.toNat_or, UInt32.toNat_shiftRight, UInt32.toNat_one, hcarry, Nat.or_comm]
      rw [show w.toNat >>> (1 % 32) = w.toNat / 2 from Nat.shiftRight_eq_div_pow _ 1, Nat.add_comm]
      exact (Nat.two_pow_add_eq_or_of_lt (i := 31) (by omega) _).symm
    have hlow : (w <<< 31).toNat = 2 ^ 31 * (w.toNat % 2) := by
      rw [UInt32.toNat_shiftLeft, show (31 : UInt32).toNat % 32 = 31 from rfl, Nat.shiftLeft_eq]
      omega
    simp only [vliRshift1Carry, Words.val_cons, List.length_cons, hhigh, hlow, hval, hlen]
    refine ⟨by omega, by omega, trivial⟩

@[simp] theorem length_vliRshift1 (ws : List UInt32) : (vliRshift1 ws).length = ws.length :=
  (vliRshift1Carry_spec ws).2.2

@[simp] theorem val_vliRshift1 (ws : List UInt32) : Words.val (vliRshift1 ws) = Words.val ws / 2 :=
  (vliRshift1Carry_spec ws).1

/-- `uECC_vli_add`: the sum and the carry. -/
def vliAdd : List UInt32 → List UInt32 → UInt32 → List UInt32 × UInt32
  | l :: ls, r :: rs, carry =>
    let sum := l + r + carry
    let carry := if sum ≠ l then (if sum < l then 1 else 0) else carry
    let (result, out) := vliAdd ls rs carry
    (sum :: result, out)
  | _, _, carry => ([], carry)

/-- One word of `uECC_vli_add`: the new carry is what the sum wraps by. -/
theorem vliAdd_word (l r carry : UInt32) (hc : carry.toNat ≤ 1) :
    let sum := l + r + carry
    let out : UInt32 := if sum ≠ l then (if sum < l then 1 else 0) else carry
    sum.toNat + 2 ^ 32 * out.toNat = l.toNat + r.toNat + carry.toNat ∧ out.toNat ≤ 1 := by
  intro sum out
  have hl := l.toNat_lt
  have hr := r.toNat_lt
  have hs : sum.toNat = (l.toNat + r.toNat + carry.toNat) % 2 ^ 32 := by
    simp only [sum, UInt32.toNat_add, Nat.mod_add_mod]
  have hne : sum ≠ l ↔ sum.toNat ≠ l.toNat := by rw [ne_eq, ← UInt32.toNat_inj]
  by_cases h : sum ≠ l
  · have ho : out = if sum.toNat < l.toNat then 1 else 0 := by
      simp only [out, if_pos h, UInt32.lt_iff_toNat_lt]
    rw [hne] at h
    rw [ho]
    split
    · rw [UInt32.toNat_one]; omega
    · rw [UInt32.toNat_zero]; omega
  · have ho : out = carry := if_neg h
    rw [hne, not_not] at h
    rw [ho]
    omega

theorem vliAdd_spec : ∀ (left right : List UInt32) (carry : UInt32), left.length = right.length →
    carry.toNat ≤ 1 →
    Words.val (vliAdd left right carry).1 + (2 ^ 32) ^ left.length * (vliAdd left right carry).2.toNat =
      Words.val left + Words.val right + carry.toNat ∧
      (vliAdd left right carry).2.toNat ≤ 1 ∧ (vliAdd left right carry).1.length = left.length
  | [], [], carry, _, hc => by simp [vliAdd, hc]
  | l :: ls, r :: rs, carry, hl, hc => by
    obtain ⟨hw, ho⟩ := vliAdd_word l r carry hc
    obtain ⟨h1, h2, h3⟩ := vliAdd_spec ls rs _ (by simpa using hl) ho
    simp only [vliAdd]
    generalize (if l + r + carry ≠ l then if l + r + carry < l then 1 else 0 else carry) = out at hw ho h1 h2 h3
    refine ⟨?_, h2, by simp [h3]⟩
    simp only [Words.val_cons, List.length_cons, pow_succ' (2 ^ 32) ls.length]
    rw [Nat.mul_assoc]
    generalize (2 ^ 32) ^ ls.length * (vliAdd ls rs out).2.toNat = top at h1 ⊢
    omega

/-- The sum is the number below `2 ^ (32 n)` that the two add up to, apart from what is carried. -/
theorem val_vliAdd_of {left right : List UInt32} (hl : left.length = right.length) {x k : Nat}
    (hx : x < (2 ^ 32) ^ left.length)
    (h : x + (2 ^ 32) ^ left.length * k = Words.val left + Words.val right) :
    Words.val (vliAdd left right 0).1 = x := by
  obtain ⟨h1, -, h3⟩ := vliAdd_spec left right 0 hl (by decide)
  have hlt := Words.val_lt (vliAdd left right 0).1
  rw [h3] at hlt
  rw [UInt32.toNat_zero, Nat.add_zero, ← h] at h1
  have hmod := congrArg (· % (2 ^ 32) ^ left.length) h1
  simpa only [Nat.add_mul_mod_self_left, Nat.mod_eq_of_lt hlt, Nat.mod_eq_of_lt hx] using hmod

/-- The difference is the number below `2 ^ (32 n)` that makes up for it, apart from what is borrowed. -/
theorem val_vliSub_of {left right : List UInt32} (hl : left.length = right.length) {x k : Nat}
    (hx : x < (2 ^ 32) ^ left.length)
    (h : x + Words.val right = Words.val left + (2 ^ 32) ^ left.length * k) :
    Words.val (vliSub left right 0).1 = x := by
  obtain ⟨h1, -, h3⟩ := vliSub_spec left right 0 hl (by decide)
  have hlt := Words.val_lt (vliSub left right 0).1
  rw [h3] at hlt
  rw [UInt32.toNat_zero, Nat.add_zero] at h1
  have hmod : x + Words.val right ≡ Words.val (vliSub left right 0).1 + Words.val right
      [MOD (2 ^ 32) ^ left.length] := by
    rw [h, h1, Nat.ModEq, Nat.add_mul_mod_self_left, Nat.add_mul_mod_self_left]
  have := Nat.ModEq.add_right_cancel' _ hmod
  rwa [Nat.ModEq, Nat.mod_eq_of_lt hlt, Nat.mod_eq_of_lt hx, eq_comm] at this

theorem length_vliAdd {left right : List UInt32} (hl : left.length = right.length) :
    (vliAdd left right 0).1.length = left.length := (vliAdd_spec left right 0 hl (by decide)).2.2

theorem length_vliSub {left right : List UInt32} (hl : left.length = right.length) :
    (vliSub left right 0).1.length = left.length := (vliSub_spec left right 0 hl (by decide)).2.2

/-! ## Product -/

/-- `r0`, `r1`, `r2` of `uECC_vli_mult`. -/
structure Acc where
  r0 : UInt32
  r1 : UInt32
  r2 : UInt32

/-- The number an accumulator holds. -/
def Acc.val (r : Acc) : Nat := r.r0.toNat + 2 ^ 32 * r.r1.toNat + 2 ^ 64 * r.r2.toNat

/-- `muladd`. -/
def muladd (a b : UInt32) (r : Acc) : Acc :=
  let p := a.toUInt64 * b.toUInt64
  let r01 := r.r1.toUInt64 <<< 32 ||| r.r0.toUInt64
  let r01 := r01 + p
  ⟨r01.toUInt32, (r01 >>> 32).toUInt32, r.r2 + if r01 < p then 1 else 0⟩

/-- `muladd` adds the product, unless it runs out of its three words. -/
theorem val_muladd (a b : UInt32) (r : Acc) (h : r.val + a.toNat * b.toNat < 2 ^ 96) :
    (muladd a b r).val = r.val + a.toNat * b.toNat := by
  have h0 := r.r0.toNat_lt
  have h1 := r.r1.toNat_lt
  have h2 := r.r2.toNat_lt
  have hp : (a.toUInt64 * b.toUInt64).toNat = a.toNat * b.toNat := by
    have : a.toNat * b.toNat < 2 ^ 64 := by
      have := Nat.mul_lt_mul'' a.toNat_lt b.toNat_lt
      simpa using this
    rw [UInt64.toNat_mul, UInt32.toNat_toUInt64, UInt32.toNat_toUInt64, Nat.mod_eq_of_lt this]
  have hplt := (a.toUInt64 * b.toUInt64).toNat_lt
  have h01 : (r.r1.toUInt64 <<< 32 ||| r.r0.toUInt64).toNat = 2 ^ 32 * r.r1.toNat + r.r0.toNat := by
    rw [UInt64.toNat_or, UInt64.toNat_shiftLeft, UInt32.toNat_toUInt64, UInt32.toNat_toUInt64,
      show (32 : UInt64).toNat % 64 = 32 from rfl, Nat.shiftLeft_eq, Nat.mod_eq_of_lt (by omega), Nat.mul_comm]
    exact (Nat.two_pow_add_eq_or_of_lt h0 _).symm
  unfold muladd Acc.val at *
  simp only [UInt64.toNat_toUInt32, UInt64.toNat_shiftRight, UInt64.toNat_add, UInt64.lt_iff_toNat_lt, h01, hp,
    show (32 : UInt64).toNat % 64 = 32 from rfl, Nat.shiftRight_eq_div_pow]
  rw [hp] at hplt
  generalize a.toNat * b.toNat = p at *
  split
  · rw [UInt32.toNat_add, UInt32.toNat_one]; omega
  · rw [UInt32.toNat_add, UInt32.toNat_zero]; omega

/-- Column `k` of a product, of the words `is` of the left factor. -/
def multColumn (left right : List UInt32) (k : Nat) (is : List Nat) (r : Acc) : Acc :=
  is.foldl (fun r i => muladd (left.getD i 0) (right.getD (k - i) 0) r) r

/-- Columns one after the other: each leaves a word, and its carries to the next. -/
def multColumns (left right : List UInt32) : List (Nat × List Nat) → Acc → List UInt32 × Acc
  | [], r => ([], r)
  | (k, is) :: cols, r =>
    let r := multColumn left right k is r
    let (result, out) := multColumns left right cols ⟨r.r1, r.r2, 0⟩
    (r.r0 :: result, out)

/-- The columns in the order of the two loops of `uECC_vli_mult`. -/
def multLoops (numWords : Nat) : List (Nat × List Nat) :=
  (List.range numWords).map (fun k => (k, List.range (k + 1))) ++
    (List.range' numWords (numWords - 1)).map fun k =>
      (k, List.range' (k + 1 - numWords) (numWords - (k + 1 - numWords)))

/-- `uECC_vli_mult`. -/
def vliMult (left right : List UInt32) (numWords : Nat) : List UInt32 :=
  let (result, r) := multColumns left right (multLoops numWords) ⟨0, 0, 0⟩
  result ++ [r.r0]

section

variable (left right : List UInt32)

/-- What column `k` adds, of the words `is` of the left factor. -/
def columnSum (k : Nat) (is : List Nat) : Nat :=
  (is.map fun i => (left.getD i 0).toNat * (right.getD (k - i) 0).toNat).sum

/-- What columns add, each one word above the one before. -/
def columnsSum : List (Nat × List Nat) → Nat
  | [] => 0
  | (k, is) :: cols => columnSum left right k is + 2 ^ 32 * columnsSum cols

theorem columnSum_le (k : Nat) (is : List Nat) : columnSum left right k is ≤ is.length * 2 ^ 64 := by
  have h : ∀ x ∈ is.map fun i => (left.getD i 0).toNat * (right.getD (k - i) 0).toNat, x ≤ 2 ^ 64 := by
    intro x hx
    obtain ⟨i, -, rfl⟩ := List.mem_map.1 hx
    rw [show (2 : Nat) ^ 64 = 2 ^ 32 * 2 ^ 32 by norm_num]
    exact Nat.mul_le_mul (left.getD i 0).toNat_lt.le (right.getD (k - i) 0).toNat_lt.le
  simpa [columnSum] using List.sum_le_card_nsmul _ _ h

theorem val_multColumn (k : Nat) (is : List Nat) (r : Acc) (h : r.val + columnSum left right k is < 2 ^ 96) :
    (multColumn left right k is r).val = r.val + columnSum left right k is := by
  induction is generalizing r with
  | nil => rfl
  | cons i is ih =>
    simp only [columnSum, List.map_cons, List.sum_cons] at h ih ⊢
    have hm := val_muladd (left.getD i 0) (right.getD (k - i) 0) r (by omega)
    unfold multColumn at ih ⊢
    rw [List.foldl_cons, ih _ (by omega), hm]
    omega

/-- One word leaves the accumulator for the result, the rest is the carry. -/
theorem Acc.val_shift (r : Acc) : r.val = r.r0.toNat + 2 ^ 32 * (Acc.mk r.r1 r.r2 0).val := by
  unfold Acc.val
  simp only [UInt32.toNat_zero]
  ring

theorem multColumns_spec (cols : List (Nat × List Nat)) (hc : ∀ c ∈ cols, c.2.length < 2 ^ 31) (r : Acc)
    (hr : r.val < 2 ^ 64) :
    Words.val (multColumns left right cols r).1 + (2 ^ 32) ^ cols.length * (multColumns left right cols r).2.val =
      r.val + columnsSum left right cols ∧
      (multColumns left right cols r).2.val < 2 ^ 64 ∧ (multColumns left right cols r).1.length = cols.length := by
  induction cols generalizing r with
  | nil => exact ⟨by simp [multColumns, columnsSum], hr, rfl⟩
  | cons c cols ih =>
    obtain ⟨k, is⟩ := c
    have hlen : is.length < 2 ^ 31 := hc _ (List.mem_cons_self ..)
    have hsum := columnSum_le left right k is
    have hle : is.length * 2 ^ 64 ≤ 2 ^ 31 * 2 ^ 64 := Nat.mul_le_mul_right _ hlen.le
    have hcol := val_multColumn left right k is r (by omega)
    simp only [multColumns, columnsSum]
    generalize multColumn left right k is r = s at hcol ⊢
    have hshift := s.val_shift
    obtain ⟨h1, h2, h3⟩ := ih (fun c hm => hc c (List.mem_cons_of_mem _ hm)) ⟨s.r1, s.r2, 0⟩ (by omega)
    refine ⟨?_, h2, by simp [h3]⟩
    rw [List.length_cons, pow_succ', Words.val_cons, Nat.mul_assoc]
    omega

theorem columnsSum_append (a b : List (Nat × List Nat)) :
    columnsSum left right (a ++ b) = columnsSum left right a + (2 ^ 32) ^ a.length * columnsSum left right b := by
  induction a with
  | nil => simp [columnsSum]
  | cons c a ih =>
    obtain ⟨k, is⟩ := c
    rw [List.cons_append, columnsSum, columnsSum, ih, List.length_cons, pow_succ']
    ring

theorem columnsSum_range' (f : Nat → List Nat) (s m : Nat) :
    columnsSum left right ((List.range' s m).map fun k => (k, f k)) =
      ∑ j ∈ Finset.range m, (2 ^ 32) ^ j * columnSum left right (s + j) (f (s + j)) := by
  induction m generalizing s with
  | zero => rfl
  | succ m ih =>
    rw [List.range'_succ, List.map_cons, columnsSum, ih, Finset.sum_range_succ', Finset.mul_sum, Nat.add_comm]
    congr 1
    · refine Finset.sum_congr rfl fun j _ => ?_
      rw [pow_succ' (2 ^ 32) j, Nat.mul_assoc, show s + 1 + j = s + (j + 1) by omega]
    · simp

/-- The whole column `k`: the products of the words whose places add up to `k`. -/
def convolution (k : Nat) : Nat := ∑ i ∈ Finset.range (k + 1), (left.getD i 0).toNat * (right.getD (k - i) 0).toNat

theorem columnSum_low (k : Nat) : columnSum left right k (List.range (k + 1)) = convolution left right k := rfl

variable {left right}

/-- Beyond the length of a factor, the second loop leaves out only words that are not there. -/
theorem columnSum_high {n k : Nat} (hl : left.length = n) (hr : right.length = n) (hk : n ≤ k) :
    columnSum left right k (List.range' (k + 1 - n) (n - (k + 1 - n))) = convolution left right k := by
  have h : columnSum left right k (List.range' (k + 1 - n) (n - (k + 1 - n))) =
      ∑ i ∈ Finset.Ico (k + 1 - n) n, (left.getD i 0).toNat * (right.getD (k - i) 0).toNat := rfl
  rw [h, convolution]
  refine Finset.sum_subset (fun i hi => ?_) fun i hi hni => ?_
  · rw [Finset.mem_Ico] at hi
    exact Finset.mem_range.2 (by omega)
  · rw [Finset.mem_Ico, not_and_or] at hni
    rw [Finset.mem_range] at hi
    rcases Nat.lt_or_ge i n with hlt | hge
    · rw [List.getD_eq_default right _ (by omega)]; rfl
    · rw [List.getD_eq_default left _ (by omega), UInt32.toNat_zero, Nat.zero_mul]

theorem columnsSum_multLoops {n : Nat} (hl : left.length = n) (hr : right.length = n) :
    columnsSum left right (multLoops n) =
      ∑ k ∈ Finset.range (n + (n - 1)), (2 ^ 32) ^ k * convolution left right k := by
  rw [multLoops, columnsSum_append, List.range_eq_range', columnsSum_range', columnsSum_range', Finset.sum_range_add,
    List.length_map, List.length_range', Finset.mul_sum]
  congr 1
  · refine Finset.sum_congr rfl fun j _ => ?_
    rw [Nat.zero_add, columnSum_low]
  · refine Finset.sum_congr rfl fun j _ => ?_
    rw [columnSum_high hl hr (by omega), pow_add, Nat.mul_assoc]

/-- The columns add up to the product. -/
theorem sum_convolution {n : Nat} (hl : left.length = n) (hr : right.length = n) :
    ∑ k ∈ Finset.range (n + (n - 1)), (2 ^ 32) ^ k * convolution left right k = Words.val left * Words.val right := by
  have h : ∀ k ∈ Finset.range (n + (n - 1)), (2 ^ 32) ^ k * convolution left right k =
      ∑ i ∈ Finset.range (k + 1),
        ((left.getD i 0).toNat * (2 ^ 32) ^ i) * ((right.getD (k - i) 0).toNat * (2 ^ 32) ^ (k - i)) := by
    intro k _
    rw [convolution, Finset.mul_sum]
    refine Finset.sum_congr rfl fun i hi => ?_
    have hk : (2 ^ 32) ^ k = (2 ^ 32) ^ i * (2 ^ 32) ^ (k - i) := by
      rw [← pow_add]; congr 1; have := Finset.mem_range.1 hi; omega
    rw [hk]
    ring
  rw [Finset.sum_congr rfl h, Finset.sum_range_diag_flip (n + (n - 1)) fun i j =>
    ((left.getD i 0).toNat * (2 ^ 32) ^ i) * ((right.getD j 0).toNat * (2 ^ 32) ^ j)]
  have hrow : ∀ i ∈ Finset.range (n + (n - 1)), ∑ j ∈ Finset.range (n + (n - 1) - i),
      ((left.getD i 0).toNat * (2 ^ 32) ^ i) * ((right.getD j 0).toNat * (2 ^ 32) ^ j) =
        ((left.getD i 0).toNat * (2 ^ 32) ^ i) * Words.val right := by
    intro i _
    rcases Nat.lt_or_ge i n with hlt | hge
    · rw [← Finset.mul_sum, Words.val_eq_sum right (n := n + (n - 1) - i) (by omega)]
    · simp only [List.getD_eq_default left _ (show left.length ≤ i by omega), UInt32.toNat_zero, Nat.zero_mul,
        Finset.sum_const_zero]
  rw [Finset.sum_congr rfl hrow, ← Finset.sum_mul]
  rw [Words.val_eq_sum left (n := n + (n - 1)) (by omega)]

/-- `uECC_vli_mult` computes the product, in twice the words. -/
theorem vliMult_spec {n : Nat} (hl : left.length = n) (hr : right.length = n) (hpos : 0 < n) (hn : n < 2 ^ 31) :
    Words.val (vliMult left right n) = Words.val left * Words.val right ∧ (vliMult left right n).length = 2 * n := by
  have hcols : ∀ c ∈ multLoops n, c.2.length < 2 ^ 31 := by
    intro c hc
    rcases List.mem_append.1 hc with h | h <;> obtain ⟨k, hk, rfl⟩ := List.mem_map.1 h
    · rw [List.mem_range] at hk
      simp only [List.length_range]
      omega
    · simp only [List.length_range']
      omega
  have hlen : (multLoops n).length = 2 * n - 1 := by simp [multLoops]; omega
  obtain ⟨h1, h2, h3⟩ := multColumns_spec left right (multLoops n) hcols ⟨0, 0, 0⟩ (by decide)
  rw [columnsSum_multLoops hl hr, sum_convolution hl hr, hlen, show (Acc.mk 0 0 0).val = 0 from rfl, Nat.zero_add] at h1
  rw [hlen] at h3
  unfold vliMult
  generalize multColumns left right (multLoops n) ⟨0, 0, 0⟩ = p at h1 h2 h3
  obtain ⟨result, r⟩ := p
  simp only at h1 h2 h3 ⊢
  -- the last carry is one word, since the product has 2n
  have htop : (2 ^ 32) ^ (2 * n - 1) * r.val < (2 ^ 32) ^ (2 * n - 1) * 2 ^ 32 := by
    calc (2 ^ 32) ^ (2 * n - 1) * r.val ≤ Words.val left * Words.val right := by omega
      _ < (2 ^ 32) ^ n * (2 ^ 32) ^ n := Nat.mul_lt_mul'' (hl ▸ Words.val_lt left) (hr ▸ Words.val_lt right)
      _ = (2 ^ 32) ^ (2 * n - 1) * 2 ^ 32 := by rw [← pow_add, ← pow_succ]; congr 1; omega
  have hr0 : r.r0.toNat = r.val := by
    have := Nat.lt_of_mul_lt_mul_left htop
    have := r.val_shift
    omega
  rw [Words.val_append, h3, Words.val_cons, Words.val_nil, hr0, List.length_append, h3]
  exact ⟨by rw [← h1]; ring, by simp; omega⟩

end

end Esptag.Uecc
