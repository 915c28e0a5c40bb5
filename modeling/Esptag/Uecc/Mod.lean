/-
Modular arithmetic of `uECC.c`: sum, difference, and the fast reduction of a product modulo the
prime of secp224r1, whose loops end after three iterations at most.
-/
import Esptag.Lib.Loop
import Esptag.Uecc.Vli

namespace Esptag.Uecc

open Crypto

/-! ## Sum and difference -/

/-- `uECC_vli_modAdd`. -/
def vliModAdd (left right mod : List UInt32) : List UInt32 :=
  let (result, carry) := vliAdd left right 0
  if carry ≠ 0 ∨ vliCmpUnsafe mod result ≠ 1 then (vliSub result mod 0).1 else result

/-- `uECC_vli_modSub`. -/
def vliModSub (left right mod : List UInt32) : List UInt32 :=
  let (result, lBorrow) := vliSub left right 0
  if lBorrow ≠ 0 then (vliAdd result mod 0).1 else result

section

variable {left right mod : List UInt32}

theorem vliModAdd_spec (hl : left.length = mod.length) (hr : right.length = mod.length)
    (hlt : Words.val left < Words.val mod) (hrt : Words.val right ≤ Words.val mod) :
    Words.val (vliModAdd left right mod) = (Words.val left + Words.val right) % Words.val mod ∧
      (vliModAdd left right mod).length = mod.length := by
  obtain ⟨h1, hc1, h3⟩ := vliAdd_spec left right 0 (hl.trans hr.symm) (by decide)
  have hm := Words.val_lt mod
  unfold vliModAdd
  generalize vliAdd left right 0 = p at h1 hc1 h3 ⊢
  obtain ⟨result, carry⟩ := p
  simp only [UInt32.toNat_zero, Nat.add_zero, hl] at h1 hc1 h3 ⊢
  obtain ⟨hcmp, -, -⟩ := vliCmpUnsafe_spec mod result h3.symm
  by_cases h : carry = 0 ∧ vliCmpUnsafe mod result = 1
  · obtain ⟨rfl, hlt⟩ := h
    rw [if_neg (by simp [hlt])]
    rw [UInt32.toNat_zero, Nat.mul_zero, Nat.add_zero] at h1
    rw [← h1, Nat.mod_eq_of_lt (hcmp.1 hlt)]
    exact ⟨rfl, h3⟩
  · rw [if_pos (not_and_or.1 h)]
    have hge : Words.val mod ≤ Words.val left + Words.val right := by
      rw [not_and_or, hcmp, not_lt] at h
      rcases h with hc | hle
      · have : carry.toNat ≠ 0 := fun h0 => hc (UInt32.toNat_inj.1 h0)
        rw [show carry.toNat = 1 by omega] at h1
        omega
      · exact le_trans hle (by omega)
    rw [Nat.mod_eq_sub_mod hge, Nat.mod_eq_of_lt (by omega), length_vliSub h3]
    exact ⟨val_vliSub_of h3 (by rw [h3]; omega) (by rw [h3, h1]; omega), h3⟩

/-- A difference that is not negative is left as it is. -/
theorem vliModSub_of_le (hl : left.length = mod.length) (hr : right.length = mod.length)
    (hle : Words.val right ≤ Words.val left) :
    Words.val (vliModSub left right mod) = Words.val left - Words.val right ∧
      (vliModSub left right mod).length = mod.length := by
  obtain ⟨h1, hb1, h3⟩ := vliSub_spec left right 0 (hl.trans hr.symm) (by decide)
  have hm := Words.val_lt left
  unfold vliModSub
  generalize vliSub left right 0 = p at h1 hb1 h3 ⊢
  obtain ⟨result, borrow⟩ := p
  simp only [UInt32.toNat_zero, Nat.add_zero, hl] at h1 hb1 h3 hm ⊢
  have hres := Words.val_lt result
  rw [h3] at hres
  have hb : borrow.toNat = 0 := by
    by_contra hne
    rw [show borrow.toNat = 1 by omega] at h1
    omega
  obtain rfl : borrow = 0 := UInt32.toNat_inj.1 hb
  rw [hb] at h1
  rw [if_neg (by simp)]
  exact ⟨by omega, h3⟩

theorem vliModSub_spec (hl : left.length = mod.length) (hr : right.length = mod.length)
    (hlt : Words.val left < Words.val mod) (hrt : Words.val right < Words.val mod) :
    Words.val (vliModSub left right mod) =
      (Words.val left + (Words.val mod - Words.val right)) % Words.val mod ∧
      (vliModSub left right mod).length = mod.length := by
  obtain ⟨h1, hb1, h3⟩ := vliSub_spec left right 0 (hl.trans hr.symm) (by decide)
  have hm := Words.val_lt mod
  unfold vliModSub
  generalize vliSub left right 0 = p at h1 hb1 h3 ⊢
  obtain ⟨result, borrow⟩ := p
  simp only [UInt32.toNat_zero, Nat.add_zero, hl] at h1 hb1 h3 ⊢
  by_cases hb : borrow = 0
  · subst hb
    rw [UInt32.toNat_zero, Nat.mul_zero, Nat.add_zero] at h1
    rw [if_neg (by simp), Nat.mod_eq_sub_mod (by omega), Nat.mod_eq_of_lt (by omega)]
    exact ⟨by omega, h3⟩
  · have : borrow.toNat ≠ 0 := fun h0 => hb (UInt32.toNat_inj.1 h0)
    rw [show borrow.toNat = 1 by omega] at h1
    have hres := Words.val_lt result
    rw [h3] at hres
    rw [if_pos hb, Nat.mod_eq_of_lt (by omega), length_vliAdd h3]
    exact ⟨val_vliAdd_of h3 (k := 1) (by rw [h3]; omega) (by rw [h3]; omega), h3⟩

end

/-! ## Reduction modulo the prime -/

/-- `curve_secp224r1.p`. -/
def curveP : List UInt32 :=
  [0x00000001, 0x00000000, 0x00000000, 0xFFFFFFFF, 0xFFFFFFFF, 0xFFFFFFFF, 0xFFFFFFFF]

/-- The prime of secp224r1. -/
def prime : Nat := 26959946667150639794667015087019630673557916260026308143510066298881

theorem val_curveP : Words.val curveP = prime := by decide +kernel

/-- `result` and `carry` of `vli_mmod_fast_secp224r1`. -/
structure Mmod where
  result : List UInt32
  carry : Int

/-- `carry += uECC_vli_add(result, result, tmp, ..)`. -/
def Mmod.add (s : Mmod) (tmp : List UInt32) : Mmod :=
  let (result, c) := vliAdd s.result tmp 0
  ⟨result, s.carry + c.toNat⟩

/-- `carry -= uECC_vli_sub(result, result, tmp, ..)`. -/
def Mmod.sub (s : Mmod) (tmp : List UInt32) : Mmod :=
  let (result, c) := vliSub s.result tmp 0
  ⟨result, s.carry - c.toNat⟩

/-- The state before the loops: the low seven words of a product, and the others `w` folded in. -/
def Mmod.folded (w : Nat → UInt32) (low : List UInt32) : Mmod :=
  let s : Mmod := ⟨low, 0⟩
  -- s1, s2
  let s := s.add [0, 0, 0, w 7, w 8, w 9, w 10]
  let s := s.add [0, 0, 0, w 11, w 12, w 13, 0]
  -- d1, d2
  let s := s.sub [w 7, w 8, w 9, w 10, w 11, w 12, w 13]
  s.sub [w 11, w 12, w 13, 0, 0, 0, 0]

/-- `vli_mmod_fast_secp224r1`, with at most `fuel` iterations of its loops. -/
def vliMmodFast (fuel : Nat) (product : List UInt32) : Option (List UInt32) :=
  let s := Mmod.folded (fun i => product.getD i 0) (product.take 7)
  let s :=
    if s.carry < 0 then
      Loop.run (fun s => s.carry < 0) (·.add curveP) fuel (s.add curveP)
    else
      Loop.run (fun s => s.carry ≠ 0 ∨ vliCmpUnsafe curveP s.result ≠ 1) (·.sub curveP) fuel s
  s.map (·.result)

namespace Mmod

/-- The number a state stands for. -/
def total (s : Mmod) : Int := Words.val s.result + s.carry * 2 ^ 224

theorem total_add {s : Mmod} {t : List UInt32} (hs : s.result.length = 7) (ht : t.length = 7) :
    (s.add t).total = s.total + Words.val t ∧ (s.add t).result.length = 7 := by
  obtain ⟨h1, -, h3⟩ := vliAdd_spec s.result t 0 (by omega) (by decide)
  rw [hs, UInt32.toNat_zero] at h1
  simp only [add, total]
  push_cast at h1 ⊢
  exact ⟨by omega, by omega⟩

theorem total_sub {s : Mmod} {t : List UInt32} (hs : s.result.length = 7) (ht : t.length = 7) :
    (s.sub t).total = s.total - Words.val t ∧ (s.sub t).result.length = 7 := by
  obtain ⟨h1, -, h3⟩ := vliSub_spec s.result t 0 (by omega) (by decide)
  rw [hs, UInt32.toNat_zero] at h1
  simp only [sub, total]
  exact ⟨by omega, by omega⟩

theorem carry_neg_iff {s : Mmod} (hs : s.result.length = 7) : s.carry < 0 ↔ s.total < 0 := by
  have hlt := Words.val_lt s.result
  rw [hs] at hlt
  unfold total
  omega

theorem carry_eq_zero {s : Mmod} (hs : s.result.length = 7) (h0 : 0 ≤ s.total) (hp : s.total < prime) :
    s.carry = 0 ∧ (Words.val s.result : Int) = s.total % prime := by
  have hlt := Words.val_lt s.result
  have hprime : (prime : Int) < 2 ^ 224 := by norm_num [prime]
  rw [hs] at hlt
  rw [Int.emod_eq_of_lt h0 hp]
  unfold total at *
  omega

/-- `k` sums away from a number that is not negative, and congruent to `c`. -/
structure AddInv (c : Int) (k : Nat) (s : Mmod) : Prop where
  len : s.result.length = 7
  lo : -(k * prime : Int) ≤ s.total
  hi : s.total < prime
  mod : s.total % prime = c % prime

theorem AddInv.body {c : Int} {k : Nat} {s : Mmod} (h : AddInv c (k + 1) s) (hc : s.carry < 0) :
    AddInv c k (s.add curveP) := by
  have hneg := (carry_neg_iff h.len).1 hc
  have hlo := h.lo
  obtain ⟨htot, hlen⟩ := total_add h.len (show curveP.length = 7 from rfl)
  rw [val_curveP] at htot
  push_cast at hlo
  exact ⟨hlen, by linarith, by omega, by rw [htot, Int.add_emod_right, h.mod]⟩

theorem AddInv.zero {c : Int} {s : Mmod} (h : AddInv c 0 s) : ¬ s.carry < 0 := by
  have hlo := h.lo
  rw [carry_neg_iff h.len]
  simpa using hlo

/-- The first loop, while the number is negative. -/
theorem AddInv.run {c : Int} {fuel : Nat} {s : Mmod} (h : AddInv c fuel s) :
    ∃ t, Loop.run (fun s => s.carry < 0) (·.add curveP) fuel s = some t ∧ t.result.length = 7 ∧
      (Words.val t.result : Int) = c % prime := by
  obtain ⟨k, t, hrun, ht, hc⟩ := Loop.run_total (c := fun s : Mmod => s.carry < 0) (AddInv c)
    (fun k s h hc => h.body (of_decide_eq_true hc)) (fun s h => decide_eq_false h.zero) fuel s h
  rw [decide_eq_false_iff_not, carry_neg_iff ht.len, not_lt] at hc
  exact ⟨t, hrun, ht.len, by rw [(carry_eq_zero ht.len hc ht.hi).2, ht.mod]⟩

/-- `k` differences away from a reduced number, and congruent to `c`. -/
structure SubInv (c : Int) (k : Nat) (s : Mmod) : Prop where
  len : s.result.length = 7
  lo : 0 ≤ s.total
  hi : s.total < (k + 1) * prime
  mod : s.total % prime = c % prime

/-- The condition of the second loop says that the number is not reduced. -/
theorem cond_sub_iff {s : Mmod} (hs : s.result.length = 7) (h0 : 0 ≤ s.total) :
    s.carry ≠ 0 ∨ vliCmpUnsafe curveP s.result ≠ 1 ↔ (prime : Int) ≤ s.total := by
  have hlt := Words.val_lt s.result
  have hprime : (prime : Int) < 2 ^ 224 := by norm_num [prime]
  obtain ⟨hcmp, -, -⟩ := vliCmpUnsafe_spec curveP s.result (by rw [hs]; rfl)
  rw [ne_eq, ne_eq, hcmp, val_curveP]
  rw [hs] at hlt
  unfold total at *
  omega

theorem SubInv.body {c : Int} {k : Nat} {s : Mmod} (h : SubInv c (k + 1) s)
    (hc : s.carry ≠ 0 ∨ vliCmpUnsafe curveP s.result ≠ 1) : SubInv c k (s.sub curveP) := by
  have hge := (cond_sub_iff h.len h.lo).1 hc
  have hhi := h.hi
  obtain ⟨htot, hlen⟩ := total_sub h.len (show curveP.length = 7 from rfl)
  rw [val_curveP] at htot
  push_cast at hhi
  exact ⟨hlen, by omega, by linarith, by rw [htot, Int.sub_emod_right, h.mod]⟩

theorem SubInv.zero {c : Int} {s : Mmod} (h : SubInv c 0 s) :
    ¬ (s.carry ≠ 0 ∨ vliCmpUnsafe curveP s.result ≠ 1) := by
  have hhi := h.hi
  rw [cond_sub_iff h.len h.lo, not_le]
  simpa using hhi

/-- The second loop, while the number is not reduced. -/
theorem SubInv.run {c : Int} {fuel : Nat} {s : Mmod} (h : SubInv c fuel s) :
    ∃ t, Loop.run (fun s => s.carry ≠ 0 ∨ vliCmpUnsafe curveP s.result ≠ 1) (·.sub curveP) fuel s = some t ∧
      t.result.length = 7 ∧ (Words.val t.result : Int) = c % prime := by
  obtain ⟨k, t, hrun, ht, hc⟩ := Loop.run_total
    (c := fun s : Mmod => s.carry ≠ 0 ∨ vliCmpUnsafe curveP s.result ≠ 1) (SubInv c)
    (fun k s h hc => h.body (of_decide_eq_true hc)) (fun s h => decide_eq_false h.zero) fuel s h
  rw [decide_eq_false_iff_not, cond_sub_iff ht.len ht.lo, not_le] at hc
  exact ⟨t, hrun, ht.len, by rw [(carry_eq_zero ht.len ht.lo hc).2, ht.mod]⟩

theorem folded_spec {w : Nat → UInt32} {low : List UInt32} (h : low.length = 7) :
    let P : Int := Words.val low + 2 ^ 224 * Words.val [w 7, w 8, w 9, w 10, w 11, w 12, w 13]
    (folded w low).result.length = 7 ∧ (folded w low).total % prime = P % prime ∧
      -(2 * 2 ^ 224 : Int) ≤ (folded w low).total ∧ (folded w low).total < 3 * 2 ^ 224 := by
  intro P
  obtain ⟨t1, l1⟩ := total_add (s := ⟨low, 0⟩) (t := [0, 0, 0, w 7, w 8, w 9, w 10]) h rfl
  obtain ⟨t2, l2⟩ := total_add (t := [0, 0, 0, w 11, w 12, w 13, 0]) l1 rfl
  obtain ⟨t3, l3⟩ := total_sub (t := [w 7, w 8, w 9, w 10, w 11, w 12, w 13]) l2 rfl
  obtain ⟨t4, l4⟩ := total_sub (t := [w 11, w 12, w 13, 0, 0, 0, 0]) l3 rfl
  have hsum : (folded w low).total = Words.val low + Words.val [0, 0, 0, w 7, w 8, w 9, w 10] +
      Words.val [0, 0, 0, w 11, w 12, w 13, 0] - Words.val [w 7, w 8, w 9, w 10, w 11, w 12, w 13] -
      Words.val [w 11, w 12, w 13, 0, 0, 0, 0] := by
    rw [folded, t4, t3, t2, t1]
    simp [total]
  have hfold : (folded w low).total = P - prime *
      (Words.val [w 7, w 8, w 9, w 10, w 11, w 12, w 13] + Words.val [w 11, w 12, w 13]) := by
    rw [hsum]
    simp only [P, Words.val_cons, Words.val_nil, UInt32.toNat_zero, prime]
    push_cast
    ring
  refine ⟨l4, by rw [hfold, Int.sub_mul_emod_self_left], ?_⟩
  have h0 := Words.val_lt low
  have h1 := Words.val_lt [0, 0, 0, w 7, w 8, w 9, w 10]
  have h2 := Words.val_lt [0, 0, 0, w 11, w 12, w 13, 0]
  have h3 := Words.val_lt [w 7, w 8, w 9, w 10, w 11, w 12, w 13]
  have h4 := Words.val_lt [w 11, w 12, w 13, 0, 0, 0, 0]
  rw [h] at h0
  simp only [List.length_cons, List.length_nil] at h1 h2 h3 h4
  rw [hsum]
  omega

end Mmod

/-- `vli_mmod_fast_secp224r1` reduces modulo the prime, and three iterations of its loops are enough. -/
theorem vliMmodFast_spec {product : List UInt32} (h : product.length = 14) {fuel : Nat} (hf : 3 ≤ fuel) :
    ∃ r, vliMmodFast fuel product = some r ∧ r.length = 7 ∧ Words.val r = Words.val product % prime := by
  have hlow : (product.take 7).length = 7 := by simp [h]
  have hhigh : product.drop 7 = [product.getD 7 0, product.getD 8 0, product.getD 9 0, product.getD 10 0,
      product.getD 11 0, product.getD 12 0, product.getD 13 0] := by
    refine List.ext_getElem (by simp [h]) fun i h1 h2 => ?_
    have hi : i < 7 := h2
    rw [List.getElem_drop, ← List.getD_eq_getElem product 0]
    interval_cases i <;> rfl
  have hval := Words.val_append (product.take 7) (product.drop 7)
  rw [List.take_append_drop, hlow, hhigh] at hval
  obtain ⟨hlen, hmod, hlo, hhi⟩ := Mmod.folded_spec (w := fun i => product.getD i 0) hlow
  rw [show (Words.val (product.take 7) : Int) + 2 ^ 224 * Words.val [product.getD 7 0, product.getD 8 0,
    product.getD 9 0, product.getD 10 0, product.getD 11 0, product.getD 12 0, product.getD 13 0] =
    Words.val product by rw [hval]; push_cast; ring] at hmod
  unfold vliMmodFast
  generalize Mmod.folded (fun i => product.getD i 0) (product.take 7) = s at hlen hmod hlo hhi ⊢
  have hprime : (2 ^ 224 : Int) - 2 ^ 96 + 1 = prime := by norm_num [prime]
  have hfuel : (3 : Int) ≤ fuel := by exact_mod_cast hf
  by_cases hc : s.carry < 0
  · obtain ⟨htot, hl'⟩ := Mmod.total_add hlen (show curveP.length = 7 from rfl)
    rw [val_curveP] at htot
    have hneg := (Mmod.carry_neg_iff hlen).1 hc
    have hinv : Mmod.AddInv (Words.val product) fuel (s.add curveP) :=
      ⟨hl', by nlinarith, by omega, by rw [htot, Int.add_emod_right, hmod]⟩
    obtain ⟨t, hrun, htl, htv⟩ := hinv.run
    simp only [hc, if_true, hrun, Option.map_some]
    exact ⟨_, rfl, htl, by exact_mod_cast htv⟩
  · rw [Mmod.carry_neg_iff hlen, not_lt] at hc
    have hinv : Mmod.SubInv (Words.val product) fuel s := ⟨hlen, hc, by nlinarith, hmod⟩
    obtain ⟨t, hrun, htl, htv⟩ := hinv.run
    rw [← not_lt, ← Mmod.carry_neg_iff hlen] at hc
    simp only [hc, if_false, hrun, Option.map_some]
    exact ⟨_, rfl, htl, by exact_mod_cast htv⟩

end Esptag.Uecc
