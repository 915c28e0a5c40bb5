/-
The modular inverse of `uECC.c`, by a binary greatest common divisor: its loop ends within twice
as many iterations as the numbers have bits, and its result times the input is congruent to the
greatest common divisor of the input and the modulus.
-/
import Esptag.Lib.Loop
import Esptag.Uecc.Vli

namespace Esptag.Uecc

open Crypto

/-! ## Halving -/

/-- `vli[num_words - 1] |= w`. -/
def vliOrTop (vli : List UInt32) (w : UInt32) : List UInt32 := vli.modify (vli.length - 1) (· ||| w)

@[simp] theorem length_vliOrTop (vli : List UInt32) (w : UInt32) : (vliOrTop vli w).length = vli.length := by
  rw [vliOrTop, List.length_modify]

/-- A shift puts the carry of the sum before it in at the top. -/
theorem val_vliOrTop_vliRshift1 {ws : List UInt32} (hne : 0 < ws.length) {carry w : UInt32}
    (hw : w.toNat = 2 ^ 31 * carry.toNat) :
    Words.val (vliOrTop (vliRshift1 ws) w) = (Words.val ws + (2 ^ 32) ^ ws.length * carry.toNat) / 2 := by
  obtain ⟨n, hn⟩ : ∃ n, ws.length = n + 1 := ⟨ws.length - 1, by omega⟩
  have hlt := Words.val_lt ws
  have hm := Words.val_modify (vliRshift1 ws) n (· ||| w) (by simp [hn])
  have htop : ((vliRshift1 ws).getD n 0).toNat < 2 ^ 31 := by
    rw [Words.toNat_getD, val_vliRshift1]
    refine lt_of_le_of_lt (Nat.mod_le _ _) ?_
    rw [Nat.div_lt_iff_lt_mul (by positivity)]
    rw [hn, pow_succ] at hlt
    omega
  have hor : ((vliRshift1 ws).getD n 0 ||| w).toNat = ((vliRshift1 ws).getD n 0).toNat + 2 ^ 31 * carry.toNat := by
    rw [UInt32.toNat_or, hw, Nat.or_comm, Nat.add_comm]
    exact (Nat.two_pow_add_eq_or_of_lt htop _).symm
  rw [hor, Nat.add_mul, val_vliRshift1] at hm
  rw [vliOrTop, length_vliRshift1, hn, Nat.add_sub_cancel, pow_succ]
  have hpow : (2 ^ 32) ^ n * 2 ^ 32 * carry.toNat = 2 * (2 ^ 31 * carry.toNat * (2 ^ 32) ^ n) := by ring
  rw [hpow, Nat.add_mul_div_left _ _ (by norm_num)]
  omega

/-! ## Inverse -/

/-- `vli_modInv_update`. -/
def vliModInvUpdate (uv mod : List UInt32) : List UInt32 :=
  let (uv, carry) := if vliEven uv then (uv, 0) else vliAdd uv mod 0
  let uv := vliRshift1 uv
  if carry ≠ 0 then vliOrTop uv 0x80000000 else uv

/-- `a`, `b`, `u` and `v` of `uECC_vli_modInv`. -/
structure ModInv where
  a : List UInt32
  b : List UInt32
  u : List UInt32
  v : List UInt32

/-- The body of the loop of `uECC_vli_modInv`. -/
def ModInv.body (mod : List UInt32) (s : ModInv) : ModInv :=
  if vliEven s.a then
    { s with a := vliRshift1 s.a, u := vliModInvUpdate s.u mod }
  else if vliEven s.b then
    { s with b := vliRshift1 s.b, v := vliModInvUpdate s.v mod }
  else if vliCmpUnsafe s.a s.b > 0 then
    let a := vliRshift1 (vliSub s.a s.b 0).1
    let u := if vliCmpUnsafe s.u s.v < 0 then (vliAdd s.u mod 0).1 else s.u
    { s with a, u := vliModInvUpdate (vliSub u s.v 0).1 mod }
  else
    let b := vliRshift1 (vliSub s.b s.a 0).1
    let v := if vliCmpUnsafe s.v s.u < 0 then (vliAdd s.v mod 0).1 else s.v
    { s with b, v := vliModInvUpdate (vliSub v s.u 0).1 mod }

/-- `uECC_vli_modInv`, with at most `fuel` iterations of its loop. -/
def vliModInv (fuel : Nat) (input mod : List UInt32) : Option (List UInt32) :=
  if vliIsZero input then
    some (List.replicate input.length 0)
  else
    let zero := List.replicate input.length 0
    let s := Loop.run (fun s => vliCmpUnsafe s.a s.b ≠ 0) (ModInv.body mod) fuel
      ⟨input, mod, zero.set 0 1, zero⟩
    s.map (·.u)

section

variable {mod : List UInt32} {input : Nat}

/-- Halving modulo an odd number. -/
theorem vliModInvUpdate_spec {uv : List UInt32} (hl : uv.length = mod.length) (hpos : 0 < mod.length)
    (hodd : Words.val mod % 2 = 1) (hlt : Words.val uv < Words.val mod) :
    2 * Words.val (vliModInvUpdate uv mod) ≡ Words.val uv [MOD Words.val mod] ∧
      Words.val (vliModInvUpdate uv mod) < Words.val mod ∧ (vliModInvUpdate uv mod).length = mod.length := by
  unfold vliModInvUpdate
  cases he : vliEven uv with
  | true =>
    have := (vliEven_iff uv).1 he
    simp only [if_true, ne_eq, not_true, if_false, val_vliRshift1, length_vliRshift1]
    exact ⟨by rw [Nat.mul_div_cancel' (Nat.dvd_of_mod_eq_zero this)], by omega, hl⟩
  | false =>
    have ho : ¬ Words.val uv % 2 = 0 := by rw [← vliEven_iff, he]; simp
    obtain ⟨h1, hc1, h3⟩ := vliAdd_spec uv mod 0 hl (by decide)
    simp only [Bool.false_eq_true, if_false]
    generalize vliAdd uv mod 0 = p at h1 hc1 h3 ⊢
    obtain ⟨sum, carry⟩ := p
    simp only [UInt32.toNat_zero, Nat.add_zero] at h1 hc1 h3 ⊢
    have hhalf : Words.val (if carry ≠ 0 then vliOrTop (vliRshift1 sum) 0x80000000 else vliRshift1 sum) =
        (Words.val uv + Words.val mod) / 2 := by
      by_cases hc : carry = 0
      · subst hc
        rw [UInt32.toNat_zero, Nat.mul_zero, Nat.add_zero] at h1
        rw [if_neg (by simp), val_vliRshift1, h1]
      · have hone : carry.toNat = 1 := by
          have : carry.toNat ≠ 0 := fun h0 => hc (UInt32.toNat_inj.1 h0)
          omega
        rw [if_pos hc, val_vliOrTop_vliRshift1 (by omega) (by rw [hone]; rfl), h3, h1]
    have hlen : (if carry ≠ 0 then vliOrTop (vliRshift1 sum) 0x80000000 else vliRshift1 sum).length = mod.length := by
      split <;> simp [h3, hl]
    rw [hhalf]
    refine ⟨?_, by omega, hlen⟩
    rw [Nat.mul_div_cancel' (by omega), Nat.ModEq, Nat.add_mod_right]

/-- A pair of the algorithm: `u` times the input is congruent to `x`, which is not zero. -/
structure Side (mod : List UInt32) (input : Nat) (x u : List UInt32) : Prop where
  lenX : x.length = mod.length
  lenU : u.length = mod.length
  lt : Words.val u < Words.val mod
  cong : Words.val u * input ≡ Words.val x [MOD Words.val mod]
  pos : 0 < Words.val x

theorem Side.halve {x u : List UInt32} (h : Side mod input x u) (hpos : 0 < mod.length)
    (hodd : Words.val mod % 2 = 1) (he : Words.val x % 2 = 0) :
    Side mod input (vliRshift1 x) (vliModInvUpdate u mod) := by
  obtain ⟨hu, hlt, hlen⟩ := vliModInvUpdate_spec h.lenU hpos hodd h.lt
  have hx := h.pos
  refine ⟨by rw [length_vliRshift1, h.lenX], hlen, hlt, ?_, by rw [val_vliRshift1]; omega⟩
  have hcop : Nat.Coprime (Words.val mod) 2 := Nat.coprime_two_right.2 (Nat.odd_iff.2 hodd)
  refine Nat.ModEq.cancel_left_of_coprime hcop ?_
  calc 2 * (Words.val (vliModInvUpdate u mod) * input)
      = 2 * Words.val (vliModInvUpdate u mod) * input := by ring
    _ ≡ Words.val u * input [MOD Words.val mod] := hu.mul_right _
    _ ≡ Words.val x [MOD Words.val mod] := h.cong
    _ = 2 * Words.val (vliRshift1 x) := by rw [val_vliRshift1]; omega

/-- The difference of two pairs, before it is halved. -/
theorem Side.sub {x u y v : List UInt32} (h : Side mod input x u) (h' : Side mod input y v)
    (hlt : Words.val y < Words.val x) :
    Side mod input (vliSub x y 0).1
      (vliSub (if vliCmpUnsafe u v < 0 then (vliAdd u mod 0).1 else u) v 0).1 := by
  have hu := h.lt
  have hv := h'.lt
  have hm := Words.val_lt mod
  have hx := Words.val_lt x
  have hxy : Words.val (vliSub x y 0).1 = Words.val x - Words.val y :=
    val_vliSub_of (h.lenX.trans h'.lenX.symm) (k := 0) (by omega) (by omega)
  obtain ⟨hc1, hc2, hc0⟩ := vliCmpUnsafe_spec u v (h.lenU.trans h'.lenU.symm)
  have hneg : vliCmpUnsafe u v < 0 ↔ Words.val u < Words.val v := by
    rw [← hc2]
    rcases lt_trichotomy (Words.val u) (Words.val v) with hlt | heq | hgt
    · rw [hc2.2 hlt]; decide
    · rw [hc0.2 heq]; decide
    · rw [hc1.2 hgt]; decide
  have hdiff : (vliSub (if vliCmpUnsafe u v < 0 then (vliAdd u mod 0).1 else u) v 0).1.length = mod.length ∧
      Words.val (vliSub (if vliCmpUnsafe u v < 0 then (vliAdd u mod 0).1 else u) v 0).1 < Words.val mod ∧
      Words.val (vliSub (if vliCmpUnsafe u v < 0 then (vliAdd u mod 0).1 else u) v 0).1 + Words.val v ≡
        Words.val u [MOD Words.val mod] := by
    by_cases hlt' : Words.val u < Words.val v
    · obtain ⟨a1, -, a3⟩ := vliAdd_spec u mod 0 h.lenU (by decide)
      have hl : (vliAdd u mod 0).1.length = v.length := by rw [a3, h.lenU, h'.lenU]
      rw [UInt32.toNat_zero, Nat.add_zero, h.lenU] at a1
      rw [if_pos (hneg.2 hlt'), length_vliSub hl, val_vliSub_of hl (x := Words.val u + Words.val mod - Words.val v)
        (k := (vliAdd u mod 0).2.toNat) (by rw [a3, h.lenU]; omega) (by rw [a3, h.lenU]; omega)]
      refine ⟨by rw [a3, h.lenU], by omega, ?_⟩
      rw [Nat.sub_add_cancel (by omega), Nat.ModEq, Nat.add_mod_right]
    · have hl : u.length = v.length := h.lenU.trans h'.lenU.symm
      rw [if_neg (by rwa [hneg]), length_vliSub hl, val_vliSub_of hl (x := Words.val u - Words.val v) (k := 0)
        (by rw [h.lenU]; omega) (by omega)]
      exact ⟨h.lenU, by omega, by rw [Nat.sub_add_cancel (by omega)]⟩
  obtain ⟨hlen, hltm, hcong⟩ := hdiff
  generalize (vliSub (if vliCmpUnsafe u v < 0 then (vliAdd u mod 0).1 else u) v 0).1 = d at hlen hltm hcong ⊢
  refine ⟨by rw [length_vliSub (h.lenX.trans h'.lenX.symm), h.lenX], hlen, hltm, ?_, by omega⟩
  refine Nat.ModEq.add_right_cancel h'.cong ?_
  calc Words.val d * input + Words.val v * input = (Words.val d + Words.val v) * input := by ring
    _ ≡ Words.val u * input [MOD Words.val mod] := hcong.mul_right _
    _ ≡ Words.val x [MOD Words.val mod] := h.cong
    _ = Words.val (vliSub x y 0).1 + Words.val y := by omega

theorem val_vliSub_even {x u y v : List UInt32} (h : Side mod input x u) (h' : Side mod input y v)
    (hlt : Words.val y < Words.val x) (hx : Words.val x % 2 = 1) (hy : Words.val y % 2 = 1) :
    Words.val (vliSub x y 0).1 = Words.val x - Words.val y ∧ Words.val (vliSub x y 0).1 % 2 = 0 := by
  have hval : Words.val (vliSub x y 0).1 = Words.val x - Words.val y :=
    val_vliSub_of (h.lenX.trans h'.lenX.symm) (k := 0) (lt_of_le_of_lt (Nat.sub_le _ _) (Words.val_lt x)) (by omega)
  exact ⟨hval, by omega⟩

/-- Two odd numbers have the divisors of one of them and of half the difference. -/
theorem gcd_half_sub {x y : Nat} (hlt : y < x) (hx : x % 2 = 1) (hy : y % 2 = 1) :
    Nat.gcd ((x - y) / 2) y = Nat.gcd x y := by
  have hcop : Nat.Coprime 2 y := Nat.coprime_two_left.2 (Nat.odd_iff.2 hy)
  have h2 : 2 * ((x - y) / 2) = x - y := by omega
  rw [← Nat.Coprime.gcd_mul_left_cancel _ hcop, h2, Nat.gcd_sub_self_left hlt.le]

theorem gcd_half {x y : Nat} (he : x % 2 = 0) (hy : y % 2 = 1) : Nat.gcd (x / 2) y = Nat.gcd x y := by
  have hcop : Nat.Coprime 2 y := Nat.coprime_two_left.2 (Nat.odd_iff.2 hy)
  rw [← Nat.Coprime.gcd_mul_left_cancel _ hcop, Nat.mul_div_cancel' (Nat.dvd_of_mod_eq_zero he)]

theorem odd_of_gcd {x y : Nat} (hg : Nat.gcd x y % 2 = 1) (hx : x % 2 = 0) : y % 2 = 1 := by
  by_contra hy
  have h2 : 2 ∣ Nat.gcd x y := Nat.dvd_gcd (Nat.dvd_of_mod_eq_zero hx) (Nat.dvd_of_mod_eq_zero (by omega))
  omega

theorem half_mul_lt {x x' y m : Nat} (h : 2 * x' ≤ x) (hm : x * y < m * 2) : x' * y < m := by
  have := Nat.mul_le_mul_right y h
  rw [Nat.mul_assoc] at this
  omega

/-- The invariant of `uECC_vli_modInv` with `k` iterations left: each halves the product `a b`. -/
structure ModInv.Inv (mod : List UInt32) (input g k : Nat) (s : ModInv) : Prop where
  side : Side mod input s.a s.u
  side' : Side mod input s.b s.v
  gcd : Nat.gcd (Words.val s.a) (Words.val s.b) = g
  size : Words.val s.a * Words.val s.b < 2 ^ k

theorem ModInv.Inv.body {g k : Nat} {s : ModInv} (h : ModInv.Inv mod input g (k + 1) s) (hg : g % 2 = 1)
    (hpos : 0 < mod.length) (hodd : Words.val mod % 2 = 1) (hc : vliCmpUnsafe s.a s.b ≠ 0) :
    ModInv.Inv mod input g k (ModInv.body mod s) := by
  have hsize := h.size
  have hgcd := h.gcd
  obtain ⟨hc1, hc2, hc0⟩ := vliCmpUnsafe_spec s.a s.b (h.side.lenX.trans h.side'.lenX.symm)
  rw [ne_eq, hc0] at hc
  have hgt : vliCmpUnsafe s.a s.b > 0 ↔ Words.val s.b < Words.val s.a := by
    rw [← hc1]
    rcases lt_or_gt_of_ne hc with hlt | hgt
    · rw [hc2.2 hlt]; decide
    · rw [hc1.2 hgt]; decide
  unfold ModInv.body
  by_cases ha : vliEven s.a = true
  · rw [if_pos ha]
    rw [vliEven_iff] at ha
    have hb : Words.val s.b % 2 = 1 := odd_of_gcd (hgcd.symm ▸ hg) ha
    exact ⟨h.side.halve hpos hodd ha, h.side', by rw [val_vliRshift1, gcd_half ha hb, hgcd],
      half_mul_lt (by rw [val_vliRshift1]; omega) hsize⟩
  rw [if_neg ha]
  rw [vliEven_iff] at ha
  rw [Nat.mul_comm] at hsize
  by_cases hb : vliEven s.b = true
  · rw [if_pos hb]
    rw [vliEven_iff] at hb
    have ha' : Words.val s.a % 2 = 1 := by omega
    refine ⟨h.side, h.side'.halve hpos hodd hb, ?_, ?_⟩
    · rw [val_vliRshift1, Nat.gcd_comm, gcd_half hb ha', Nat.gcd_comm, hgcd]
    · rw [Nat.mul_comm]
      exact half_mul_lt (by rw [val_vliRshift1]; omega) hsize
  rw [if_neg hb]
  rw [vliEven_iff] at hb
  by_cases hlt : Words.val s.b < Words.val s.a
  · rw [if_pos (hgt.2 hlt)]
    obtain ⟨hval, heven⟩ := val_vliSub_even h.side h.side' hlt (by omega) (by omega)
    rw [Nat.mul_comm] at hsize
    refine ⟨(h.side.sub h.side' hlt).halve hpos hodd heven, h.side', ?_, half_mul_lt ?_ hsize⟩
    · rw [val_vliRshift1, hval, gcd_half_sub hlt (by omega) (by omega), hgcd]
    · rw [val_vliRshift1, hval]; omega
  · rw [if_neg (by rwa [hgt])]
    have hlt' : Words.val s.a < Words.val s.b := by omega
    obtain ⟨hval, heven⟩ := val_vliSub_even h.side' h.side hlt' (by omega) (by omega)
    refine ⟨h.side, (h.side'.sub h.side hlt').halve hpos hodd heven, ?_, ?_⟩
    · rw [val_vliRshift1, hval, Nat.gcd_comm, gcd_half_sub hlt' (by omega) (by omega), Nat.gcd_comm, hgcd]
    · rw [Nat.mul_comm]
      exact half_mul_lt (by rw [val_vliRshift1, hval]; omega) hsize

/-- `uECC_vli_modInv` ends, within twice as many iterations as a number has bits, with a multiple of
the inverse: by the greatest common divisor of the input and the modulus. -/
theorem vliModInv_spec {ws : List UInt32} (hl : ws.length = mod.length) (hodd : Words.val mod % 2 = 1)
    (hone : 1 < Words.val mod) (hne : Words.val ws ≠ 0) {fuel : Nat} (hf : 64 * mod.length ≤ fuel) :
    ∃ r, vliModInv fuel ws mod = some r ∧ r.length = mod.length ∧ Words.val r < Words.val mod ∧
      Words.val r * Words.val ws ≡ Nat.gcd (Words.val ws) (Words.val mod) [MOD Words.val mod] := by
  have hpos : 0 < mod.length := by
    cases mod with
    | nil => simp at hone
    | cons => simp
  have hg : Nat.gcd (Words.val ws) (Words.val mod) % 2 = 1 :=
    Nat.odd_iff.1 (Odd.of_dvd_nat (Nat.odd_iff.2 hodd) (Nat.gcd_dvd_right _ _))
  have hu : Words.val ((List.replicate ws.length 0).set 0 1) = 1 := by
    obtain ⟨n, hn⟩ : ∃ n, ws.length = n + 1 := ⟨ws.length - 1, by omega⟩
    rw [hn, List.replicate_succ, List.set_cons_zero, Words.val_cons, Words.val_replicate_zero]
    rfl
  have hsize : Words.val ws * Words.val mod < 2 ^ fuel := by
    calc Words.val ws * Words.val mod < (2 ^ 32) ^ mod.length * (2 ^ 32) ^ mod.length :=
          Nat.mul_lt_mul'' (hl ▸ Words.val_lt ws) (Words.val_lt mod)
      _ = 2 ^ (64 * mod.length) := by rw [← pow_mul, ← pow_add]; congr 1; omega
      _ ≤ 2 ^ fuel := Nat.pow_le_pow_right (by norm_num) hf
  have hinit : ModInv.Inv mod (Words.val ws) (Nat.gcd (Words.val ws) (Words.val mod)) fuel
      ⟨ws, mod, (List.replicate ws.length 0).set 0 1, List.replicate ws.length 0⟩ := by
    refine ⟨⟨hl, by simp [hl], by rw [hu]; exact hone, by rw [hu, Nat.one_mul], Nat.pos_of_ne_zero hne⟩,
      ⟨rfl, by simp [hl], by rw [Words.val_replicate_zero]; omega, ?_,
        Nat.zero_lt_of_lt hone⟩, rfl, hsize⟩
    rw [Words.val_replicate_zero, Nat.zero_mul, Nat.ModEq, Nat.mod_self, Nat.zero_mod]
  obtain ⟨k, t, hrun, ht, hc⟩ := Loop.run_total (c := fun s : ModInv => vliCmpUnsafe s.a s.b ≠ 0)
    (ModInv.Inv mod (Words.val ws) (Nat.gcd (Words.val ws) (Words.val mod)))
    (fun k s h hc => h.body hg hpos hodd (of_decide_eq_true hc)) (fun s h => by
      have := Nat.mul_pos h.side.pos h.side'.pos
      have := h.size
      omega) fuel _ hinit
  rw [decide_eq_false_iff_not, not_not,
    (vliCmpUnsafe_spec t.a t.b (ht.side.lenX.trans ht.side'.lenX.symm)).2.2] at hc
  have hgcd := ht.gcd
  rw [← hc, Nat.gcd_self] at hgcd
  have hz : vliIsZero ws = false := by
    rw [← Bool.not_eq_true, vliIsZero_iff]
    exact hne
  refine ⟨t.u, by rw [vliModInv, hz]; simp only [Bool.false_eq_true, if_false, hrun, Option.map_some], ht.side.lenU,
    ht.side.lt, ?_⟩
  rw [← hgcd]
  exact ht.side.cong

end

end Esptag.Uecc
