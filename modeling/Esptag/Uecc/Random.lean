/-
`uECC_generate_random_int`: numbers below a bound by rejection, from a random number generator that
may fail, or that may not be registered at all. The number is the first acceptable one the generator
draws, cut to the bits of the bound.
-/
import Esptag.Lib.Loop
import Esptag.Lib.Tries
import Esptag.Uecc.Vli
import Mathlib.Data.Nat.Size

namespace Esptag.Uecc

open Crypto

/-! ## Bits of a number -/

/-- `vli_numDigits`: the words up to the highest that is not zero. -/
def vliNumDigits (vli : List UInt32) : Nat → Nat
  | 0 => 0
  | i + 1 => if vli.getD i 0 = 0 then vliNumDigits vli i else i + 1

/-- The loop of `uECC_vli_numBits`: the digit, and its bits so far. -/
def digitBits (digit : UInt32) : Option (UInt32 × Nat) :=
  Loop.run (fun s => s.1 ≠ 0) (fun s => (s.1 >>> 1, s.2 + 1)) 32 (digit, 0)

theorem digitBits_spec (digit : UInt32) : ∃ d, digitBits digit = some (d, Nat.size digit.toNat) := by
  obtain ⟨-, ⟨d, i⟩, hrun, ⟨hsize, -⟩, hc⟩ := Loop.run_total (c := fun s : UInt32 × Nat => s.1 ≠ 0)
    (b := fun s => (s.1 >>> 1, s.2 + 1))
    (fun k s => Nat.size s.1.toNat + s.2 = Nat.size digit.toNat ∧ Nat.size s.1.toNat ≤ k)
    (by
      rintro k ⟨d, i⟩ ⟨hsize, hk⟩ hc
      have hne : d.toNat ≠ 0 := fun h => of_decide_eq_true hc (UInt32.toNat_inj.1 h)
      have hshift : (d >>> 1).toNat = d.toNat / 2 := by
        rw [UInt32.toNat_shiftRight]
        exact Nat.shiftRight_eq_div_pow _ 1
      have hbit := Nat.size_bit (b := d.toNat.bodd) (n := d.toNat.div2) (by rwa [Nat.bit_bodd_div2])
      rw [Nat.bit_bodd_div2, Nat.div2_val, ← hshift] at hbit
      simp only at hsize hk ⊢
      omega)
    (by
      rintro ⟨d, i⟩ ⟨-, hk⟩
      rw [Nat.le_zero, Nat.size_eq_zero] at hk
      exact decide_eq_false (not_not.2 (UInt32.toNat_inj.1 hk)))
    32 (digit, 0) ⟨rfl, Nat.size_le.2 digit.toNat_lt⟩
  simp only [decide_eq_false_iff_not, ne_eq, not_not] at hc
  subst hc
  rw [UInt32.toNat_zero, Nat.size_zero, Nat.zero_add] at hsize
  exact ⟨0, by rw [digitBits, hrun, ← hsize]⟩

/-- `uECC_vli_numBits`. -/
def vliNumBits (vli : List UInt32) (maxWords : Nat) : Nat :=
  let numDigits := vliNumDigits vli maxWords
  if numDigits = 0 then 0
  else (numDigits - 1) <<< 5 + (digitBits (vli.getD (numDigits - 1) 0)).elim 0 Prod.snd

theorem size_add_two_pow_mul {low d k : Nat} (hlow : low < 2 ^ k) (hd : d ≠ 0) :
    Nat.size (low + 2 ^ k * d) = k + Nat.size d := by
  apply le_antisymm
  · rw [Nat.size_le, pow_add]
    have hlt := Nat.lt_size_self d
    calc low + 2 ^ k * d < 2 ^ k * (d + 1) := by rw [Nat.mul_add, Nat.mul_one]; omega
      _ ≤ 2 ^ k * 2 ^ Nat.size d := Nat.mul_le_mul_left _ hlt
  · have hpos := Nat.size_pos.2 (Nat.pos_of_ne_zero hd)
    obtain ⟨j, hj⟩ : ∃ j, Nat.size d = j + 1 := ⟨Nat.size d - 1, by omega⟩
    have hge : 2 ^ j ≤ d := Nat.lt_size.1 (by omega)
    rw [hj, ← Nat.add_assoc, Nat.succ_le_iff, Nat.lt_size, pow_add]
    exact le_trans (Nat.mul_le_mul_left _ hge) (Nat.le_add_left _ _)

/-- `uECC_vli_numBits` of the low words. -/
theorem vliNumBits_mod (vli : List UInt32) (n : Nat) : vliNumBits vli n = Nat.size (Words.val vli % (2 ^ 32) ^ n) := by
  induction n with
  | zero => rw [pow_zero, Nat.mod_one, Nat.size_zero]; rfl
  | succ n ih =>
    have hw := Words.toNat_getD vli n
    rw [pow_succ, Nat.mod_mul, ← hw]
    by_cases hz : vli.getD n 0 = 0
    · simp only [hz, UInt32.toNat_zero, Nat.mul_zero, Nat.add_zero, ← ih, vliNumBits, vliNumDigits, if_true]
    · obtain ⟨d, hd⟩ := digitBits_spec (vli.getD n 0)
      have hlow : Words.val vli % (2 ^ 32) ^ n < 2 ^ (32 * n) := by
        rw [pow_mul]
        exact Nat.mod_lt _ (by positivity)
      rw [vliNumBits, vliNumDigits, if_neg hz]
      rw [← pow_mul, size_add_two_pow_mul (by rwa [← pow_mul] at hlow) fun h => hz (UInt32.toNat_inj.1 h)]
      simp only [Nat.succ_ne_zero, if_false, Nat.add_sub_cancel, hd, Option.elim_some, Nat.shiftLeft_eq]
      omega

/-- `uECC_vli_numBits` counts the bits of a number. -/
theorem vliNumBits_spec (vli : List UInt32) : vliNumBits vli vli.length = Nat.size (Words.val vli) := by
  rw [vliNumBits_mod, Nat.mod_eq_of_lt (Words.val_lt vli)]

/-! ## The generator -/

/-- The random number generator: whether `uECC_set_rng` registered one, and what fills the buffer
in each of its calls, or nothing where the call fails. -/
structure Rng where
  registered : Bool
  draws : Sched (Option (Nat → UInt32))

/-- A program that draws random numbers. -/
abbrev RngM := Prog Rng

namespace Rng

/-- What the generator has for its `k`-th call from now. -/
def draw (r : Rng) (k : Nat) : Option (Nat → UInt32) := r.draws.fate (r.draws.calls + k)

/-- The generator after `k` more calls. -/
def skip (r : Rng) (k : Nat) : Rng := { r with draws := r.draws.skip k }

@[simp] theorem skip_registered (r : Rng) (k : Nat) : (r.skip k).registered = r.registered := rfl

@[simp] theorem skip_skip (r : Rng) (j k : Nat) : (r.skip j).skip k = r.skip (j + k) := by
  simp only [skip, Sched.skip_skip]

@[simp] theorem draw_skip (r : Rng) (j k : Nat) : (r.skip j).draw k = r.draw (j + k) := by
  simp only [draw, skip, Sched.skip, Nat.add_assoc]

end Rng

/-- `g_rng_function((uint8_t *)random, num_words * uECC_WORD_SIZE)`: the words it fills. -/
def rngFunction (numWords : Nat) : RngM (Option {l : List UInt32 // l.length = numWords}) where
  run r := ((r.draw 0).map fun f => ⟨(List.range numWords).map f, by simp⟩, r.skip 1)

/-! ## Random integers -/

/-- A number `0 < random < top` of as many words as `top`. -/
structure RandomInt (top : List UInt32) where
  words : List UInt32
  length : words.length = top.length
  pos : 0 < Words.val words
  lt : Words.val words < Words.val top

/-- The mask on the most significant word. -/
def maskTop (numBits : Nat) (random : List UInt32) : List UInt32 :=
  let mask : UInt32 := 0xFFFFFFFF
  random.modify (random.length - 1) (· &&& mask >>> UInt32.ofNat (random.length * 4 * 8 - numBits))

@[simp] theorem length_maskTop (numBits : Nat) (random : List UInt32) :
    (maskTop numBits random).length = random.length := List.length_modify ..

/-- The check of an iteration of `uECC_generate_random_int`. -/
def checkRandom {top : List UInt32} (random : List UInt32) (hl : random.length = top.length) : Try (RandomInt top) :=
  if h : ¬ vliIsZero random ∧ vliCmp top random = 1 then
    .done ⟨random, hl, Nat.pos_of_ne_zero fun h0 => h.1 ((vliIsZero_iff random).2 h0),
      (vliCmp_eq_one_iff top random hl.symm).1 h.2⟩
  else .again

/-- An iteration of `uECC_generate_random_int`. -/
def generateTry (top : List UInt32) : RngM (Try (RandomInt top)) := do
  match ← rngFunction top.length with
  | none => return .stop
  | some random =>
    return checkRandom (maskTop (vliNumBits top top.length) random.val) (by rw [length_maskTop, random.2])

/-- `uECC_RNG_MAX_TRIES`. -/
abbrev rngMaxTries : Nat := 64

/-- `uECC_generate_random_int`. -/
def generateRandomInt (top : List UInt32) : RngM (Option (RandomInt top)) := do
  if ← Prog.gets Rng.registered then
    Prog.tries (generateTry top) rngMaxTries
  else
    return none

/-! ## Which number is returned -/

/-- The number of a draw, cut to the bits of `top`. -/
def drawn (top : List UInt32) (f : Nat → UInt32) : Nat :=
  Words.val ((List.range top.length).map f) % 2 ^ Nat.size (Words.val top)

/-- The most significant word of a number. -/
theorem toNat_top {ws : List UInt32} {n : Nat} (hl : ws.length = n + 1) :
    (ws.getD n 0).toNat = Words.val ws / 2 ^ (32 * n) := by
  have hlt := Words.val_lt ws
  rw [hl, pow_succ, ← pow_mul] at hlt
  rw [Words.toNat_getD, ← pow_mul, Nat.mod_eq_of_lt (Nat.div_lt_of_lt_mul hlt)]

theorem toNat_and_mask (w : UInt32) {s : Nat} (hs : 0 < s) (hs' : s ≤ 32) :
    (w &&& (0xFFFFFFFF : UInt32) >>> UInt32.ofNat (32 - s)).toNat = w.toNat % 2 ^ s := by
  have hmask : ((0xFFFFFFFF : UInt32) >>> UInt32.ofNat (32 - s)).toNat = 2 ^ s - 1 := by
    rw [UInt32.toNat_shiftRight, UInt32.toNat_ofNat', Nat.mod_eq_of_lt (show 32 - s < 2 ^ 32 by omega),
      Nat.mod_eq_of_lt (show 32 - s < 32 by omega), Nat.shiftRight_eq_div_pow]
    interval_cases s <;> rfl
  rw [UInt32.toNat_and, hmask, Nat.and_two_pow_sub_one_eq_mod]

/-- The mask on the most significant word cuts a draw to the bits of `top`. -/
theorem val_maskTop {top random : List UInt32} (hl : random.length = top.length)
    (htop : top.getD (top.length - 1) 0 ≠ 0) :
    Words.val (maskTop (vliNumBits top top.length) random) = Words.val random % 2 ^ Nat.size (Words.val top) := by
  obtain ⟨n, hn⟩ : ∃ n, top.length = n + 1 := by
    cases top with
    | nil => exact absurd rfl htop
    | cons => exact ⟨_, rfl⟩
  rw [hn, Nat.add_sub_cancel] at htop
  have htop' : (top.getD n 0).toNat ≠ 0 := fun h => htop (UInt32.toNat_inj.1 h)
  have hpos : 0 < Nat.size (top.getD n 0).toNat := Nat.size_pos.2 (Nat.pos_of_ne_zero htop')
  have hle : Nat.size (top.getD n 0).toNat ≤ 32 := Nat.size_le.2 (top.getD n 0).toNat_lt
  have hsize : Nat.size (Words.val top) = 32 * n + Nat.size (top.getD n 0).toNat := by
    have hdiv := Nat.mod_add_div (Words.val top) (2 ^ (32 * n))
    rw [← toNat_top hn] at hdiv
    rw [← hdiv, size_add_two_pow_mul (Nat.mod_lt _ (by positivity)) htop']
  have hshift : (n + 1) * 4 * 8 - (32 * n + Nat.size (top.getD n 0).toNat) = 32 - Nat.size (top.getD n 0).toNat := by
    omega
  have hm := Words.val_modify random n
    (· &&& (0xFFFFFFFF : UInt32) >>> UInt32.ofNat (32 - Nat.size (top.getD n 0).toNat)) (by omega)
  rw [toNat_and_mask _ hpos hle, toNat_top (hl.trans hn), ← pow_mul] at hm
  have hdiv := Nat.mod_add_div (Words.val random) (2 ^ (32 * n))
  rw [maskTop, vliNumBits_spec, hl, hn, Nat.add_sub_cancel, hsize, hshift, pow_add, Nat.mod_mul]
  linarith

section

variable {top : List UInt32}

/-- A draw that is not rejected. -/
def Acceptable (top : List UInt32) (f : Nat → UInt32) : Prop := 0 < drawn top f ∧ drawn top f < Words.val top

@[ext] theorem RandomInt.ext {a b : RandomInt top} (h : Words.val a.words = Words.val b.words) : a = b := by
  obtain ⟨a, ha, ha0, ha'⟩ := a
  obtain ⟨b, hb, hb0, hb'⟩ := b
  obtain rfl := (Words.val_inj (ha.trans hb.symm)).1 h
  rfl

theorem checkRandom_done_iff {random : List UInt32} (hl : random.length = top.length) (a : RandomInt top) :
    checkRandom random hl = .done a ↔ Words.val random = Words.val a.words := by
  unfold checkRandom
  constructor
  · intro h
    split at h
    · rw [← Try.done.inj h]
    · cases h
  · intro h
    have hz : ¬ vliIsZero random = true := by
      rw [vliIsZero_iff, h]
      exact a.pos.ne'
    have hc : vliCmp top random = 1 := by
      rw [vliCmp_eq_one_iff top random hl.symm, h]
      exact a.lt
    rw [dif_pos ⟨hz, hc⟩]
    exact congrArg _ (RandomInt.ext h)

theorem checkRandom_again_iff {random : List UInt32} (hl : random.length = top.length) :
    checkRandom random hl = .again ↔ ¬ (0 < Words.val random ∧ Words.val random < Words.val top) := by
  rw [← vliCmp_eq_one_iff top random hl.symm, Nat.pos_iff_ne_zero, ne_eq, ← vliIsZero_iff]
  unfold checkRandom
  split <;> simp_all

theorem run_generateTry_none {r : Rng} (h : r.draw 0 = none) : (generateTry top).run r = (.stop, r.skip 1) := by
  simp only [generateTry, rngFunction, Prog.run_bind, h, Option.map_none, Prog.run_pure]

theorem run_generateTry_some {r : Rng} {f : Nat → UInt32} (h : r.draw 0 = some f) :
    ∃ (random : List UInt32) (hl : random.length = top.length),
      (generateTry top).run r = (checkRandom random hl, r.skip 1) ∧
      random = maskTop (vliNumBits top top.length) ((List.range top.length).map f) := by
  refine ⟨_, by rw [length_maskTop, List.length_map, List.length_range], ?_, rfl⟩
  simp only [generateTry, rngFunction, Prog.run_bind, h, Option.map_some, Prog.run_pure]

/-- Every try makes one call. -/
theorem before_generateTry (r : Rng) (k : Nat) : Prog.before (generateTry top) r k = r.skip k := by
  induction k generalizing r with
  | zero => rfl
  | succ k ih =>
    have hrun : ((generateTry top).run r).2 = r.skip 1 := by
      cases hd : r.draw 0 with
      | none => rw [run_generateTry_none hd]
      | some f =>
        obtain ⟨_, _, hrun, -⟩ := run_generateTry_some hd
        rw [hrun]
    rw [Prog.before_succ, ih, hrun, Rng.skip_skip, Nat.add_comm]

variable (htop : top.getD (top.length - 1) 0 ≠ 0)
include htop

theorem nth_generateTry_done_iff (r : Rng) (k : Nat) (a : RandomInt top) :
    Prog.nth (generateTry top) r k = .done a ↔ ∃ f, r.draw k = some f ∧ drawn top f = Words.val a.words := by
  rw [Prog.nth, before_generateTry]
  cases hd : r.draw k with
  | none =>
    rw [run_generateTry_none (by rw [Rng.draw_skip]; exact hd)]
    simp
  | some f =>
    have hdraw : (r.skip k).draw 0 = some f := by
      rw [Rng.draw_skip]
      exact hd
    obtain ⟨random, hl, hrun, hv⟩ := run_generateTry_some hdraw
    rw [hrun, checkRandom_done_iff, hv, val_maskTop (by simp) htop]
    simp [drawn]

theorem nth_generateTry_again_iff (r : Rng) (k : Nat) :
    Prog.nth (generateTry top) r k = .again ↔ ∃ f, r.draw k = some f ∧ ¬ Acceptable top f := by
  rw [Prog.nth, before_generateTry]
  cases hd : r.draw k with
  | none =>
    rw [run_generateTry_none (by rw [Rng.draw_skip]; exact hd)]
    simp
  | some f =>
    have hdraw : (r.skip k).draw 0 = some f := by
      rw [Rng.draw_skip]
      exact hd
    obtain ⟨random, hl, hrun, hv⟩ := run_generateTry_some hdraw
    rw [hrun, checkRandom_again_iff, hv, val_maskTop (by simp) htop]
    simp [drawn, Acceptable]

/-- `uECC_generate_random_int` with a registered generator returns the first acceptable draw of 64,
when no call fails before it, and fails without one. -/
theorem run_generateRandomInt_iff {r : Rng} (hr : r.registered = true) (a : RandomInt top) :
    ((generateRandomInt top).run r).1 = some a ↔ ∃ k < rngMaxTries,
      (∀ j < k, ∃ f, r.draw j = some f ∧ ¬ Acceptable top f) ∧
      ∃ f, r.draw k = some f ∧ drawn top f = Words.val a.words := by
  have hrun : (generateRandomInt top).run r = (Prog.tries (generateTry top) rngMaxTries).run r := by
    simp only [generateRandomInt, Prog.run_bind, Prog.run_gets, hr, if_true]
  rw [hrun, Prog.tries_eq_some_iff]
  simp only [nth_generateTry_done_iff htop, nth_generateTry_again_iff htop]

/-- An acceptable draw is a random integer. -/
theorem exists_randomInt_iff (f : Nat → UInt32) :
    (∃ a : RandomInt top, drawn top f = Words.val a.words) ↔ Acceptable top f := by
  constructor
  · rintro ⟨a, ha⟩
    rw [Acceptable, ha]
    exact ⟨a.pos, a.lt⟩
  · rintro ⟨h0, hlt⟩
    have hv := val_maskTop (show ((List.range top.length).map f).length = top.length by simp) htop
    refine ⟨⟨maskTop (vliNumBits top top.length) ((List.range top.length).map f), by simp, ?_, ?_⟩, hv.symm⟩
    · rw [hv]
      exact h0
    · rw [hv]
      exact hlt

/-- `uECC_generate_random_int` succeeds when one of 64 draws is acceptable and no call fails before it. -/
theorem isSome_generateRandomInt_iff {r : Rng} (hr : r.registered = true) :
    ((generateRandomInt top).run r).1.isSome = true ↔ ∃ k < rngMaxTries,
      (∀ j < k, ∃ f, r.draw j = some f ∧ ¬ Acceptable top f) ∧ ∃ f, r.draw k = some f ∧ Acceptable top f := by
  rw [Option.isSome_iff_exists]
  simp only [run_generateRandomInt_iff htop hr, ← exists_randomInt_iff htop]
  constructor
  · rintro ⟨a, k, hk, hj, f, hf, ha⟩
    exact ⟨k, hk, hj, f, hf, a, ha⟩
  · rintro ⟨k, hk, hj, f, hf, a, ha⟩
    exact ⟨a, k, hk, hj, f, hf, ha⟩

end

end Esptag.Uecc
