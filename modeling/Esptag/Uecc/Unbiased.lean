/-
`uECC_generate_random_int` is unbiased: exchanging two numbers in what the generator draws exchanges
them in what is returned, so that as many sequences of draws lead to the one as to the other.
-/
import Esptag.Uecc.Mod
import Esptag.Uecc.Random

namespace Esptag.Uecc

/-! ## Exchanging two numbers in a draw -/

/-- What fills the buffer of `n` words in one call of the generator. -/
abbrev Draw (n : Nat) : Type := {ws : List UInt32 // ws.length = n}

/-- A number with its remainder modulo `m` exchanged. -/
def exchange (m a b N : Nat) : Nat := Equiv.swap a b (N % m) + m * (N / m)

section

variable {m a b : Nat} (ha : a < m) (hb : b < m)
include ha hb

theorem swap_lt {x : Nat} (hx : x < m) : Equiv.swap a b x < m := by
  rw [Equiv.swap_apply_def]
  split_ifs
  · exact hb
  · exact ha
  · exact hx

theorem exchange_mod (N : Nat) : exchange m a b N % m = Equiv.swap a b (N % m) := by
  rw [exchange, Nat.add_mul_mod_self_left, Nat.mod_eq_of_lt (swap_lt ha hb (Nat.mod_lt _ (Nat.zero_lt_of_lt ha)))]

theorem exchange_exchange (N : Nat) : exchange m a b (exchange m a b N) = N := by
  have hlt := swap_lt ha hb (Nat.mod_lt N (Nat.zero_lt_of_lt ha))
  have hdiv : exchange m a b N / m = N / m := by
    rw [exchange, Nat.add_mul_div_left _ _ (Nat.zero_lt_of_lt ha), Nat.div_eq_of_lt hlt, Nat.zero_add]
  rw [exchange, exchange_mod ha hb, hdiv, Equiv.swap_apply_self, Nat.mod_add_div]

theorem exchange_lt {N k : Nat} (hN : N < m * k) : exchange m a b N < m * k := by
  have hlt := swap_lt ha hb (Nat.mod_lt N (Nat.zero_lt_of_lt ha))
  have hdiv : N / m + 1 ≤ k := Nat.div_lt_of_lt_mul hN
  calc exchange m a b N < m + m * (N / m) := Nat.add_lt_add_right hlt _
    _ = m * (N / m + 1) := by ring
    _ ≤ m * k := Nat.mul_le_mul_left m hdiv

omit ha hb in
theorem acceptable_swap_iff {t x : Nat} (ha : 0 < a ∧ a < t) (hb : 0 < b ∧ b < t) :
    0 < Equiv.swap a b x ∧ Equiv.swap a b x < t ↔ 0 < x ∧ x < t := by
  rw [Equiv.swap_apply_def]
  split_ifs with h h
  · exact iff_of_true hb (h ▸ ha)
  · exact iff_of_true ha (h ▸ hb)
  · exact Iff.rfl

/-- The exchange on the words of a draw. -/
def exchangeDraw {n k : Nat} (h : (2 ^ 32) ^ n = m * k) : Equiv.Perm (Draw n) :=
  have hval : ∀ ws : Draw n, exchange m a b (Words.val ws.val) < (2 ^ 32) ^ n := by
    intro ws
    have hlt := Words.val_lt ws.val
    rw [ws.2, h] at hlt
    rw [h]
    exact exchange_lt ha hb hlt
  have hinv : ∀ ws : Draw n, Words.ofNat n (exchange m a b (Words.val (Words.ofNat n
      (exchange m a b (Words.val ws.val))))) = ws.val := by
    intro ws
    have hlt := Words.val_lt ws.val
    rw [ws.2] at hlt
    rw [Words.val_ofNat (hval ws), exchange_exchange ha hb, ← Words.val_inj (by rw [Words.length_ofNat, ws.2]),
      Words.val_ofNat hlt]
  ⟨fun ws => ⟨Words.ofNat n (exchange m a b (Words.val ws.val)), Words.length_ofNat _ _⟩,
    fun ws => ⟨Words.ofNat n (exchange m a b (Words.val ws.val)), Words.length_ofNat _ _⟩,
    fun ws => Subtype.ext (hinv ws), fun ws => Subtype.ext (hinv ws)⟩

theorem val_exchangeDraw {n k : Nat} (h : (2 ^ 32) ^ n = m * k) (ws : Draw n) :
    Words.val (exchangeDraw ha hb h ws).val % m = Equiv.swap a b (Words.val ws.val % m) := by
  have hlt := Words.val_lt ws.val
  rw [ws.2, h] at hlt
  have hval : Words.val (exchangeDraw ha hb h ws).val = exchange m a b (Words.val ws.val) :=
    Words.val_ofNat (h ▸ exchange_lt ha hb hlt)
  rw [hval, exchange_mod ha hb]

end

/-! ## Sequences of draws -/

/-- A registered generator with these draws in its calls. -/
def Rng.ofDraws {n : Nat} (w : Fin rngMaxTries → Draw n) : Rng :=
  ⟨true, ⟨fun k => if h : k < rngMaxTries then some fun i => (w ⟨k, h⟩).val.getD i 0 else none, 0⟩⟩

section

variable {top : List UInt32}

theorem draw_ofDraws {n : Nat} (w : Fin rngMaxTries → Draw n) (k : Fin rngMaxTries) :
    (Rng.ofDraws w).draw k = some fun i => (w k).val.getD i 0 := by
  rw [Rng.draw, Rng.ofDraws]
  simp

theorem drawn_getD (ws : Draw top.length) :
    drawn top (fun i => ws.val.getD i 0) = Words.val ws.val % 2 ^ Nat.size (Words.val top) := by
  have hmap : (List.range top.length).map (fun i => ws.val.getD i 0) = ws.val := by
    refine List.ext_getElem (by simp [ws.2]) fun i h1 h2 => ?_
    rw [List.getElem_map, List.getElem_range, List.getD_eq_getElem _ _ h2]
  rw [drawn, hmap]

/-- What a sequence of draws leads to: the first that is acceptable. -/
theorem run_ofDraws_iff (htop : top.getD (top.length - 1) 0 ≠ 0) (w : Fin rngMaxTries → Draw top.length)
    (a : RandomInt top) :
    ((generateRandomInt top).run (.ofDraws w)).1 = some a ↔ ∃ k,
      (∀ j < k, ¬ (0 < Words.val (w j).val % 2 ^ Nat.size (Words.val top) ∧
        Words.val (w j).val % 2 ^ Nat.size (Words.val top) < Words.val top)) ∧
      Words.val (w k).val % 2 ^ Nat.size (Words.val top) = Words.val a.words := by
  rw [run_generateRandomInt_iff htop rfl]
  constructor
  · rintro ⟨k, hk, hbefore, f, hf, ha⟩
    rw [draw_ofDraws w ⟨k, hk⟩] at hf
    obtain rfl := Option.some.inj hf
    rw [drawn_getD] at ha
    refine ⟨⟨k, hk⟩, fun j hj => ?_, ha⟩
    obtain ⟨g, hg, hno⟩ := hbefore j hj
    rw [draw_ofDraws w j] at hg
    obtain rfl := Option.some.inj hg
    rwa [Acceptable, drawn_getD] at hno
  · rintro ⟨k, hbefore, ha⟩
    refine ⟨k, k.2, fun j hj => ⟨_, draw_ofDraws w ⟨j, hj.trans k.2⟩, ?_⟩, _, draw_ofDraws w k, ?_⟩
    · rw [Acceptable, drawn_getD]
      exact hbefore ⟨j, hj.trans k.2⟩ hj
    · rw [drawn_getD]
      exact ha

/-- `uECC_generate_random_int` is unbiased, for every bound whose most significant word is not zero: as many
sequences of draws lead to one number below the bound as to any other. -/
theorem generateRandomInt_unbiased (htop : top.getD (top.length - 1) 0 ≠ 0) (a b : RandomInt top) :
    Nonempty ({w : Fin rngMaxTries → Draw top.length // ((generateRandomInt top).run (.ofDraws w)).1 = some a} ≃
      {w : Fin rngMaxTries → Draw top.length // ((generateRandomInt top).run (.ofDraws w)).1 = some b}) := by
  have hlt := Nat.lt_size_self (Words.val top)
  have ha := a.lt.trans hlt
  have hb := b.lt.trans hlt
  have hsize : Nat.size (Words.val top) ≤ 32 * top.length := by
    rw [Nat.size_le, pow_mul]
    exact Words.val_lt top
  have hdiv : (2 ^ 32) ^ top.length = 2 ^ Nat.size (Words.val top) *
      2 ^ (32 * top.length - Nat.size (Words.val top)) := by
    rw [← pow_mul, ← pow_add, Nat.add_sub_cancel' hsize]
  refine ⟨Equiv.subtypeEquiv (Equiv.piCongrRight fun _ => exchangeDraw ha hb hdiv) fun w => ?_⟩
  have hval : ∀ k, Words.val ((Equiv.piCongrRight fun _ => exchangeDraw ha hb hdiv) w k).val %
      2 ^ Nat.size (Words.val top) = Equiv.swap _ _ (Words.val (w k).val % 2 ^ Nat.size (Words.val top)) :=
    fun k => val_exchangeDraw ha hb hdiv (w k)
  simp only [run_ofDraws_iff htop, hval, acceptable_swap_iff ⟨a.pos, a.lt⟩ ⟨b.pos, b.lt⟩, Equiv.swap_apply_eq_iff,
    Equiv.swap_apply_right]

/-- In the field of the curve, 1 comes up as often as 2. -/
theorem generateRandomInt_unbiased_sample :
    Nonempty ({w : Fin rngMaxTries → Draw curveP.length //
        ((generateRandomInt curveP).run (.ofDraws w)).1 = some ⟨[1, 0, 0, 0, 0, 0, 0], rfl, by decide, by decide⟩} ≃
      {w : Fin rngMaxTries → Draw curveP.length //
        ((generateRandomInt curveP).run (.ofDraws w)).1 = some ⟨[2, 0, 0, 0, 0, 0, 0], rfl, by decide, by decide⟩}) :=
  generateRandomInt_unbiased (by decide) _ _

end

end Esptag.Uecc
