/-
Primality certificates that the kernel can check. An entry is a number with the factorization of
its predecessor into numbers certified before, and an element whose powers show that it has the
full order.
-/
import Esptag.Lib.Bits
import Mathlib.Data.Nat.Size
import Mathlib.NumberTheory.LucasPrimality
import Mathlib.Tactic

namespace Lucas

/-- The power of `a` modulo `p` with the bits of the exponent from the top. -/
def powMod (p a : Nat) (bits : List Bool) : Nat :=
  bits.foldl (fun r bit => if bit then r * r % p * a % p else r * r % p) (1 % p)

theorem foldl_powMod (p a : Nat) (bits : List Bool) (m r : Nat) (h : (r : ZMod p) = (a : ZMod p) ^ m) :
    ((bits.foldl (fun r bit => if bit then r * r % p * a % p else r * r % p) r : Nat) : ZMod p) =
      (a : ZMod p) ^ Bits.value bits m := by
  induction bits generalizing m r with
  | nil => exact h
  | cons bit bits ih =>
    rw [List.foldl_cons, Bits.value_cons]
    refine ih _ _ ?_
    cases bit with
    | true =>
      simp only [if_true, ZMod.natCast_mod, Nat.cast_mul, h, Bool.toNat_true]
      ring
    | false =>
      simp only [Bool.false_eq_true, if_false, ZMod.natCast_mod, Nat.cast_mul, h, Bool.toNat_false]
      ring

/-- A number `p` claimed prime, with the factors of `p - 1` as primes and exponents, and an element
of order `p - 1`. -/
structure Entry where
  p : Nat
  a : Nat
  factors : List (Nat × Nat)

/-- Whether the `e`-th power of the element of an entry is 1. -/
def Entry.powIsOne (c : Entry) (e : Nat) : Bool := powMod c.p c.a (Bits.below e e.size) % c.p == 1 % c.p

theorem Entry.powIsOne_iff (c : Entry) (e : Nat) : c.powIsOne e = true ↔ (c.a : ZMod c.p) ^ e = 1 := by
  have h := foldl_powMod c.p c.a (Bits.below e e.size) 0 (1 % c.p) (by simp)
  rw [Bits.value_below_of_lt (Nat.lt_size_self e)] at h
  rw [powIsOne, beq_iff_eq, ← ZMod.natCast_eq_natCast_iff', Nat.cast_one, ← h, powMod]

/-- Lucas's test, with the factors of `p - 1` among the numbers known. -/
def Entry.check (known : List Nat) (c : Entry) : Bool :=
  (c.factors.all fun q => known.contains q.1) && (c.factors.map fun q => q.1 ^ q.2).prod == c.p - 1 &&
    c.powIsOne (c.p - 1) && c.factors.all fun q => !c.powIsOne ((c.p - 1) / q.1)

theorem Entry.prime_of_check {known : List Nat} (hk : ∀ q ∈ known, q.Prime) {c : Entry}
    (h : c.check known = true) : c.p.Prime := by
  simp only [check, Bool.and_eq_true, List.all_eq_true, List.contains_iff_mem, beq_iff_eq, powIsOne_iff,
    Bool.not_eq_true', ← Bool.not_eq_true] at h
  obtain ⟨⟨⟨hmem, hprod⟩, hone⟩, hne⟩ := h
  refine lucas_primality c.p c.a hone fun q hq hdvd => ?_
  rw [← hprod] at hdvd
  obtain ⟨x, hx, hqx⟩ := (Prime.dvd_prod_iff hq.prime).1 hdvd
  obtain ⟨f, hf, rfl⟩ := List.mem_map.1 hx
  have heq : q = f.1 := (Nat.prime_dvd_prime_iff_eq hq (hk _ (hmem f hf))).1 (hq.dvd_of_dvd_pow hqx)
  exact heq ▸ hne f hf

/-- The entries of a certificate in turn, each beside the numbers known and certified before it. -/
def check : List Nat → List Entry → Bool
  | _, [] => true
  | known, c :: cs => c.check known && check (c.p :: known) cs

/-- Every number that a certificate certifies is prime. -/
theorem prime_of_check {known : List Nat} (hk : ∀ q ∈ known, q.Prime) {cs : List Entry}
    (h : check known cs = true) : ∀ c ∈ cs, c.p.Prime := by
  induction cs generalizing known with
  | nil => exact fun c hc => absurd hc List.not_mem_nil
  | cons c cs ih =>
    rw [check, Bool.and_eq_true] at h
    have hc := c.prime_of_check hk h.1
    exact List.forall_mem_cons.2 ⟨hc, ih (List.forall_mem_cons.2 ⟨hc, hk⟩) h.2⟩

end Lucas
