/-
The derivation of the root secrets, for every HMAC: `hkdf_expand` is RFC 5869's on its whole domain
and raises outside it, and `derive_roots` returns the first candidate in range, out of 256 at most.
-/
import Esptag.Host.DeriveKeys
import Esptag.Lib.Blocks

namespace Esptag.DeriveKeys

open Octets

/-! ## HKDF-Expand -/

/-- `T(i)`: the HMAC of the block before, the info and the block number. -/
def hkdfBlock (hmac : List UInt8 → List UInt8 → Bytes hashLen) (prk info : List UInt8) : Nat → List UInt8
  | 0 => []
  | i + 1 => (hmac prk (hkdfBlock hmac prk info i ++ info ++ [UInt8.ofNat (i + 1)])).val

section

variable {hmac : List UInt8 → List UInt8 → Bytes hashLen} (prk info : List UInt8)

theorem length_hkdfBlock (i : Nat) : (hkdfBlock hmac prk info (i + 1)).length = hashLen := (hmac _ _).2

theorem length_hkdfBlocks (k : Nat) : (Blocks.blocks (hkdfBlock hmac prk info) k).length = hashLen * k :=
  Blocks.length_blocks (length_hkdfBlock prk info) k

/-- The loop appends one block while the output is short and the block number fits a byte. -/
theorem expandLoop_step {length k : Nat} (hk : hashLen * k < length) (h255 : k < 255) :
    expandLoop hmac prk info length (Blocks.blocks (hkdfBlock hmac prk info) k) (hkdfBlock hmac prk info k) (k + 1) =
      expandLoop hmac prk info length (Blocks.blocks (hkdfBlock hmac prk info) (k + 1))
        (hkdfBlock hmac prk info (k + 1)) (k + 1 + 1) := by
  have hc : byteOf (k + 1) = .ok [UInt8.ofNat (k + 1)] := if_pos (show k + 1 < 256 by omega)
  rw [expandLoop, if_pos (by rwa [length_hkdfBlocks]), hc]
  rfl

/-- The loop gets to every block number up to 255 that the output needs. -/
theorem expandLoop_run {length : Nat} : ∀ k, hashLen * k < length + hashLen → k ≤ 255 →
    expandLoop hmac prk info length [] [] 1 =
      expandLoop hmac prk info length (Blocks.blocks (hkdfBlock hmac prk info) k) (hkdfBlock hmac prk info k) (k + 1)
  | 0, _, _ => rfl
  | k + 1, hk, h255 => by
    rw [Nat.mul_succ] at hk
    rw [expandLoop_run k (by omega) (by omega)]
    exact expandLoop_step prk info (by omega) (by omega)

theorem hkdfExpand_eq {length : Nat} (h : length ≤ 255 * hashLen) :
    hkdfExpand hmac prk info length = .ok (Blocks.output (hkdfBlock hmac prk info) hashLen length) := by
  have hlo := Blocks.le_count_mul hashLen_pos length
  have hhi := Blocks.count_mul_lt hashLen_pos length
  have hcount : Blocks.count hashLen length ≤ 255 := by
    have hlt : hashLen * Blocks.count hashLen length < hashLen * 256 := by omega
    exact Nat.le_of_lt_succ (Nat.lt_of_mul_lt_mul_left hlt)
  unfold hkdfExpand
  rw [expandLoop_run prk info _ hhi hcount, expandLoop, if_neg]
  · rfl
  · rw [length_hkdfBlocks]
    exact not_lt.2 hlo

/-- Past 255 blocks the block number does not fit a byte. -/
theorem hkdfExpand_raises {length : Nat} (h : 255 * hashLen < length) :
    hkdfExpand hmac prk info length = .error .valueError := by
  have hlt : hashLen * 255 < length := by rwa [Nat.mul_comm]
  unfold hkdfExpand
  rw [expandLoop_run prk info 255 (by omega) (le_refl _), expandLoop, if_pos]
  · rfl
  · rwa [length_hkdfBlocks]

/-- `hkdf_expand` is RFC 5869's HKDF-Expand up to 255 blocks, a shorter output is a prefix of a
longer one, and it raises beyond. -/
theorem hkdfExpand_rfc5869 (hmac : List UInt8 → List UInt8 → Bytes hashLen) (prk info : List UInt8) :
    (∀ length ≤ 255 * hashLen, ∃ out, hkdfExpand hmac prk info length = .ok out ∧ out.length = length ∧
      ∀ k, length ≤ hashLen * k → out = (Blocks.blocks (hkdfBlock hmac prk info) k).take length) ∧
    (∀ short long : Nat, short ≤ long → ∀ out out', hkdfExpand hmac prk info short = .ok out →
      hkdfExpand hmac prk info long = .ok out' → out <+: out') ∧
    (∀ length, 255 * hashLen < length → hkdfExpand hmac prk info length = .error .valueError) := by
  have hblock : ∀ i, (hkdfBlock hmac prk info (i + 1)).length = hashLen := length_hkdfBlock prk info
  refine ⟨fun length h => ?_, fun short long hle out out' hout hout' => ?_, fun length h => ?_⟩
  · refine ⟨_, hkdfExpand_eq prk info h, Blocks.length_output hblock hashLen_pos length, fun k hk => ?_⟩
    exact (Blocks.take_blocks hblock hashLen_pos hk).symm
  · have hlong : long ≤ 255 * hashLen := by
      by_contra hgt
      rw [hkdfExpand_raises prk info (not_le.1 hgt)] at hout'
      cases hout'
    rw [hkdfExpand_eq prk info (le_trans hle hlong)] at hout
    rw [hkdfExpand_eq prk info hlong] at hout'
    obtain rfl := Except.ok.inj hout
    obtain rfl := Except.ok.inj hout'
    rw [← Blocks.take_output hblock hashLen_pos hle]
    exact List.take_prefix _ _
  · exact hkdfExpand_raises prk info h

end

/-! ## The root secrets -/

/-- The HMAC calls of `derive_roots` when it makes `n` attempts, keys and inputs. -/
def rootCalls (hmac : List UInt8 → List UInt8 → Bytes hashLen) (seed : List UInt8) (n : Nat) :
    List (List UInt8 × List UInt8) :=
  let prk := hkdfExtract hmac hkdfSalt seed
  (hkdfSalt, seed) :: (prk, infoSk0 ++ [1]) :: (List.range n).map fun a => (prk, infoD0 ++ [UInt8.ofNat a] ++ [1])

/-- Attempt `a` is the first one in range. -/
structure FirstInRange (hmac : List UInt8 → List UInt8 → Bytes hashLen) (prk : List UInt8) (a : Nat) : Prop where
  lt : a < 256
  rejected : ∀ b < a, ¬ InRange (rootBlock hmac prk b)
  accepted : InRange (rootBlock hmac prk a)

theorem firstInRange_or (hmac : List UInt8 → List UInt8 → Bytes hashLen) (prk : List UInt8) :
    (∃ a, FirstInRange hmac prk a) ∨ ∀ a < 256, ¬ InRange (rootBlock hmac prk a) := by
  cases h : (List.range 256).find? fun a => InRange (rootBlock hmac prk a) with
  | none =>
    refine .inr fun a ha => ?_
    simpa using List.find?_range_eq_none.1 h a ha
  | some a =>
    obtain ⟨hacc, hlt, hrej⟩ := List.find?_range_eq_some.1 h
    exact .inl ⟨a, List.mem_range.1 hlt, fun b hb => by simpa using hrej b hb, by simpa using hacc⟩

/-- What `derive_roots` does with a seed: `d_0` is the first block in range, `sk_0` is expanded on
its own, and only the calls of the attempts made matter. -/
structure RootsSpec (hmac : List UInt8 → List UInt8 → Bytes hashLen) (seed prk : List UInt8)
    (r : PyM (List UInt8 × List UInt8)) : Prop where
  block : ∀ a < 256, hkdfExpand hmac prk (infoD0 ++ [UInt8.ofNat a]) dLen = .ok (rootBlock hmac prk a)
  returns : ∀ d0 sk0, r = .ok (d0, sk0) ↔ hkdfExpand hmac prk infoSk0 skLen = .ok sk0 ∧
    ∃ a, FirstInRange hmac prk a ∧ d0 = toBE dLen (beNat (rootBlock hmac prk a))
  exits : ∀ e, r = .error e ↔ e = .systemExit .samplingExhausted ∧ ∀ a < 256, ¬ InRange (rootBlock hmac prk a)
  sizes : ∀ d0 sk0, r = .ok (d0, sk0) → d0.length = dLen ∧ InRange d0 ∧ sk0.length = skLen
  calls : ∀ n, (n = 256 ∨ ∃ a, FirstInRange hmac prk a ∧ n = a + 1) → ∀ hmac',
    (∀ c ∈ rootCalls hmac seed n, hmac' c.1 c.2 = hmac c.1 c.2) → deriveRoots hmac' seed = r

section

variable {hmac hmac' : List UInt8 → List UInt8 → Bytes hashLen} {seed prk : List UInt8}

theorem FirstInRange.deriveRoots {a : Nat} (h : FirstInRange hmac (hkdfExtract hmac hkdfSalt seed) a) :
    deriveRoots hmac seed = .ok (rootBlock hmac (hkdfExtract hmac hkdfSalt seed) a,
      (hmac (hkdfExtract hmac hkdfSalt seed) (infoSk0 ++ [1])).val) := by
  rw [deriveRoots_eq, sampleD0_accepted _ h.lt h.rejected h.accepted]
  rfl

theorem deriveRoots_exhausted (h : ∀ a < 256, ¬ InRange (rootBlock hmac (hkdfExtract hmac hkdfSalt seed) a)) :
    deriveRoots hmac seed = .error (.systemExit .samplingExhausted) := by
  rw [deriveRoots_eq, sampleD0_exhausted _ h]
  rfl

theorem FirstInRange.unique {a b : Nat} (ha : FirstInRange hmac prk a) (hb : FirstInRange hmac prk b) : a = b := by
  rcases lt_trichotomy a b with h | h | h
  · exact absurd ha.accepted (hb.rejected a h)
  · exact h
  · exact absurd hb.accepted (ha.rejected b h)

/-- HMACs that agree on the calls of `n` attempts agree on the key, on `sk_0` and on the blocks of
these attempts. -/
theorem agree_of_rootCalls {n : Nat} (h : ∀ c ∈ rootCalls hmac seed n, hmac' c.1 c.2 = hmac c.1 c.2) :
    hkdfExtract hmac' hkdfSalt seed = hkdfExtract hmac hkdfSalt seed ∧
    hmac' (hkdfExtract hmac hkdfSalt seed) (infoSk0 ++ [1]) = hmac (hkdfExtract hmac hkdfSalt seed) (infoSk0 ++ [1]) ∧
    ∀ a < n, rootBlock hmac' (hkdfExtract hmac hkdfSalt seed) a =
      rootBlock hmac (hkdfExtract hmac hkdfSalt seed) a := by
  simp only [rootCalls, List.forall_mem_cons, List.forall_mem_map, List.mem_range] at h
  obtain ⟨hprk, hsk0, hblocks⟩ := h
  refine ⟨congrArg Subtype.val hprk, hsk0, fun a ha => ?_⟩
  exact congrArg (fun b : Bytes hashLen => b.val.take dLen) (hblocks a ha)

theorem deriveRoots_congr {n : Nat}
    (hn : n = 256 ∨ ∃ a, FirstInRange hmac (hkdfExtract hmac hkdfSalt seed) a ∧ n = a + 1)
    (h : ∀ c ∈ rootCalls hmac seed n, hmac' c.1 c.2 = hmac c.1 c.2) :
    deriveRoots hmac' seed = deriveRoots hmac seed := by
  obtain ⟨hprk, hsk0, hblock⟩ := agree_of_rootCalls h
  rcases firstInRange_or hmac (hkdfExtract hmac hkdfSalt seed) with ⟨a, ha⟩ | hnone
  · have han : a < n := by
      rcases hn with rfl | ⟨b, hb, rfl⟩
      · exact ha.lt
      · rw [ha.unique hb]
        exact Nat.lt_succ_self b
    have ha' : FirstInRange hmac' (hkdfExtract hmac' hkdfSalt seed) a := by
      rw [hprk]
      refine ⟨ha.lt, fun b hb => ?_, ?_⟩
      · rw [hblock b (lt_trans hb han)]
        exact ha.rejected b hb
      · rw [hblock a han]
        exact ha.accepted
    rw [ha.deriveRoots, ha'.deriveRoots, hprk, hsk0, hblock a han]
  · have hn256 : n = 256 := by
      rcases hn with rfl | ⟨a, ha, rfl⟩
      · rfl
      · exact absurd ha.accepted (hnone a ha.lt)
    subst hn256
    rw [deriveRoots_exhausted hnone, deriveRoots_exhausted]
    intro a ha
    rw [hprk, hblock a ha]
    exact hnone a ha

/-- The HMAC input for `sk_0` is none of the inputs for `d_0`. -/
theorem infoSk0_ne_infoD0 (a : Nat) : infoSk0 ++ [1] ≠ infoD0 ++ [UInt8.ofNat a] ++ [1] := by
  intro h
  -- the labels differ in their eighth byte
  have hs : (infoSk0 ++ [1])[7]? = some 115 := rfl
  have hd : (infoD0 ++ [UInt8.ofNat a] ++ [1])[7]? = some 100 := rfl
  rw [h, hd] at hs
  exact absurd hs (by decide)

theorem hkdfExpand_sk0 (prk : List UInt8) :
    hkdfExpand hmac prk infoSk0 skLen = .ok (hmac prk (infoSk0 ++ [1])).val := by
  rw [hkdfExpand_one prk infoSk0 (by decide) (by decide), List.take_of_length_le (by rw [Bytes.length_val])]

theorem FirstInRange.rootsSpec {a : Nat} (h : FirstInRange hmac (hkdfExtract hmac hkdfSalt seed) a) :
    RootsSpec hmac seed (hkdfExtract hmac hkdfSalt seed) (DeriveKeys.deriveRoots hmac seed) := by
  refine ⟨fun b _ => hkdfExpand_rootBlock _ b, fun d0 sk0 => ?_, fun e => ?_, fun d0 sk0 hr => ?_,
    fun n hn hmac' hc => deriveRoots_congr hn hc⟩
  · rw [h.deriveRoots, hkdfExpand_sk0]
    constructor
    · intro hr
      obtain ⟨rfl, rfl⟩ := Prod.mk.inj (Except.ok.inj hr)
      exact ⟨rfl, a, h, (toBE_rootBlock _ a).symm⟩
    · rintro ⟨hsk0, b, hb, hd0⟩
      rw [Except.ok.inj hsk0, hd0, h.unique hb, toBE_rootBlock]
  · rw [h.deriveRoots]
    constructor
    · rintro ⟨⟩
    · rintro ⟨-, hnone⟩
      exact absurd h.accepted (hnone a h.lt)
  · rw [h.deriveRoots] at hr
    obtain ⟨rfl, rfl⟩ := Prod.mk.inj (Except.ok.inj hr)
    exact ⟨length_rootBlock _ a, h.accepted, Bytes.length_val _⟩

theorem rootsSpec_exhausted (h : ∀ a < 256, ¬ InRange (rootBlock hmac (hkdfExtract hmac hkdfSalt seed) a)) :
    RootsSpec hmac seed (hkdfExtract hmac hkdfSalt seed) (deriveRoots hmac seed) := by
  refine ⟨fun b _ => hkdfExpand_rootBlock _ b, fun d0 sk0 => ?_, fun e => ?_, fun d0 sk0 hr => ?_,
    fun n hn hmac' hc => deriveRoots_congr hn hc⟩
  · rw [deriveRoots_exhausted h]
    constructor
    · rintro ⟨⟩
    · rintro ⟨-, a, ha, -⟩
      exact absurd ha.accepted (h a ha.lt)
  · rw [deriveRoots_exhausted h]
    constructor
    · rintro ⟨⟩
      exact ⟨rfl, h⟩
    · rintro ⟨rfl, -⟩
      rfl
  · rw [deriveRoots_exhausted h] at hr
    cases hr

end

/-- `derive_roots`, for every HMAC and every seed: `d_0` is the first of at most 256 candidates in
range, with none it exits, and `sk_0` is expanded on its own, from an HMAC input that is none of
those used for `d_0`. -/
theorem deriveRoots_firstInRange (hmac : List UInt8 → List UInt8 → Bytes hashLen) (seed : List UInt8) :
    RootsSpec hmac seed (hkdfExtract hmac hkdfSalt seed) (deriveRoots hmac seed) ∧
    ∀ a, infoSk0 ++ [1] ≠ infoD0 ++ [UInt8.ofNat a] ++ [1] := by
  refine ⟨?_, infoSk0_ne_infoD0⟩
  rcases firstInRange_or hmac (hkdfExtract hmac hkdfSalt seed) with ⟨a, h⟩ | h
  · exact h.rootsSpec
  · exact rootsSpec_exhausted h

end Esptag.DeriveKeys
