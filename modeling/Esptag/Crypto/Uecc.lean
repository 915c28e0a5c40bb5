/-
The part of micro-ecc the firmware calls (`uECC.c`): the conversion between byte strings and
words, the range check of `uECC_compute_public_key`, and `uECC_compress`. The point multiplication
itself (`EccPoint_compute_public_key`) is the environment's. The range check accepts exactly the
scalars in `[1, n - 1]`.
-/
import Esptag.Crypto.Prim
import Esptag.Lib.Words

namespace Esptag.Crypto

open Octets

/-! ## Words and bytes -/

/-- One iteration of `uECC_vli_bytesToNative`: byte `i` is or-ed into its word. -/
def vliSetByte (bytes : List UInt8) (numBytes : Nat) (native : List UInt32) (i : Nat) : List UInt32 :=
  let b := numBytes - 1 - i
  native.modify (b / 4) fun w => w ||| (bytes.getD i 0).toUInt32 <<< UInt32.ofNat (8 * (b % 4))

/-- `uECC_vli_bytesToNative`, over a number of `numWords` cleared words. -/
def vliBytesToNative (bytes : List UInt8) (numBytes numWords : Nat) : List UInt32 :=
  (List.range numBytes).foldl (vliSetByte bytes numBytes) (List.replicate numWords 0)

theorem length_foldl_vliSetByte (bytes : List UInt8) (numBytes : Nat) (l : List Nat) (ws : List UInt32) :
    (l.foldl (vliSetByte bytes numBytes) ws).length = ws.length := by
  induction l generalizing ws with
  | nil => rfl
  | cons i l ih => rw [List.foldl_cons, ih, vliSetByte, List.length_modify]

@[simp] theorem length_vliBytesToNative (bytes : List UInt8) (numBytes numWords : Nat) :
    (vliBytesToNative bytes numBytes numWords).length = numWords := by
  rw [vliBytesToNative, length_foldl_vliSetByte, List.length_replicate]

/-- `uECC_vli_nativeToBytes`. -/
def vliNativeToBytes (numBytes : Nat) (native : List UInt32) : List UInt8 :=
  (List.range numBytes).map fun i =>
    let b := numBytes - 1 - i
    (native.getD (b / 4) 0 >>> UInt32.ofNat (8 * (b % 4))).toUInt8

/-! ## Comparison -/

/-- `uECC_vli_isZero`. -/
def vliIsZero (vli : List UInt32) : Bool := vli.foldl (· ||| ·) 0 == 0

/-- `uECC_vli_sub`: the difference and the borrow. -/
def vliSub : List UInt32 → List UInt32 → UInt32 → List UInt32 × UInt32
  | l :: ls, r :: rs, borrow =>
    let diff := l - r - borrow
    let borrow := if diff ≠ l then (if diff > l then 1 else 0) else borrow
    let (result, out) := vliSub ls rs borrow
    (diff :: result, out)
  | _, _, borrow => ([], borrow)

/-- `uECC_vli_cmp`: the sign of `left - right`. -/
def vliCmp (left right : List UInt32) : Int :=
  let (tmp, borrow) := vliSub left right 0
  let neg : Int := if borrow ≠ 0 then 1 else 0
  let equal := vliIsZero tmp
  (if equal then 0 else 1) - 2 * neg

/-- `curve_secp224r1.n`. -/
def curveN : List UInt32 :=
  [0x5C5C2A3D, 0x13DD2945, 0xE0B8F03E, 0xFFFF16A2, 0xFFFFFFFF, 0xFFFFFFFF, 0xFFFFFFFF]

/-! ## The entry points -/

/-- `P224_PUB_KEY_LEN`: both coordinates. -/
abbrev pubKeyLen : Nat := 56
/-- `P224_COMPRESSED_LEN`: the header byte and the x-coordinate. -/
abbrev compressedLen : Nat := 29

/-- `EccPoint_compute_public_key`; it fails when the random number generator does. -/
def eccPointComputePublicKey (env : Env) (privateKey : Vli) : CryptoM (Option (Vli × Vli)) :=
  primCall (env.eccPoint privateKey)

/-- The words of a private key. -/
def privateWords (privateKey : Bytes dLen) : Vli :=
  ⟨vliBytesToNative privateKey.val dLen 7, length_vliBytesToNative _ _ _⟩

/-- `uECC_compute_public_key`: whether it returned 1, and the public key buffer. -/
def ueccComputePublicKey (env : Env) (privateKey : Bytes dLen) (publicKey : Buf pubKeyLen) :
    CryptoM (Bool × Buf pubKeyLen) := do
  let priv := privateWords privateKey
  -- make sure the private key is in the range [1, n-1]
  if vliIsZero priv.val then
    return (false, publicKey)
  if vliCmp curveN priv.val ≠ 1 then
    return (false, publicKey)
  match ← eccPointComputePublicKey env priv with
  | none => return (false, publicKey)
  | some (x, y) =>
    let publicKey := publicKey.write 0 (vliNativeToBytes 28 x.val)
    let publicKey := publicKey.write 28 (vliNativeToBytes 28 y.val)
    return (true, publicKey)

/-- `uECC_compress`: the x-coordinate behind a header byte with the parity of y. -/
def ueccCompress (publicKey : Bytes pubKeyLen) (compressed : Buf compressedLen) : Buf compressedLen :=
  let compressed := compressed.write 1 (publicKey.val.take 28)
  compressed.write 0 [2 + (publicKey.val.getD (28 * 2 - 1) 0 &&& 0x01)]

/-! ## The range check is exact -/

theorem foldl_or_eq_zero (ws : List UInt32) (acc : UInt32) :
    ws.foldl (· ||| ·) acc = 0 ↔ acc = 0 ∧ ∀ w ∈ ws, w = 0 := by
  induction ws generalizing acc with
  | nil => simp
  | cons w ws ih => rw [List.foldl_cons, ih, UInt32.or_eq_zero_iff, List.forall_mem_cons, and_assoc]

theorem vliIsZero_iff (ws : List UInt32) : vliIsZero ws = true ↔ Words.val ws = 0 := by
  rw [vliIsZero, beq_iff_eq, foldl_or_eq_zero, Words.val_eq_zero_iff]
  simp

/-- One word of `uECC_vli_sub`: the new borrow is what the difference wraps by. -/
theorem vliSub_word (l r borrow : UInt32) (hb : borrow.toNat ≤ 1) :
    let diff := l - r - borrow
    let out : UInt32 := if diff ≠ l then (if diff > l then 1 else 0) else borrow
    diff.toNat + r.toNat + borrow.toNat = l.toNat + 2 ^ 32 * out.toNat ∧ out.toNat ≤ 1 := by
  intro diff out
  have hl := l.toNat_lt
  have hr := r.toNat_lt
  have hd : diff.toNat = (2 ^ 32 - borrow.toNat + (2 ^ 32 - r.toNat + l.toNat) % 2 ^ 32) % 2 ^ 32 := by
    simp only [diff, UInt32.toNat_sub]
  have hne : diff ≠ l ↔ diff.toNat ≠ l.toNat := by rw [ne_eq, ← UInt32.toNat_inj]
  by_cases h : diff ≠ l
  · have hlt : (diff > l) ↔ l.toNat < diff.toNat := UInt32.lt_iff_toNat_lt
    have ho : out = if l.toNat < diff.toNat then 1 else 0 := by
      simp only [out, if_pos h, hlt]
    rw [hne] at h
    rw [ho]
    split
    · rw [UInt32.toNat_one]; omega
    · rw [UInt32.toNat_zero]; omega
  · have ho : out = borrow := if_neg h
    rw [hne, not_not] at h
    rw [ho]
    omega

theorem vliSub_spec : ∀ (left right : List UInt32) (borrow : UInt32), left.length = right.length →
    borrow.toNat ≤ 1 →
    Words.val (vliSub left right borrow).1 + Words.val right + borrow.toNat =
      Words.val left + (2 ^ 32) ^ left.length * (vliSub left right borrow).2.toNat ∧
      (vliSub left right borrow).2.toNat ≤ 1 ∧ (vliSub left right borrow).1.length = left.length
  | [], [], borrow, _, hb => by simp [vliSub, hb]
  | l :: ls, r :: rs, borrow, hl, hb => by
    obtain ⟨hw, ho⟩ := vliSub_word l r borrow hb
    obtain ⟨h1, h2, h3⟩ := vliSub_spec ls rs _ (by simpa using hl) ho
    simp only [vliSub]
    generalize (if l - r - borrow ≠ l then if l - r - borrow > l then 1 else 0 else borrow) = out at hw ho h1 h2 h3
    refine ⟨?_, h2, by simp [h3]⟩
    simp only [Words.val_cons, List.length_cons, pow_succ' (2 ^ 32) ls.length]
    rw [Nat.mul_assoc]
    generalize (2 ^ 32) ^ ls.length * (vliSub ls rs out).2.toNat = top at h1 ⊢
    omega

/-- `uECC_vli_cmp(left, right) == 1` says `left > right`. -/
theorem vliCmp_eq_one_iff (left right : List UInt32) (hl : left.length = right.length) :
    vliCmp left right = 1 ↔ Words.val right < Words.val left := by
  obtain ⟨h1, h2, h3⟩ := vliSub_spec left right 0 hl (by decide)
  have hlt := Words.val_lt (vliSub left right 0).1
  have hz := vliIsZero_iff (vliSub left right 0).1
  rw [h3] at hlt
  unfold vliCmp
  generalize vliSub left right 0 = p at *
  obtain ⟨tmp, borrow⟩ := p
  simp only [UInt32.toNat_zero, Nat.add_zero] at h1 h2 h3 hlt hz ⊢
  by_cases hb : borrow = 0
  · subst hb
    rw [UInt32.toNat_zero, Nat.mul_zero, Nat.add_zero] at h1
    simp only [ne_eq, not_true, if_false]
    cases he : vliIsZero tmp
    · have : Words.val tmp ≠ 0 := fun h => by rw [hz.2 h] at he; cases he
      simp; omega
    · have := hz.1 he
      simp; omega
  · have hb1 : borrow.toNat = 1 := by
      have : borrow.toNat ≠ 0 := fun h => hb (by rw [← UInt32.toNat_inj, h]; rfl)
      omega
    rw [hb1] at h1
    simp only [ne_eq, hb, not_false_eq_true, if_true]
    constructor
    · intro h; exfalso; split at h <;> omega
    · intro h; omega

/-! ## Bytes to words -/

/-- Setting byte `i`, counted from the top, in words that are zero from that byte down. -/
theorem val_vliSetByte (bytes : List UInt8) {numBytes i b : Nat} (hb : numBytes = i + b + 1) (ws : List UInt32)
    (hl : b / 4 < ws.length) (hz : 256 ^ (b + 1) ∣ Words.val ws) :
    Words.val (vliSetByte bytes numBytes ws i) = Words.val ws + (bytes.getD i 0).toNat * 256 ^ b := by
  have h32 : (2 : Nat) ^ 32 = 256 ^ 4 := by norm_num
  have hsplit : 256 ^ (b + 1) = 256 ^ (b % 4 + 1) * (256 ^ 4) ^ (b / 4) := by
    rw [← pow_mul, ← pow_add]; congr 1; omega
  have hword : 256 ^ (b % 4 + 1) ∣ (ws.getD (b / 4) 0).toNat := by
    obtain ⟨q, hq⟩ := hz
    rw [Words.toNat_getD, hq, h32, hsplit, Nat.mul_right_comm, Nat.mul_div_cancel _ (by positivity)]
    exact (Nat.dvd_mod_iff (pow_dvd_pow 256 (by omega))).2 (Dvd.intro _ rfl)
  have hm := Words.val_modify ws (b / 4)
    (fun w => w ||| (bytes.getD i 0).toUInt32 <<< UInt32.ofNat (8 * (b % 4))) hl
  have hpow : 256 ^ (b % 4) * (2 ^ 32) ^ (b / 4) = 256 ^ b := by
    rw [h32, ← pow_mul, ← pow_add]; congr 1; omega
  rw [Words.toNat_or_byte _ _ (Nat.mod_lt _ (by norm_num)) hword, Nat.add_mul, Nat.mul_assoc _ _ ((2 ^ 32) ^ _),
    hpow] at hm
  unfold vliSetByte
  rw [show numBytes - 1 - i = b by omega]
  simp only
  omega

/-- The loop of `uECC_vli_bytesToNative` after `i` bytes: the words spell these bytes, moved to
the top of the number. -/
theorem val_foldl_vliSetByte (bytes : List UInt8) (numWords : Nat) (hw : bytes.length ≤ 4 * numWords) :
    ∀ i, i ≤ bytes.length →
      Words.val ((List.range i).foldl (vliSetByte bytes bytes.length) (List.replicate numWords 0)) =
        beNat (bytes.take i) * 256 ^ (bytes.length - i)
  | 0, _ => by simp
  | i + 1, hi => by
    have ih := val_foldl_vliSetByte bytes numWords hw i (by omega)
    have hlen := length_foldl_vliSetByte bytes bytes.length (List.range i) (List.replicate numWords 0)
    obtain ⟨b, hb⟩ : ∃ b, bytes.length = i + b + 1 := ⟨bytes.length - i - 1, by omega⟩
    rw [List.range_succ, List.foldl_append, List.foldl_cons, List.foldl_nil]
    rw [List.length_replicate] at hlen
    have htake : bytes.take (i + 1) = bytes.take i ++ [bytes.getD i 0] := by
      rw [List.take_add_one, List.getD_eq_getElem?_getD, List.getElem?_eq_getElem (by omega)]; rfl
    rw [show bytes.length - i = b + 1 by omega] at ih
    rw [val_vliSetByte bytes hb _ (by omega) (by rw [ih]; exact Dvd.intro_left _ rfl), ih, htake, beNat_concat,
      show bytes.length - (i + 1) = b by omega, pow_succ]
    ring

/-- The words of a private key spell its big-endian number. -/
theorem val_privateWords (d : Bytes dLen) : Words.val (privateWords d).val = beNat d.val := by
  have h := val_foldl_vliSetByte d.val 7 (by simp) d.val.length (le_refl _)
  rw [List.take_length, Nat.sub_self, pow_zero, Nat.mul_one, d.2] at h
  exact h

/-! ## The public key of a scalar -/

/-- The order of the group, as the range check has it. -/
def curveOrder : Nat := Words.val curveN

/-- The key `uECC_compute_public_key` writes for the scalar `d`, when it accepts it. -/
def publicKey (env : Env) (d : Bytes dLen) : Option (Bytes pubKeyLen) :=
  if 0 < beNat d.val ∧ beNat d.val < curveOrder then
    (env.eccPoint (privateWords d)).map fun p =>
      ⟨vliNativeToBytes 28 p.1.val ++ vliNativeToBytes 28 p.2.val, by simp [vliNativeToBytes]⟩
  else none

theorem vliCmp_curveN (d : Bytes dLen) : vliCmp curveN (privateWords d).val = 1 ↔ beNat d.val < curveOrder := by
  have hl : curveN.length = (privateWords d).val.length := (privateWords d).2.symm
  rw [vliCmp_eq_one_iff _ _ hl, val_privateWords, curveOrder]

/-- `uECC_compute_public_key` on a scalar it does not accept. -/
theorem ueccComputePublicKey_none {env : Env} {d : Bytes dLen} (h : publicKey env d = none)
    (pk : Buf pubKeyLen) (w : World) :
    ∃ k, (ueccComputePublicKey env d pk).run w = ((false, pk), { w with sched := w.sched.skip k }) := by
  have hz := vliIsZero_iff (privateWords d).val
  have hc := vliCmp_curveN d
  rw [val_privateWords] at hz
  unfold ueccComputePublicKey
  by_cases h0 : vliIsZero (privateWords d).val = true
  · exact ⟨0, by simp [h0]⟩
  by_cases h1 : vliCmp curveN (privateWords d).val = 1
  · have hp : env.eccPoint (privateWords d) = none := by
      unfold publicKey at h
      rw [if_pos ⟨Nat.pos_of_ne_zero fun hd => h0 (hz.2 hd), hc.1 h1⟩] at h
      simpa using h
    exact ⟨1, by simp [h0, h1, eccPointComputePublicKey, run_primCall, hp, World.tick]⟩
  · exact ⟨0, by simp [h0, h1]⟩

/-- `uECC_compute_public_key` on a scalar it accepts: only the call itself can fail. -/
theorem ueccComputePublicKey_some {env : Env} {d : Bytes dLen} {key : Bytes pubKeyLen}
    (h : publicKey env d = some key) (pk : Buf pubKeyLen) (w : World) :
    (ueccComputePublicKey env d pk).run w =
      (if w.sched.now = .ok then (true, ⟨key, true⟩) else (false, pk), w.tick) := by
  have hz := vliIsZero_iff (privateWords d).val
  have hc := vliCmp_curveN d
  rw [val_privateWords] at hz
  unfold publicKey at h
  split at h
  · rename_i hr
    obtain ⟨p, hp, hk⟩ := Option.map_eq_some_iff.1 h
    obtain ⟨x, y⟩ := p
    have h0 : vliIsZero (privateWords d).val = false := by
      cases hv : vliIsZero (privateWords d).val
      · rfl
      · have := hz.1 hv; omega
    unfold ueccComputePublicKey
    simp only [h0, hc.2 hr.2, eccPointComputePublicKey, run_primCall, hp, Bool.false_eq_true, ne_eq,
      not_true, if_false, Prog.run_bind]
    by_cases hf : w.sched.now = .ok
    · simp only [hf, if_true, Prog.run_pure]
      have hx : (vliNativeToBytes 28 x.val).length = 28 := by simp [vliNativeToBytes]
      have hy : (vliNativeToBytes 28 y.val).length = 28 := by simp [vliNativeToBytes]
      have hb := Bytes.val_write_write pk.bytes (vliNativeToBytes 28 x.val) (vliNativeToBytes 28 y.val)
        (by rw [hx, hy])
      rw [hx] at hb
      have hne : (vliNativeToBytes 28 y.val).isEmpty = false := by
        rw [List.isEmpty_eq_false_iff_exists_mem]; exact List.exists_mem_of_length_pos (by omega)
      simp only [Buf.write, hne, Bool.not_false, Bool.or_true]
      rw [← hk]
      congr 3
    · simp only [hf, if_false, Prog.run_pure]
  · cases h

end Esptag.Crypto
