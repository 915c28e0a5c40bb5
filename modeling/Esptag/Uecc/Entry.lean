/-
The entry points of `uECC.h` on keys as bytes: `uECC_compute_public_key` with its random number
generator, `uECC_valid_public_key` and `uECC_make_key`. Scalars from 2 to n - 3 have a key, valid
keys are the encodings of the points of the curve, and a made key is the one its scalar has.
-/
import Esptag.Crypto.Derive
import Esptag.Uecc.Key

namespace Esptag.Uecc

open Crypto Octets

/-! ## uECC_compute_public_key -/

/-- `uECC_compute_public_key`: whether it returned 1, and the public key buffer. -/
def ueccComputePublicKey (privateKey : Bytes dLen) (publicKey : Buf pubKeyLen) : RngM (Bool × Buf pubKeyLen) := do
  let priv := privateWords privateKey
  -- make sure the private key is in the range [1, n-1]
  if vliIsZero priv.val then
    return (false, publicKey)
  if vliCmp curveN priv.val ≠ 1 then
    return (false, publicKey)
  match ← eccPointComputePublicKey priv.val with
  | none => return (false, publicKey)
  | some p =>
    let publicKey := publicKey.write 0 (vliNativeToBytes 28 p.1.words)
    let publicKey := publicKey.write 28 (vliNativeToBytes 28 p.2.words)
    return (true, publicKey)

/-- The generator has an initial Z for `EccPoint_compute_public_key`: none is registered, or one of
its first 64 draws is acceptable and no call before it fails. -/
def Rng.HasZ (r : Rng) : Prop := r.registered = true → ∃ k < rngMaxTries,
  (∀ j < k, ∃ f, r.draw j = some f ∧ ¬ Acceptable curveP f) ∧ ∃ f, r.draw k = some f ∧ Acceptable curveP f

theorem curveP_top : curveP.getD (curveP.length - 1) 0 ≠ 0 := by decide

theorem isSome_drawInitialZ_iff (r : Rng) : (drawInitialZ.run r).1.isSome = true ↔ r.HasZ := by
  cases hr : r.registered with
  | false => simp [drawInitialZ, Rng.HasZ, hr]
  | true =>
    rw [Rng.HasZ, ← isSome_generateRandomInt_iff curveP_top hr]
    simp [drawInitialZ, hr]

instance instDecidableHasZ (r : Rng) : Decidable r.HasZ := decidable_of_iff _ (isSome_drawInitialZ_iff r)

/-- With its generator, `uECC_compute_public_key` does what it does in the crypto module's world: its
one primitive call succeeds where the generator has an initial Z, and then has the point of the scalar. -/
theorem ueccComputePublicKey_refines {env : Env} (henv : env.eccPoint = eccPoint) (d : Bytes dLen)
    (pk : Buf pubKeyLen) {r : Rng} {w : World} (h : w.sched.now = .ok ↔ r.HasZ) :
    ((ueccComputePublicKey d pk).run r).1 = ((Crypto.ueccComputePublicKey env d pk).run w).1 := by
  unfold ueccComputePublicKey Crypto.ueccComputePublicKey
  by_cases h0 : vliIsZero (privateWords d).val = true
  · simp [h0]
  by_cases h1 : vliCmp curveN (privateWords d).val = 1
  swap
  · simp [h0, h1]
  have hd : 0 < Words.val (privateWords d).val ∧ Words.val (privateWords d).val < order := by
    rw [vliIsZero_iff] at h0
    rw [vliCmp_curveN, curveOrder_eq] at h1
    rw [← val_privateWords] at h1
    exact ⟨Nat.pos_of_ne_zero h0, h1⟩
  have hrun := run_eccPointComputePublicKey (privateWords d).2 hd r
  simp only [isSome_drawInitialZ_iff, ← h] at hrun
  simp only [h0, h1, Crypto.eccPointComputePublicKey, Prog.run_bind, run_primCall, henv, eccPoint, ne_eq, not_true,
    if_false, Bool.false_eq_true, hrun]
  by_cases hok : w.sched.now = .ok
  · rw [if_pos hok, if_pos hok]
    cases eccPointWith (privateWords d).val none <;> rfl
  · rw [if_neg hok, if_neg hok]
    rfl

/-- `uECC_compute_public_key` returns 1 exactly for the scalars from 2 to `n - 3`, when the generator
has an initial Z, and writes the encoding of the scalar's multiple of the base point; otherwise it
leaves the buffer alone. -/
theorem run_ueccComputePublicKey (d : Bytes dLen) (pk : Buf pubKeyLen) (r : Rng) :
    ((ueccComputePublicKey d pk).run r).1 =
      if Usable (beNat d.val) ∧ r.HasZ then (true, ⟨encode (affine (beNat d.val • base)), true⟩) else (false, pk) := by
  obtain ⟨env, henv⟩ : ∃ env : Env, env.eccPoint = eccPoint :=
    ⟨⟨true, Env.counting.sha256, eccPoint, Env.counting.junk⟩, by dsimp only⟩
  have hkey := publicKey_eq henv d
  by_cases hz : r.HasZ
  · have hfate : World.start.sched.now = .ok ↔ r.HasZ := iff_of_true rfl hz
    rw [ueccComputePublicKey_refines henv d pk hfate]
    by_cases hu : Usable (beNat d.val)
    · rw [if_pos hu] at hkey
      rw [ueccComputePublicKey_some hkey, if_pos (hfate.2 hz), if_pos ⟨hu, hz⟩]
    · rw [if_neg hu] at hkey
      obtain ⟨_, hrun⟩ := ueccComputePublicKey_none hkey pk World.start
      rw [hrun, if_neg fun h => hu h.1]
  · have hfate : (⟨⟨fun _ => .fails, 0⟩, [], []⟩ : World).sched.now = .ok ↔ r.HasZ := iff_of_false nofun hz
    rw [ueccComputePublicKey_refines henv d pk hfate, if_neg fun h => hz h.2]
    cases hk : publicKey env d with
    | none =>
      obtain ⟨_, hrun⟩ := ueccComputePublicKey_none hk pk ⟨⟨fun _ => .fails, 0⟩, [], []⟩
      rw [hrun]
    | some key => rw [ueccComputePublicKey_some hk, if_neg fun h => hz (hfate.1 h)]

/-! ## uECC_valid_public_key -/

/-- `{3}`: the words of `-a`. -/
def three : Fe := ⟨(List.replicate 7 0).set 0 3, rfl, by decide +kernel⟩

/-- `curve->b`. -/
def coeffB : Fe := ⟨curveB, rfl, by decide +kernel⟩

/-- `x_side_default`: `x^3 + a x + b`. -/
def xSide (x : Fe) : Fe :=
  let r := x.modSquareFast           -- r = x^2
  let r := r.modSub three            -- r = x^2 - 3
  let r := r.modMultFast x           -- r = x^3 - 3x
  r.modAdd coeffB                    -- r = x^3 - 3x + b

theorem toFp_xSide (x : Fe) : (xSide x).toFp = x.toFp ^ 3 + -3 * x.toFp + (Words.val curveB : Fp) := by
  have h3 : three.toFp = 3 := by decide +kernel
  have hb : coeffB.toFp = (Words.val curveB : Fp) := rfl
  simp only [xSide, Fe.toFp_modAdd, Fe.toFp_modMultFast, Fe.toFp_modSub, Fe.toFp_modSquareFast, h3, hb]
  ring

/-- A field element out of words that compare below the prime. -/
def feOf (x : Vli) (h : vliCmpUnsafe curveP x.val = 1) : Fe :=
  ⟨x.val, x.2, val_curveP ▸ (vliCmpUnsafe_spec curveP x.val x.2.symm).1.1 h⟩

/-- `uECC_valid_point`. -/
def ueccValidPoint (x y : Vli) : Bool :=
  -- the point at infinity is invalid
  if vliIsZero (x.val ++ y.val) then false
  -- x and y must be smaller than p
  else if h : vliCmpUnsafe curveP x.val = 1 ∧ vliCmpUnsafe curveP y.val = 1 then
    let tmp1 := (feOf y h.2).modSquareFast
    let tmp2 := xSide (feOf x h.1)
    vliEqual tmp1.words tmp2.words
  else false

/-- The words of a coordinate. -/
def coordWords (bytes : Bytes 28) : Vli := ⟨vliBytesToNative bytes.val 28 7, length_vliBytesToNative _ _ _⟩

/-- The last 28 bytes of a public key: the y-coordinate. -/
def yCoord (key : Bytes pubKeyLen) : Bytes 28 := ⟨key.val.drop 28, by rw [List.length_drop, key.2]; rfl⟩

/-- `uECC_valid_public_key`. -/
def ueccValidPublicKey (publicKey : Bytes pubKeyLen) : Bool :=
  ueccValidPoint (coordWords (xCoord publicKey)) (coordWords (yCoord publicKey))

theorem ueccValidPoint_iff (x y : Vli) : ueccValidPoint x y = true ↔
    Words.val x.val < prime ∧ Words.val y.val < prime ∧
      secp224r1.Nonsingular (Words.val x.val : Fp) (Words.val y.val : Fp) := by
  have hx := (vliCmpUnsafe_spec curveP x.val x.2.symm).1
  have hy := (vliCmpUnsafe_spec curveP y.val y.2.symm).1
  rw [val_curveP] at hx hy
  rw [← hx, ← hy, nonsingular_iff]
  unfold ueccValidPoint
  by_cases hz : vliIsZero (x.val ++ y.val) = true
  · -- the origin is not on the curve
    rw [if_pos hz]
    rw [vliIsZero_iff, Words.val_append, x.2] at hz
    have hx0 : Words.val x.val = 0 := by omega
    have hy0 : Words.val y.val = 0 := by omega
    rw [hx0, hy0]
    exact iff_of_false (by simp) fun h => absurd h.2.2 (by decide +kernel)
  rw [if_neg hz]
  by_cases h : vliCmpUnsafe curveP x.val = 1 ∧ vliCmpUnsafe curveP y.val = 1
  · rw [dif_pos h]
    simp only [h, true_and]
    rw [vliEqual_iff _ _ (by rw [Fe.length, Fe.length]), ← Fe.ext_iff, ← Fe.toFp_inj, toFp_xSide, Fe.toFp_modSquareFast]
    rfl
  · rw [dif_neg h]
    exact iff_of_false (by simp) fun h' => h ⟨h'.1, h'.2.1⟩

theorem val_encode (q : Fp × Fp) : (encode q).val = toBE 28 q.1.val ++ toBE 28 q.2.val := rfl

theorem val_xCoord (key : Bytes pubKeyLen) : (xCoord key).val = key.val.take 28 := rfl

theorem val_yCoord (key : Bytes pubKeyLen) : (yCoord key).val = key.val.drop 28 := rfl

theorem xCoord_encode (q : Fp × Fp) : (xCoord (encode q)).val = toBE 28 q.1.val := by
  rw [val_xCoord, val_encode, List.take_left' (length_toBE 28 _)]

theorem yCoord_encode (q : Fp × Fp) : (yCoord (encode q)).val = toBE 28 q.2.val := by
  rw [val_yCoord, val_encode, List.drop_left' (length_toBE 28 _)]

theorem val_coordWords (bytes : Bytes 28) : Words.val (coordWords bytes).val = beNat bytes.val := val_privateWords bytes

/-- The encoding of a point is valid. -/
theorem ueccValidPublicKey_encode {P : secp224r1.Point} (hP : P ≠ 0) :
    ueccValidPublicKey (encode (affine P)) = true := by
  cases P with
  | zero => exact absurd rfl hP
  | some x y hn =>
    rw [ueccValidPublicKey, ueccValidPoint_iff, val_coordWords, val_coordWords]
    simp only [affine, xCoord_encode, yCoord_encode, beNat_toBE_of_lt (val_lt_256 _), ZMod.natCast_zmod_val]
    exact ⟨ZMod.val_lt x, ZMod.val_lt y, hn⟩

/-- `uECC_valid_public_key` accepts exactly the encodings of the points of the curve but infinity: it
rejects coordinates that are not reduced, and both coordinates zero. -/
theorem ueccValidPublicKey_iff (key : Bytes pubKeyLen) :
    ueccValidPublicKey key = true ↔ ∃ P : secp224r1.Point, P ≠ 0 ∧ key = encode (affine P) := by
  constructor
  · rw [ueccValidPublicKey, ueccValidPoint_iff, val_coordWords, val_coordWords]
    rintro ⟨hx, hy, hn⟩
    refine ⟨.some _ _ hn, WeierstrassCurve.Affine.Point.some_ne_zero hn, Subtype.ext ?_⟩
    have hback : ∀ b : Bytes 28, beNat b.val < prime → toBE 28 (ZMod.val (beNat b.val : Fp)) = b.val := by
      intro b hlt
      have hb := toBE_beNat b.val
      rwa [b.2, ← Nat.mod_eq_of_lt hlt, ← ZMod.val_natCast] at hb
    simp only [encode, affine]
    rw [hback _ hx, hback _ hy]
    exact (List.take_append_drop 28 key.val).symm
  · rintro ⟨P, hP, rfl⟩
    exact ueccValidPublicKey_encode hP

/-- `uECC_compute_public_key` with any generator, on any private key and buffer: it returns 1 exactly
when the scalar is from 2 to `n - 3` and the generator has an initial Z; it then writes a key that
`uECC_valid_public_key` accepts, the encoding of the scalar's multiple of the base point; and it
leaves the buffer alone otherwise. -/
theorem ueccComputePublicKey_exact (d : Bytes dLen) (pk : Buf pubKeyLen) (r : Rng) :
    let res := ((ueccComputePublicKey d pk).run r).1
    (res.1 = true ↔ (2 ≤ beNat d.val ∧ beNat d.val ≤ order - 3) ∧ r.HasZ) ∧
      (res.1 = true → res.2.bytes = encode (affine (beNat d.val • base)) ∧ ueccValidPublicKey res.2.bytes = true) ∧
      (res.1 = false → res.2 = pk) := by
  have ho : order = 26959946667150639794667015087019625940457807714424391721682722368061 := rfl
  have hu : Usable (beNat d.val) ↔ 2 ≤ beNat d.val ∧ beNat d.val ≤ order - 3 := by
    unfold Usable
    omega
  intro res
  have hres : res = _ := run_ueccComputePublicKey d pk r
  rw [hres, ← hu]
  by_cases h : Usable (beNat d.val) ∧ r.HasZ
  · rw [if_pos h]
    exact ⟨iff_of_true rfl h, fun _ => ⟨rfl, ueccValidPublicKey_encode (usable_nsmul_base_ne_zero h.1)⟩, nofun⟩
  · rw [if_neg h]
    exact ⟨iff_of_false nofun h, nofun, fun _ => rfl⟩

/-! ## uECC_make_key -/

/-- An iteration of `uECC_make_key`: the private and the public key. -/
def makeTry : RngM (Try (Bytes dLen × Bytes pubKeyLen)) := do
  match ← generateRandomInt curveN with
  | none => return .stop
  | some priv =>
    match ← eccPointComputePublicKey priv.words with
    | none => return .again
    | some p =>
      return .done (⟨vliNativeToBytes 28 priv.words, by simp [vliNativeToBytes]⟩,
        ⟨vliNativeToBytes 28 p.1.words ++ vliNativeToBytes 28 p.2.words, by simp [vliNativeToBytes]⟩)

/-- `uECC_make_key`: both keys, or nothing where it returns 0. -/
def ueccMakeKey : RngM (Option (Bytes dLen × Bytes pubKeyLen)) := Prog.tries makeTry rngMaxTries

/-- A try that succeeds has drawn a scalar that has a key. -/
theorem makeTry_done {r : Rng} {priv : Bytes dLen} {pub : Bytes pubKeyLen}
    (h : (makeTry.run r).1 = .done (priv, pub)) :
    Usable (beNat priv.val) ∧ pub = encode (affine (beNat priv.val • base)) := by
  simp only [makeTry, Prog.run_bind] at h
  cases hp : ((generateRandomInt curveN).run r).1 with
  | none =>
    rw [hp] at h
    cases h
  | some k =>
    rw [hp] at h
    generalize ((generateRandomInt curveN).run r).2 = r' at h
    have hk : 0 < Words.val k.words ∧ Words.val k.words < order := ⟨k.pos, val_curveN ▸ k.lt⟩
    have hl : k.words.length = 7 := k.length
    have hrun := run_eccPointComputePublicKey hl hk r'
    simp only [Prog.run_bind] at h
    cases hq : ((eccPointComputePublicKey k.words).run r').1 with
    | none =>
      rw [hq] at h
      cases h
    | some p =>
      rw [hq] at h hrun
      have hpoint : eccPointWith k.words none = some p := by
        split at hrun
        · exact hrun.symm
        · cases hrun
      obtain ⟨he, hc⟩ := (eccPointWith_eq_some_iff hl hk (by simp) p).1 hpoint
      have hval : beNat (vliNativeToBytes 28 k.words) = Words.val k.words := by
        rw [vliNativeToBytes_eq, beNat_toBE_of_lt (lt_trans hk.2 (by norm_num [order]))]
      obtain ⟨rfl, rfl⟩ := Prod.mk.inj (Try.done.inj h)
      rw [hval]
      exact ⟨(usable_iff _).2 ⟨hk, he⟩, Subtype.ext (toVli_bytes hc)⟩

/-- A try whose draw is a scalar that has a key succeeds, when there is an initial Z behind it. -/
theorem makeTry_of_usable {r : Rng} {k : RandomInt curveN} (hk : ((generateRandomInt curveN).run r).1 = some k)
    (hu : Usable (Words.val k.words)) (hz : ((generateRandomInt curveN).run r).2.HasZ) :
    ∃ priv pub, (makeTry.run r).1 = .done (priv, pub) ∧ beNat priv.val = Words.val k.words := by
  obtain ⟨hd, he⟩ := (usable_iff _).1 hu
  have hl : k.words.length = 7 := k.length
  have hne : eccPointWith k.words none ≠ none := (eccPointWith_eq_none_iff hl hd (by simp)).not.2 he
  have hrun := run_eccPointComputePublicKey hl hd ((generateRandomInt curveN).run r).2
  rw [if_pos ((isSome_drawInitialZ_iff _).2 hz)] at hrun
  obtain ⟨p, hp⟩ := Option.ne_none_iff_exists'.1 hne
  rw [hp] at hrun
  refine ⟨⟨vliNativeToBytes 28 k.words, by simp [vliNativeToBytes]⟩,
    ⟨vliNativeToBytes 28 p.1.words ++ vliNativeToBytes 28 p.2.words, by simp [vliNativeToBytes]⟩, ?_, ?_⟩
  · simp only [makeTry, Prog.run_bind, hk, hrun, Prog.run_pure]
  · simp only [vliNativeToBytes_eq]
    exact beNat_toBE_of_lt (lt_trans hd.2 (by norm_num [order]))

/-- `uECC_make_key`, whatever its generator draws: what it returns is a scalar from 2 to `n - 3` and
the public key, a valid one, that `uECC_compute_public_key` has for it; and it returns the first draw
where that is such a scalar and an initial Z follows. -/
theorem ueccMakeKey_exact (r : Rng) :
    (∀ priv pub, (ueccMakeKey.run r).1 = some (priv, pub) →
      Usable (beNat priv.val) ∧ ueccValidPublicKey pub = true ∧
        ∀ (r' : Rng) (pk : Buf pubKeyLen), r'.HasZ →
          ((ueccComputePublicKey priv pk).run r').1 = (true, ⟨pub, true⟩)) ∧
      ∀ k : RandomInt curveN, ((generateRandomInt curveN).run r).1 = some k → Usable (Words.val k.words) →
        ((generateRandomInt curveN).run r).2.HasZ →
        ∃ priv pub, (ueccMakeKey.run r).1 = some (priv, pub) ∧ beNat priv.val = Words.val k.words := by
  constructor
  · intro priv pub h
    obtain ⟨k, -, -, hdone⟩ := (Prog.tries_eq_some_iff rngMaxTries _).1 h
    obtain ⟨hu, rfl⟩ := makeTry_done hdone
    refine ⟨hu, ueccValidPublicKey_encode (usable_nsmul_base_ne_zero hu), fun r' pk hz => ?_⟩
    rw [run_ueccComputePublicKey, if_pos ⟨hu, hz⟩]
  · intro k hk hu hz
    obtain ⟨priv, pub, hdone, hpriv⟩ := makeTry_of_usable hk hu hz
    refine ⟨priv, pub, (Prog.tries_eq_some_iff rngMaxTries _).2 ⟨0, by decide, fun j hj => ?_, hdone⟩, hpriv⟩
    exact absurd hj (Nat.not_lt_zero j)

end Esptag.Uecc
