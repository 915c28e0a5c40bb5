/-
The advertising key of an epoch: `compute_d` is `(d_0 · u + v) mod n` in one step of arithmetic,
`d_to_p` the x-coordinate of the public key, `crypto_derive_p` both after the "diversify" KDF. Every
failure leaves the output as it was.
-/
import Esptag.Crypto.Ratchet

namespace Esptag.Crypto

open Octets

/-! ## Chains of primitive calls -/

/-- A program that makes `n` primitive calls, returns `good` when they all succeed, and `bad` as
soon as one fails. -/
def Chain {α : Type} (good bad : α) (n : Nat) (p : CryptoM α) : Prop :=
  ∀ w : World, (w.Good n ∧ p.run w = (good, { w with sched := w.sched.skip n })) ∨
    (¬ w.Good n ∧ (p.run w).1 = bad ∧ w.sched ≤ (p.run w).2.sched)

theorem Chain.done {α : Type} (good bad : α) : Chain good bad 0 (pure good) :=
  fun w => .inl ⟨w.good_zero, rfl⟩

/-- One more call in front. -/
theorem Chain.call {α β : Type} {good bad : α} {n : Nat} {a : β} {r : Option β} {rest : Option β → CryptoM α}
    (hr : r = some a) (hbad : rest none = pure bad) (h : Chain good bad n (rest (some a))) :
    Chain good bad (n + 1) (primCall r >>= rest) := by
  intro w
  have hadd : w.Good (n + 1) ↔ w.Good 1 ∧ w.tick.Good n := by
    rw [Nat.add_comm]
    exact World.good_add rfl
  simp only [Prog.run_bind, run_primCall, hr]
  by_cases hf : w.sched.now = .ok
  · rw [if_pos hf, hadd]
    rcases h w.tick with ⟨h1, h2⟩ | ⟨h1, h2, h3⟩
    · refine .inl ⟨⟨World.good_one.2 hf, h1⟩, ?_⟩
      rw [h2, Nat.add_comm n 1, ← Sched.skip_skip]
      rfl
    · exact .inr ⟨fun hg => h1 hg.2, h2, le_trans (Sched.le_skip _ 1) h3⟩
  · rw [if_neg hf, hbad]
    exact .inr ⟨World.not_good_of_now hf (Nat.succ_pos n), rfl, Sched.le_skip _ _⟩

/-! ## The scalar -/

theorem beNat_p224N : beNat p224N = curveOrder := by decide

theorem curveOrder_lt : curveOrder < 256 ^ dLen := by decide

theorem curveOrder_pos : 0 < curveOrder := by decide

/-- Reducing after the product and after the sum is reducing once, and the result fits. -/
theorem computeD_chain (d0 : Bytes dLen) (u v : List UInt8) (dI : Buf dLen) :
    Chain (.ok, ⟨be dLen ((beNat d0.val * beNat u + beNat v) % curveOrder), true⟩) (.err, dI) 9
      (computeD d0 u v dI) := by
  have hmod : (beNat d0.val * beNat u % curveOrder + beNat v) % curveOrder =
      (beNat d0.val * beNat u + beNat v) % curveOrder := Nat.mod_add_mod _ _ _
  have hfit : (beNat d0.val * beNat u + beNat v) % curveOrder < 256 ^ dLen :=
    lt_trans (Nat.mod_lt _ curveOrder_pos) curveOrder_lt
  have hwrite : dI.write 0 (toBE dLen ((beNat d0.val * beNat u + beNat v) % curveOrder)) =
      ⟨be dLen ((beNat d0.val * beNat u + beNat v) % curveOrder), true⟩ :=
    Buf.write_all dI (be dLen _) (by decide)
  have hn : beNat p224N ≠ 0 := by rw [beNat_p224N]; exact curveOrder_pos.ne'
  unfold computeD
  refine Chain.call rfl rfl (Chain.call rfl rfl (Chain.call rfl rfl (Chain.call rfl rfl (Chain.call rfl rfl
    (Chain.call (if_neg hn) rfl (Chain.call rfl rfl (Chain.call (if_neg hn) rfl (Chain.call
      (a := toBE dLen ((beNat d0.val * beNat u + beNat v) % curveOrder)) ?_ rfl ?_))))))))
  · rw [beNat_p224N, hmod, if_pos hfit]
  · simp only [hwrite]
    exact Chain.done _ _

/-! ## The key of a scalar -/

/-- The first 28 bytes of a public key: the x-coordinate. -/
def xCoord (key : Bytes pubKeyLen) : Bytes pLen := ⟨key.val.take pLen, by rw [List.length_take, key.2]; rfl⟩

/-- The advertising key of the scalar `d`. -/
def advKey (env : Env) (d : Bytes dLen) : Option (Bytes pLen) := (publicKey env d).map xCoord

/-- `uECC_compress` puts one header byte before the x-coordinate. -/
theorem ueccCompress_tail (key : Bytes pubKeyLen) (compressed : Buf compressedLen) :
    (ueccCompress key compressed).bytes.val.drop 1 = key.val.take 28 := by
  have hx : (key.val.take 28).length = 28 := by rw [List.length_take, key.2]; rfl
  unfold ueccCompress
  simp only [Buf.write_bytes]
  generalize compressed.bytes = c
  have h1 := Bytes.val_write c 1 (key.val.take 28) (by rw [hx])
  have h0 := Bytes.val_write (c.write 1 (key.val.take 28)) 0 [2 + (key.val.getD (28 * 2 - 1) 0 &&& 0x01)]
    (by rw [List.length_singleton]; decide)
  have hc : (c.val.take 1).length = 1 := by rw [List.length_take, c.2]; rfl
  have htail : c.val.drop (1 + 28) = [] := List.drop_of_length_le (by rw [c.2])
  rw [h0, h1, hx, htail, List.append_nil, List.take_zero, List.nil_append, List.length_singleton, Nat.zero_add,
    List.drop_left' hc]
  rfl

theorem write_xCoord (p : Bytes pLen) (key : Bytes pubKeyLen) :
    p.write 0 ((key.val.take 28).take pLen) = xCoord key := by
  rw [List.take_take]
  exact Bytes.write_all p (xCoord key)

/-- `d_to_p`: the key of `d`, or an error and the output as it was, when the call fails or the
scalar is not accepted. -/
structure DToPSpec (env : Env) (d : Bytes dLen) (p : Bytes pLen) (w : World) (rc : Status) (p' : Bytes pLen)
    (w' : World) : Prop where
  le : w.sched ≤ w'.sched
  ret : (rc = .ok ∧ w.Good 1 ∧ advKey env d = some p') ∨
    (rc = .err ∧ p' = p ∧ (¬ w.Good 1 ∨ advKey env d = none))

theorem dToP_spec (env : Env) (d : Bytes dLen) (p : Bytes pLen) (w : World) :
    let r := (dToP env d p).run w
    DToPSpec env d p w r.1.1 r.1.2 r.2 := by
  intro r
  have hr : r = (dToP env d p).run w := rfl
  simp only [dToP, Prog.run_bind] at hr
  cases hk : publicKey env d with
  | none =>
    obtain ⟨k, hrun⟩ := ueccComputePublicKey_none hk (Buf.fresh env.junk pubKeyLen) w
    rw [hrun] at hr
    simp only [ne_eq, Bool.false_eq_true, not_false_eq_true, if_true, Prog.run_bind, run_leave, Prog.run_pure] at hr
    rw [hr]
    exact ⟨Sched.le_skip _ _, .inr ⟨rfl, rfl, .inr (by rw [advKey, hk]; rfl)⟩⟩
  | some key =>
    rw [ueccComputePublicKey_some hk] at hr
    by_cases hf : w.sched.now = .ok
    · simp only [hf, if_true, ne_eq, not_true, if_false, Prog.run_bind, run_leave, Prog.run_pure,
        ueccCompress_tail, write_xCoord] at hr
      rw [hr]
      exact ⟨Sched.le_skip _ _, .inl ⟨rfl, World.good_one.2 hf, by rw [advKey, hk]; rfl⟩⟩
    · simp only [hf, if_false, ne_eq, Bool.false_eq_true, not_false_eq_true, if_true, Prog.run_bind, run_leave,
        Prog.run_pure] at hr
      rw [hr]
      exact ⟨Sched.le_skip _ _, .inr ⟨rfl, rfl, .inl (World.not_good_of_now hf Nat.one_pos)⟩⟩

/-! ## The key of an epoch -/

/-- `uv = KDF(sk, "diversify", 72)`. -/
def diversify (env : Env) (sk : Bytes skLen) : List UInt8 := kdfBytes env sk.val labelDiversify.val diversifyLen

/-- The scalar of the epoch with the key `sk`: `(d_0 · u + v) mod n`. -/
def epochScalar (env : Env) (d0 : Bytes dLen) (sk : Bytes skLen) : Nat :=
  (beNat d0.val * beNat ((diversify env sk).take uvLen) + beNat ((diversify env sk).drop uvLen)) % curveOrder

/-- The advertising key of the epoch with the key `sk`, where there is one. -/
def epochKey (env : Env) (d0 : Bytes dLen) (sk : Bytes skLen) : Option (Bytes pLen) :=
  advKey env (be dLen (epochScalar env d0 sk))

theorem epochScalar_lt (env : Env) (d0 : Bytes dLen) (sk : Bytes skLen) : epochScalar env d0 sk < curveOrder :=
  Nat.mod_lt _ curveOrder_pos

/-- The primitive calls of `crypto_derive_p`: three hashes, nine big-number operations, one public
key. -/
def deriveCalls : Nat := 13

/-- What `crypto_derive_p` does: the epoch's key, or an error and the output as it was, when a call
fails or the epoch's scalar is not accepted. -/
structure DeriveSpec (env : Env) (d0 : Bytes dLen) (sk : Bytes skLen) (p : Bytes pLen) (w : World) (rc : Status)
    (p' : Bytes pLen) (w' : World) : Prop where
  le : w.sched ≤ w'.sched
  ret : (rc = .ok ∧ w.Good deriveCalls ∧ epochKey env d0 sk = some p') ∨
    (rc = .err ∧ p' = p ∧ (¬ w.Good deriveCalls ∨ epochKey env d0 sk = none))

theorem KdfSpec.le {m : Nat} {env : Env} {z info : List UInt8} {out out' : Buf m} {outLen k : Nat} {w w' : World}
    {rc : Status} (h : KdfSpec env z info out outLen w rc out' w' k) : w.sched ≤ w'.sched := by
  rcases h.ret with ⟨-, -, -, h, -⟩ | ⟨-, -, -, -, h, -⟩ <;> rw [h] <;> exact Sched.le_skip _ _

theorem count_diversifyLen : Blocks.count hashLen diversifyLen = 3 := rfl

/-- The "diversify" KDF: `uv`, when its three hash calls succeed. -/
theorem kdf_diversify (env : Env) (sk : Bytes skLen) (w : World) :
    let r := (kdf env sk labelDiversify (Buf.fresh env.junk diversifyLen) diversifyLen).run w
    w.sched ≤ r.2.sched ∧
      ((w.Good 3 ∧ r.1.1 = .ok ∧ r.1.2.bytes.val = diversify env sk ∧ r.2.sched = w.sched.skip 3) ∨
        (¬ w.Good 3 ∧ r.1.1 = .err)) := by
  obtain ⟨k, hk⟩ := kdf_spec env sk labelDiversify (Buf.fresh env.junk diversifyLen) diversifyLen
    (le_refl _) (by decide) w
  refine ⟨hk.le, ?_⟩
  rcases hk.ret with ⟨h1, h2, h3, h4, -⟩ | ⟨h1, h2, -, hf, -⟩
  · rw [count_diversifyLen] at h1
    rw [List.drop_of_length_le (by rw [Bytes.length_val]), List.append_nil] at h3
    subst h1
    exact .inl ⟨hk.good, h2, h3, h4⟩
  · rw [count_diversifyLen] at h1
    exact .inr ⟨fun hg => hf (hg k h1), h2⟩

theorem cryptoDeriveP_spec (env : Env) (d0 : Bytes dLen) (sk : Bytes skLen) (p : Bytes pLen) (w : World) :
    let r := (cryptoDeriveP env d0 sk p).run w
    DeriveSpec env d0 sk p w r.1.1 r.1.2 r.2 := by
  intro r
  have hr : r = (cryptoDeriveP env d0 sk p).run w := rfl
  simp only [cryptoDeriveP, Prog.run_bind] at hr
  obtain ⟨hle₁, hk⟩ := kdf_diversify env sk w
  generalize (kdf env sk labelDiversify _ diversifyLen).run w = s at hle₁ hk hr
  obtain ⟨⟨rc, uv⟩, w₁⟩ := s
  simp only at hle₁ hk
  rcases hk with ⟨hg, rfl, huv, hs⟩ | ⟨hg, rfl⟩
  swap
  · simp only [ne_eq, reduceCtorEq, not_false_eq_true, if_true, Prog.run_bind, run_leave, Prog.run_pure] at hr
    rw [hr]
    exact ⟨hle₁, .inr ⟨rfl, rfl, .inl fun h => hg (h.mono (by decide))⟩⟩
  simp only [ne_eq, not_true, if_false, Prog.run_bind, huv] at hr
  have hD := computeD_chain d0 ((diversify env sk).take uvLen) ((diversify env sk).drop uvLen)
    (Buf.fresh env.junk dLen) w₁
  generalize (computeD d0 _ _ _).run w₁ = s at hD hr
  obtain ⟨⟨rc, dI⟩, w₂⟩ := s
  simp only at hr hD
  rcases hD with ⟨hg₁, hD⟩ | ⟨hg₁, hD, hle₂⟩
  swap
  · obtain ⟨rfl, rfl⟩ := Prod.mk.inj hD
    simp only [reduceCtorEq, not_false_eq_true, if_true, Prog.run_bind, run_leave, Prog.run_pure] at hr
    rw [hr]
    exact ⟨le_trans hle₁ hle₂, .inr ⟨rfl, rfl, .inl fun h => hg₁ ((World.good_add hs).1 (h.mono (by decide))).2⟩⟩
  simp only [Prod.mk.injEq] at hD
  obtain ⟨⟨rfl, rfl⟩, rfl⟩ := hD
  simp only [not_true, if_false, Prog.run_bind] at hr
  generalize hw₃ : ({ w₁ with sched := _, dead := _ } : World) = w₃ at hr
  have hs₃ : w₃.sched = w.sched.skip 12 := by
    rw [← hw₃]
    simp only [hs, Sched.skip_skip]
  have hadd : w.Good deriveCalls ↔ w.Good 12 ∧ w₃.Good 1 := World.good_add (n := 1) hs₃
  have h12 : w.Good 12 := (World.good_add (m := 3) (n := 9) hs).2 ⟨hg, hg₁⟩
  have hP := dToP_spec env (be dLen (epochScalar env d0 sk)) p w₃
  unfold epochScalar at hP
  generalize (dToP env _ p).run w₃ = s at hP hr
  obtain ⟨⟨rc, p'⟩, w₄⟩ := s
  simp only [run_leave] at hr hP
  have hle₃ : w.sched ≤ w₄.sched := le_trans (by rw [hs₃]; exact Sched.le_skip _ _) hP.le
  rcases hP.ret with ⟨rfl, h1, h2⟩ | ⟨rfl, h1, h2⟩
  · simp only [not_true, if_false, Prog.run_pure] at hr
    rw [hr]
    exact ⟨hle₃, .inl ⟨rfl, hadd.2 ⟨h12, h1⟩, h2⟩⟩
  · simp only [reduceCtorEq, not_false_eq_true, if_true, Prog.run_pure] at hr
    rw [hr]
    exact ⟨hle₃, .inr ⟨rfl, h1, h2.imp (fun h hg => h (hadd.1 hg).2) id⟩⟩

/-! ## Exactly when there is a key -/

theorem DeriveSpec.ok_iff {env : Env} {d0 : Bytes dLen} {sk : Bytes skLen} {p p' : Bytes pLen} {w w' : World}
    {rc : Status} (h : DeriveSpec env d0 sk p w rc p' w') :
    rc = .ok ↔ w.Good deriveCalls ∧ ∃ key, epochKey env d0 sk = some key := by
  constructor
  · rintro rfl
    rcases h.ret with ⟨-, h2, h3⟩ | ⟨h1, -⟩
    · exact ⟨h2, p', h3⟩
    · cases h1
  · rintro ⟨hg, key, hkey⟩
    rcases h.ret with ⟨h1, -⟩ | ⟨-, -, h3 | h3⟩
    · exact h1
    · exact absurd hg h3
    · rw [hkey] at h3; cases h3

/-- `uECC_compute_public_key` returns 1 exactly when its call succeeds and the scalar has a key. -/
theorem ueccComputePublicKey_ok_iff (env : Env) (d : Bytes dLen) (pk : Buf pubKeyLen) (w : World) :
    let r := (ueccComputePublicKey env d pk).run w
    (r.1.1 = true ↔ w.Good 1 ∧ ∃ key, publicKey env d = some key) ∧
      (r.1.1 = true → publicKey env d = some r.1.2.bytes) := by
  cases hk : publicKey env d with
  | none =>
    obtain ⟨k, hrun⟩ := ueccComputePublicKey_none hk pk w
    rw [hrun]
    simp
  | some key =>
    rw [ueccComputePublicKey_some hk, World.good_one]
    by_cases hf : w.sched.now = .ok <;> simp [hf]

/-- The scalar is reduced: the range check of uECC never refuses it for being too large. -/
theorem vliCmp_epochScalar (env : Env) (d0 : Bytes dLen) (sk : Bytes skLen) :
    vliCmp curveN (privateWords (be dLen (epochScalar env d0 sk))).val = 1 := by
  have hlt := epochScalar_lt env d0 sk
  rw [vliCmp_curveN, val_be, beNat_toBE_of_lt (lt_trans hlt curveOrder_lt)]
  exact hlt

/-- The zero scalar has no key. -/
theorem publicKey_zero (env : Env) : publicKey env (be dLen 0) = none := by
  rw [publicKey, if_neg]
  rw [val_be, beNat_toBE_of_lt (by decide)]
  exact fun h => absurd h.1 (lt_irrefl 0)

/-- `crypto_derive_p` when no hash and no big-number call fails: `compute_d` writes the reduced
scalar, 28 bytes with leading zeros; uECC never refuses it for being `n` or more; a zero scalar is
an error, and any other one succeeds exactly when uECC accepts it, with the first 28 bytes of the
key it wrote. -/
theorem cryptoDeriveP_exact (env : Env) (d0 : Bytes dLen) (sk : Bytes skLen) (p : Bytes pLen) (w : World)
    (hg : w.Good 12) :
    let uv := kdfBytes env sk.val labelDiversify.val 72
    let d := (beNat d0.val * beNat (uv.take 36) + beNat (uv.drop 36)) % beNat p224N
    let r := (cryptoDeriveP env d0 sk p).run w
    (∀ (dI : Buf dLen) (w₁ : World), w₁.sched = w.sched.skip 3 →
      ((computeD d0 (uv.take 36) (uv.drop 36) dI).run w₁).1 = (.ok, ⟨be dLen d, true⟩)) ∧
    d < 256 ^ dLen ∧ vliCmp curveN (privateWords (be dLen d)).val = 1 ∧ (d = 0 → r.1.1 = .err) ∧
    (d ≠ 0 → ∀ (pk : Buf pubKeyLen) (w₁ : World), w₁.sched = w.sched.skip 12 →
      let u := (ueccComputePublicKey env (be dLen d) pk).run w₁
      (r.1.1 = .ok ↔ u.1.1 = true) ∧ (r.1.1 = .ok → r.1.2.val = u.1.2.bytes.val.take 28)) := by
  intro uv d r
  have hd : d = epochScalar env d0 sk := by
    show (_ : Nat) % beNat p224N = _
    rw [beNat_p224N]; rfl
  have hr := cryptoDeriveP_spec env d0 sk p w
  have hok := hr.ok_iff
  refine ⟨fun dI w₁ hw₁ => ?_, ?_, ?_, fun h0 => ?_, fun h0 pk w₁ hw₁ => ?_⟩
  · rcases computeD_chain d0 (uv.take 36) (uv.drop 36) dI w₁ with ⟨-, hrun⟩ | ⟨hbad, -⟩
    · rw [hrun, hd]; rfl
    · exact absurd ((World.good_add (m := 3) (n := 9) hw₁).1 hg).2 hbad
  · rw [hd]; exact lt_trans (epochScalar_lt env d0 sk) curveOrder_lt
  · rw [hd]; exact vliCmp_epochScalar env d0 sk
  · cases hrc : r.1.1 with
    | err => rfl
    | ok =>
      obtain ⟨-, key, hkey⟩ := hok.1 hrc
      rw [epochKey, ← hd, h0, advKey, publicKey_zero] at hkey
      cases hkey
  · obtain ⟨hu, hkey⟩ := ueccComputePublicKey_ok_iff env (be dLen d) pk w₁
    have hiff : r.1.1 = .ok ↔ ((ueccComputePublicKey env (be dLen d) pk).run w₁).1.1 = true := by
      rw [hok, hu, show deriveCalls = 12 + 1 from rfl, World.good_add hw₁, epochKey, ← hd, advKey]
      simp only [hg, true_and, Option.map_eq_some_iff]
      exact and_congr_right fun _ => ⟨fun ⟨_, key, hk, _⟩ => ⟨key, hk⟩, fun ⟨key, hk⟩ => ⟨_, key, hk, rfl⟩⟩
    refine ⟨hiff, fun hrc => ?_⟩
    rcases hr.ret with ⟨-, -, h⟩ | ⟨h, -⟩
    · rw [epochKey, ← hd, advKey, hkey (hiff.1 hrc)] at h
      exact (congrArg Subtype.val (Option.some.inj h)).symm
    · exact absurd (hrc.symm.trans h) (by decide)

theorem cryptoDeriveP_exact_counting :
    ((cryptoDeriveP Env.counting (Bytes.zero dLen) (Bytes.zero skLen) (Bytes.zero pLen)).run World.start).1.1 =
      .ok := by
  obtain ⟨-, -, -, -, h⟩ := cryptoDeriveP_exact Env.counting (Bytes.zero dLen) (Bytes.zero skLen) (Bytes.zero pLen)
    World.start (World.start_faultless.good 12)
  refine (h (by decide +kernel) (Buf.fresh Env.counting.junk pubKeyLen)
    { World.start with sched := _ } rfl).1.2 ?_
  rw [(ueccComputePublicKey_ok_iff _ _ _ _).1]
  exact ⟨World.good_one.2 rfl, Option.isSome_iff_exists.1 (by decide +kernel)⟩

end Esptag.Crypto
