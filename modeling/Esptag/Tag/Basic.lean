/-
`tag.c`: the tag's runtime state, brought up at an epoch by `tag_init` and advanced by `tag_rotate`.
What a tag at epoch `e` looks like, and what each function does to a tag: it moves to the epoch it
says, or fails; a failed rotation changes nothing.
-/
import Esptag.Crypto.Derive

namespace Esptag

open Octets Crypto

/-! ## The functions -/

/-- `tag_t`. -/
structure Tag where
  d0 : Bytes dLen
  sk0 : Bytes skLen
  skCurr : Bytes skLen
  counter : UInt32
  pCurr : Bytes pLen
  deriving DecidableEq

/-- `static tag_t tag`: zero before `app_main` runs. -/
def Tag.zero : Tag := ⟨Bytes.zero dLen, Bytes.zero skLen, Bytes.zero skLen, 0, Bytes.zero pLen⟩

/-- `tag_init`. -/
def tagInit (env : Env) (tag : Tag) (counter : UInt32) : CryptoM (Status × Tag) := do
  let tag := { tag with counter := counter }
  let (rc, skCurr) ← cryptoAdvanceSk env tag.sk0 counter tag.skCurr
  let tag := { tag with skCurr := skCurr }
  if rc ≠ .ok then
    return (.err, tag)
  let (rc, pCurr) ← cryptoDeriveP env tag.d0 tag.skCurr tag.pCurr
  let tag := { tag with pCurr := pCurr }
  if rc ≠ .ok then
    return (.err, tag)
  return (.ok, tag)

/-- `tag_rotate`. -/
def tagRotate (env : Env) (tag : Tag) : CryptoM (Status × Tag) := do
  let skNext := Buf.fresh env.junk skLen
  let (rc, skNext) ← cryptoUpdateSk env tag.skCurr skNext
  if rc ≠ .ok then
    let skNext := env.scrub skNext
    leave .skNext skNext
    return (.err, tag)
  -- the live key is the output parameter of crypto_derive_p
  let (rc, pCurr) ← cryptoDeriveP env tag.d0 skNext.bytes tag.pCurr
  let tag := { tag with pCurr := pCurr }
  if rc ≠ .ok then
    let skNext := env.scrub skNext
    leave .skNext skNext
    return (.err, tag)
  let tag := { tag with skCurr := tag.skCurr.write 0 skNext.bytes.val }
  let tag := { tag with counter := tag.counter + 1 }
  let skNext := env.scrub skNext
  leave .skNext skNext
  return (.ok, tag)

/-- `tag_destroy`. -/
def tagDestroy (env : Env) (tag : Tag) : Status × Tag := (.ok, if env.zeroize then Tag.zero else tag)

/-! ## A tag at an epoch -/

/-- The ratchet key of epoch `e`. -/
def epochSk (env : Env) (sk0 : Bytes skLen) (e : Nat) : Bytes skLen := (updateStep env)^[e] sk0

theorem epochSk_succ (env : Env) (sk0 : Bytes skLen) (e : Nat) :
    epochSk env sk0 (e + 1) = updateStep env (epochSk env sk0 e) := Function.iterate_succ_apply' _ _ _

/-- The tag of the seed `(d0, sk0)` at epoch `e`, counted without bound. -/
structure Tag.At (env : Env) (d0 : Bytes dLen) (sk0 : Bytes skLen) (e : Nat) (tag : Tag) : Prop where
  seedD : tag.d0 = d0
  seedSk : tag.sk0 = sk0
  epoch : tag.counter.toNat = e % 2 ^ 32
  ratchet : tag.skCurr = epochSk env sk0 e
  key : epochKey env d0 tag.skCurr = some tag.pCurr

/-- `p` is the key `crypto_derive_p` computes from `d0` and `sk`: a call that succeeds returns it,
and a call none of whose primitives fail succeeds. -/
def ComputesKey (env : Env) (d0 : Bytes dLen) (sk : Bytes skLen) (p : Bytes pLen) : Prop :=
  ∀ (pI : Bytes pLen) (w : World), let r := (cryptoDeriveP env d0 sk pI).run w
    (r.1.1 = .ok → r.1.2 = p) ∧ (w.Faultless → r.1.1 = .ok)

theorem computesKey_of_epochKey {env : Env} {d0 : Bytes dLen} {sk : Bytes skLen} {p : Bytes pLen}
    (h : epochKey env d0 sk = some p) : ComputesKey env d0 sk p := by
  intro pI w
  have hs := cryptoDeriveP_spec env d0 sk pI w
  generalize (cryptoDeriveP env d0 sk pI).run w = r at hs ⊢
  rcases hs.ret with ⟨h1, -, h2⟩ | ⟨h1, -, h3⟩
  · rw [h] at h2
    exact ⟨fun _ => (Option.some.inj h2).symm, fun _ => h1⟩
  · refine ⟨fun hok => (by rw [h1] at hok; cases hok), fun hw => ?_⟩
    rcases h3 with h3 | h3
    · exact absurd (hw.good _) h3
    · rw [h] at h3; cases h3

/-! ## What `tag_init` does -/

/-- `tag_init` brings the tag to the epoch `counter`, or fails and keeps the seed. -/
structure InitSpec (env : Env) (tag : Tag) (counter : UInt32) (w : World) (rc : Status) (tag' : Tag) (w' : World) :
    Prop where
  le : w.sched ≤ w'.sched
  ret : (rc = .ok ∧ w.Good (counter.toNat + deriveCalls) ∧ tag'.At env tag.d0 tag.sk0 counter.toNat) ∨
    (rc = .err ∧ tag'.d0 = tag.d0 ∧ tag'.sk0 = tag.sk0 ∧
      (¬ w.Good (counter.toNat + deriveCalls) ∨
        epochKey env tag.d0 (epochSk env tag.sk0 counter.toNat) = none))

theorem tagInit_spec (env : Env) (tag : Tag) (counter : UInt32) (w : World) :
    let r := (tagInit env tag counter).run w
    InitSpec env tag counter w r.1.1 r.1.2 r.2 := by
  intro r
  have hr : r = (tagInit env tag counter).run w := rfl
  simp only [tagInit, Prog.run_bind] at hr
  obtain ⟨k, hk, hok, herr⟩ := cryptoAdvanceSk_spec env tag.sk0 counter tag.skCurr w
  generalize (cryptoAdvanceSk env tag.sk0 counter tag.skCurr).run w = s at hk hok herr hr
  obtain ⟨⟨rc, skCurr⟩, w₁⟩ := s
  simp only at hk hok herr hr
  have hadvance := hk.ok_iff
  cases rc with
  | err =>
    simp only [ne_eq, reduceCtorEq, not_false_eq_true, if_true, Prog.run_pure] at hr
    rw [hr]
    refine ⟨hk.le, .inr ⟨rfl, rfl, rfl, .inl fun hg => ?_⟩⟩
    exact absurd (hadvance.2 (hg.mono (Nat.le_add_right _ _))) (by decide)
  | ok =>
    simp only [ne_eq, not_true, if_false, Prog.run_bind] at hr
    obtain rfl := hok rfl
    have hadd := World.good_add (n := deriveCalls) hk.sched
    have hP := cryptoDeriveP_spec env tag.d0 (epochSk env tag.sk0 counter.toNat) tag.pCurr w₁
    unfold epochSk at hP
    generalize (cryptoDeriveP env tag.d0 _ tag.pCurr).run w₁ = s at hP hr
    obtain ⟨⟨rc, pCurr⟩, w₂⟩ := s
    have hle := le_trans hk.le hP.le
    simp only at hle hr
    rcases hP.ret with ⟨h1, h2, h3⟩ | ⟨h1, -, h3⟩
    · simp only at h1 h3
      simp only [h1, not_true, if_false, Prog.run_pure] at hr
      rw [hr]
      refine ⟨hle, .inl ⟨rfl, hadd.2 ⟨hadvance.1 rfl, h2⟩, ?_⟩⟩
      exact ⟨rfl, rfl, (Nat.mod_eq_of_lt counter.toNat_lt).symm, rfl, h3⟩
    · simp only at h1
      simp only [h1, reduceCtorEq, not_false_eq_true, if_true, Prog.run_pure] at hr
      rw [hr]
      exact ⟨hle, .inr ⟨rfl, rfl, rfl, h3.imp (fun h hg => h (hadd.1 hg).2) id⟩⟩

/-- A successful `tag_init` leaves the tag at the epoch it was given. -/
theorem tagInit_at {env : Env} {tag : Tag} {counter : UInt32} {w : World}
    (hok : ((tagInit env tag counter).run w).1.1 = .ok) :
    ((tagInit env tag counter).run w).1.2.At env tag.d0 tag.sk0 counter.toNat := by
  rcases (tagInit_spec env tag counter w).ret with ⟨-, -, h⟩ | ⟨h, -⟩
  · exact h
  · rw [hok] at h; cases h

/-! ## What `tag_rotate` does -/

/-- The primitive calls of `tag_rotate`. -/
def rotateCalls : Nat := 1 + deriveCalls

/-- `tag'` is the tag one ratchet step on. -/
def Tag.Next (env : Env) (tag tag' : Tag) : Prop :=
  ∃ key, epochKey env tag.d0 (updateStep env tag.skCurr) = some key ∧
    tag' = { tag with skCurr := updateStep env tag.skCurr, counter := tag.counter + 1, pCurr := key }

/-- `tag_rotate` moves the tag one ratchet step on, or fails and leaves it alone. -/
structure RotateSpec (env : Env) (tag : Tag) (w : World) (rc : Status) (tag' : Tag) (w' : World) : Prop where
  le : w.sched ≤ w'.sched
  ret : (rc = .ok ∧ w.Good rotateCalls ∧ tag.Next env tag') ∨
    (rc = .err ∧ tag' = tag ∧
      (¬ w.Good rotateCalls ∨ epochKey env tag.d0 (updateStep env tag.skCurr) = none))

theorem tagRotate_spec (env : Env) (tag : Tag) (w : World) :
    let r := (tagRotate env tag).run w
    RotateSpec env tag w r.1.1 r.1.2 r.2 := by
  intro r
  have hr : r = (tagRotate env tag).run w := rfl
  simp only [tagRotate, Prog.run_bind] at hr
  obtain ⟨hs, -, hret⟩ := cryptoUpdateSk_spec env tag.skCurr (Buf.fresh env.junk skLen) w
  generalize (cryptoUpdateSk env tag.skCurr _).run w = s at hs hret hr
  obtain ⟨⟨rc, skNext⟩, w₁⟩ := s
  have hle₁ : w.sched ≤ w₁.sched := by rw [hs]; exact Sched.le_skip _ _
  simp only at hs hret
  rcases hret with ⟨hf, rfl, rfl⟩ | ⟨hf, rfl, rfl⟩
  swap
  · simp only [ne_eq, reduceCtorEq, not_false_eq_true, if_true, Prog.run_bind, run_leave, Prog.run_pure] at hr
    rw [hr]
    exact ⟨hle₁, .inr ⟨rfl, rfl, .inl (World.not_good_of_now hf (by decide))⟩⟩
  simp only [ne_eq, not_true, if_false, Prog.run_bind] at hr
  have hadd := World.good_add (n := deriveCalls) hs
  have hP := cryptoDeriveP_spec env tag.d0 (updateStep env tag.skCurr) tag.pCurr w₁
  generalize (cryptoDeriveP env tag.d0 (updateStep env tag.skCurr) tag.pCurr).run w₁ = s at hP hr
  obtain ⟨⟨rc, pCurr⟩, w₂⟩ := s
  have hle : w.sched ≤ w₂.sched := le_trans hle₁ hP.le
  simp only at hle hr
  rcases hP.ret with ⟨g1, g2, g3⟩ | ⟨g1, g2, g3⟩
  · simp only at g1 g3
    simp only [g1, not_true, if_false, Prog.run_bind, run_leave, Prog.run_pure, Bytes.write_all] at hr
    rw [hr]
    exact ⟨hle, .inl ⟨rfl, hadd.2 ⟨World.good_one.2 hf, g2⟩, pCurr, g3, rfl⟩⟩
  · simp only at g1 g2
    simp only [g1, g2, reduceCtorEq, not_false_eq_true, if_true, Prog.run_bind, run_leave, Prog.run_pure] at hr
    rw [hr]
    exact ⟨hle, .inr ⟨rfl, rfl, g3.imp (fun h hg => h (hadd.1 hg).2) id⟩⟩

/-- One ratchet step on is the next epoch. -/
theorem Tag.Next.at {env : Env} {d0 : Bytes dLen} {sk0 : Bytes skLen} {e : Nat} {tag tag' : Tag}
    (h : tag.Next env tag') (ht : tag.At env d0 sk0 e) : tag'.At env d0 sk0 (e + 1) := by
  obtain ⟨key, hk, rfl⟩ := h
  have hc := ht.epoch
  refine ⟨ht.seedD, ht.seedSk, ?_, ?_, by rw [← ht.seedD]; exact hk⟩
  · rw [UInt32.toNat_add, hc, UInt32.toNat_one]
    omega
  · rw [epochSk_succ, ← ht.ratchet]

/-- A rotation moves a tag at an epoch to the next epoch, or leaves it where it is. -/
theorem RotateSpec.at {env : Env} {d0 : Bytes dLen} {sk0 : Bytes skLen} {e : Nat} {tag tag' : Tag} {w w' : World}
    {rc : Status} (h : RotateSpec env tag w rc tag' w') (ht : tag.At env d0 sk0 e) :
    tag'.At env d0 sk0 (if rc = .ok then e + 1 else e) := by
  rcases h.ret with ⟨rfl, -, hnext⟩ | ⟨rfl, rfl, -⟩
  · exact hnext.at ht
  · exact ht

-- from here on the two functions are known by their specs
attribute [irreducible] tagInit tagRotate

end Esptag
