/-
Host and firmware derive the same identity: for every epoch `derive_epoch_keys` yields, both ways
the firmware has to that epoch end with the advertising key of the host's scalar.
-/
import Esptag.Host.FetchReports

namespace Esptag.FetchReports

open Octets Crypto

/-- `p` is `d_to_p(d)`: without failing calls `d_to_p` writes it, and it is the first 28 bytes of the
key `uECC_compute_public_key` writes for `d`. -/
def IsKeyOf (env : Env) (d : Bytes dLen) (p : Bytes pLen) : Prop :=
  (∀ (p0 : Bytes pLen) (w : World), w.Faultless → ((dToP env d p0).run w).1 = (.ok, p)) ∧
  (∀ (pk : Buf pubKeyLen) (w : World), w.Faultless →
    let u := (ueccComputePublicKey env d pk).run w
    u.1.1 = true ∧ u.1.2.bytes.val.take 28 = p.val)

theorem isKeyOf_of_advKey {env : Env} {d : Bytes dLen} {p : Bytes pLen} (h : advKey env d = some p) :
    IsKeyOf env d p := by
  refine ⟨fun p0 w hw => ?_, fun pk w hw => ?_⟩
  · rcases (dToP_spec env d p0 w).ret with ⟨h1, -, h2⟩ | ⟨-, -, h2 | h2⟩
    · rw [h] at h2
      exact Prod.ext h1 (Option.some.inj h2).symm
    · exact absurd (hw.good 1) h2
    · rw [h] at h2; cases h2
  · obtain ⟨key, hk, hx⟩ := Option.map_eq_some_iff.1 h
    obtain ⟨hok, hkey⟩ := ueccComputePublicKey_ok_iff env d pk w
    have hu := hok.2 ⟨hw.good 1, key, hk⟩
    refine ⟨hu, ?_⟩
    rw [← hx, xCoord, ← Option.some.inj (hk.symm.trans (hkey hu))]

/-- uECC accepts the scalar `d`. -/
def Accepted (env : Env) (d : Bytes dLen) : Prop := ∃ key, publicKey env d = some key

theorem Accepted.advKey {env : Env} {d : Bytes dLen} (h : Accepted env d) : ∃ p, advKey env d = some p := by
  obtain ⟨key, hk⟩ := h
  exact ⟨xCoord key, by rw [Crypto.advKey, hk]; rfl⟩

section

variable {env : Env} {d0 : Bytes dLen} {sk0 : Bytes skLen} {e : Nat} {tag : Tag} {w : World}

/-- A tag at epoch `e` advertises the key of the host's scalar. -/
theorem isKeyOf_of_at (h : tag.At env d0 sk0 e) : IsKeyOf env (epochPrivate env d0 sk0 e) tag.pCurr := by
  apply isKeyOf_of_advKey
  have hk := h.key
  rwa [h.ratchet] at hk

theorem tagInit_at_ofNat (he : e < 2 ^ 32) (hd : tag.d0 = d0) (hs : tag.sk0 = sk0)
    (hok : ((tagInit env tag (UInt32.ofNat e)).run w).1.1 = .ok) :
    ((tagInit env tag (UInt32.ofNat e)).run w).1.2.At env d0 sk0 e := by
  have h := tagInit_at hok
  rwa [hd, hs, UInt32.toNat_ofNat', Nat.mod_eq_of_lt he] at h

theorem tagInit_ok (he : e < 2 ^ 32) (hd : tag.d0 = d0) (hs : tag.sk0 = sk0) (hw : w.Faultless)
    (hacc : Accepted env (epochPrivate env d0 sk0 e)) :
    ((tagInit env tag (UInt32.ofNat e)).run w).1.1 = .ok := by
  rw [tagInit_ok_iff, hd, hs, UInt32.toNat_ofNat', Nat.mod_eq_of_lt he]
  exact ⟨hw.good _, hacc.advKey⟩

theorem rotateTimes_le (env : Env) (tag : Tag) (w : World) : ∀ n,
    w.sched ≤ ((rotateTimes env tag n).run w).2.sched
  | 0 => le_refl _
  | n + 1 => by
    rw [run_rotateTimes_succ]
    exact le_trans (rotateTimes_le env tag w n) (tagRotate_spec env _ _).le

/-- Without failing calls, rotations go through while uECC accepts the scalars ahead. -/
theorem rotateTimes_ok (h : tag.At env d0 sk0 e) (hw : w.Faultless) : ∀ n,
    (∀ j, e < j → j ≤ e + n → Accepted env (epochPrivate env d0 sk0 j)) →
      ((rotateTimes env tag n).run w).1.1 = List.replicate n .ok
  | 0, _ => rfl
  | n + 1, hacc => by
    have ih := rotateTimes_ok h hw n fun j h1 h2 => hacc j h1 (by omega)
    have hat := rotateTimes_at h w n
    have hle := rotateTimes_le env tag w n
    rw [run_rotateTimes_succ]
    generalize (rotateTimes env tag n).run w = r at ih hat hle ⊢
    have hrc : ((tagRotate env r.1.2).run r.2).1.1 = .ok := by
      rw [tagRotate_ok_iff, Rotates, hat.ratchet, hat.seedD, ← epochSk_succ, ih, List.count_replicate_self]
      exact ⟨(hw.of_le hle).good _, (hacc (e + n + 1) (by omega) (by omega)).advKey⟩
    simp only [ih, hrc, List.replicate_succ']

end

/-- Both ways of the tag from `start` or directly to epoch `e` end with the key of the scalar `d`,
and without failing calls they get there. -/
structure Reaches (env : Env) (d0 : Bytes dLen) (sk0 : Bytes skLen) (start e : Nat) (tag : Tag) (w : World) :
    Prop where
  direct : let r := (tagInit env tag (UInt32.ofNat e)).run w
    r.1.1 = .ok → IsKeyOf env (epochPrivate env d0 sk0 e) r.1.2.pCurr
  directOk : w.Faultless → Accepted env (epochPrivate env d0 sk0 e) →
    ((tagInit env tag (UInt32.ofNat e)).run w).1.1 = .ok
  stepwise : let i := (tagInit env tag (UInt32.ofNat start)).run w
    i.1.1 = .ok → ∀ n, let r := (rotateTimes env i.1.2 n).run i.2
      r.1.1.count .ok = e - start → IsKeyOf env (epochPrivate env d0 sk0 e) r.1.2.pCurr
  stepwiseOk : w.Faultless → (∀ j, start ≤ j → j ≤ e → Accepted env (epochPrivate env d0 sk0 j)) →
    let i := (tagInit env tag (UInt32.ofNat start)).run w
    i.1.1 = .ok ∧ ((rotateTimes env i.1.2 (e - start)).run i.2).1.1 = List.replicate (e - start) .ok

/-- Host and firmware agree on every epoch: `derive_epoch_keys` yields each epoch of its range with
its scalar, and a tag brought up at that epoch, or brought up at `start` and rotated to it, has the
advertising key of this scalar. -/
theorem host_firmware_agree (env : Env) (d0 : Bytes dLen) (sk0 : Bytes skLen) (start count : Nat)
    (hrange : start + count ≤ 2 ^ 32) :
    deriveEpochKeys env.sha256 d0.val sk0.val start count =
      .ok ((List.range' start count).map fun e => (e, (epochPrivate env d0 sk0 e).val)) ∧
    ∀ e, start ≤ e → e < start + count → ∀ (tag : Tag) (w : World), tag.d0 = d0 → tag.sk0 = sk0 →
      Reaches env d0 sk0 start e tag w := by
  refine ⟨deriveEpochKeys_eq env d0 sk0 start count, fun e h1 h2 tag w hd hs => ⟨fun hok => ?_, ?_, ?_, ?_⟩⟩
  · exact isKeyOf_of_at (tagInit_at_ofNat (by omega) hd hs hok)
  · exact tagInit_ok (by omega) hd hs
  · intro i hok n r hn
    have hat : r.1.2.At env d0 sk0 (start + r.1.1.count .ok) :=
      rotateTimes_at (tagInit_at_ofNat (by omega) hd hs hok) i.2 n
    rw [show start + r.1.1.count .ok = e by omega] at hat
    exact isKeyOf_of_at hat
  · intro hw hacc i
    have hok : i.1.1 = .ok := tagInit_ok (by omega) hd hs hw (hacc start (le_refl _) h1)
    have hat : i.1.2.At env d0 sk0 start := tagInit_at_ofNat (by omega) hd hs hok
    have hle := (tagInit_spec env tag (UInt32.ofNat start) w).le
    exact ⟨hok, rotateTimes_ok hat (hw.of_le hle) _ fun j hj1 hj2 => hacc j (by omega) (by omega)⟩

/-- Epoch 7, directly, and from epoch 5 in three rotations one of which fails. -/
theorem host_firmware_agree_counting :
    IsKeyOf Env.counting (epochPrivate Env.counting (Bytes.zero dLen) (Bytes.zero skLen) 7)
      ((tagInit Env.counting Tag.zero 7).run World.start).1.2.pCurr ∧
    (falteringRun 5 3).1.1 = [.ok, .err, .ok] ∧
    IsKeyOf Env.counting (epochPrivate Env.counting (Bytes.zero dLen) (Bytes.zero skLen) 7)
      (falteringRun 5 3).1.2.pCurr := by
  have hagree := (host_firmware_agree Env.counting (Bytes.zero dLen) (Bytes.zero skLen) 5 3 (by decide)).2 7 (by decide)
    (by decide) Tag.zero
  have hdirect := (hagree World.start rfl rfl).direct
  have hstepwise := (hagree World.faltering rfl rfl).stepwise
  rw [show UInt32.ofNat 7 = 7 from rfl] at hdirect
  rw [show UInt32.ofNat 5 = 5 from rfl] at hstepwise
  have hrcs : (falteringRun 5 3).1.1 = [.ok, .err, .ok] := by decide +kernel
  refine ⟨hdirect (tagInit_counting (c := 7) (by decide +kernel)), hrcs, ?_⟩
  rw [falteringRun, faltering] at hrcs ⊢
  refine hstepwise (by decide +kernel) 3 ?_
  rw [hrcs]
  rfl

end Esptag.FetchReports
