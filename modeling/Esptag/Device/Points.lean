/-
The keys on the air as points of secp224r1: with micro-ecc's own arithmetic in the environment, each
key a device hands to the radio is the x-coordinate of the epoch scalar's multiple of the base
point, and two of them are equal only for equal and for opposite scalars.
-/
import Esptag.Device.Ideal
import Esptag.Uecc.Entry

namespace Esptag

open Octets Crypto Nvs Uecc

/-! ## The key of a scalar -/

/-- The environment with micro-ecc's arithmetic. -/
def Crypto.Env.withUecc (env : Env) : Env := { env with eccPoint := Uecc.eccPoint }

theorem withUecc_eccPoint (env : Env) : env.withUecc.eccPoint = Uecc.eccPoint := by rw [Env.withUecc]

/-- The x-coordinate of a multiple of the base point, as it is advertised. -/
def pointKey (d : Nat) : Bytes pLen := be pLen (affine (d • base)).1.val

section

variable {env : Env} (henv : env.eccPoint = Uecc.eccPoint)
include henv

/-- The advertising key of a scalar is that of its point. -/
theorem advKey_eq (d : Bytes dLen) :
    advKey env d = if Usable (beNat d.val) then some (pointKey (beNat d.val)) else none := by
  rw [advKey, publicKey_eq henv]
  split
  · exact congrArg some (Subtype.ext (xCoord_encode _))
  · rfl

/-- The advertising key of an epoch. -/
theorem epochKey_eq (d0 : Bytes dLen) (sk : Bytes skLen) :
    epochKey env d0 sk = if Usable (epochScalar env d0 sk) then some (pointKey (epochScalar env d0 sk)) else none := by
  have hlt := lt_trans (epochScalar_lt env d0 sk) curveOrder_lt
  rw [epochKey, advKey_eq henv, val_be, beNat_toBE_of_lt hlt]

end

theorem rep_affine {P : secp224r1.Point} (h : P ≠ 0) : CoZ.Rep 1 (affine P) P := by
  cases P with
  | zero => exact absurd rfl h
  | some x y hn => exact ⟨one_ne_zero, x, y, hn, rfl, by simp [affine]⟩

theorem be_inj {a b : Fp} : be pLen a.val = be pLen b.val ↔ a = b := by
  refine ⟨fun h => ZMod.val_injective prime ?_, fun h => h ▸ rfl⟩
  rw [← Subtype.coe_inj, val_be, val_be] at h
  exact toBE_inj (val_lt_256 a) (val_lt_256 b) h

/-- Two scalars have the same key exactly if they are equal or opposite. -/
theorem pointKey_eq_iff {d d' : Nat} (hd : 0 < d ∧ d < order) (hd' : 0 < d' ∧ d' < order) :
    pointKey d = pointKey d' ↔ d = d' ∨ d + d' = order := by
  have hne : ∀ {k}, 0 < k ∧ k < order → k • base ≠ 0 := by
    intro k hk
    rw [ne_eq, nsmul_base_eq_zero_iff]
    exact fun h => absurd (Nat.le_of_dvd hk.1 h) (by omega)
  have hadd : d • base = -(d' • base) ↔ d + d' = order := by
    rw [← add_eq_zero_iff_eq_neg, ← add_nsmul, nsmul_base_eq_zero_iff]
    constructor
    · rintro ⟨t, ht⟩
      have : t < 2 := by
        by_contra hge
        have := Nat.mul_le_mul_left order (not_lt.1 hge)
        omega
      interval_cases t <;> omega
    · exact fun h => h ▸ dvd_refl _
  have hsame : d • base = d' • base ↔ d = d' := by
    refine ⟨fun h => ?_, fun h => h ▸ rfl⟩
    rw [← addOrderOf_base] at hd hd'
    exact nsmul_injOn_Iio_addOrderOf hd.2 hd'.2 h
  rw [pointKey, pointKey, be_inj, (rep_affine (hne hd)).fst_eq_iff (rep_affine (hne hd')), hsame, hadd]

/-! ## On the air -/

/-- A key the device computes for an epoch is the epoch's key. -/
theorem epochKey_of_computesKey {env : Env} {d0 : Bytes dLen} {sk : Bytes skLen} {p : Bytes pLen}
    (h : ComputesKey env d0 sk p) : epochKey env d0 sk = some p := by
  obtain ⟨hkey, hok⟩ := h p World.start
  have hrun := (cryptoDeriveP_spec env d0 sk p World.start).ret
  rcases hrun with ⟨hrc, -, hk⟩ | ⟨hrc, -⟩
  · rw [hk, hkey hrc]
  · rw [hok World.start_faultless] at hrc
    cases hrc

/-- The private scalar of epoch `e` of a seed. -/
def scalarAt (env : Env) (d0 : Bytes dLen) (sk0 : Bytes skLen) (e : Nat) : Nat :=
  epochScalar env d0 (epochSk env sk0 e)

/-- Environments with the same hash have the same scalars. -/
theorem scalarAt_congr {env env' : Env} (h : env.sha256 = env'.sha256) (d0 : Bytes dLen) (sk0 : Bytes skLen) (e : Nat) :
    scalarAt env d0 sk0 e = scalarAt env' d0 sk0 e := by
  have hblock : kdfBlock env = kdfBlock env' := by
    funext z info i
    rw [kdfBlock, kdfBlock, h]
  have hkdf : kdfBytes env = kdfBytes env' := by
    funext z info n
    rw [kdfBytes, kdfBytes, hblock]
  have hstep : updateStep env = updateStep env' := by
    funext sk
    simp only [updateStep, hkdf]
  rw [scalarAt, scalarAt, epochScalar, epochScalar, diversify, diversify, epochSk, epochSk, hstep, hkdf]

theorem scalarAt_withUecc (env : Env) (d0 : Bytes dLen) (sk0 : Bytes skLen) (e : Nat) :
    scalarAt env.withUecc d0 sk0 e = scalarAt env d0 sk0 e :=
  scalarAt_congr (by rw [Env.withUecc]) d0 sk0 e

section

variable {cfg : Config} {env : Env} {store : Store} {flash : Sched Nvs.Fate} {world : World} {radio : Sched EspErr}
  {power : Sched Bool} {es : List Event}

/-- A key that was handed to the radio is that of an epoch's scalar. -/
theorem handed_point (henv : env.eccPoint = Uecc.eccPoint) {key : Bytes pLen} {c : UInt32}
    (hm : .handed key c ∈ ((Device.new store flash world radio power).run cfg env es).log) :
    ∃ d0 sk0 e, SeedIn store d0 sk0 ∧
      (e % 2 ^ 32 = c.toNat ∧ (.rotated 0 ∉ ((Device.new store flash world radio power).run cfg env es).log →
        e = c.toNat)) ∧ Usable (scalarAt env d0 sk0 e) ∧ key = pointKey (scalarAt env d0 sk0 e) := by
  have hgen := (genuine_new env store flash world radio power).run cfg es
  obtain ⟨past, rest, hl⟩ := List.append_of_mem hm
  obtain ⟨-, d0, sk0, e, hseed, he, hkey, hctr⟩ := hgen.log past _ rest hl
  have h := epochKey_of_computesKey hkey
  rw [epochKey_eq henv] at h
  split at h
  · refine ⟨d0, sk0, e, hseed, ⟨he, fun hno => hctr fun hpast => hno ?_⟩, ‹_›, (Option.some.inj h).symm⟩
    rw [hl]
    exact List.mem_append_left _ hpast
  · cases h

end

section

variable (cfg : Config) (env : Env) (store : Store) (flash : Sched Nvs.Fate) (world : World) (radio : Sched EspErr)
  (power : Sched Bool) (es : List Event)

/-- Only points of the curve are advertised: over every run of a device, whatever fails and whenever
power is lost, each key handed to the radio is the x-coordinate of `d_e` times the base point, `d_e`
being the private scalar of an epoch `e` of the provisioned seed and `e` the tag's counter modulo
`2^32`. The scalar is from 2 to `n - 3`, and the point's encoding is a valid public key. -/
theorem advertises_points {key : Bytes pLen} {c : UInt32}
    (hm : .handed key c ∈ ((Device.new store flash world radio power).run cfg env.withUecc es).log) :
    ∃ d0 sk0 e, SeedIn store d0 sk0 ∧ e % 2 ^ 32 = c.toNat ∧
      (2 ≤ scalarAt env d0 sk0 e ∧ scalarAt env d0 sk0 e ≤ order - 3) ∧ key = pointKey (scalarAt env d0 sk0 e) ∧
      ueccValidPublicKey (encode (affine (scalarAt env d0 sk0 e • base))) = true := by
  obtain ⟨d0, sk0, e, hseed, ⟨he, -⟩, hu, hkey⟩ := handed_point (withUecc_eccPoint env) hm
  rw [scalarAt_withUecc] at hu hkey
  have ho : order = 26959946667150639794667015087019625940457807714424391721682722368061 := rfl
  refine ⟨d0, sk0, e, hseed, he, ?_, hkey, ueccValidPublicKey_encode (usable_nsmul_base_ne_zero hu)⟩
  unfold Usable at hu
  omega

end

/-- A new device that nothing fails on, whose first epoch has a key. -/
theorem sound_uecc {store : Store} {d0 : Bytes dLen} {sk0 : Bytes skLen} (h : SeedIn store d0 sk0)
    (hu : Usable (scalarAt Env.counting d0 sk0 0)) :
    Sound ⟨false, true⟩ Env.counting.withUecc d0 sk0 0
      (Device.new store ⟨fun _ => .ok, 0⟩ World.start ⟨fun _ => .ok, 0⟩ ⟨fun _ => false, 0⟩) where
  power := fun _ _ => rfl
  world := World.start_faultless
  flash := fun _ _ => rfl
  radio := rfl
  seedD := h.1
  seedSk := h.2
  starts := rfl
  key := by
    rw [← scalarAt_withUecc, scalarAt] at hu
    rw [epochKey_eq (withUecc_eccPoint _), UInt32.toNat_zero, if_pos hu]
    exact Option.some_ne_none _

/-- A new device with the zero seed: its first boot fails on the flash, and nothing after that. -/
def Device.waking : Device :=
  .new zeroStore ⟨fun i => if i = 0 then .fails 0 false else .ok, 0⟩ World.start ⟨fun _ => .ok, 0⟩ ⟨fun _ => false, 0⟩

/-- What happens to it. -/
def wakingEvents : List Event := [.boot, .boot, .sync, .timeout]

theorem run_waking (cfg : Config) (env : Env) :
    let d := Device.waking.run cfg env [.boot]
    Healthy d ∧ SeedIn d.flash.store (Bytes.zero dLen) (Bytes.zero skLen) ∧ StartsFrom cfg d.flash 0 := by
  intro d
  have hcalls : d.flash.sched = ⟨fun i => if i = 0 then .fails 0 false else .ok, 1⟩ := rfl
  refine ⟨⟨fun _ _ => rfl, fun _ _ => rfl, fun i hi => ?_, fun _ _ => rfl⟩, seedIn_zeroStore, ?_⟩
  · rw [hcalls] at hi ⊢
    exact if_neg (Nat.one_le_iff_ne_zero.1 hi)
  · have hctr : d.flash.counter = none := zeroStore_get.2.2
    rw [StartsFrom, hctr]
    simp

/-- Booted again and synced, it shows epoch 0, and with its timer epoch 1. -/
theorem handed_waking : ∀ e < 2, .handed (pointKey (scalarAt Env.counting (Bytes.zero dLen) (Bytes.zero skLen) e))
      (UInt32.ofNat e) ∈ (Device.waking.run ⟨true, true⟩ Env.counting.withUecc wakingEvents).log := by
  have husable : ∀ e < 2, Usable (scalarAt Env.counting (Bytes.zero dLen) (Bytes.zero skLen) e) := by decide +kernel
  have hkey : ∀ e < 2, epochKey Env.counting.withUecc (Bytes.zero dLen)
      (epochSk Env.counting.withUecc (Bytes.zero skLen) e) =
        some (pointKey (scalarAt Env.counting (Bytes.zero dLen) (Bytes.zero skLen) e)) := by
    intro e he
    have hu := husable e he
    rw [← scalarAt_withUecc, scalarAt] at hu ⊢
    rw [epochKey_eq (withUecc_eccPoint _), if_pos hu]
  have hhas : ∀ e < 2, HasKey Env.counting.withUecc (Bytes.zero dLen) (Bytes.zero skLen) e := by
    intro e he
    rw [HasKey, hkey e he]
    rfl
  obtain ⟨hhealthy, hseed, hstarts⟩ := run_waking ⟨true, true⟩ Env.counting.withUecc
  obtain ⟨l, hl, hshown⟩ := ((mirrors_new hhealthy hseed hstarts).run [.boot, .sync, .timeout]).log
  have hepochs : ((Ideal.new 0).run ⟨true, true⟩ (HasKey Env.counting.withUecc (Bytes.zero dLen) (Bytes.zero skLen))
      [.boot, .sync, .timeout]).shown = [0, 1] := by
    simp [Ideal.run, Ideal.step, Ideal.new, Ideal.advertise, Ideal.next, hhas 0 (by decide), hhas 1 (by decide)]
  rw [show (0 : UInt32).toNat = 0 from rfl, hepochs] at hshown
  intro e he
  have hmem : keyAt Env.counting.withUecc (Bytes.zero dLen) (Bytes.zero skLen) e ∈ handedKeys l := by
    rw [hshown]
    exact List.mem_map_of_mem (by interval_cases e <;> simp)
  rw [keyAt, hkey e he, mem_handedKeys] at hmem
  have hrun : Device.waking.run ⟨true, true⟩ Env.counting.withUecc wakingEvents =
      ({ Device.waking.run ⟨true, true⟩ Env.counting.withUecc [.boot] with phase := .off } : Device).run ⟨true, true⟩
        Env.counting.withUecc [.boot, .sync, .timeout] := rfl
  rw [hrun, hl]
  exact List.mem_append_right _ hmem

theorem advertises_points_sample : ∃ key,
    .handed key 1 ∈ (Device.waking.run ⟨true, true⟩ Env.counting.withUecc wakingEvents).log ∧
    ∃ d0 sk0 e, SeedIn zeroStore d0 sk0 ∧ e % 2 ^ 32 = 1 ∧
      (2 ≤ scalarAt Env.counting d0 sk0 e ∧ scalarAt Env.counting d0 sk0 e ≤ order - 3) ∧
      key = pointKey (scalarAt Env.counting d0 sk0 e) ∧
      ueccValidPublicKey (encode (affine (scalarAt Env.counting d0 sk0 e • base))) = true := by
  have hm := handed_waking 1 (by decide)
  exact ⟨_, hm, advertises_points ⟨true, true⟩ Env.counting zeroStore Device.waking.flash.sched World.start
    Device.waking.radio Device.waking.power wakingEvents hm⟩

section

variable (cfg : Config) (env : Env) (store : Store) (flash : Sched Nvs.Fate) (world : World) (radio : Sched EspErr)
  (power : Sched Bool) (es : List Event)

/-- When two advertised identities are the same: for any two keys handed to the radio in a run, of
epochs `e` and `e'`, exactly if the private scalars of the two epochs are equal or add up to `n`. -/
theorem identities_eq_iff {d0 : Bytes dLen} {sk0 : Bytes skLen} (hseed : SeedIn store d0 sk0) {key key' : Bytes pLen}
    {c c' : UInt32} (hm : .handed key c ∈ ((Device.new store flash world radio power).run cfg env.withUecc es).log)
    (hm' : .handed key' c' ∈ ((Device.new store flash world radio power).run cfg env.withUecc es).log) :
    ∃ e e', e % 2 ^ 32 = c.toNat ∧ e' % 2 ^ 32 = c'.toNat ∧
      key = pointKey (scalarAt env d0 sk0 e) ∧ key' = pointKey (scalarAt env d0 sk0 e') ∧
      (key = key' ↔ scalarAt env d0 sk0 e = scalarAt env d0 sk0 e' ∨
        scalarAt env d0 sk0 e + scalarAt env d0 sk0 e' = order) := by
  obtain ⟨d1, sk1, e, hseed1, ⟨he, -⟩, hu, rfl⟩ := handed_point (withUecc_eccPoint env) hm
  obtain ⟨d2, sk2, e', hseed2, ⟨he', -⟩, hu', rfl⟩ := handed_point (withUecc_eccPoint env) hm'
  obtain ⟨rfl, rfl⟩ := hseed1.unique hseed
  obtain ⟨rfl, rfl⟩ := hseed2.unique hseed
  rw [scalarAt_withUecc] at hu hu'
  rw [scalarAt_withUecc, scalarAt_withUecc]
  exact ⟨e, e', he, he', rfl, rfl, pointKey_eq_iff ((usable_iff _).1 hu).1 ((usable_iff _).1 hu').1⟩

end

/-- The keys of the epochs 0 and 1 are different: their scalars are neither equal nor opposite. -/
theorem identities_eq_iff_sample : ∃ key key',
    .handed key 0 ∈ (Device.waking.run ⟨true, true⟩ Env.counting.withUecc wakingEvents).log ∧
    .handed key' 1 ∈ (Device.waking.run ⟨true, true⟩ Env.counting.withUecc wakingEvents).log ∧ key ≠ key' ∧
    ∃ e e', e % 2 ^ 32 = 0 ∧ e' % 2 ^ 32 = 1 ∧
      scalarAt Env.counting (Bytes.zero dLen) (Bytes.zero skLen) e ≠
        scalarAt Env.counting (Bytes.zero dLen) (Bytes.zero skLen) e' ∧
      scalarAt Env.counting (Bytes.zero dLen) (Bytes.zero skLen) e +
        scalarAt Env.counting (Bytes.zero dLen) (Bytes.zero skLen) e' ≠ order := by
  have hm := handed_waking 0 (by decide)
  have hm' := handed_waking 1 (by decide)
  have hne : pointKey (scalarAt Env.counting (Bytes.zero dLen) (Bytes.zero skLen) 0) ≠
      pointKey (scalarAt Env.counting (Bytes.zero dLen) (Bytes.zero skLen) 1) := by
    rw [ne_eq, pointKey_eq_iff (by decide +kernel) (by decide +kernel)]
    decide +kernel
  obtain ⟨e, e', he, he', -, -, hiff⟩ := identities_eq_iff ⟨true, true⟩ Env.counting zeroStore
    Device.waking.flash.sched World.start Device.waking.radio Device.waking.power wakingEvents seedIn_zeroStore hm hm'
  exact ⟨_, _, hm, hm', hne, e, e', he, he', not_or.1 fun h => hne (hiff.2 h)⟩

end Esptag
