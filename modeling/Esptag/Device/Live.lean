/-
A provisioned device that nothing fails on: it boots, brings the tag up at the epoch of its counter
and advertises that epoch's key.
-/
import Esptag.Device.Spec
import Esptag.Tag.Run

namespace Esptag

open Octets Crypto Nvs

/-! ## Booting -/

theorem run_cryptoInit {w : World} (h : w.sched.now = .ok) : cryptoInit.run w = (.ok, w.tick) := by
  simp [cryptoInit, psaCryptoInit, h]

theorem resumeCounter_ok {cfg : Config} {d : Device} {c : UInt32} (hd : Idle d.flash)
    (hflash : d.flash.sched.Always (· = .ok)) (hc : StartsFrom cfg d.flash c) :
    (resumeCounter cfg).Wp (fun c' d' => c' = c ∧ ∃ s, d' = { d with flash := s }) (fun _ _ => False) d := by
  unfold resumeCounter StartsFrom at *
  cases hcfg : cfg.persistCounter with
  | false =>
    rw [hcfg] at hc
    exact ⟨hc.symm, d.flash, rfl⟩
  | true =>
    simp only [hcfg, if_true] at hc
    simp only [if_true, Act.wp_bind, wp_inFlash]
    have hfate : ∀ i, d.flash.fate i = .ok := fun i => hflash _ (Nat.le_add_right _ i)
    have hrun : ((nvsStoreLoadCounter 0).run d.flash).1 = .ok (.ok, c) := by
      refine ((nvsStoreLoadCounter_spec hd 0).ok c).2 ⟨hfate 0, ?_⟩
      by_cases hns : d.flash.store nvsNamespaceState = none
      · have hnone : d.flash.counter = none := by rw [Flash.counter, Store.get, hns]; rfl
        rw [hnone] at hc
        exact .inl ⟨hns, by simpa using hc⟩
      · exact .inr ⟨hns, hfate 1, hc⟩
    exact (Act.wp_of_ok (Prod.ext hrun rfl)).2 ⟨rfl, _, rfl⟩

theorem StartsFrom.unique {cfg : Config} {s : Flash} {c c' : UInt32} (h : StartsFrom cfg s c)
    (h' : StartsFrom cfg s c') : c = c' := by
  unfold StartsFrom at h h'
  split at h
  case isTrue hcfg =>
    rw [if_pos hcfg] at h'
    rcases h with ⟨hn, rfl⟩ | hs <;> rcases h' with ⟨hn', rfl⟩ | hs' <;> simp_all
  case isFalse hcfg =>
    rw [if_neg hcfg] at h'
    rw [h, h']

/-- A device that nothing fails on until its radio is up, with a seed `(d0, sk0)` whose key at the
epoch of its counter `c` exists. -/
structure Sound (cfg : Config) (env : Env) (d0 : Bytes dLen) (sk0 : Bytes skLen) (c : UInt32) (d : Device) : Prop where
  power : d.power.Always (· = false)
  world : d.world.Faultless
  flash : d.flash.sched.Always (· = .ok)
  radio : d.radio.now = .ok
  seedD : d.flash.store.blob dLen nvsNamespace nvsKeyD0 = some d0
  seedSk : d.flash.store.blob skLen nvsNamespace nvsKeySk0 = some sk0
  starts : StartsFrom cfg d.flash c
  key : epochKey env d0 (epochSk env sk0 c.toNat) ≠ none

theorem wp_point_always {d : Device} {Q : Unit → Device → Prop} {E : Stop → Device → Prop}
    (h : d.power.Always (· = false)) (hQ : Q () { d with power := d.power.skip 1 }) : point.Wp Q E d :=
  wp_point (fun _ => hQ) fun hn => by rw [h.now] at hn; cases hn

/-- `app_main` returns, having called the radio once. -/
theorem appMain_ok {cfg : Config} {env : Env} {d0 : Bytes dLen} {sk0 : Bytes skLen} {c : UInt32} {d : Device}
    (hd : Idle d.flash) (h : Sound cfg env d0 sk0 c d) :
    (appMain cfg env).Wp (fun _ d' => d.power ≤ d'.power ∧ d'.radio = d.radio.skip 1) (fun _ _ => False) d := by
  have hpower : ∀ k, (d.power.skip k).Always (· = false) := fun k => h.power.of_le (Sched.le_skip _ k)
  have hflash : ∀ k, (d.flash.sched.skip k).Always (· = .ok) := fun k => h.flash.of_le (Sched.le_skip _ k)
  unfold appMain
  rw [Act.wp_bind]
  refine wp_point_always h.power ?_
  simp only [Act.wp_bind, wp_inWorld, run_cryptoInit h.world.now, wp_abortUnless, reduceCtorEq, false_imp_iff, and_true]
  refine fun _ => wp_point_always (hpower 1) ?_
  -- the flash
  have hinit := run_nvsStoreInit d.flash
  rw [h.flash.now] at hinit
  rw [Act.wp_bind, wp_inFlash, Act.wp_of_ok hinit]
  simp only [Act.wp_bind, wp_abortUnless, reduceCtorEq, false_imp_iff, and_true]
  refine fun _ => wp_point_always (hpower 2) ?_
  -- the seed
  simp only [Act.wp_bind, Act.wp_gets, wp_inFlash, Act.wp_modify, wp_abortUnless, Act.wp_pure]
  have hseed := nvsStoreLoadSeed_spec hd.tick d.tag.d0 d.tag.sk0
  have hfate : ∀ i, d.flash.tick.fate i = .ok := fun i => (hflash 1) _ (Nat.le_add_right _ i)
  have hrun := (hseed.ok d0 sk0).2 ⟨hfate 0, hfate 1, hfate 2, h.seedD, h.seedSk⟩
  obtain ⟨s, hs, hstore, hle, hidle⟩ : ∃ s, (nvsStoreLoadSeed d.tag.d0 d.tag.sk0).run d.flash.tick =
      (.ok (.ok, d0, sk0), s) ∧ s.store = d.flash.store ∧ d.flash.tick.sched ≤ s.sched ∧ Idle s :=
    ⟨_, Prod.ext hrun rfl, hseed.store, hseed.le, hseed.idle ⟨_, hrun⟩⟩
  rw [Act.wp_of_ok hs]
  simp only [reduceCtorEq, false_imp_iff, and_true]
  refine fun _ => wp_point_always (hpower 3) ?_
  -- the counter
  have hstarts : StartsFrom cfg s c := by
    rw [StartsFrom, Flash.counter, hstore]
    exact h.starts
  rw [Act.wp_bind]
  refine (resumeCounter_ok hidle ((hflash 1).of_le hle) hstarts).mono ?_ fun _ _ h => h
  rintro c' _ ⟨rfl, s', rfl⟩
  rw [Act.wp_bind]
  refine wp_point_always (hpower 4) ?_
  -- the tag
  rw [Act.wp_bind, wp_initTag]
  have htag := tagInit_spec env { d.tag with d0 := d0, sk0 := sk0 } c' d.world.tick
  have hgood : d.world.tick.Good (c'.toNat + deriveCalls) := (h.world.of_le (Sched.le_skip _ 1)).good _
  generalize (tagInit env _ c').run _ = r at htag ⊢
  obtain ⟨⟨rc, tag⟩, w⟩ := r
  obtain rfl : rc = .ok := by
    rcases htag.ret with ⟨hrc, -⟩ | ⟨-, -, -, hbad⟩
    · exact hrc
    · exact absurd hbad (not_or.2 ⟨not_not.2 hgood, h.key⟩)
  simp only [Act.wp_bind, wp_abortUnless, reduceCtorEq, false_imp_iff, and_true]
  refine fun _ => wp_point_always (hpower 5) ?_
  -- the radio
  simp only [bleAdvInit, Act.wp_bind, wp_findmyAdvInit, Act.wp_pure, wp_abortUnless, h.radio, if_true, reduceCtorEq,
    false_imp_iff, and_true]
  exact fun _ => Sched.le_skip d.power 6

/-- The device after its boot: the tag is at its counter's epoch, and the radio is coming up. -/
theorem run_boot {cfg : Config} {env : Env} {d0 : Bytes dLen} {sk0 : Bytes skLen} {c : UInt32} {d : Device}
    (h : Sound cfg env d0 sk0 c d) :
    let d' := d.run cfg env [.boot]
    d'.phase = .syncing ∧ d'.armed = false ∧ d.power ≤ d'.power ∧ d'.radio = d.radio.skip 1 ∧
      d'.log = d.log ++ [.boot, .init c .ok] ∧ d'.tag.counter = c ∧ d'.tag.At env d0 sk0 c.toNat := by
  have hreset : Sound cfg env d0 sk0 c d.reset :=
    ⟨h.power, h.world, h.flash, h.radio, h.seedD, h.seedSk, h.starts, h.key⟩
  have hok := appMain_ok (idle_reboot d.flash) hreset
  have hboot := appMain_spec cfg env (d := d.reset) (idle_reboot d.flash)
  intro d'
  have hd' : d' = .settle .syncing ((appMain cfg env).run d.reset) := rfl
  clear_value d'
  unfold Act.Wp at hok
  generalize (appMain cfg env).run d.reset = r at hok hboot hd'
  obtain ⟨_ | _, d₁⟩ := r
  · exact hok.elim
  rcases hboot.ret with ⟨hrc, -⟩ | ⟨c', hc', ⟨hrc, -⟩ | ⟨-, hlog, -, hctr, d0', sk0', hd0, hsk0, hat⟩⟩
  · exact absurd rfl hrc
  · exact absurd rfl hrc
  obtain rfl := hc'.unique h.starts
  obtain rfl := Option.some.inj (hd0.symm.trans h.seedD)
  obtain rfl := Option.some.inj (hsk0.symm.trans h.seedSk)
  subst hd'
  exact ⟨rfl, hboot.armed, hok.1, hok.2, hlog.trans (by simp [Device.reset]), hctr, hat⟩

/-! ## On the air -/

/-- The device after its boot and the ready callback: it has handed over the key of its counter's
epoch, and the timer is armed if the radio took the key. -/
theorem run_boot_sync {cfg : Config} {env : Env} {d0 : Bytes dLen} {sk0 : Bytes skLen} {c : UInt32} {d : Device}
    (h : Sound cfg env d0 sk0 c d) :
    let d' := d.run cfg env [.boot, .sync]
    d'.phase = .ready ∧ (d'.armed = true ↔ (d.radio.skip 1).now = .ok ∧ cfg.rotateEnable = true) ∧
      ∃ key, epochKey env d0 (epochSk env sk0 c.toNat) = some key ∧
        d'.log = d.log ++ [.boot, .init c .ok, .handed key c] := by
  obtain ⟨hphase, harmed, hpower, hradio, hlog, hctr, hat⟩ := run_boot h
  generalize hd₁ : d.run cfg env [.boot] = d₁ at *
  have hready := onReady_spec cfg d₁
  intro d'
  have hd' : d' = .settle .ready ((onReady cfg).run d₁) := by
    have hstep : d' = (d.run cfg env [.boot]).step cfg env .sync := rfl
    rw [hstep, hd₁]
    exact if_pos hphase
  clear_value d'
  generalize (onReady cfg).run d₁ = r at hready hd'
  obtain ⟨rc, d₂⟩ := r
  obtain rfl : rc = .ok () := hready.returns.2 ((h.power.of_le hpower).all 2)
  subst hd'
  refine ⟨rfl, ?_, d₁.tag.pCurr, ?_, ?_⟩
  · refine (hready.armed rfl).trans ?_
    rw [hradio, harmed]
    exact or_iff_left Bool.false_ne_true
  · rw [← hat.ratchet]
    exact hat.key
  · rcases hready.log with ⟨hrc, -⟩ | hl
    · exact absurd rfl hrc
    · exact hl.trans (by rw [hlog, hctr]; simp)

/-! ## A device to run -/

/-- Flash content with the zero seed. -/
def zeroStore : Store :=
  Store.set (Store.set (fun _ => none) nvsNamespace nvsKeyD0 (.blob (Bytes.zero dLen).val)) nvsNamespace nvsKeySk0
    (.blob (Bytes.zero skLen).val)

theorem zeroStore_get : zeroStore.get nvsNamespace nvsKeyD0 = some (.blob (Bytes.zero dLen).val) ∧
    zeroStore.get nvsNamespace nvsKeySk0 = some (.blob (Bytes.zero skLen).val) ∧
    zeroStore.get nvsNamespaceState nvsKeyCounter = none := by decide

/-- A new device with the zero seed on which only the radio may fail. -/
def Device.sample (radio : Nat → EspErr) : Device :=
  .new zeroStore ⟨fun _ => .ok, 0⟩ World.start ⟨radio, 0⟩ ⟨fun _ => false, 0⟩

theorem sound_sample (cfg : Config) (radio : Nat → EspErr) (h : radio 0 = .ok) :
    Sound cfg Env.counting (Bytes.zero dLen) (Bytes.zero skLen) 0 (Device.sample radio) where
  power := fun _ _ => rfl
  world := World.start_faultless
  flash := fun _ _ => rfl
  radio := h
  seedD := Store.blob_eq_some_iff.2 zeroStore_get.1
  seedSk := Store.blob_eq_some_iff.2 zeroStore_get.2.1
  starts := by
    unfold StartsFrom
    split
    · exact .inl ⟨zeroStore_get.2.2, rfl⟩
    · rfl
  key := by
    rw [epochSk_counting]
    decide +kernel

/-! ## A device that much fails on -/

/-- A new device with the zero seed: its first boot fails on the flash, a hash call of a rotation
fails, the radio refuses a key, and power is lost in a rotation before its counter is saved. -/
def Device.rough : Device :=
  .new zeroStore ⟨fun i => if i = 0 then .fails 0 false else .ok, 0⟩
    { World.start with sched := ⟨fun i => if i = 31 then .fails else .ok, 0⟩ }
    ⟨fun i => if i = 2 then .fail 0 else .ok, 0⟩ ⟨fun i => i = 19, 0⟩

/-- What happens to it: the third expiry of the timer is the one that power is lost in. -/
def roughEvents : List Event :=
  [.boot, .boot, .sync, .timeout, .timeout, .timeout, .boot, .sync, .timeout, .powerLoss, .boot, .sync]

/-- The key of epoch `e` of the zero seed. -/
def roughKey (e : Nat) : Bytes pLen := be pLen ((e + 1) * 2 ^ 64)

/-- What it logs. -/
def roughLog : List Obs := (Device.rough.run ⟨true, true⟩ Env.counting roughEvents).log

theorem roughLog_eq : roughLog =
    [.boot, .boot, .init 0 .ok, .handed (roughKey 0) 0,
      .rotated 1, .saved 1 (some .ok) true, .handed (roughKey 1) 1,
      .handed (roughKey 1) 1,
      .rotated 2,
      .boot, .init 1 .ok, .handed (roughKey 1) 1,
      .rotated 2, .saved 2 (some .ok) true, .handed (roughKey 2) 2,
      .boot, .init 2 .ok, .handed (roughKey 2) 2] := by decide +kernel

end Esptag
