/-
The tag as it is meant to work, and the device on which nothing fails: from its next boot on, whatever
went wrong before, it hands over the keys of exactly the epochs the ideal tag shows, over every
sequence of boots, ready callbacks, timer expiries and losses of power between them.
-/
import Esptag.Device.Genuine

namespace Esptag

open Octets Crypto Nvs

/-! ## The ideal tag -/

/-- The tag as it is meant to work: the epoch it is at, the one its next boot begins at, and the
epochs it has shown. -/
structure Ideal where
  phase : Phase
  epoch : Nat
  saved : Nat
  shown : List Nat
  deriving DecidableEq

namespace Ideal

/-- Off, with the epoch its next boot begins at. -/
def new (saved : Nat) : Ideal := ⟨.off, 0, saved, []⟩

/-- Epoch `e` on the air. -/
def advertise (m : Ideal) (e : Nat) : Ideal := { m with phase := .ready, epoch := e, shown := m.shown ++ [e] }

section

variable (cfg : Config) (hasKey : Nat → Prop) [DecidablePred hasKey]

/-- The epoch that follows: one that has no key is never entered. -/
def next (e : Nat) : Nat := if hasKey (e + 1) then e + 1 else e

/-- An event. The counter that is saved has 32 bits. -/
def step (m : Ideal) : Event → Ideal
  | .boot => if hasKey m.saved then { m with phase := .syncing, epoch := m.saved } else { m with phase := .off }
  | .sync => if m.phase = .syncing then m.advertise m.epoch else m
  | .timeout =>
    if m.phase = .ready ∧ cfg.rotateEnable then
      { m.advertise (next hasKey m.epoch) with
        saved := if hasKey (m.epoch + 1) ∧ cfg.persistCounter then (m.epoch + 1) % 2 ^ 32 else m.saved }
    else m
  | .powerLoss => { m with phase := .off }

def run (m : Ideal) (es : List Event) : Ideal := es.foldl (step cfg hasKey) m

end

section

variable {cfg : Config} {hasKey : Nat → Prop} [DecidablePred hasKey]

theorem run_concat (m : Ideal) (es : List Event) (ev : Event) :
    m.run cfg hasKey (es ++ [ev]) = (m.run cfg hasKey es).step cfg hasKey ev := List.foldl_concat ..

/-- Each expiry of the timer shows the epoch that follows. -/
theorem run_timeouts (hcfg : cfg.rotateEnable = true) {m : Ideal} (hm : m.phase = .ready) : ∀ n,
    let m' := m.run cfg hasKey (List.replicate n .timeout)
    m'.phase = .ready ∧ m'.epoch = (next hasKey)^[n] m.epoch ∧
      m'.shown = m.shown ++ (List.range n).map fun i => (next hasKey)^[i + 1] m.epoch
  | 0 => ⟨hm, rfl, (List.append_nil _).symm⟩
  | n + 1 => by
    obtain ⟨hphase, hepoch, hshown⟩ := run_timeouts hcfg hm n
    have hnext : next hasKey ((next hasKey)^[n] m.epoch) = (next hasKey)^[n + 1] m.epoch :=
      (Function.iterate_succ_apply' _ _ _).symm
    rw [List.replicate_succ', run_concat, step, if_pos ⟨hphase, hcfg⟩, hepoch, hnext]
    refine ⟨rfl, rfl, ?_⟩
    rw [advertise, hshown, List.range_succ, List.map_append, List.append_assoc]
    rfl

theorem run_boot_sync {c : Nat} (h : hasKey c) :
    (new c).run cfg hasKey [.boot, .sync] = ⟨.ready, c, c, [c]⟩ := by
  simp [run, step, new, advertise, h]

/-- The tag gets on up to the last epoch before one without a key, and stays there. -/
theorem iterate_next {c k : Nat} (hk : c ≤ k) (hkeys : ∀ e, c ≤ e → e ≤ k → hasKey e) : ∀ i,
    c + i ≤ k ∨ ¬ hasKey (k + 1) → (next hasKey)^[i] c = min (c + i) k
  | 0, _ => (min_eq_left hk).symm
  | i + 1, h => by
    have ih := iterate_next hk hkeys i (h.imp_left fun h => by omega)
    rw [Function.iterate_succ_apply', ih, next]
    rcases Nat.lt_or_ge (c + i) k with hlt | hge
    · rw [min_eq_left hlt.le, if_pos (hkeys _ (by omega) (by omega)), ← Nat.add_assoc, min_eq_left (by omega)]
    · have hnone : ¬ hasKey (k + 1) := h.resolve_left (by omega)
      rw [min_eq_right hge, if_neg hnone, min_eq_right (by omega)]

/-- What is shown from a boot on, up to the `n`-th expiry of the timer. -/
theorem shown_timeouts (hcfg : cfg.rotateEnable = true) {c k n : Nat} (hk : c ≤ k)
    (hkeys : ∀ e, c ≤ e → e ≤ k → hasKey e) (hlast : c + n ≤ k ∨ ¬ hasKey (k + 1)) :
    ((new c).run cfg hasKey (.boot :: .sync :: List.replicate n .timeout)).shown =
      (List.range (n + 1)).map fun i => min (c + i) k := by
  have hon : (new c).run cfg hasKey [.boot, .sync] = ⟨.ready, c, c, [c]⟩ := run_boot_sync (hkeys c (le_refl _) hk)
  have hrun : (new c).run cfg hasKey (.boot :: .sync :: List.replicate n .timeout) =
      ((new c).run cfg hasKey [.boot, .sync]).run cfg hasKey (List.replicate n .timeout) := rfl
  have hiter : ∀ i < n, (next hasKey)^[i + 1] c = min (c + (i + 1)) k := fun i hi =>
    iterate_next hk hkeys (i + 1) (hlast.imp_left fun h => by omega)
  rw [hrun, hon, (run_timeouts hcfg rfl n).2.2, List.range_succ_eq_map, List.map_cons, List.map_map, Nat.add_zero,
    min_eq_left hk, List.singleton_append]
  exact congrArg (c :: ·) (List.map_congr_left fun i hi => hiter i (List.mem_range.1 hi))

end

end Ideal

/-! ## Time passes -/

theorem Flash.sched_tick (s : Flash) : s.sched ≤ s.tick.sched := Sched.le_skip _ 1

section

variable (ns key : Name) (mode : OpenMode) (id : Nat) (c : UInt32)

theorem grows_nvsOpen : (nvsOpen ns mode).Grows Flash.sched := by
  intro s
  unfold nvsOpen
  dsimp only
  split
  · split <;> exact Flash.sched_tick s
  · exact Flash.sched_tick s
  · exact Flash.sched_tick s

theorem grows_nvsGetBlob {n : Nat} (out : Bytes n) : (nvsGetBlob id key out).Grows Flash.sched := by
  intro s
  unfold nvsGetBlob
  dsimp only
  split <;> exact Flash.sched_tick s

theorem grows_nvsGetU32 : (nvsGetU32 id key c).Grows Flash.sched := by
  intro s
  unfold nvsGetU32
  dsimp only
  split <;> exact Flash.sched_tick s

theorem grows_nvsSetU32 : (nvsSetU32 id key c).Grows Flash.sched := by
  intro s
  unfold nvsSetU32
  dsimp only
  split
  · exact Flash.sched_tick s
  · split
    · exact Flash.sched_tick s
    · split <;> exact Flash.sched_tick s

theorem grows_nvsCommit : (nvsCommit id).Grows Flash.sched := by
  intro s
  unfold nvsCommit
  dsimp only
  split
  · exact Flash.sched_tick s
  · split <;> exact Flash.sched_tick s

theorem grows_nvsClose : (nvsClose id).Grows Flash.sched := fun _ => le_refl _

theorem grows_loadBlob {n : Nat} (out : Bytes n) : (loadBlob id key out).Grows Flash.sched :=
  .bind (grows_nvsGetBlob key id out) fun _ => .ite (.pure _) (.ite (.pure _) (.pure _))

theorem grows_nvsStoreInit : nvsStoreInit.Grows Flash.sched := by
  intro s
  rw [run_nvsStoreInit]
  exact Flash.sched_tick s

theorem grows_nvsStoreLoadSeed (d0 : Bytes dLen) (sk0 : Bytes skLen) :
    (nvsStoreLoadSeed d0 sk0).Grows Flash.sched := by
  refine .bind (grows_nvsOpen _ _) fun _ => .ite (.pure _) (.bind (grows_loadBlob _ _ _) fun _ => .ite ?_ ?_)
  · exact .bind (.pure _) fun _ => .bind (grows_nvsClose _) fun _ => .pure _
  · exact .bind (grows_loadBlob _ _ _) fun _ => .bind (grows_nvsClose _) fun _ => .pure _

theorem grows_nvsStoreLoadCounter : (nvsStoreLoadCounter c).Grows Flash.sched := by
  refine .bind (grows_nvsOpen _ _) fun _ => .ite (.pure _) (.ite (.pure _) (.bind (grows_nvsGetU32 _ _ _) fun _ => ?_))
  exact .bind (grows_nvsClose _) fun _ => .ite (.pure _) (.ite (.pure _) (.pure _))

theorem grows_nvsStoreSaveCounter : (nvsStoreSaveCounter c).Grows Flash.sched := by
  refine .bind (grows_nvsOpen _ _) fun _ => .ite (.pure _) (.bind (grows_nvsSetU32 _ _ _) fun _ => .ite ?_ ?_)
  · exact .bind (grows_nvsClose _) fun _ => .pure _
  · refine .bind (grows_nvsCommit _) fun _ => .bind (grows_nvsClose _) fun _ => ?_
    exact .ite (.pure _) (.pure _)

end

/-- The device's four schedules: of the losses of power, the crypto module, the flash and the radio. -/
def Device.clocks (d : Device) : Sched Bool × Sched Crypto.Fate × Sched Nvs.Fate × Sched EspErr :=
  (d.power, d.world.sched, d.flash.sched, d.radio)

theorem Device.clocks_le {d d' : Device} (hp : d.power ≤ d'.power) (hw : d.world.sched ≤ d'.world.sched)
    (hf : d.flash.sched ≤ d'.flash.sched) (hr : d.radio ≤ d'.radio) : d.clocks ≤ d'.clocks := ⟨hp, hw, hf, hr⟩

section

variable {α : Type} {cfg : Config} {env : Env}

theorem grows_point : point.Grows Device.clocks := fun d =>
  Device.clocks_le (Sched.le_skip d.power 1) (le_refl _) (le_refl _) (le_refl _)

theorem grows_modify {f : Device → Device} (h : ∀ d, (f d).clocks = d.clocks) :
    (Act.modify f : DeviceM Unit).Grows Device.clocks := fun d => (h d).ge

theorem grows_inFlash {x : FlashM α} (hx : x.Grows Flash.sched) : (inFlash x).Grows Device.clocks := fun d =>
  Device.clocks_le (le_refl _) (le_refl _) (hx d.flash) (le_refl _)

theorem grows_abortUnless (rc : Status) {cleanup : DeviceM Unit} (h : cleanup.Grows Device.clocks) :
    (abortUnless rc cleanup).Grows Device.clocks := .ite (.bind h fun _ => .stop _) (.pure _)

theorem grows_destroyTag : (destroyTag env).Grows Device.clocks := grows_modify fun _ => rfl

theorem grows_setKey (key : Bytes pLen) : (findmyAdvSetKey key).Grows Device.clocks := fun d =>
  Device.clocks_le (le_refl _) (le_refl _) (le_refl _) (Sched.le_skip d.radio 1)

theorem grows_cryptoInit : (inWorld cryptoInit).Grows Device.clocks := by
  intro d
  refine Device.clocks_le (le_refl _) ?_ (le_refl _) (le_refl _)
  have htick : ((inWorld cryptoInit).run d).2.world = d.world.tick := by
    simp only [inWorld, cryptoInit, psaCryptoInit, Prog.run_bind]
    split <;> rfl
  rw [htick]
  exact Sched.le_skip d.world.sched 1

theorem grows_resumeCounter : (resumeCounter cfg).Grows Device.clocks := by
  refine .ite (.bind (grows_inFlash (grows_nvsStoreLoadCounter 0)) fun _ => ?_) (.pure _)
  exact .bind (grows_abortUnless _ (.pure _)) fun _ => .pure _

theorem grows_initTag (c : UInt32) : (initTag env c).Grows Device.clocks := fun d =>
  Device.clocks_le (le_refl _) (tagInit_spec env d.tag c d.world).le (le_refl _) (le_refl _)

theorem grows_rotateTag : (rotateTag env).Grows Device.clocks := fun d =>
  Device.clocks_le (le_refl _) (tagRotate_spec env d.tag d.world).le (le_refl _) (le_refl _)

theorem grows_saveCounter (c : UInt32) : (saveCounter c).Grows Device.clocks := fun d =>
  Device.clocks_le (le_refl _) (le_refl _) (grows_nvsStoreSaveCounter c d.flash) (le_refl _)

theorem grows_bleAdvInit : bleAdvInit.Grows Device.clocks :=
  .bind (fun d => Device.clocks_le (le_refl _) (le_refl _) (le_refl _) (Sched.le_skip d.radio 1)) fun _ => .pure _

theorem grows_appMain : (appMain cfg env).Grows Device.clocks := by
  refine .bind grows_point fun _ => .bind grows_cryptoInit fun rc => .bind (grows_abortUnless rc (.pure _)) fun _ => ?_
  refine .bind grows_point fun _ => .bind (grows_inFlash grows_nvsStoreInit) fun rc => ?_
  refine .bind (grows_abortUnless rc (.pure _)) fun _ => .bind grows_point fun _ => .bind (.gets _) fun tag => ?_
  refine .bind (grows_inFlash (grows_nvsStoreLoadSeed tag.d0 tag.sk0)) fun r => ?_
  refine .bind (grows_modify fun _ => rfl) fun _ => ?_
  refine .bind (grows_abortUnless r.1 (.pure _)) fun _ => .bind grows_point fun _ => ?_
  refine .bind grows_resumeCounter fun counter => .bind grows_point fun _ => .bind (grows_initTag counter) fun rc => ?_
  refine .bind (grows_abortUnless rc grows_destroyTag) fun _ => .bind grows_point fun _ => ?_
  exact .bind grows_bleAdvInit fun rc => grows_abortUnless rc grows_destroyTag

theorem grows_onReady : (onReady cfg).Grows Device.clocks := by
  refine .bind grows_point fun _ => .bind (.gets _) fun key => .bind (grows_setKey key) fun _ => ?_
  refine .bind grows_point fun _ => .ite (.pure _) (.ite ?_ (.pure _))
  exact .bind (grows_modify fun _ => rfl) fun _ => grows_modify fun _ => rfl

theorem grows_onRotate : (onRotate cfg env).Grows Device.clocks := by
  have hend : (do
      point
      let key ← Act.gets fun d : Device => d.tag.pCurr
      let _ ← findmyAdvSetKey key
      point
      calloutReset).Grows Device.clocks := by
    refine .bind grows_point fun _ => .bind (.gets _) fun key => .bind (grows_setKey key) fun _ => ?_
    exact .bind grows_point fun _ => grows_modify fun _ => rfl
  refine .bind grows_point fun _ => .bind grows_rotateTag fun _ => .bind grows_point fun _ => .ite ?_ hend
  exact .bind (.gets _) fun c => .bind (grows_saveCounter c) fun _ => hend

end

theorem clocks_settle (phase : Phase) (r : Except Stop Unit × Device) :
    (Device.settle phase r).clocks = r.2.clocks := by
  obtain ⟨_ | _, d'⟩ := r <;> rfl

/-- An event takes none of the schedules back. -/
theorem clocks_step (cfg : Config) (env : Env) (d : Device) (ev : Event) : d.clocks ≤ (d.step cfg env ev).clocks := by
  cases ev with
  | boot =>
    rw [Device.step, clocks_settle]
    exact grows_appMain d.reset
  | sync =>
    rw [Device.step]
    split
    · rw [clocks_settle]
      exact grows_onReady d
    · exact le_refl _
  | timeout =>
    rw [Device.step]
    split
    · rw [clocks_settle]
      exact grows_onRotate { d with armed := false }
    · exact le_refl _
  | powerLoss => exact le_refl _

/-! ## Where nothing fails -/

/-- From now on no call fails, and power is not lost inside a function. -/
structure Healthy (d : Device) : Prop where
  power : d.power.Always (· = false)
  world : d.world.Faultless
  flash : d.flash.sched.Always (· = .ok)
  radio : d.radio.Always (· = .ok)

theorem Healthy.of_le {d d' : Device} (h : Healthy d) (hle : d.clocks ≤ d'.clocks) : Healthy d' :=
  ⟨h.power.of_le hle.1, h.world.of_le hle.2.1, h.flash.of_le hle.2.2.1, h.radio.of_le hle.2.2.2⟩

/-- Epoch `e` of the seed has an advertising key. -/
def HasKey (env : Env) (d0 : Bytes dLen) (sk0 : Bytes skLen) (e : Nat) : Prop :=
  (epochKey env d0 (epochSk env sk0 e)).isSome

instance HasKey.decidable (env : Env) (d0 : Bytes dLen) (sk0 : Bytes skLen) : DecidablePred (HasKey env d0 sk0) :=
  fun _ => inferInstanceAs (Decidable (_ = true))

section

variable {cfg : Config} {env : Env} {d0 : Bytes dLen} {sk0 : Bytes skLen} {e : Nat} {d : Device}

theorem Tag.At.hasKey {tag : Tag} (h : tag.At env d0 sk0 e) : HasKey env d0 sk0 e := by
  rw [HasKey, ← h.ratchet, h.key]
  rfl

/-- The next epoch has a key: the tag's next key can be derived. -/
theorem Tag.At.rotates_iff {tag : Tag} (h : tag.At env d0 sk0 e) {w : World} (hw : w.Faultless) :
    Rotates env tag w ↔ HasKey env d0 sk0 (e + 1) := by
  rw [Rotates, h.seedD, h.ratchet, ← epochSk_succ, HasKey, Option.isSome_iff_exists]
  exact and_iff_right (hw.good _)

/-- A rotation is to the next epoch if that has a key. -/
theorem wp_rotateTag_healthy {Q : Status → Device → Prop} {E : Stop → Device → Prop} (h : Healthy d)
    (hat : d.tag.At env d0 sk0 e)
    (hok : HasKey env d0 sk0 (e + 1) → ∀ d', d'.tag.At env d0 sk0 (e + 1) → d'.flash = d.flash → d'.power = d.power →
      Q .ok d')
    (herr : ¬ HasKey env d0 sk0 (e + 1) → ∀ d', d'.tag = d.tag → d'.flash = d.flash → d'.power = d.power → Q .err d') :
    (rotateTag env).Wp Q E d := by
  have hrun : (rotateTag env).run d = (.ok ((tagRotate env d.tag).run d.world).1.1, _) := rfl
  have hiff := tagRotate_ok_iff env d.tag d.world
  rw [hat.rotates_iff h.world] at hiff
  rw [Act.wp_of_ok hrun]
  have hrot := tagRotate_spec env d.tag d.world
  generalize (tagRotate env d.tag).run d.world = r at hrot hiff ⊢
  obtain ⟨⟨rc, tag⟩, w⟩ := r
  rcases hrot.ret with ⟨hrc, -, hnext⟩ | ⟨hrc, htag, -⟩
  · simp only at hrc
    subst hrc
    exact hok (hiff.1 rfl) _ (hnext.at hat) rfl rfl
  · simp only at hrc
    subst hrc
    exact herr (fun hkey => by cases hiff.2 hkey) _ htag rfl rfl

/-- A save stores the counter. -/
theorem wp_saveCounter_healthy {c : UInt32} {Q : Status → Device → Prop} {E : Stop → Device → Prop}
    (h : d.flash.sched.Always (· = .ok)) (hd : Idle d.flash)
    (hQ : ∀ d', d'.tag = d.tag → d'.flash.counter = some (.u32 c) → d'.power = d.power → Q .ok d') :
    (saveCounter c).Wp Q E d := by
  have hfate : ∀ i, d.flash.fate i = .ok := fun i => h _ (Nat.le_add_right _ i)
  have hrun : (saveCounter c).run d = (((nvsStoreSaveCounter c).run d.flash).1, _) := rfl
  have hsave := nvsStoreSaveCounter_spec hd c
  have hstores : d.flash.saveStores = true := by rw [Flash.saveStores, hfate, hfate, hfate]
  unfold Act.Wp
  rw [hrun]
  generalize (nvsStoreSaveCounter c).run d.flash = r at hsave ⊢
  obtain ⟨rc, s⟩ := r
  obtain rfl : rc = .ok .ok := hsave.ok.2 ⟨hfate 0, hfate 1, hfate 2⟩
  refine hQ _ rfl ?_ rfl
  have hctr := hsave.counter
  rwa [hstores, if_pos rfl] at hctr

/-- The end of `on_rotate`. -/
theorem wp_readvertise_healthy {Q : Unit → Device → Prop} {E : Stop → Device → Prop}
    (h : d.power.Always (· = false)) (hQ : ∀ d', d'.tag = d.tag → d'.flash = d.flash → Q () d') :
    (do
      point
      let key ← Act.gets fun d => d.tag.pCurr
      let _ ← findmyAdvSetKey key
      point
      calloutReset).Wp Q E d := by
  rw [Act.wp_bind]
  refine wp_point_always h ?_
  simp only [Act.wp_bind, Act.wp_gets, wp_findmyAdvSetKey]
  exact wp_point_always (h.of_le (Sched.le_skip _ 1)) (hQ _ rfl rfl)

/-- `on_rotate` returns, with the tag and the stored counter at the next epoch if that has a key. -/
theorem onRotate_healthy (h : Healthy d) (hd : Idle d.flash) (hat : d.tag.At env d0 sk0 e) :
    (onRotate cfg env).Wp
      (fun _ d' => d'.tag.At env d0 sk0 (Ideal.next (HasKey env d0 sk0) e) ∧
        d'.flash.counter = if HasKey env d0 sk0 (e + 1) ∧ cfg.persistCounter = true
          then some (.u32 (UInt32.ofNat (e + 1))) else d.flash.counter)
      (fun _ _ => False) d := by
  have hpower : ∀ k, (d.power.skip k).Always (· = false) := fun k => h.power.of_le (Sched.le_skip _ k)
  unfold onRotate
  rw [Act.wp_bind]
  refine wp_point_always h.power ?_
  rw [Act.wp_bind]
  refine wp_rotateTag_healthy (h.of_le (grows_point d)) hat (fun hkey d₁ hat₁ hflash hp => ?_)
    fun hkey d₁ htag hflash hp => ?_
  · -- rotated: `d₁` is at the next epoch
    have hnext : Ideal.next (HasKey env d0 sk0) e = e + 1 := if_pos hkey
    have hctr : d₁.tag.counter = UInt32.ofNat (e + 1) :=
      UInt32.toNat_inj.1 (hat₁.epoch.trans UInt32.toNat_ofNat'.symm)
    rw [hnext, Act.wp_bind]
    refine wp_point_always (by rw [hp]; exact hpower 1) ?_
    cases hcfg : cfg.persistCounter with
    | false =>
      simp only [Bool.false_eq_true, and_false, if_false]
      refine wp_readvertise_healthy (by rw [hp, Sched.skip_skip]; exact hpower _) fun d' ht hf => ?_
      exact ⟨ht ▸ hat₁, by rw [hf, hflash]⟩
    | true =>
      simp only [hkey, and_self, if_true, Act.wp_bind, Act.wp_gets]
      refine wp_saveCounter_healthy (by rw [hflash]; exact h.flash) (by rw [hflash]; exact hd) fun d₂ ht₂ hc₂ hp₂ => ?_
      refine wp_readvertise_healthy (by rw [hp₂, hp, Sched.skip_skip]; exact hpower _) fun d' ht hf => ?_
      rw [ht, ht₂, hf, hc₂, hctr]
      exact ⟨hat₁, rfl⟩
  · -- not rotated
    have hnext : Ideal.next (HasKey env d0 sk0) e = e := if_neg hkey
    rw [hnext, Act.wp_bind]
    refine wp_point_always (by rw [hp]; exact hpower 1) ?_
    simp only [reduceCtorEq, false_and, hkey, if_false]
    refine wp_readvertise_healthy (by rw [hp, Sched.skip_skip]; exact hpower _) fun d' ht hf => ?_
    exact ⟨by rw [ht, htag]; exact hat, by rw [hf, hflash]⟩

end

/-! ## The device follows the ideal tag -/

/-- The key of epoch `e`, if it has one, and the counter of the tag there. -/
def keyAt (env : Env) (d0 : Bytes dLen) (sk0 : Bytes skLen) (e : Nat) : Option (Bytes pLen) × UInt32 :=
  (epochKey env d0 (epochSk env sk0 e), UInt32.ofNat e)

/-- The keys handed to the radio, with the tag's counters. -/
def handedKeys (l : List Obs) : List (Option (Bytes pLen) × UInt32) := l.filterMap fun
  | .handed key c => some (some key, c)
  | _ => none

theorem mem_handedKeys {key : Bytes pLen} {c : UInt32} {l : List Obs} :
    (some key, c) ∈ handedKeys l ↔ .handed key c ∈ l := by
  rw [handedKeys, List.mem_filterMap]
  constructor
  · rintro ⟨o, ho, h⟩
    cases o <;> simp_all
  · exact fun h => ⟨_, h, rfl⟩

theorem handedKeys_append (l m : List Obs) : handedKeys (l ++ m) = handedKeys l ++ handedKeys m :=
  List.filterMap_append

/-- The device `d`, whose log began with `past`, is where the ideal tag is and has handed over the
keys it has shown. -/
structure Mirrors (cfg : Config) (env : Env) (d0 : Bytes dLen) (sk0 : Bytes skLen) (past : List Obs) (d : Device)
    (m : Ideal) : Prop where
  healthy : Healthy d
  seed : SeedIn d.flash.store d0 sk0
  phase : d.phase = m.phase
  starts : StartsFrom cfg d.flash (UInt32.ofNat m.saved)
  saved : m.saved < 2 ^ 32
  running : d.phase ≠ .off → Idle d.flash ∧ d.tag.At env d0 sk0 m.epoch
  armed : d.phase = .ready → (d.armed = true ↔ cfg.rotateEnable = true)
  unarmed : d.phase = .syncing → d.armed = false
  log : ∃ l, d.log = past ++ l ∧ handedKeys l = m.shown.map (keyAt env d0 sk0)

section

variable {cfg : Config} {env : Env} {d0 : Bytes dLen} {sk0 : Bytes skLen} {past : List Obs} {d : Device} {m : Ideal}

theorem Tag.At.keyAt {tag : Tag} {e : Nat} (h : tag.At env d0 sk0 e) :
    (some tag.pCurr, tag.counter) = Esptag.keyAt env d0 sk0 e := by
  have hctr : tag.counter = UInt32.ofNat e := UInt32.toNat_inj.1 (h.epoch.trans UInt32.toNat_ofNat'.symm)
  rw [Esptag.keyAt, ← h.ratchet, h.key, hctr]

/-- An `on_rotate` that returns has handed over the key of the tag it leaves. -/
theorem Turn.handedKeys {tag tag' : Tag} {v v' : Option Value} {u : Unit} {l : List Obs}
    (h : Turn cfg env tag v (.ok u) l tag' v') : Esptag.handedKeys l = [(some tag'.pCurr, tag'.counter)] := by
  cases h with
  | failed => rfl
  | unsaved => rfl
  | saved => rfl

/-- What is logged, of which `l` is new. -/
theorem Mirrors.log_append (h : Mirrors cfg env d0 sk0 past d m) {log l : List Obs} {shown : List Nat}
    (hlog : log = d.log ++ l) (hl : handedKeys l = shown.map (keyAt env d0 sk0)) :
    ∃ l', log = past ++ l' ∧ handedKeys l' = (m.shown ++ shown).map (keyAt env d0 sk0) := by
  obtain ⟨l', hl', hshown⟩ := h.log
  refine ⟨l' ++ l, by rw [hlog, hl', List.append_assoc], ?_⟩
  rw [handedKeys_append, hshown, hl, List.map_append]

theorem Mirrors.log_keep (h : Mirrors cfg env d0 sk0 past d m) {log l : List Obs} (hlog : log = d.log ++ l)
    (hl : handedKeys l = []) : ∃ l', log = past ++ l' ∧ handedKeys l' = m.shown.map (keyAt env d0 sk0) := by
  have h := h.log_append hlog (hl.trans List.map_nil.symm)
  rwa [List.append_nil] at h

/-- What has to hold of a device that is off. -/
theorem mirrors_of_off (hoff : d.phase = .off) (hm : m.phase = .off) (hhealthy : Healthy d)
    (hseed : SeedIn d.flash.store d0 sk0) (hstarts : StartsFrom cfg d.flash (UInt32.ofNat m.saved))
    (hsaved : m.saved < 2 ^ 32) (hlog : ∃ l, d.log = past ++ l ∧ handedKeys l = m.shown.map (keyAt env d0 sk0)) :
    Mirrors cfg env d0 sk0 past d m where
  healthy := hhealthy
  seed := hseed
  phase := hoff.trans hm.symm
  starts := hstarts
  saved := hsaved
  running := fun hne => absurd hoff hne
  armed := by
    rw [hoff]
    rintro ⟨⟩
  unarmed := by
    rw [hoff]
    rintro ⟨⟩
  log := hlog

theorem Mirrors.boot (h : Mirrors cfg env d0 sk0 past d m) :
    Mirrors cfg env d0 sk0 past (d.step cfg env .boot) (m.step cfg (HasKey env d0 sk0) .boot) := by
  have hhealthy := h.healthy.of_le (clocks_step cfg env d .boot)
  have hboot := appMain_spec cfg env (d := d.reset) (idle_reboot d.flash)
  have hctr : (UInt32.ofNat m.saved).toNat = m.saved := by
    rw [UInt32.toNat_ofNat', Nat.mod_eq_of_lt h.saved]
  have hok : HasKey env d0 sk0 m.saved → ((appMain cfg env).run d.reset).1 = .ok () := by
    intro hkey
    have hsound : Sound cfg env d0 sk0 (UInt32.ofNat m.saved) d.reset :=
      ⟨h.healthy.power, h.healthy.world, h.healthy.flash, h.healthy.radio.now, h.seed.1, h.seed.2, h.starts, by
        rw [hctr]; exact Option.isSome_iff_ne_none.1 hkey⟩
    have hwp := appMain_ok (idle_reboot d.flash) hsound
    unfold Act.Wp at hwp
    generalize (appMain cfg env).run d.reset = r at hwp
    obtain ⟨_ | _, d'⟩ := r
    · exact hwp.elim
    · rfl
  have hstep : d.step cfg env .boot = .settle .syncing ((appMain cfg env).run d.reset) := rfl
  rw [hstep] at hhealthy ⊢
  generalize (appMain cfg env).run d.reset = r at hhealthy hboot hok ⊢
  obtain ⟨rc, d'⟩ := r
  simp only at hok hboot
  have hstarts : StartsFrom cfg d'.flash (UInt32.ofNat m.saved) := by
    rw [StartsFrom, Flash.counter, hboot.store]
    exact h.starts
  have hlog : d.reset.log = d.log ++ [.boot] := rfl
  cases rc with
  | error e =>
    have hkey : ¬ HasKey env d0 sk0 m.saved := by
      intro hkey
      cases hok hkey
    have hm : m.step cfg (HasKey env d0 sk0) .boot = { m with phase := .off } := by rw [Ideal.step, if_neg hkey]
    rw [hm]
    refine mirrors_of_off rfl rfl hhealthy (hboot.store ▸ h.seed) hstarts h.saved ?_
    rcases hboot.ret with ⟨-, hl⟩ | ⟨c, -, ⟨-, st, hl⟩ | ⟨hrc, -⟩⟩
    · exact h.log_keep (hl.trans hlog) rfl
    · exact h.log_keep (hl.trans (by rw [hlog, List.append_assoc])) rfl
    · cases hrc
  | ok u =>
    rcases hboot.ret with ⟨hrc, -⟩ | ⟨c, hc, ⟨hrc, -⟩ | ⟨-, hl, hidle, -, d0', sk0', hd0, hsk0, hat⟩⟩
    · exact absurd rfl hrc
    · exact absurd rfl hrc
    obtain rfl : c = UInt32.ofNat m.saved := hc.unique h.starts
    have hread : SeedIn d.flash.store d0' sk0' := ⟨hd0, hsk0⟩
    obtain ⟨rfl, rfl⟩ := hread.unique h.seed
    rw [hctr] at hat
    have hm : m.step cfg (HasKey env d0' sk0') .boot = { m with phase := .syncing, epoch := m.saved } := by
      rw [Ideal.step, if_pos hat.hasKey]
    rw [hm]
    have hseed : SeedIn d'.flash.store d0' sk0' := by
      rw [hboot.store]
      exact h.seed
    refine ⟨hhealthy, hseed, rfl, hstarts, h.saved, fun _ => ⟨hidle, hat⟩, ?_, fun _ => hboot.armed, ?_⟩
    · rintro ⟨⟩
    · exact h.log_keep (hl.trans (by rw [hlog, List.append_assoc])) rfl

theorem Mirrors.sync (h : Mirrors cfg env d0 sk0 past d m) :
    Mirrors cfg env d0 sk0 past (d.step cfg env .sync) (m.step cfg (HasKey env d0 sk0) .sync) := by
  have hhealthy := h.healthy.of_le (clocks_step cfg env d .sync)
  by_cases hphase : d.phase = .syncing
  swap
  · have hd : d.step cfg env .sync = d := if_neg hphase
    have hm : m.step cfg (HasKey env d0 sk0) .sync = m := if_neg (h.phase ▸ hphase)
    rw [hd, hm]
    exact h
  have hm : m.step cfg (HasKey env d0 sk0) .sync = m.advertise m.epoch := if_pos (h.phase ▸ hphase)
  have hstep : d.step cfg env .sync = .settle .ready ((onReady cfg).run d) := if_pos hphase
  obtain ⟨hidle, hat⟩ := h.running (by rw [hphase]; decide)
  have hready := onReady_spec cfg d
  rw [hstep] at hhealthy ⊢
  rw [hm]
  generalize (onReady cfg).run d = r at hhealthy hready ⊢
  obtain ⟨rc, d'⟩ := r
  obtain rfl : rc = .ok () := hready.returns.2 (h.healthy.power.all 2)
  have harmed := hready.armed rfl
  rw [h.unarmed hphase] at harmed
  refine ⟨hhealthy, hready.flash ▸ h.seed, rfl, hready.flash ▸ h.starts, h.saved, fun _ => ?_, fun _ => ?_, nofun, ?_⟩
  · exact ⟨hready.flash ▸ hidle, hready.tag ▸ hat⟩
  · exact harmed.trans (by simp [h.healthy.radio.now])
  · rcases hready.log with ⟨hrc, -⟩ | hl
    · exact absurd rfl hrc
    · exact h.log_append hl (congrArg (· :: []) hat.keyAt)

/-- The counter the next boot starts from, after an `on_rotate` at epoch `e`. -/
theorem StartsFrom.rotated {s s' : Flash} {saved e : Nat} {P : Prop} [Decidable P]
    (h : StartsFrom cfg s (UInt32.ofNat saved))
    (hctr : s'.counter = if P ∧ cfg.persistCounter = true then some (.u32 (UInt32.ofNat e)) else s.counter) :
    StartsFrom cfg s' (UInt32.ofNat (if P ∧ cfg.persistCounter = true then e % 2 ^ 32 else saved)) := by
  by_cases hP : P ∧ cfg.persistCounter = true
  · have hmod : UInt32.ofNat (e % 2 ^ 32) = UInt32.ofNat e := by
      apply UInt32.toNat_inj.1
      rw [UInt32.toNat_ofNat', UInt32.toNat_ofNat', Nat.mod_mod]
    rw [if_pos hP] at hctr ⊢
    rw [StartsFrom, if_pos hP.2, hctr, hmod]
    exact .inr rfl
  · rw [if_neg hP] at hctr ⊢
    rw [StartsFrom, hctr]
    exact h

theorem Mirrors.timeout (h : Mirrors cfg env d0 sk0 past d m) :
    Mirrors cfg env d0 sk0 past (d.step cfg env .timeout) (m.step cfg (HasKey env d0 sk0) .timeout) := by
  have hhealthy := h.healthy.of_le (clocks_step cfg env d .timeout)
  by_cases hgo : d.phase = .ready ∧ d.armed = true
  swap
  · have hd : d.step cfg env .timeout = d := if_neg hgo
    have hm : m.step cfg (HasKey env d0 sk0) .timeout = m := by
      rw [Ideal.step, if_neg]
      rintro ⟨hp, hr⟩
      exact hgo ⟨h.phase.trans hp, (h.armed (h.phase.trans hp)).2 hr⟩
    rw [hd, hm]
    exact h
  obtain ⟨hphase, harmed⟩ := hgo
  obtain ⟨hidle, hat⟩ := h.running (by rw [hphase]; decide)
  have hm : m.step cfg (HasKey env d0 sk0) .timeout =
      { m.advertise (Ideal.next (HasKey env d0 sk0) m.epoch) with
        saved := if HasKey env d0 sk0 (m.epoch + 1) ∧ cfg.persistCounter = true then (m.epoch + 1) % 2 ^ 32
          else m.saved } := by
    rw [Ideal.step, if_pos ⟨h.phase ▸ hphase, (h.armed hphase).1 harmed⟩]
  have hstep : d.step cfg env .timeout = .settle .ready ((onRotate cfg env).run { d with armed := false }) :=
    if_pos ⟨hphase, harmed⟩
  have hturn := onRotate_spec cfg env (d := { d with armed := false }) hidle
  have hwp : (onRotate cfg env).Wp _ _ { d with armed := false } :=
    onRotate_healthy (h.healthy.of_le (le_refl _)) hidle hat
  rw [hstep] at hhealthy ⊢
  rw [hm]
  unfold Act.Wp at hwp
  generalize (onRotate cfg env).run { d with armed := false } = r at hhealthy hturn hwp ⊢
  obtain ⟨_ | u, d'⟩ := r
  · exact hwp.elim
  obtain ⟨hat', hctr⟩ := hwp
  have hseed : SeedIn d'.flash.store d0 sk0 := by
    have hsame := hturn.seed _ nvsNamespace_ne
    exact ⟨(blob_congr hsame _ _).trans h.seed.1, (blob_congr hsame _ _).trans h.seed.2⟩
  have hstarts := h.starts.rotated hctr
  have hlt : (if HasKey env d0 sk0 (m.epoch + 1) ∧ cfg.persistCounter = true then (m.epoch + 1) % 2 ^ 32
      else m.saved) < 2 ^ 32 := by
    split
    · exact Nat.mod_lt _ (by decide)
    · exact h.saved
  generalize (if HasKey env d0 sk0 (m.epoch + 1) ∧ cfg.persistCounter = true then (m.epoch + 1) % 2 ^ 32
    else m.saved) = saved at hstarts hlt ⊢
  generalize Ideal.next (HasKey env d0 sk0) m.epoch = e at hat' ⊢
  refine ⟨hhealthy, hseed, rfl, hstarts, hlt, fun _ => ⟨hturn.idle rfl, hat'⟩, fun _ => ?_, nofun, ?_⟩
  · exact iff_of_true (hturn.armed rfl) ((h.armed hphase).1 harmed)
  · obtain ⟨l, hl, ht⟩ := hturn.turn
    exact h.log_append hl (ht.handedKeys.trans (congrArg (· :: []) hat'.keyAt))

/-- The step lemma. -/
theorem Mirrors.step (h : Mirrors cfg env d0 sk0 past d m) (ev : Event) :
    Mirrors cfg env d0 sk0 past (d.step cfg env ev) (m.step cfg (HasKey env d0 sk0) ev) := by
  cases ev with
  | boot => exact h.boot
  | sync => exact h.sync
  | timeout => exact h.timeout
  | powerLoss =>
    exact mirrors_of_off rfl rfl (h.healthy.of_le (le_refl _)) h.seed h.starts h.saved h.log

/-- The run lemma. -/
theorem Mirrors.run (h : Mirrors cfg env d0 sk0 past d m) (es : List Event) :
    Mirrors cfg env d0 sk0 past (d.run cfg env es) (m.run cfg (HasKey env d0 sk0) es) := by
  induction es generalizing d m with
  | nil => exact h
  | cons ev es ih => exact ih (h.step ev)

/-- A device at its next boot: whatever state it is in, only its flash matters. -/
theorem mirrors_new (h : Healthy d) (hseed : SeedIn d.flash.store d0 sk0) {c : UInt32} (hc : StartsFrom cfg d.flash c) :
    Mirrors cfg env d0 sk0 d.log { d with phase := .off } (Ideal.new c.toNat) := by
  have hof : UInt32.ofNat c.toNat = c := UInt32.ofNat_toNat
  refine mirrors_of_off rfl rfl (h.of_le (le_refl _)) hseed ?_ c.toNat_lt ⟨[], (List.append_nil _).symm, rfl⟩
  rw [Ideal.new, hof]
  exact hc

end

/-! ## From the next boot on -/

theorem healthy_sample : Healthy (Device.sample fun _ => .ok) :=
  ⟨fun _ _ => rfl, World.start_faultless, fun _ _ => rfl, fun _ _ => rfl⟩

theorem hasKey_counting : ∀ e ≤ 2, HasKey Env.counting (Bytes.zero dLen) (Bytes.zero skLen) e := by
  intro e he
  rw [HasKey, epochSk_counting]
  interval_cases e <;> decide +kernel

/-- The device is the ideal tag wherever nothing fails: from any state, whatever failed before, if no
call fails from now on and power is only lost between callbacks, then over every sequence of events
from the next boot on the device hands over the keys of exactly the epochs the ideal tag shows, in
order, and its tag and its saved counter are where the ideal tag's are. -/
theorem run_ideal (cfg : Config) (env : Env) {d0 : Bytes dLen} {sk0 : Bytes skLen} {c : UInt32} {d : Device}
    (h : Healthy d) (hseed : SeedIn d.flash.store d0 sk0) (hc : StartsFrom cfg d.flash c) (es : List Event) :
    let d' := d.run cfg env (.boot :: es)
    let m := (Ideal.new c.toNat).run cfg (HasKey env d0 sk0) (.boot :: es)
    (∃ l, d'.log = d.log ++ l ∧ handedKeys l = m.shown.map (keyAt env d0 sk0)) ∧ d'.phase = m.phase ∧
      (m.phase ≠ .off → d'.tag.At env d0 sk0 m.epoch) ∧ StartsFrom cfg d'.flash (UInt32.ofNat m.saved) := by
  intro d' m
  have hm : Mirrors cfg env d0 sk0 d.log d' m := (mirrors_new h hseed hc).run (.boot :: es)
  exact ⟨hm.log, hm.phase, fun hon => (hm.running (hm.phase ▸ hon)).2, hm.starts⟩

/-- After a loss of power the sample device shows epoch 1 again. -/
theorem run_ideal_sample :
    handedKeys ((Device.sample fun _ => .ok).run ⟨true, true⟩ Env.counting
      [.boot, .sync, .timeout, .powerLoss, .boot, .sync]).log =
        [0, 1, 1].map (keyAt Env.counting (Bytes.zero dLen) (Bytes.zero skLen)) := by
  have hstarts := (sound_sample ⟨true, true⟩ (fun _ => .ok) rfl).starts
  obtain ⟨⟨l, hl, hkeys⟩, -⟩ := run_ideal ⟨true, true⟩ Env.counting healthy_sample seedIn_zeroStore hstarts
    [.sync, .timeout, .powerLoss, .boot, .sync]
  have hshown : ((Ideal.new 0).run ⟨true, true⟩ (HasKey Env.counting (Bytes.zero dLen) (Bytes.zero skLen))
      [.boot, .sync, .timeout, .powerLoss, .boot, .sync]).shown = [0, 1, 1] := by
    have h0 := hasKey_counting 0 (by decide)
    have h1 := hasKey_counting 1 (by decide)
    simp [Ideal.run, Ideal.step, Ideal.new, Ideal.advertise, Ideal.next, h0, h1]
  rw [hl]
  exact hkeys.trans (congrArg _ hshown)

/-- A healthy tag gets on, one epoch with each expiry of the timer, as long as the epochs have keys;
at the first one that has none it stays for good, since the ratchet is only advanced with the key. -/
theorem shows_epochs (cfg : Config) (env : Env) {d0 : Bytes dLen} {sk0 : Bytes skLen} {c : UInt32} {d : Device}
    (h : Healthy d) (hseed : SeedIn d.flash.store d0 sk0) (hc : StartsFrom cfg d.flash c)
    (hrotate : cfg.rotateEnable = true) {k n : Nat} (hk : c.toNat ≤ k)
    (hkeys : ∀ e, c.toNat ≤ e → e ≤ k → HasKey env d0 sk0 e)
    (hlast : c.toNat + n ≤ k ∨ ¬ HasKey env d0 sk0 (k + 1)) :
    ∃ l, (d.run cfg env (.boot :: .sync :: List.replicate n .timeout)).log = d.log ++ l ∧
      handedKeys l = (List.range (n + 1)).map fun i => keyAt env d0 sk0 (min (c.toNat + i) k) := by
  obtain ⟨l, hl, hshown⟩ := ((mirrors_new h hseed hc).run (.boot :: .sync :: List.replicate n .timeout)).log
  refine ⟨l, hl, hshown.trans ?_⟩
  rw [Ideal.shown_timeouts hrotate hk hkeys hlast, List.map_map]
  rfl

theorem shows_epochs_sample :
    ∃ l, ((Device.sample fun _ => .ok).run ⟨true, true⟩ Env.counting [.boot, .sync, .timeout, .timeout]).log =
        (Device.sample fun _ => .ok).log ++ l ∧
      handedKeys l = (List.range (2 + 1)).map fun i =>
        keyAt Env.counting (Bytes.zero dLen) (Bytes.zero skLen) (min ((0 : UInt32).toNat + i) 2) :=
  shows_epochs (n := 2) ⟨true, true⟩ Env.counting healthy_sample seedIn_zeroStore
    (sound_sample ⟨true, true⟩ (fun _ => .ok) rfl).starts rfl (Nat.zero_le 2) (fun e _ he => hasKey_counting e he)
    (.inl (le_refl _))

end Esptag
