/-
What `app_main`, `on_ready` and `on_rotate` do to the device, whatever fails and wherever power is
lost: what they log, what they leave in the flash and in the tag, and when the timer is armed.
-/
import Esptag.Device.Basic

namespace Esptag

open Octets Crypto Nvs

/-! ## The calls -/

section

variable {α : Type} {d : Device}

theorem wp_point {Q : Unit → Device → Prop} {E : Stop → Device → Prop}
    (hQ : d.power.now = false → Q () { d with power := d.power.skip 1 })
    (hE : d.power.now = true → E .powerLoss { d with power := d.power.skip 1 }) : point.Wp Q E d := by
  cases h : d.power.now with
  | true => exact (Act.wp_of_error (by simp only [point, h, if_true])).2 (hE h)
  | false => exact (Act.wp_of_ok (by simp only [point, h, Bool.false_eq_true, if_false])).2 (hQ h)

theorem wp_inFlash {x : FlashM α} {Q : α → Device → Prop} {E : Stop → Device → Prop} :
    (inFlash x).Wp Q E d ↔
      x.Wp (fun a s => Q a { d with flash := s }) (fun e s => E e { d with flash := s }) d.flash := by
  have hrun : (inFlash x).run d = ((x.run d.flash).1, { d with flash := (x.run d.flash).2 }) := rfl
  unfold Act.Wp
  rw [hrun]
  generalize x.run d.flash = r
  obtain ⟨_ | a, s⟩ := r <;> rfl

theorem wp_abortUnless {rc : Status} {cleanup : DeviceM Unit} {Q : Unit → Device → Prop} {E : Stop → Device → Prop} :
    (abortUnless rc cleanup).Wp Q E d ↔ (rc = .ok → Q () d) ∧ (rc = .err → cleanup.Wp (fun _ => E .abort) E d) := by
  cases rc with
  | ok => simp [abortUnless]
  | err =>
    simp only [abortUnless, ne_eq, reduceCtorEq, not_false_eq_true, if_true, Act.wp_bind, false_imp_iff, true_imp_iff,
      true_and]
    rfl

theorem wp_inWorld {x : CryptoM α} {Q : α → Device → Prop} {E : Stop → Device → Prop} :
    (inWorld x).Wp Q E d ↔ Q (x.run d.world).1 { d with world := (x.run d.world).2 } := Iff.rfl

end

theorem wp_nvsStoreInit {Q : Status → Device → Prop} {E : Stop → Device → Prop}
    (hQ : ∀ rc, (rc = .ok ↔ d.flash.sched.now = .ok) → Q rc { d with flash := d.flash.tick })
    (hE : E .powerLoss { d with flash := d.flash.tick }) :
    (inFlash nvsStoreInit).Wp Q E d := by
  rw [wp_inFlash]
  have h := run_nvsStoreInit d.flash
  cases hf : d.flash.sched.now with
  | ok => rw [hf] at h; exact (Act.wp_of_ok h).2 (hQ _ (by simp [hf]))
  | fails code stored => rw [hf] at h; exact (Act.wp_of_ok h).2 (hQ _ (by simp [hf]))
  | cut stored => rw [hf] at h; exact (Act.wp_of_error h).2 hE

theorem wp_initTag {env : Env} {c : UInt32} {Q : Status → Device → Prop} {E : Stop → Device → Prop} :
    (initTag env c).Wp Q E d ↔ let r := (tagInit env d.tag c).run d.world
      Q r.1.1 { d with tag := r.1.2, world := r.2, log := d.log ++ [.init c r.1.1] } := Iff.rfl

theorem wp_rotateTag {env : Env} {Q : Status → Device → Prop} {E : Stop → Device → Prop}
    (hok : ∀ d', d.tag.Next env d'.tag → d'.flash = d.flash → d'.log = d.log ++ [.rotated d'.tag.counter] → Q .ok d')
    (herr : ∀ d', d'.tag = d.tag → d'.flash = d.flash → d'.log = d.log → Q .err d') : (rotateTag env).Wp Q E d := by
  have hrun : (rotateTag env).run d = (.ok ((tagRotate env d.tag).run d.world).1.1, _) := rfl
  rw [Act.wp_of_ok hrun]
  have hrot := tagRotate_spec env d.tag d.world
  generalize (tagRotate env d.tag).run d.world = r at hrot ⊢
  obtain ⟨⟨rc, tag⟩, w⟩ := r
  rcases hrot.ret with ⟨hrc, -, hnext⟩ | ⟨hrc, htag, -⟩
  · simp only at hrc
    subst hrc
    exact hok _ hnext rfl rfl
  · simp only at hrc
    subst hrc
    exact herr _ htag rfl rfl

theorem wp_saveCounter (hd : Idle d.flash) {c : UInt32} {Q : Status → Device → Prop} {E : Stop → Device → Prop}
    (hQ : ∀ rc d', d'.tag = d.tag → SaveSpec d.flash c (.ok rc) d'.flash →
      d'.log = d.log ++ [.saved c (some rc) d.flash.saveStores] → Q rc d')
    (hE : ∀ d', d'.tag = d.tag → SaveSpec d.flash c (.error .powerLoss) d'.flash →
      d'.log = d.log ++ [.saved c none d.flash.saveStores] → E .powerLoss d') : (saveCounter c).Wp Q E d := by
  have hrun : (saveCounter c).run d = (((nvsStoreSaveCounter c).run d.flash).1, _) := rfl
  have hsave := nvsStoreSaveCounter_spec hd c
  unfold Act.Wp
  rw [hrun]
  generalize (nvsStoreSaveCounter c).run d.flash = r at hsave ⊢
  obtain ⟨e | rc, s⟩ := r
  · obtain rfl := hsave.stop e rfl
    exact hE _ rfl hsave rfl
  · exact hQ rc _ rfl hsave rfl

theorem wp_findmyAdvInit {Q : EspErr → Device → Prop} {E : Stop → Device → Prop} :
    findmyAdvInit.Wp Q E d ↔ Q d.radio.now { d with radio := d.radio.skip 1 } := Iff.rfl

theorem wp_findmyAdvSetKey {key : Bytes pLen} {Q : EspErr → Device → Prop} {E : Stop → Device → Prop} :
    (findmyAdvSetKey key).Wp Q E d ↔
      Q d.radio.now { d with radio := d.radio.skip 1, log := d.log ++ [.handed key d.tag.counter] } := Iff.rfl

/-! ## Booting -/

/-- The counters `app_main` may start from, by what the flash holds. -/
def StartsFrom (cfg : Config) (s : Flash) (c : UInt32) : Prop :=
  if cfg.persistCounter then (s.counter = none ∧ c = 0) ∨ s.counter = some (.u32 c) else c = 0

theorem resumeCounter_spec (cfg : Config) {d : Device} (hd : Idle d.flash) : (resumeCounter cfg).Wp
    (fun c d' => StartsFrom cfg d.flash c ∧ ∃ s, d' = { d with flash := s } ∧ Idle s ∧ s.store = d.flash.store)
    (fun _ d' => ∃ s, d' = { d with flash := s } ∧ s.store = d.flash.store) d := by
  unfold resumeCounter StartsFrom
  cases cfg.persistCounter with
  | false => exact ⟨rfl, d.flash, rfl, hd, rfl⟩
  | true =>
    simp only [if_true, Act.wp_bind, wp_inFlash]
    have h := nvsStoreLoadCounter_spec hd 0
    rw [← Act.wp_outcome (P := fun rc s => LoadSpec d.flash 0 rc s)] at h
    refine h.mono ?_ fun _ s h => ⟨s, rfl, h.store⟩
    rintro ⟨rc, c⟩ s h
    cases rc with
    | err => exact ⟨s, rfl, h.store⟩
    | ok =>
      refine ⟨?_, s, rfl, h.idle ⟨_, rfl⟩, h.store⟩
      rcases ((h.ok c).1 rfl).2 with ⟨hns, hc⟩ | ⟨-, -, hc⟩
      · exact .inl ⟨by rw [Flash.counter, Store.get, hns]; rfl, hc⟩
      · exact hc

/-- What `app_main` does: it stops before `tag_init` or after it, or it returns with the tag at the
counter's epoch of the provisioned seed. -/
structure BootSpec (cfg : Config) (env : Env) (d : Device) (rc : Except Stop Unit) (d' : Device) : Prop where
  store : d'.flash.store = d.flash.store
  armed : d'.armed = d.armed
  ret : (rc ≠ .ok () ∧ d'.log = d.log) ∨ ∃ c, StartsFrom cfg d.flash c ∧
    ((rc ≠ .ok () ∧ ∃ st, d'.log = d.log ++ [.init c st]) ∨
      (rc = .ok () ∧ d'.log = d.log ++ [.init c .ok] ∧ Idle d'.flash ∧ d'.tag.counter = c ∧
        ∃ d0 sk0, d.flash.store.blob dLen nvsNamespace nvsKeyD0 = some d0 ∧
          d.flash.store.blob skLen nvsNamespace nvsKeySk0 = some sk0 ∧ d'.tag.At env d0 sk0 c.toNat))

/-- Stopped before `tag_init`. -/
theorem BootSpec.early {cfg : Config} {env : Env} {d d' : Device} {e : Stop} (hstore : d'.flash.store = d.flash.store)
    (harmed : d'.armed = d.armed) (hlog : d'.log = d.log) : BootSpec cfg env d (.error e) d' :=
  ⟨hstore, harmed, .inl ⟨by simp, hlog⟩⟩

/-- Stopped after `tag_init`. -/
theorem BootSpec.late {cfg : Config} {env : Env} {d d' : Device} {e : Stop} {c : UInt32}
    (hc : StartsFrom cfg d.flash c) (st : Status) (hstore : d'.flash.store = d.flash.store)
    (harmed : d'.armed = d.armed) (hlog : d'.log = d.log ++ [.init c st]) : BootSpec cfg env d (.error e) d' :=
  ⟨hstore, harmed, .inr ⟨c, hc, .inl ⟨by simp, st, hlog⟩⟩⟩

theorem appMain_spec (cfg : Config) (env : Env) {d : Device} (hd : Idle d.flash) :
    let r := (appMain cfg env).run d
    BootSpec cfg env d r.1 r.2 := by
  simp only [← Act.wp_outcome (P := BootSpec cfg env d), appMain, Act.wp_bind]
  refine wp_point (fun _ => ?_) fun _ => .early rfl rfl rfl
  simp only [Act.wp_bind, wp_inWorld, wp_abortUnless, Act.wp_pure]
  refine ⟨fun _ => wp_point (fun _ => ?_) fun _ => .early rfl rfl rfl, fun _ => .early rfl rfl rfl⟩
  refine (Act.wp_bind _ _).2 (wp_nvsStoreInit (fun rc _ => ?_) (.early rfl rfl rfl))
  simp only [Act.wp_bind, wp_abortUnless, Act.wp_pure]
  refine ⟨fun _ => wp_point (fun _ => ?_) fun _ => .early rfl rfl rfl, fun _ => .early rfl rfl rfl⟩
  -- the seed
  simp only [Act.wp_bind, Act.wp_gets, wp_inFlash, Act.wp_modify, wp_abortUnless, Act.wp_pure]
  have hseed := nvsStoreLoadSeed_spec hd.tick d.tag.d0 d.tag.sk0
  rw [← Act.wp_outcome (P := SeedSpec d.flash.tick)] at hseed
  refine hseed.mono ?_ fun _ s h => .early h.store rfl rfl
  rintro ⟨rc, d0, sk0⟩ s h
  refine ⟨?_, fun _ => .early h.store rfl rfl⟩
  rintro rfl
  obtain ⟨-, -, -, hd0, hsk0⟩ := (h.ok d0 sk0).1 rfl
  refine wp_point (fun _ => ?_) fun _ => .early h.store rfl rfl
  -- the counter
  rw [Act.wp_bind]
  refine (resumeCounter_spec cfg (h.idle ⟨_, rfl⟩)).mono ?_ ?_
  swap
  · rintro _ _ ⟨s', rfl, hs'⟩
    exact .early (hs'.trans h.store) rfl rfl
  rintro c _ ⟨hc, s', rfl, hidle, hs'⟩
  replace hc : StartsFrom cfg d.flash c := by
    rw [StartsFrom, Flash.counter, h.store] at hc
    exact hc
  have hstore := hs'.trans h.store
  rw [Act.wp_bind]
  refine wp_point (fun _ => ?_) fun _ => .early hstore rfl rfl
  -- the tag
  rw [Act.wp_bind, wp_initTag]
  have hinit := tagInit_spec env { d.tag with d0 := d0, sk0 := sk0 } c (cryptoInit.run d.world).2
  generalize (tagInit env _ c).run _ = r at hinit ⊢
  obtain ⟨⟨rc, tag⟩, w⟩ := r
  rw [Act.wp_bind, wp_abortUnless]
  refine ⟨?_, fun _ => .late hc rc hstore rfl rfl⟩
  rintro rfl
  rcases hinit.ret with ⟨-, -, hat⟩ | ⟨h0, -⟩
  swap
  · cases h0
  rw [Act.wp_bind]
  refine wp_point (fun _ => ?_) fun _ => .late hc .ok hstore rfl rfl
  -- the radio
  simp only [bleAdvInit, Act.wp_bind, wp_findmyAdvInit, Act.wp_pure, wp_abortUnless]
  refine ⟨fun _ => ⟨hstore, rfl, .inr ⟨c, hc, .inr ⟨rfl, rfl, hidle, ?_, d0, sk0, hd0, hsk0, hat⟩⟩⟩,
    fun _ => .late hc .ok hstore rfl rfl⟩
  apply UInt32.toNat_inj.1
  rw [hat.epoch, Nat.mod_eq_of_lt c.toNat_lt]

/-! ## Advertising -/

/-- What `on_ready` does. -/
structure ReadySpec (cfg : Config) (d : Device) (rc : Except Stop Unit) (d' : Device) : Prop where
  tag : d'.tag = d.tag
  flash : d'.flash = d.flash
  log : (rc ≠ .ok () ∧ d'.log = d.log) ∨ d'.log = d.log ++ [.handed d.tag.pCurr d.tag.counter]
  returns : rc = .ok () ↔ d.power.All (· = false) 2
  armed : rc = .ok () → (d'.armed = true ↔ (d.radio.now = .ok ∧ cfg.rotateEnable = true) ∨ d.armed = true)

theorem onReady_spec (cfg : Config) (d : Device) :
    let r := (onReady cfg).run d
    ReadySpec cfg d r.1 r.2 := by
  simp only [← Act.wp_outcome (P := ReadySpec cfg d), onReady, Act.wp_bind]
  have hpower : d.power.All (· = false) 2 ↔ d.power.now = false ∧ (d.power.skip 1).now = false := by
    rw [Sched.all_succ, Sched.all_one]
  refine wp_point (fun h1 => ?_) fun h1 => ?_
  swap
  · exact ⟨rfl, rfl, .inl ⟨by simp, rfl⟩, by simp [hpower, h1], by simp⟩
  simp only [Act.wp_bind, Act.wp_gets, wp_findmyAdvSetKey]
  refine wp_point (fun h2 => ?_) fun h2 => ?_
  swap
  · exact ⟨rfl, rfl, .inr rfl, by simp [hpower, h2], by simp⟩
  have hreturns : (Except.ok () : Except Stop Unit) = .ok () ↔ d.power.All (· = false) 2 :=
    iff_of_true rfl (hpower.2 ⟨h1, h2⟩)
  by_cases hr : d.radio.now = .ok
  · rw [if_neg (not_not.2 hr)]
    cases hcfg : cfg.rotateEnable with
    | true => exact ⟨rfl, rfl, .inr rfl, hreturns, fun _ => iff_of_true rfl (.inl ⟨hr, hcfg⟩)⟩
    | false => exact ⟨rfl, rfl, .inr rfl, hreturns, fun _ => by simp [hcfg]⟩
  · rw [if_pos hr]
    exact ⟨rfl, rfl, .inr rfl, hreturns, fun _ => by simp [hr]⟩

/-! ## Rotating -/

/-- What `on_rotate` logs, and what it makes of the tag and of the counter in the flash, by how far
it gets. -/
inductive Turn (cfg : Config) (env : Env) (tag : Tag) (v : Option Value) :
    Except Stop Unit → List Obs → Tag → Option Value → Prop
  /-- Power is lost before anything is rotated or handed over. -/
  | cut : Turn cfg env tag v (.error .powerLoss) [] tag v
  /-- The rotation fails; the same key is handed over again. -/
  | failed (rc : Except Stop Unit) : Turn cfg env tag v rc [.handed tag.pCurr tag.counter] tag v
  /-- Power is lost after the rotation. -/
  | rotated (tag' : Tag) (h : tag.Next env tag') :
      Turn cfg env tag v (.error .powerLoss) [.rotated tag'.counter] tag' v
  /-- Power is lost during the save or after it. -/
  | cutSave (tag' : Tag) (h : tag.Next env tag') (st : Option Status) (stored : Bool) :
      Turn cfg env tag v (.error .powerLoss) [.rotated tag'.counter, .saved tag'.counter st stored] tag'
        (if stored then some (.u32 tag'.counter) else v)
  /-- The new key is handed over, its counter not being persisted. -/
  | unsaved (tag' : Tag) (h : tag.Next env tag') (hcfg : cfg.persistCounter = false) (rc : Except Stop Unit) :
      Turn cfg env tag v rc [.rotated tag'.counter, .handed tag'.pCurr tag'.counter] tag' v
  /-- The save returns and the new key is handed over. -/
  | saved (tag' : Tag) (h : tag.Next env tag') (st : Status) (stored : Bool) (hst : st = .ok → stored = true)
      (rc : Except Stop Unit) :
      Turn cfg env tag v rc
        [.rotated tag'.counter, .saved tag'.counter (some st) stored, .handed tag'.pCurr tag'.counter] tag'
        (if stored then some (.u32 tag'.counter) else v)

/-- What `on_rotate` does. -/
structure TurnSpec (cfg : Config) (env : Env) (d : Device) (rc : Except Stop Unit) (d' : Device) : Prop where
  seed : ∀ ns, ns ≠ nvsNamespaceState → d'.flash.store ns = d.flash.store ns
  idle : rc = .ok () → Idle d'.flash
  armed : rc = .ok () → d'.armed = true
  turn : ∃ l, d'.log = d.log ++ l ∧ Turn cfg env d.tag d.flash.counter rc l d'.tag d'.flash.counter

section

variable {cfg : Config} {env : Env} {d d' : Device} {rc : Except Stop Unit} {l : List Obs}

/-- A turn in which the flash is left alone. -/
theorem TurnSpec.keep (hd : Idle d.flash) (hflash : d'.flash = d.flash) (harmed : rc = .ok () → d'.armed = true)
    (hl : d'.log = d.log ++ l) (ht : Turn cfg env d.tag d.flash.counter rc l d'.tag d.flash.counter) :
    TurnSpec cfg env d rc d' :=
  ⟨fun _ _ => by rw [hflash], fun _ => by rw [hflash]; exact hd, harmed, l, hl, by rw [hflash]; exact ht⟩

/-- A turn with a save of the counter `c`. -/
theorem TurnSpec.save {c : UInt32} {st : Except Stop Status} {s : Flash} (hsave : SaveSpec d.flash c st s)
    (hflash : d'.flash = s) (hret : rc = .ok () → ∃ x, st = .ok x) (harmed : rc = .ok () → d'.armed = true)
    (hl : d'.log = d.log ++ l)
    (ht : Turn cfg env d.tag d.flash.counter rc l d'.tag
      (if d.flash.saveStores then some (.u32 c) else d.flash.counter)) :
    TurnSpec cfg env d rc d' := by
  subst hflash
  exact ⟨hsave.others, fun hrc => hsave.idle (hret hrc), harmed, l, hl, by rw [hsave.counter]; exact ht⟩

/-- The end of `on_rotate`: power is lost before the key is handed over, or it is handed over. -/
theorem wp_readvertise {P : Except Stop Unit → Device → Prop}
    (hcut : ∀ d', d'.tag = d.tag → d'.flash = d.flash → d'.log = d.log → P (.error .powerLoss) d')
    (hhand : ∀ rc d', d'.tag = d.tag → d'.flash = d.flash → d'.log = d.log ++ [.handed d.tag.pCurr d.tag.counter] →
      (rc = .ok () → d'.armed = true) → P rc d') :
    (do
      point
      let key ← Act.gets fun d => d.tag.pCurr
      let _ ← findmyAdvSetKey key
      point
      calloutReset).Wp (fun a => P (.ok a)) (fun e => P (.error e)) d := by
  rw [Act.wp_bind]
  refine wp_point (fun _ => ?_) fun _ => hcut _ rfl rfl rfl
  simp only [Act.wp_bind, Act.wp_gets, wp_findmyAdvSetKey]
  refine wp_point (fun _ => ?_) fun _ => hhand _ _ rfl rfl rfl (by simp)
  exact hhand _ _ rfl rfl rfl fun _ => rfl

end

theorem onRotate_spec (cfg : Config) (env : Env) {d : Device} (hd : Idle d.flash) :
    let r := (onRotate cfg env).run d
    TurnSpec cfg env d r.1 r.2 := by
  simp only [← Act.wp_outcome (P := TurnSpec cfg env d)]
  unfold onRotate
  rw [Act.wp_bind]
  refine wp_point (fun _ => ?_) fun _ => .keep hd rfl (by simp) (List.append_nil _).symm .cut
  rw [Act.wp_bind]
  refine wp_rotateTag (fun d₁ hnext hflash hlog => ?_) fun d₁ htag hflash hlog => ?_
  · -- rotated: `d₁` has the next tag
    have hcut : ∀ d', d'.tag = d₁.tag → d'.flash = d₁.flash → d'.log = d₁.log →
        TurnSpec cfg env d (.error .powerLoss) d' := by
      intro d' ht hf hl
      exact .keep hd (hf.trans hflash) (by simp) (hl.trans hlog) (by rw [ht]; exact .rotated _ hnext)
    rw [Act.wp_bind]
    refine wp_point (fun _ => ?_) fun _ => hcut _ rfl rfl rfl
    cases hcfg : cfg.persistCounter with
    | false =>
      simp only [Bool.false_eq_true, and_false, if_false]
      refine wp_readvertise hcut fun rc d' ht hf hl harm => ?_
      rw [hlog, List.append_assoc] at hl
      exact .keep hd (hf.trans hflash) harm hl (by rw [ht]; exact .unsaved _ hnext hcfg rc)
    | true =>
      simp only [and_self, if_true, Act.wp_bind, Act.wp_gets]
      refine wp_saveCounter (by rw [hflash]; exact hd) (fun st d₂ ht₂ hsave hlog₂ => ?_) fun d₂ ht₂ hsave hlog₂ => ?_
      · -- saved: `d₂` may hold the new counter
        rw [hflash] at hsave hlog₂
        rw [hlog, List.append_assoc] at hlog₂
        refine wp_readvertise (fun d' ht hf hl => ?_) fun rc d' ht hf hl harm => ?_
        · exact .save hsave hf (by simp) (by simp) (hl.trans hlog₂)
            (by rw [ht, ht₂]; exact .cutSave _ hnext _ _)
        · rw [hlog₂, ht₂, List.append_assoc] at hl
          refine .save hsave hf (fun _ => ⟨st, rfl⟩) harm hl ?_
          rw [ht, ht₂]
          refine .saved _ hnext st _ (fun hst => ?_) rc
          subst hst
          obtain ⟨h0, h1, h2⟩ := hsave.ok.1 rfl
          rw [Flash.saveStores, h0, h1, h2]
      · rw [hflash] at hsave hlog₂
        rw [hlog, List.append_assoc] at hlog₂
        exact .save hsave rfl (by simp) (by simp) hlog₂ (by rw [ht₂]; exact .cutSave _ hnext _ _)
  · -- not rotated: nothing changed
    have hcut : ∀ d', d'.tag = d₁.tag → d'.flash = d₁.flash → d'.log = d₁.log →
        TurnSpec cfg env d (.error .powerLoss) d' := by
      intro d' ht hf hl
      exact .keep hd (hf.trans hflash) (by simp) (hl.trans (hlog.trans (List.append_nil _).symm))
        (by rw [ht, htag]; exact .cut)
    rw [Act.wp_bind]
    refine wp_point (fun _ => ?_) fun _ => hcut _ rfl rfl rfl
    simp only [reduceCtorEq, false_and, if_false]
    refine wp_readvertise hcut fun rc d' ht hf hl harm => ?_
    rw [hlog, htag] at hl
    exact .keep hd (hf.trans hflash) harm hl (by rw [ht, htag]; exact .failed rc)

/-! ## Events -/

/-- What an event does to the device. -/
inductive Effect (cfg : Config) (env : Env) (d : Device) : Event → Device → Prop
  | boot (rc : Except Stop Unit) (d' : Device) (h : BootSpec cfg env d.reset rc d') :
      Effect cfg env d .boot (.settle .syncing (rc, d'))
  | sync (hphase : d.phase = .syncing) (rc : Except Stop Unit) (d' : Device) (h : ReadySpec cfg d rc d') :
      Effect cfg env d .sync (.settle .ready (rc, d'))
  /-- The stack is not coming up. -/
  | unsynced (hphase : d.phase ≠ .syncing) : Effect cfg env d .sync d
  | timeout (hphase : d.phase = .ready) (rc : Except Stop Unit) (d' : Device) (h : TurnSpec cfg env d rc d') :
      Effect cfg env d .timeout (.settle .ready (rc, d'))
  /-- There is no timer to expire. -/
  | unarmed (h : ¬ (d.phase = .ready ∧ d.armed = true)) : Effect cfg env d .timeout d
  | powerLoss : Effect cfg env d .powerLoss { d with phase := .off }

section

variable {cfg : Config} {env : Env} {d : Device}

theorem step_effect (cfg : Config) (env : Env) (hidle : d.phase ≠ .off → Idle d.flash) (ev : Event) :
    Effect cfg env d ev (d.step cfg env ev) := by
  cases ev with
  | boot => exact .boot _ _ (appMain_spec cfg env (idle_reboot d.flash))
  | sync =>
    by_cases hphase : d.phase = .syncing
    · have hstep : d.step cfg env .sync = .settle .ready ((onReady cfg).run d) := if_pos hphase
      rw [hstep]
      exact .sync hphase _ _ (onReady_spec cfg d)
    · have hstep : d.step cfg env .sync = d := if_neg hphase
      rw [hstep]
      exact .unsynced hphase
  | timeout =>
    by_cases h : d.phase = .ready ∧ d.armed = true
    · have hstep : d.step cfg env .timeout = .settle .ready ((onRotate cfg env).run { d with armed := false }) :=
        if_pos h
      have hturn := onRotate_spec cfg env (d := { d with armed := false }) (hidle (by rw [h.1]; decide))
      rw [hstep]
      exact .timeout h.1 _ _ ⟨hturn.seed, hturn.idle, hturn.armed, hturn.turn⟩
    · have hstep : d.step cfg env .timeout = d := if_neg h
      rw [hstep]
      exact .unarmed h
  | powerLoss => exact .powerLoss

theorem run_concat (es : List Event) (ev : Event) :
    d.run cfg env (es ++ [ev]) = (d.run cfg env es).step cfg env ev := List.foldl_concat ..

theorem settle_log (phase : Phase) (r : Except Stop Unit × Device) : (Device.settle phase r).log = r.2.log := by
  obtain ⟨_ | _, d'⟩ := r <;> rfl

/-- The log only grows. -/
theorem log_prefix_step (hidle : d.phase ≠ .off → Idle d.flash) (ev : Event) : d.log <+: (d.step cfg env ev).log := by
  have h := step_effect cfg env hidle ev
  generalize d.step cfg env ev = d' at h
  cases h with
  | boot rc d' hboot =>
    rw [settle_log]
    rcases hboot.ret with ⟨-, hl⟩ | ⟨c, -, ⟨-, st, hl⟩ | ⟨-, hl, -⟩⟩ <;> rw [hl]
    · exact List.prefix_append _ _
    · exact (List.prefix_append _ _).trans (List.prefix_append _ _)
    · exact (List.prefix_append _ _).trans (List.prefix_append _ _)
  | sync _ rc d' hready =>
    rw [settle_log]
    rcases hready.log with ⟨-, hl⟩ | hl <;> rw [hl]
    exact List.prefix_append _ _
  | unsynced => exact List.prefix_refl _
  | timeout _ rc d' hturn =>
    obtain ⟨l, hl, -⟩ := hturn.turn
    rw [settle_log, hl]
    exact List.prefix_append _ _
  | unarmed => exact List.prefix_refl _
  | powerLoss => exact List.prefix_refl _

end

end Esptag
