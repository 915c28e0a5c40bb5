/-
What an aborted boot leaves in the static tag. The aborts of `app_main` from `tag_init` on scrub the
tag; those before it do not, so a secret that was read by then stays.
-/
import Esptag.Device.Spec
import Esptag.Tag.Scrub

namespace Esptag

open Octets Crypto Nvs

/-- The tag holds no secret. -/
structure NoSecret (tag : Tag) : Prop where
  d0 : tag.d0 = Bytes.zero dLen
  sk0 : tag.sk0 = Bytes.zero skLen
  skCurr : tag.skCurr = Bytes.zero skLen
  pCurr : tag.pCurr = Bytes.zero pLen

theorem noSecret_zero : NoSecret Tag.zero := ⟨rfl, rfl, rfl, rfl⟩

/-! ## What is read -/

/-- A read of at most `n` bytes under the key finds some that are not zero. -/
def HoldsSecret (st : Store) (n : Nat) (key : Name) : Prop :=
  ∃ data, st.get nvsNamespace key = some (.blob data) ∧ data.length ≤ n ∧ ∃ b ∈ data, b ≠ 0

/-- Loading the seed from `s` reads bytes that are not zero. -/
def SecretRead (s : Flash) : Prop :=
  (s.fate 0 = .ok ∧ s.fate 1 = .ok) ∧ (HoldsSecret s.store dLen nvsKeyD0 ∨
    (s.store.blob dLen nvsNamespace nvsKeyD0).isSome ∧ s.fate 2 = .ok ∧ HoldsSecret s.store skLen nvsKeySk0)

/-- Loading the seed from `s` succeeds. -/
def SeedReadable (s : Flash) : Prop :=
  s.fate 0 = .ok ∧ s.fate 1 = .ok ∧ s.fate 2 = .ok ∧ (s.store.blob dLen nvsNamespace nvsKeyD0).isSome ∧
    (s.store.blob skLen nvsNamespace nvsKeySk0).isSome

/-- Loading the counter from `s`, `k` calls on, succeeds. -/
def CounterReadable (s : Flash) (k : Nat) : Prop :=
  s.fate k = .ok ∧ (s.store nvsNamespaceState = none ∨
    s.fate (k + 1) = .ok ∧ (s.counter = none ∨ ∃ x, s.counter = some (.u32 x)))

/-- A boot of `d` gets to reading a secret, and then the seed or the counter cannot be loaded. -/
def AbortLeaks (cfg : Config) (d : Device) : Prop :=
  d.world.sched.now = .ok ∧ d.flash.sched.now = .ok ∧ SecretRead d.flash.tick ∧
    (¬ SeedReadable d.flash.tick ∨ cfg.persistCounter = true ∧ ¬ CounterReadable d.flash.tick 3)

/-- A read into a zero buffer leaves it zero unless it finds a secret. -/
theorem readInto_zero {st : Store} {n : Nat} {key : Name} :
    st.readInto nvsNamespace key (Bytes.zero n) = Bytes.zero n ↔ ¬ HoldsSecret st n key := by
  unfold Store.readInto
  cases h : st.fits n nvsNamespace key with
  | none =>
    refine iff_of_true rfl ?_
    rintro ⟨data, hget, hle, -⟩
    rw [Store.fits_eq_some_iff.2 ⟨hget, hle⟩] at h
    cases h
  | some data =>
    obtain ⟨hget, hle⟩ := Store.fits_eq_some_iff.1 h
    have hval : ((Bytes.zero n).write 0 data).val = data ++ List.replicate (n - data.length) 0 := by
      rw [Bytes.val_write _ _ _ (by rwa [Nat.zero_add])]
      simp [Bytes.zero]
    constructor
    · rintro hzero ⟨data', hget', -, b, hb, hne⟩
      obtain rfl : data = data' := by
        rw [hget] at hget'
        exact Value.blob.inj (Option.some.inj hget')
      rw [show (Bytes.zero n).write 0 data = _ from hzero] at hval
      have hmem : b ∈ (Bytes.zero n).val := by
        rw [hval]
        exact List.mem_append_left _ hb
      exact hne (List.eq_of_mem_replicate hmem)
    · intro hnone
      have hdata : data = List.replicate data.length 0 := by
        refine List.eq_replicate_iff.2 ⟨rfl, fun b hb => ?_⟩
        by_contra hne
        exact hnone ⟨data, hget, hle, b, hb, hne⟩
      apply Subtype.ext
      rw [hval, hdata, List.length_replicate, List.replicate_append_replicate, Nat.add_sub_cancel' hle]
      rfl

/-- What loading the seed leaves in a zero tag. -/
theorem seed_zero_iff (s : Flash) :
    (s.seedD0 (Bytes.zero dLen) = Bytes.zero dLen ∧ s.seedSk0 (Bytes.zero skLen) = Bytes.zero skLen) ↔
      ¬ SecretRead s := by
  unfold Flash.seedD0 Flash.seedSk0 SecretRead
  by_cases h01 : s.fate 0 = .ok ∧ s.fate 1 = .ok
  · obtain ⟨h0, h1⟩ := h01
    by_cases h2 : (s.store.blob dLen nvsNamespace nvsKeyD0).isSome ∧ s.fate 2 = .ok
    · simp [h0, h1, h2, readInto_zero]
    · rw [if_pos ⟨h0, h1⟩, if_neg fun h => h2 ⟨h.2.1.2, h.2.2⟩, readInto_zero]
      simp only [h0, h1, and_self, and_true, true_and, ← and_assoc, h2, false_and, or_false]
  · rw [if_neg h01, if_neg fun h => h01 ⟨h.1, h.2.1.1⟩]
    simp only [h01, and_self, false_and, not_false_eq_true]

/-! ## The calls that fail -/

theorem cryptoInit_ok_iff (w : World) : (cryptoInit.run w).1 = .ok ↔ w.sched.now = .ok := by
  by_cases h : w.sched.now = .ok <;> simp [cryptoInit, psaCryptoInit, h]

theorem Nvs.SeedSpec.ok_iff {s s' : Flash} {rc : Status} {d0 : Bytes dLen} {sk0 : Bytes skLen}
    (h : SeedSpec s (.ok (rc, d0, sk0)) s') : rc = .ok ↔ SeedReadable s := by
  constructor
  · rintro rfl
    obtain ⟨h0, h1, h2, hd, hsk⟩ := (h.ok d0 sk0).1 rfl
    exact ⟨h0, h1, h2, Option.isSome_iff_exists.2 ⟨_, hd⟩, Option.isSome_iff_exists.2 ⟨_, hsk⟩⟩
  · rintro ⟨h0, h1, h2, hd, hsk⟩
    obtain ⟨d, hd⟩ := Option.isSome_iff_exists.1 hd
    obtain ⟨sk, hsk⟩ := Option.isSome_iff_exists.1 hsk
    have hok := (h.ok d sk).2 ⟨h0, h1, h2, hd, hsk⟩
    exact (Prod.mk.inj (Except.ok.inj hok)).1

/-- The counter is loaded, or the boot aborts, by what is readable; only the flash changes. -/
theorem resumeCounter_readable (cfg : Config) {d : Device} (hd : Idle d.flash) : (resumeCounter cfg).Wp
    (fun _ d' => (∃ s, d' = { d with flash := s }) ∧ (cfg.persistCounter = true → CounterReadable d.flash 0))
    (fun e d' => (∃ s, d' = { d with flash := s }) ∧
      (e = .abort → cfg.persistCounter = true ∧ ¬ CounterReadable d.flash 0)) d := by
  unfold resumeCounter
  cases hcfg : cfg.persistCounter with
  | false => exact ⟨⟨d.flash, rfl⟩, fun h => by cases h⟩
  | true =>
    simp only [if_true, Act.wp_bind, wp_inFlash]
    have h := nvsStoreLoadCounter_spec hd 0
    rw [← Act.wp_outcome (P := fun rc s => LoadSpec d.flash 0 rc s)] at h
    refine h.mono ?_ fun e s h => ⟨⟨s, rfl⟩, fun he => ?_⟩
    swap
    · rw [he] at h
      exact absurd (h.stop _ rfl) (by decide)
    rintro ⟨rc, c⟩ s h
    cases rc with
    | err =>
      refine ⟨⟨s, rfl⟩, fun _ => ⟨trivial, ?_⟩⟩
      rintro ⟨h0, hns | ⟨h1, hc⟩⟩
      · exact absurd ((h.ok 0).2 ⟨h0, .inl ⟨hns, rfl⟩⟩) (by simp)
      · by_cases hns : d.flash.store nvsNamespaceState = none
        · exact absurd ((h.ok 0).2 ⟨h0, .inl ⟨hns, rfl⟩⟩) (by simp)
        rcases hc with hc | ⟨x, hc⟩
        · exact absurd ((h.ok 0).2 ⟨h0, .inr ⟨hns, h1, .inl ⟨hc, rfl⟩⟩⟩) (by simp)
        · exact absurd ((h.ok x).2 ⟨h0, .inr ⟨hns, h1, .inr hc⟩⟩) (by simp)
    | ok =>
      refine ⟨⟨s, rfl⟩, fun _ => ?_⟩
      obtain ⟨h0, ⟨hns, -⟩ | ⟨-, h1, hc⟩⟩ := (h.ok c).1 rfl
      · exact ⟨h0, .inl hns⟩
      · refine ⟨h0, .inr ⟨h1, ?_⟩⟩
        rcases hc with ⟨hc, -⟩ | hc
        · exact .inl hc
        · exact .inr ⟨c, hc⟩

/-! ## The boot -/

/-- An outcome of `app_main`, of `d`: when it is an abort, the tag holds no secret exactly unless
the boot leaks. -/
def AbortExact (cfg : Config) (d : Device) (rc : Except Stop Unit) (d' : Device) : Prop :=
  rc = .error .abort → (NoSecret d'.tag ↔ ¬ AbortLeaks cfg d)

theorem AbortExact.returns {cfg : Config} {d d' : Device} : AbortExact cfg d (.ok ()) d' := fun h => by cases h

theorem AbortExact.cut {cfg : Config} {d d' : Device} : AbortExact cfg d (.error .powerLoss) d' := fun h => by cases h

/-- An abort with the tag zero, at a point where the boot does not leak. -/
theorem AbortExact.zero {cfg : Config} {d d' : Device} {rc : Except Stop Unit} (htag : d'.tag = Tag.zero)
    (h : ¬ AbortLeaks cfg d) : AbortExact cfg d rc d' :=
  fun _ => iff_of_true (by rw [htag]; exact noSecret_zero) h

/-- An abort before `tag_init`, with what was read of the seed. -/
theorem AbortExact.seed {cfg : Config} {d d' : Device} {rc : Except Stop Unit} (hworld : d.world.sched.now = .ok)
    (hflash : d.flash.sched.now = .ok)
    (htag : d'.tag = { Tag.zero with
      d0 := d.flash.tick.seedD0 (Bytes.zero dLen), sk0 := d.flash.tick.seedSk0 (Bytes.zero skLen) })
    (hfail : ¬ SeedReadable d.flash.tick ∨ cfg.persistCounter = true ∧ ¬ CounterReadable d.flash.tick 3) :
    AbortExact cfg d rc d' := by
  intro _
  have hleaks : AbortLeaks cfg d ↔ SecretRead d.flash.tick :=
    ⟨fun h => h.2.2.1, fun h => ⟨hworld, hflash, h, hfail⟩⟩
  rw [hleaks, ← seed_zero_iff, htag]
  constructor
  · rintro ⟨h1, h2, -, -⟩
    exact ⟨h1, h2⟩
  · rintro ⟨h1, h2⟩
    exact ⟨h1, h2, rfl, rfl⟩

/-- What is readable after the seed was loaded is what was readable before. -/
theorem counterReadable_after {s s' : Flash} (hs : s'.sched = s.sched.skip 3) (hstore : s'.store = s.store) :
    CounterReadable s' 0 ↔ CounterReadable s 3 := by
  have hfate : ∀ i, s'.fate i = s.fate (3 + i) := fun i => by
    rw [Flash.fate, Flash.fate, hs, Sched.skip_fate, Sched.skip_calls, Nat.add_assoc]
  unfold CounterReadable
  rw [hfate, hfate, Flash.counter, Flash.counter, hstore]

theorem appMain_abort (cfg : Config) (env : Env) (d : Device) :
    let r := (appMain cfg env.on).run d.reset
    AbortExact cfg d r.1 r.2 := by
  have hidle := idle_reboot d.flash
  simp only [← Act.wp_outcome (P := AbortExact cfg d), appMain, Act.wp_bind]
  refine wp_point (fun _ => ?_) fun _ => .cut
  simp only [Act.wp_bind, wp_inWorld, wp_abortUnless, Act.wp_pure]
  refine ⟨fun hcrypto => wp_point (fun _ => ?_) fun _ => .cut, fun hcrypto => .zero rfl fun h => ?_⟩
  swap
  · exact absurd (hcrypto.symm.trans ((cryptoInit_ok_iff _).2 h.1)) (by decide)
  replace hcrypto : d.world.sched.now = .ok := (cryptoInit_ok_iff _).1 hcrypto
  refine (Act.wp_bind _ _).2 (wp_nvsStoreInit (fun rc hrc => ?_) .cut)
  simp only [Act.wp_bind, wp_abortUnless, Act.wp_pure]
  refine ⟨fun hok => wp_point (fun _ => ?_) fun _ => .cut, fun herr => .zero rfl fun h => ?_⟩
  swap
  · exact absurd (herr.symm.trans (hrc.2 h.2.1)) (by decide)
  have hinit : d.flash.sched.now = .ok := hrc.1 hok
  -- the seed
  simp only [Act.wp_bind, Act.wp_gets, wp_inFlash, Act.wp_modify, wp_abortUnless, Act.wp_pure]
  have hseed := nvsStoreLoadSeed_full hidle.tick (Bytes.zero dLen) (Bytes.zero skLen)
  rw [← Act.wp_outcome (P := fun rc s => SeedSpec d.flash.reboot.tick rc s ∧
    SeedLeft d.flash.reboot.tick (Bytes.zero dLen) (Bytes.zero skLen) rc s)] at hseed
  refine hseed.mono ?_ fun e s h => ?_
  swap
  · rw [h.1.stop e rfl]
    exact .cut
  rintro ⟨rc, d0, sk0⟩ s ⟨hspec, hleft⟩
  obtain ⟨hd0, hsk0⟩ := hleft.bufs rc d0 sk0 rfl
  have htag : ({ d.reset.tag with d0 := d0, sk0 := sk0 } : Tag) = { Tag.zero with
      d0 := d.flash.tick.seedD0 (Bytes.zero dLen), sk0 := d.flash.tick.seedSk0 (Bytes.zero skLen) } := by
    rw [hd0, hsk0]
    rfl
  have hreadable : rc = .ok ↔ SeedReadable d.flash.tick := hspec.ok_iff
  refine ⟨?_, fun herr => .seed hcrypto hinit htag (.inl fun h => ?_)⟩
  swap
  · exact absurd (herr.symm.trans (hreadable.2 h)) (by decide)
  rintro rfl
  refine wp_point (fun _ => ?_) fun _ => .cut
  -- the counter
  have hcounter : CounterReadable s 0 ↔ CounterReadable d.flash.tick 3 :=
    counterReadable_after (s := d.flash.tick) (hleft.calls _ _ rfl) hspec.store
  rw [Act.wp_bind]
  refine (resumeCounter_readable cfg (hspec.idle ⟨_, rfl⟩)).mono ?_ ?_
  swap
  · rintro e _ ⟨⟨s', rfl⟩, hfail⟩ he
    obtain ⟨hcfg, hnot⟩ := hfail (Except.error.inj he)
    rw [hcounter] at hnot
    exact AbortExact.seed hcrypto hinit htag (.inr ⟨hcfg, hnot⟩) he
  rintro c _ ⟨⟨s', rfl⟩, hread⟩
  have hsafe : ¬ AbortLeaks cfg d := by
    rintro ⟨-, -, -, hfail | ⟨hcfg, hfail⟩⟩
    · exact hfail (hreadable.1 rfl)
    · exact hfail (hcounter.1 (hread hcfg))
  rw [Act.wp_bind]
  refine wp_point (fun _ => ?_) fun _ => .cut
  -- the tag, which is scrubbed from here on
  rw [Act.wp_bind, wp_initTag]
  generalize (tagInit env.on _ c).run _ = r
  rw [Act.wp_bind, wp_abortUnless]
  refine ⟨fun _ => ?_, fun _ => .zero rfl hsafe⟩
  rw [Act.wp_bind]
  refine wp_point (fun _ => ?_) fun _ => .cut
  simp only [bleAdvInit, Act.wp_bind, wp_findmyAdvInit, Act.wp_pure, wp_abortUnless]
  exact ⟨fun _ => .returns, fun _ => .zero rfl hsafe⟩

/-- On every abort of `app_main`, with `CONFIG_ESPTAG_ZEROIZE` set: the static tag holds no secret
exactly when no secret was read by then, or both the seed and the counter could be loaded. -/
theorem abort_noSecret_iff (cfg : Config) (env : Env) (d : Device)
    (habort : ((appMain cfg env.on).run d.reset).1 = .error .abort) :
    NoSecret ((appMain cfg env.on).run d.reset).2.tag ↔ ¬ AbortLeaks cfg d :=
  appMain_abort cfg env d habort

/-- A provisioned device on which the namespace of the counter cannot be opened. -/
def Device.stateUnreadable : Device :=
  .new (Store.set (Store.set (fun _ => none) nvsNamespace nvsKeyD0 (.blob (be dLen 1).val)) nvsNamespace nvsKeySk0
      (.blob (be skLen 1).val))
    ⟨fun i => if i = 4 then .fails 1 false else .ok, 0⟩ World.start ⟨fun _ => .ok, 0⟩ ⟨fun _ => false, 0⟩

/-- Its boot aborts with the seed in the tag. -/
theorem abort_keeps_secret : ¬ ∀ (cfg : Config) (env : Env) (d : Device),
    ((appMain cfg env.on).run d.reset).1 = .error .abort → NoSecret ((appMain cfg env.on).run d.reset).2.tag := by
  intro h
  have hclean := h ⟨true, true⟩ Env.counting Device.stateUnreadable (by decide +kernel)
  exact absurd hclean.d0 (by decide +kernel)

theorem abort_noSecret_iff_stateUnreadable :
    ¬ NoSecret ((appMain ⟨true, true⟩ Env.counting.on).run Device.stateUnreadable.reset).2.tag := by
  rw [abort_noSecret_iff ⟨true, true⟩ Env.counting Device.stateUnreadable (by decide +kernel), not_not]
  refine ⟨rfl, rfl, ⟨⟨rfl, rfl⟩, .inl ⟨(be dLen 1).val, by decide, by decide, 1, by decide, by decide⟩⟩, .inr ⟨rfl, ?_⟩⟩
  rintro ⟨hopen, -⟩
  cases hopen

end Esptag
