/-
What the device advertises: over every run, whatever fails and whenever power is lost, each key handed
to the radio is the key of an epoch of the provisioned seed, and the boot it is handed over in brought
the tag up.
-/
import Esptag.Device.Live

namespace Esptag

open Octets Crypto Nvs

/-! ## Genuine keys -/

/-- The flash holds the seed `(d0, sk0)`, under the keys and of the lengths the firmware demands. -/
def SeedIn (st : Store) (d0 : Bytes dLen) (sk0 : Bytes skLen) : Prop :=
  st.blob dLen nvsNamespace nvsKeyD0 = some d0 ∧ st.blob skLen nvsNamespace nvsKeySk0 = some sk0

/-- The flash holds one seed at most. -/
theorem SeedIn.unique {st : Store} {d0 d0' : Bytes dLen} {sk0 sk0' : Bytes skLen} (h : SeedIn st d0 sk0)
    (h' : SeedIn st d0' sk0') : d0 = d0' ∧ sk0 = sk0' :=
  ⟨Option.some.inj (h.1.symm.trans h'.1), Option.some.inj (h.2.symm.trans h'.2)⟩

theorem seedIn_zeroStore : SeedIn zeroStore (Bytes.zero dLen) (Bytes.zero skLen) :=
  ⟨Store.blob_eq_some_iff.2 zeroStore_get.1, Store.blob_eq_some_iff.2 zeroStore_get.2.1⟩

/-- How `tag_init` turned out since the last boot, if it was called. -/
def lastInit (l : List Obs) : Option Status := l.foldl (fun rc o => match o with
  | .boot => none
  | .init _ st => some st
  | _ => rc) none

/-- The tag is at an epoch of the seed; at the one its counter says, unless a rotation brought the
counter back to 0. -/
def TagOf (env : Env) (st : Store) (log : List Obs) (tag : Tag) : Prop :=
  ∃ d0 sk0 e, SeedIn st d0 sk0 ∧ tag.At env d0 sk0 e ∧ (.rotated 0 ∉ log → e = tag.counter.toNat)

/-- The key of a tag at an epoch of the seed, handed over with its counter after `past`. -/
def GenuineKey (env : Env) (st : Store) (past : List Obs) (key : Bytes pLen) (counter : UInt32) : Prop :=
  lastInit past = some .ok ∧ ∃ d0 sk0 e, SeedIn st d0 sk0 ∧ e % 2 ^ 32 = counter.toNat ∧
    ComputesKey env d0 (epochSk env sk0 e) key ∧ (.rotated 0 ∉ past → e = counter.toNat)

/-- What must hold of an entry of the log. -/
def GenuineEntry (env : Env) (st : Store) (past : List Obs) : Obs → Prop
  | .handed key counter => GenuineKey env st past key counter
  | _ => True

/-- The device's invariant, `st` being the flash content it was provisioned with. -/
structure Genuine (env : Env) (st : Store) (d : Device) : Prop where
  seed : ∀ ns, ns ≠ nvsNamespaceState → d.flash.store ns = st ns
  log : Log.Each (GenuineEntry env st) d.log
  running : d.phase ≠ .off → Idle d.flash ∧ TagOf env st d.log d.tag ∧ lastInit d.log = some .ok

section

variable {env : Env} {st : Store} {d : Device}

theorem blob_congr {st st' : Store} {ns : Name} (h : st ns = st' ns) (n : Nat) (key : Name) :
    st.blob n ns key = st'.blob n ns key := by
  unfold Store.blob Store.get
  rw [h]

theorem TagOf.mono {log l : List Obs} {tag : Tag} (h : TagOf env st log tag) : TagOf env st (log ++ l) tag := by
  obtain ⟨d0, sk0, e, hseed, hat, he⟩ := h
  exact ⟨d0, sk0, e, hseed, hat, fun hn => he fun hm => hn (List.mem_append_left _ hm)⟩

theorem TagOf.next {log : List Obs} {tag tag' : Tag} (h : TagOf env st log tag) (hnext : tag.Next env tag') :
    TagOf env st (log ++ [.rotated tag'.counter]) tag' := by
  obtain ⟨d0, sk0, e, hseed, hat, he⟩ := h
  refine ⟨d0, sk0, e + 1, hseed, hnext.at hat, fun hn => ?_⟩
  have he := he fun hm => hn (List.mem_append_left _ hm)
  have hctr : tag'.counter = tag.counter + 1 := by
    obtain ⟨key, -, rfl⟩ := hnext
    rfl
  have hne : tag.counter + 1 ≠ 0 := by
    intro h0
    rw [hctr, h0] at hn
    exact hn (by simp)
  have hlt := tag.counter.toNat_lt
  have htop : tag.counter.toNat + 1 ≠ 2 ^ 32 := by
    intro ht
    apply hne
    apply UInt32.toNat_inj.1
    rw [UInt32.toNat_add, UInt32.toNat_one, ht]
    rfl
  rw [he, hctr, UInt32.toNat_add, UInt32.toNat_one]
  omega

theorem TagOf.key {log : List Obs} {tag : Tag} (h : TagOf env st log tag) (hinit : lastInit log = some .ok) :
    GenuineKey env st log tag.pCurr tag.counter := by
  obtain ⟨d0, sk0, e, hseed, hat, he⟩ := h
  refine ⟨hinit, d0, sk0, e, hseed, hat.epoch.symm, ?_, he⟩
  rw [← hat.ratchet]
  exact computesKey_of_epochKey hat.key

/-- A function that ran to `d'`, returning or stopping. -/
theorem Genuine.settle {rc : Except Stop Unit} {d' : Device} {phase : Phase}
    (hseed : ∀ ns, ns ≠ nvsNamespaceState → d'.flash.store ns = st ns) (hlog : Log.Each (GenuineEntry env st) d'.log)
    (hrun : rc = .ok () → Idle d'.flash ∧ TagOf env st d'.log d'.tag ∧ lastInit d'.log = some .ok) :
    Genuine env st (.settle phase (rc, d')) := by
  cases rc with
  | error e => exact ⟨hseed, hlog, fun h => absurd rfl h⟩
  | ok _ => exact ⟨hseed, hlog, fun _ => hrun rfl⟩

theorem lastInit_append (l m : List Obs) : lastInit (l ++ m) = m.foldl (fun rc o => match o with
    | .boot => none
    | .init _ st => some st
    | _ => rc) (lastInit l) := List.foldl_append

/-! ## The steps -/

theorem Genuine.boot {cfg : Config} {rc : Except Stop Unit} {d' : Device} (h : Genuine env st d)
    (hboot : BootSpec cfg env d.reset rc d') : Genuine env st (.settle .syncing (rc, d')) := by
  have hseed : ∀ ns, ns ≠ nvsNamespaceState → d'.flash.store ns = st ns := by
    intro ns hns
    rw [hboot.store]
    exact h.seed ns hns
  have hlog : Log.Each (GenuineEntry env st) d.reset.log := Log.each_concat.2 ⟨h.log, trivial⟩
  rcases hboot.ret with ⟨hrc, hl⟩ | ⟨c, -, ⟨hrc, rc', hl⟩ | ⟨-, hl, hidle, hctr, d0, sk0, hd0, hsk0, hat⟩⟩
  · exact .settle hseed (hl ▸ hlog) fun h => absurd h hrc
  · exact .settle hseed (by rw [hl]; exact Log.each_concat.2 ⟨hlog, trivial⟩) fun h => absurd h hrc
  · refine .settle hseed (by rw [hl]; exact Log.each_concat.2 ⟨hlog, trivial⟩) fun _ => ⟨hidle, ?_, ?_⟩
    · refine ⟨d0, sk0, c.toNat, ⟨?_, ?_⟩, hat, fun _ => by rw [hctr]⟩
      · rw [← hd0]; exact blob_congr (h.seed _ nvsNamespace_ne).symm _ _
      · rw [← hsk0]; exact blob_congr (h.seed _ nvsNamespace_ne).symm _ _
    · rw [hl, lastInit_append]
      rfl

theorem Genuine.ready {cfg : Config} {rc : Except Stop Unit} {d' : Device} (h : Genuine env st d)
    (hphase : d.phase = .syncing) (hready : ReadySpec cfg d rc d') : Genuine env st (.settle .ready (rc, d')) := by
  obtain ⟨hidle, htag, hinit⟩ := h.running (by rw [hphase]; decide)
  have hseed : ∀ ns, ns ≠ nvsNamespaceState → d'.flash.store ns = st ns := by
    intro ns hns
    rw [hready.flash]
    exact h.seed ns hns
  rcases hready.log with ⟨hrc, hl⟩ | hl
  · exact .settle hseed (by rw [hl]; exact h.log) fun h => absurd h hrc
  · refine .settle hseed (by rw [hl]; exact Log.each_concat.2 ⟨h.log, htag.key hinit⟩) fun _ => ⟨?_, ?_, ?_⟩
    · rw [hready.flash]; exact hidle
    · rw [hready.tag, hl]; exact htag.mono
    · rw [hl, lastInit_append]; exact hinit

/-- What an `on_rotate` logs, and the tag it leaves. -/
theorem Turn.genuine {cfg : Config} {tag tag' : Tag} {v v' : Option Value} {rc : Except Stop Unit} {l past : List Obs}
    (h : Turn cfg env tag v rc l tag' v') (htag : TagOf env st past tag) (hinit : lastInit past = some .ok) :
    Log.EachFrom (GenuineEntry env st) past l ∧ TagOf env st (past ++ l) tag' ∧ lastInit (past ++ l) = some .ok := by
  have hrotated : ∀ m, tag.Next env tag' → TagOf env st (past ++ .rotated tag'.counter :: m) tag' := by
    intro m hnext
    rw [List.append_cons]
    exact (htag.next hnext).mono
  cases h with
  | cut => exact ⟨trivial, htag.mono, by rw [lastInit_append]; exact hinit⟩
  | failed => exact ⟨⟨htag.key hinit, trivial⟩, htag.mono, by rw [lastInit_append]; exact hinit⟩
  | rotated _ hnext => exact ⟨⟨trivial, trivial⟩, hrotated _ hnext, by rw [lastInit_append]; exact hinit⟩
  | cutSave _ hnext => exact ⟨⟨trivial, trivial, trivial⟩, hrotated _ hnext, by rw [lastInit_append]; exact hinit⟩
  | unsaved _ hnext =>
    refine ⟨⟨trivial, (htag.next hnext).key ?_, trivial⟩, hrotated _ hnext, ?_⟩ <;>
      (rw [lastInit_append]; exact hinit)
  | saved _ hnext =>
    refine ⟨⟨trivial, trivial, (htag.next hnext).mono.key ?_, trivial⟩, hrotated _ hnext, ?_⟩
    · rw [lastInit_append, lastInit_append]; exact hinit
    · rw [lastInit_append]; exact hinit

theorem Genuine.turn {cfg : Config} {rc : Except Stop Unit} {d' : Device} (h : Genuine env st d)
    (hphase : d.phase = .ready) (hturn : TurnSpec cfg env d rc d') : Genuine env st (.settle .ready (rc, d')) := by
  obtain ⟨-, htag, hinit⟩ := h.running (by rw [hphase]; decide)
  obtain ⟨l, hl, ht⟩ := hturn.turn
  obtain ⟨hlog, hrun⟩ := ht.genuine htag hinit
  refine .settle (fun ns hns => (hturn.seed ns hns).trans (h.seed ns hns)) ?_ fun hrc => ⟨hturn.idle hrc, ?_⟩
  · rw [hl]; exact (Log.each_append _ _).2 ⟨h.log, hlog⟩
  · rw [hl]; exact hrun

/-- The step lemma. -/
theorem Genuine.step (cfg : Config) (h : Genuine env st d) (ev : Event) : Genuine env st (d.step cfg env ev) := by
  have heff := step_effect cfg env (fun hon => (h.running hon).1) ev
  generalize d.step cfg env ev = d' at heff ⊢
  cases heff with
  | boot rc d' hboot => exact h.boot hboot
  | sync hphase rc d' hready => exact h.ready hphase hready
  | unsynced => exact h
  | timeout hphase rc d' hturn => exact h.turn hphase hturn
  | unarmed => exact h
  | powerLoss => exact ⟨h.seed, h.log, fun hoff => absurd rfl hoff⟩

/-- The run lemma. -/
theorem Genuine.run (cfg : Config) (h : Genuine env st d) (es : List Event) : Genuine env st (d.run cfg env es) := by
  induction es generalizing d with
  | nil => exact h
  | cons ev es ih => exact ih (h.step cfg ev)

end

theorem genuine_new (env : Env) (store : Store) (flash : Sched Nvs.Fate) (world : World) (radio : Sched EspErr)
    (power : Sched Bool) : Genuine env store (.new store flash world radio power) :=
  ⟨fun _ _ => rfl, Log.each_nil, fun h => absurd rfl h⟩

theorem idle_run (cfg : Config) (env : Env) (store : Store) (flash : Sched Nvs.Fate) (world : World)
    (radio : Sched EspErr) (power : Sched Bool) (es : List Event) :
    let d := (Device.new store flash world radio power).run cfg env es
    d.phase ≠ .off → Idle d.flash :=
  fun hon => (((genuine_new env store flash world radio power).run cfg es).running hon).1

/-- Only genuine keys are advertised: over every run of a device, each key handed to the radio is the
one `crypto_derive_p` computes from the provisioned `d_0` and the ratchet key of an epoch `e`, the
tag's counter being `e` modulo `2^32`; the seed is the one in the flash, with the lengths the firmware
demands, and `tag_init` succeeded in that boot. Without such a seed nothing is advertised. -/
theorem advertises_genuine (cfg : Config) (env : Env) (store : Store) (flash : Sched Nvs.Fate) (world : World)
    (radio : Sched EspErr) (power : Sched Bool) (es : List Event) :
    let d := (Device.new store flash world radio power).run cfg env es
    d.flash.store nvsNamespace = store nvsNamespace ∧
    (∀ key c, .handed key c ∈ d.log → ∃ (d0 : Bytes dLen) (sk0 : Bytes skLen) (e : Nat),
      store.get nvsNamespace nvsKeyD0 = some (.blob d0.val) ∧ store.get nvsNamespace nvsKeySk0 = some (.blob sk0.val) ∧
      e % 2 ^ 32 = c.toNat ∧ ComputesKey env d0 ((updateStep env)^[e] sk0) key) ∧
    (∀ past key c rest, d.log = past ++ .handed key c :: rest → lastInit past = some .ok) ∧
    (((∀ d0 : Bytes dLen, store.get nvsNamespace nvsKeyD0 ≠ some (.blob d0.val)) ∨
      ∀ sk0 : Bytes skLen, store.get nvsNamespace nvsKeySk0 ≠ some (.blob sk0.val)) →
      ∀ key c, .handed key c ∉ d.log) := by
  intro d
  have h : Genuine env store d := (genuine_new env store flash world radio power).run cfg es
  have hkeys : ∀ key c, .handed key c ∈ d.log → ∃ (d0 : Bytes dLen) (sk0 : Bytes skLen) (e : Nat),
      store.get nvsNamespace nvsKeyD0 = some (.blob d0.val) ∧ store.get nvsNamespace nvsKeySk0 = some (.blob sk0.val) ∧
      e % 2 ^ 32 = c.toNat ∧ ComputesKey env d0 ((updateStep env)^[e] sk0) key := by
    intro key c hm
    obtain ⟨past, rest, hl⟩ := List.append_of_mem hm
    obtain ⟨-, d0, sk0, e, hseed, he, hkey, -⟩ := h.log past _ rest hl
    exact ⟨d0, sk0, e, Store.blob_eq_some_iff.1 hseed.1, Store.blob_eq_some_iff.1 hseed.2, he, hkey⟩
  refine ⟨h.seed _ nvsNamespace_ne, hkeys, fun past key c rest hl => (h.log past _ rest hl).1, fun hnone key c hm => ?_⟩
  obtain ⟨d0, sk0, -, hd0, hsk0, -⟩ := hkeys key c hm
  rcases hnone with hnone | hnone
  · exact hnone d0 hd0
  · exact hnone sk0 hsk0

/-- Whatever fails on the sample device, the keys it advertises in the epochs 0, 1 and 2 are the zero
seed's. -/
theorem advertises_genuine_sample :
    (∀ e < 3, .handed (roughKey e) (UInt32.ofNat e) ∈ roughLog) ∧
    (∀ key c, .handed key c ∈ roughLog → ∃ e, e % 2 ^ 32 = c.toNat ∧
      ComputesKey Env.counting (Bytes.zero dLen) ((updateStep Env.counting)^[e] (Bytes.zero skLen)) key) ∧
    ∀ past key c rest, roughLog = past ++ .handed key c :: rest → lastInit past = some .ok := by
  obtain ⟨-, h, hinit, -⟩ := advertises_genuine ⟨true, true⟩ Env.counting zeroStore Device.rough.flash.sched
    Device.rough.world Device.rough.radio Device.rough.power roughEvents
  refine ⟨fun e he => ?_, ?_⟩
  · rw [roughLog_eq]
    interval_cases e <;> simp
  rw [roughLog]
  refine ⟨fun key c hm => ?_, hinit⟩
  obtain ⟨d0, sk0, e, hd0, hsk0, he, hkey⟩ := h key c hm
  rw [zeroStore_get.1] at hd0
  rw [zeroStore_get.2.1] at hsk0
  obtain rfl := Subtype.ext (Value.blob.inj (Option.some.inj hd0))
  obtain rfl := Subtype.ext (Value.blob.inj (Option.some.inj hsk0))
  exact ⟨e, he, hkey⟩

end Esptag
