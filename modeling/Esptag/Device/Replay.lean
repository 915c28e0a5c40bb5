/-
No identity is replayed across losses of power: every boot resumes from the last save that took
effect, and as long as no save reports a failure, the device follows the protocol of a checkpointed
value, so that the epochs it advertises start at 0 and never go back or skip one.
-/
import Esptag.Device.Genuine
import Esptag.Nvs.Register
import Esptag.Lib.Checkpoint

namespace Esptag

open Octets Crypto Nvs

/-! ## What the log says -/

/-- The counters of the saves that took effect, in order. -/
def storedSaves (l : List Obs) : List UInt32 := l.filterMap fun
  | .saved c _ true => some c
  | _ => none

/-- The counter of the last save that took effect, 0 if there is none. -/
def lastSaved (l : List Obs) : UInt32 := (storedSaves l).getLast?.getD 0

/-- The epochs whose keys were handed to the radio, in order. -/
def epochs (l : List Obs) : List Nat := l.filterMap fun
  | .handed _ c => some c.toNat
  | _ => none

/-! ## Resuming -/

/-- What must hold of an entry of the log: a boot resumes from the last save that took effect. -/
def ResumesEntry (past : List Obs) : Obs → Prop
  | .init c _ => c = lastSaved past
  | _ => True

/-- The flash holds the last save that took effect, and the boots so far resumed from it. -/
structure Ledger (d : Device) : Prop where
  counter : d.flash.counter = register none (storedSaves d.log)
  log : Log.Each ResumesEntry d.log

section

variable {cfg : Config} {env : Env} {d : Device}

theorem storedSaves_append (l m : List Obs) : storedSaves (l ++ m) = storedSaves l ++ storedSaves m :=
  List.filterMap_append

theorem Ledger.starts (hcfg : cfg.persistCounter = true) (h : Ledger d) {c : UInt32} (hc : StartsFrom cfg d.flash c) :
    c = lastSaved d.log := by
  unfold StartsFrom at hc
  rw [if_pos hcfg, h.counter] at hc
  unfold lastSaved
  cases hl : (storedSaves d.log).getLast? with
  | none => simpa [register, hl] using hc
  | some v => simpa [register, hl, eq_comm] using hc

/-- What the saves of an `on_rotate` make of the counter in the flash. -/
theorem Turn.ledger {tag tag' : Tag} {v v' : Option Value} {rc : Except Stop Unit} {l : List Obs}
    (h : Turn cfg env tag v rc l tag' v') :
    v' = register v (storedSaves l) ∧ ∀ past, Log.EachFrom ResumesEntry past l := by
  cases h with
  | cut => exact ⟨rfl, fun _ => trivial⟩
  | failed => exact ⟨rfl, fun _ => ⟨trivial, trivial⟩⟩
  | rotated => exact ⟨rfl, fun _ => ⟨trivial, trivial⟩⟩
  | cutSave _ _ _ stored => exact ⟨by cases stored <;> rfl, fun _ => ⟨trivial, trivial, trivial⟩⟩
  | unsaved => exact ⟨rfl, fun _ => ⟨trivial, trivial, trivial⟩⟩
  | saved _ _ _ stored => exact ⟨by cases stored <;> rfl, fun _ => ⟨trivial, trivial, trivial, trivial⟩⟩

theorem Device.settle_ledger {r : Except Stop Unit × Device} {phase : Phase} (h : Ledger r.2) :
    Ledger (.settle phase r) := by
  obtain ⟨_ | _, d'⟩ := r <;> exact ⟨h.counter, h.log⟩

/-- A boot writes nothing, and `tag_init` is called with the counter it read. -/
theorem Ledger.boot (hcfg : cfg.persistCounter = true) (h : Ledger d) {rc : Except Stop Unit} {d' : Device}
    (hboot : BootSpec cfg env d.reset rc d') : Ledger d' := by
  have hcounter : d'.flash.counter = register none (storedSaves d.log) := by
    rw [Flash.counter, hboot.store]
    exact h.counter
  have hlog : Log.Each ResumesEntry d.reset.log := Log.each_concat.2 ⟨h.log, trivial⟩
  have hsaves : storedSaves d.reset.log = storedSaves d.log := (storedSaves_append _ _).trans (List.append_nil _)
  have hinit : ∀ c st, StartsFrom cfg d.reset.flash c → d'.log = d.reset.log ++ [.init c st] → Ledger d' := by
    intro c st hc hl
    have hlast : c = lastSaved d.reset.log := by
      rw [lastSaved, hsaves]
      exact h.starts hcfg hc
    refine ⟨?_, by rw [hl]; exact Log.each_concat.2 ⟨hlog, hlast⟩⟩
    rw [hcounter, hl, storedSaves_append, hsaves]
    exact congrArg _ (List.append_nil _).symm
  rcases hboot.ret with ⟨-, hl⟩ | ⟨c, hc, ⟨-, st, hl⟩ | ⟨-, hl, -⟩⟩
  · exact ⟨by rw [hcounter, hl, hsaves], by rw [hl]; exact hlog⟩
  · exact hinit c st hc hl
  · exact hinit c .ok hc hl

/-- The step lemma. -/
theorem Ledger.step (hcfg : cfg.persistCounter = true) (h : Ledger d) (hidle : d.phase ≠ .off → Idle d.flash)
    (ev : Event) : Ledger (d.step cfg env ev) := by
  have heff := step_effect cfg env hidle ev
  generalize d.step cfg env ev = d' at heff ⊢
  cases heff with
  | boot rc d' hboot => exact Device.settle_ledger (h.boot hcfg hboot)
  | sync _ rc d' hready =>
    apply Device.settle_ledger
    rcases hready.log with ⟨-, hl⟩ | hl
    · exact ⟨by rw [hready.flash, hl]; exact h.counter, by rw [hl]; exact h.log⟩
    · refine ⟨?_, by rw [hl]; exact Log.each_concat.2 ⟨h.log, trivial⟩⟩
      rw [hready.flash, hl, storedSaves_append, h.counter]
      exact congrArg _ (List.append_nil _).symm
  | unsynced => exact h
  | timeout _ rc d' hturn =>
    apply Device.settle_ledger
    obtain ⟨l, hl, ht⟩ := hturn.turn
    obtain ⟨hv, hlog⟩ := ht.ledger
    refine ⟨?_, by rw [hl]; exact (Log.each_append _ _).2 ⟨h.log, hlog _⟩⟩
    rw [hv, hl, storedSaves_append, ← register_append]
    exact congrArg (register · _) h.counter
  | unarmed => exact h
  | powerLoss => exact ⟨h.counter, h.log⟩

end

/-! ## The device as the owner of a checkpointed counter -/

/-- An entry of the log as a step of the protocol. -/
def Obs.action : Obs → Checkpoint.Action UInt32
  | .boot => .restart
  | .init c _ => .resume c
  | .rotated c => .advance c
  | .saved c _ stored => .save c stored
  | .handed _ c => .publish c

/-- A save reported a failure. -/
def SaveFailed (l : List Obs) : Prop := ∃ c stored, .saved c (some .err) stored ∈ l

/-- The device follows the protocol, which has come to `s`. -/
structure Follows (cfg : Config) (d : Device) (s : Checkpoint.State UInt32) : Prop where
  run : Checkpoint.Run (· + 1) 0 (d.log.map Obs.action) s
  stored : StartsFrom cfg d.flash s.stored
  syncing : d.phase = .syncing → s.mode = .saved ∧ d.tag.counter = s.stored
  ready : d.phase = .ready → s.mode = .published ∧ d.tag.counter = s.stored

section

variable {cfg : Config} {env : Env} {d : Device} {s : Checkpoint.State UInt32}

theorem run_map {l : List Obs} {o : Obs} {s s' : Checkpoint.State UInt32}
    (h : Checkpoint.Run (· + 1) 0 (l.map Obs.action) s) (hs : Checkpoint.Step (· + 1) s o.action s') :
    Checkpoint.Run (· + 1) 0 ((l ++ [o]).map Obs.action) s' := by
  rw [List.map_append]
  exact h.step hs

/-- A function that stopped. -/
theorem Follows.stop {rc : Except Stop Unit} {d' : Device} {phase : Phase} (hrc : rc ≠ .ok ())
    (hrun : Checkpoint.Run (· + 1) 0 (d'.log.map Obs.action) s) (hstored : StartsFrom cfg d'.flash s.stored) :
    Follows cfg (.settle phase (rc, d')) s := by
  cases rc with
  | ok _ => exact absurd rfl hrc
  | error e => exact ⟨hrun, hstored, fun h => (by cases h), fun h => (by cases h)⟩

theorem Follows.boot {rc : Except Stop Unit} {d' : Device} (h : Follows cfg d s)
    (hboot : BootSpec cfg env d.reset rc d') : ∃ s', Follows cfg (.settle .syncing (rc, d')) s' := by
  have hdown : Checkpoint.Run (· + 1) 0 (d.reset.log.map Obs.action) ⟨s.stored, .down⟩ := run_map h.run (.restart s)
  have hunique : ∀ c, StartsFrom cfg d.reset.flash c → c = s.stored := fun c hc => hc.unique h.stored
  have hstored : StartsFrom cfg d'.flash s.stored := by
    rw [StartsFrom, Flash.counter, hboot.store]
    exact h.stored
  rcases hboot.ret with ⟨hrc, hl⟩ | ⟨c, hc, ⟨hrc, st, hl⟩ | ⟨hrc, hl, -, hctr, -⟩⟩
  · exact ⟨⟨s.stored, .down⟩, .stop hrc (by rw [hl]; exact hdown) hstored⟩
  · obtain rfl := hunique c hc
    exact ⟨⟨s.stored, .saved⟩, .stop hrc (by rw [hl]; exact run_map hdown (.resume _)) hstored⟩
  · obtain rfl := hunique c hc
    subst hrc
    have hrun : Checkpoint.Run (· + 1) 0 (d'.log.map Obs.action) ⟨s.stored, .saved⟩ := by
      rw [hl]
      exact run_map hdown (.resume _)
    exact ⟨⟨s.stored, .saved⟩, hrun, hstored, fun _ => ⟨rfl, hctr⟩, fun h => (by cases h)⟩

theorem Follows.sync {rc : Except Stop Unit} {d' : Device} (h : Follows cfg d s) (hphase : d.phase = .syncing)
    (hready : ReadySpec cfg d rc d') : ∃ s', Follows cfg (.settle .ready (rc, d')) s' := by
  obtain ⟨hmode, hctr⟩ := h.syncing hphase
  have hstored : StartsFrom cfg d'.flash s.stored := by
    rw [hready.flash]
    exact h.stored
  rcases hready.log with ⟨hrc, hl⟩ | hl
  · exact ⟨s, .stop hrc (by rw [hl]; exact h.run) hstored⟩
  · obtain ⟨v, m⟩ := s
    simp only at hmode hctr hstored
    subst hmode
    have hrun : Checkpoint.Run (· + 1) 0 (d'.log.map Obs.action) ⟨v, .published⟩ := by
      rw [hl]
      refine run_map h.run ?_
      rw [← hctr]
      exact .publish _
    refine ⟨⟨v, .published⟩, ?_⟩
    cases rc with
    | error e => exact .stop (by simp) hrun hstored
    | ok _ => exact ⟨hrun, hstored, fun h => (by cases h), fun _ => ⟨rfl, by rw [← hctr, ← hready.tag]; rfl⟩⟩

/-- What an `on_rotate` logs, as steps of the protocol, unless a save reports a failure. -/
theorem Turn.follows (hcfg : cfg.persistCounter = true) {tag tag' : Tag} {v v' : Option Value} {rc : Except Stop Unit}
    {l past : List Obs} (h : Turn cfg env tag v rc l tag' v') (hfail : ¬ SaveFailed l)
    (hrun : Checkpoint.Run (· + 1) 0 (past.map Obs.action) ⟨tag.counter, .published⟩)
    (hv : (v = none ∧ tag.counter = 0) ∨ v = some (.u32 tag.counter)) :
    ∃ s', Checkpoint.Run (· + 1) 0 ((past ++ l).map Obs.action) s' ∧
      ((v' = none ∧ s'.stored = 0) ∨ v' = some (.u32 s'.stored)) ∧
      (rc = .ok () → s'.mode = .published ∧ tag'.counter = s'.stored) := by
  have hadvance : tag.Next env tag' →
      Checkpoint.Run (· + 1) 0 ((past ++ [Obs.rotated tag'.counter]).map Obs.action) ⟨tag.counter, .advanced⟩ := by
    rintro ⟨key, -, rfl⟩
    exact run_map hrun (.advance _)
  cases h with
  | cut => exact ⟨⟨tag.counter, .published⟩, by rw [List.append_nil]; exact hrun, hv, fun h => (by cases h)⟩
  | failed => exact ⟨⟨tag.counter, .published⟩, run_map hrun (.again _), hv, fun _ => ⟨rfl, rfl⟩⟩
  | rotated _ hnext => exact ⟨⟨tag.counter, .advanced⟩, hadvance hnext, hv, fun h => (by cases h)⟩
  | unsaved _ _ hcfg' => rw [hcfg] at hcfg'; cases hcfg'
  | cutSave _ hnext st stored =>
    have hrun := hadvance hnext
    obtain ⟨key, -, rfl⟩ := hnext
    rw [List.append_cons]
    cases stored with
    | true => exact ⟨⟨tag.counter + 1, .saved⟩, run_map hrun (.save _), .inr rfl, fun h => (by cases h)⟩
    | false => exact ⟨⟨tag.counter, .down⟩, run_map hrun (.lose _), hv, fun h => (by cases h)⟩
  | saved _ hnext st stored hst =>
    have hrun := hadvance hnext
    obtain rfl : st = .ok := by
      cases st with
      | ok => rfl
      | err => exact absurd ⟨tag'.counter, stored, by simp⟩ hfail
    obtain rfl := hst rfl
    obtain ⟨key, -, rfl⟩ := hnext
    rw [List.append_cons, List.append_cons]
    exact ⟨⟨tag.counter + 1, .published⟩, run_map (run_map hrun (.save _)) (.publish _), .inr rfl, fun _ => ⟨rfl, rfl⟩⟩

theorem Follows.timeout (hcfg : cfg.persistCounter = true) {rc : Except Stop Unit} {d' : Device} (h : Follows cfg d s)
    (hphase : d.phase = .ready) (hturn : TurnSpec cfg env d rc d') (hfail : ¬ SaveFailed d'.log) :
    ∃ s', Follows cfg (.settle .ready (rc, d')) s' := by
  obtain ⟨hmode, hctr⟩ := h.ready hphase
  obtain ⟨l, hl, ht⟩ := hturn.turn
  have hok : ¬ SaveFailed l := fun ⟨c, stored, hm⟩ => hfail ⟨c, stored, by rw [hl]; exact List.mem_append_right _ hm⟩
  obtain ⟨v, m⟩ := s
  simp only at hmode hctr
  subst hmode hctr
  have hstored := h.stored
  unfold StartsFrom at hstored
  rw [if_pos hcfg] at hstored
  obtain ⟨s', hrun, hstored', hret⟩ := ht.follows hcfg hok h.run hstored
  rw [← hl] at hrun
  have hflash : StartsFrom cfg d'.flash s'.stored := by
    unfold StartsFrom
    rw [if_pos hcfg]
    exact hstored'
  refine ⟨s', ?_⟩
  cases rc with
  | error e => exact .stop (by simp) hrun hflash
  | ok _ => exact ⟨hrun, hflash, fun h => (by cases h), fun _ => hret rfl⟩

/-- The step lemma. -/
theorem Follows.step (hcfg : cfg.persistCounter = true) (h : Follows cfg d s) (hidle : d.phase ≠ .off → Idle d.flash)
    (ev : Event) (hfail : ¬ SaveFailed (d.step cfg env ev).log) : ∃ s', Follows cfg (d.step cfg env ev) s' := by
  have heff := step_effect cfg env hidle ev
  generalize d.step cfg env ev = d' at heff hfail ⊢
  cases heff with
  | boot rc d' hboot => exact h.boot hboot
  | sync hphase rc d' hready => exact h.sync hphase hready
  | unsynced => exact ⟨s, h⟩
  | timeout hphase rc d' hturn =>
    rw [settle_log] at hfail
    exact h.timeout hcfg hphase hturn hfail
  | unarmed => exact ⟨s, h⟩
  | powerLoss => exact ⟨s, h.run, h.stored, fun h => (by cases h), fun h => (by cases h)⟩

end

/-! ## No replay -/

/-- The run lemma. -/
theorem follows_run {cfg : Config} (hcfg : cfg.persistCounter = true) (env : Env) {store : Store}
    (hfresh : store nvsNamespaceState = none) (flash : Sched Nvs.Fate) (world : World) (radio : Sched EspErr)
    (power : Sched Bool) (es : List Event) :
    let d := (Device.new store flash world radio power).run cfg env es
    Ledger d ∧ (¬ SaveFailed d.log → ∃ s, Follows cfg d s) := by
  induction es using List.reverseRecOn with
  | nil =>
    have hnone : store.get nvsNamespaceState nvsKeyCounter = none := by rw [Store.get, hfresh]; rfl
    refine ⟨⟨hnone, Log.each_nil⟩, fun _ => ⟨⟨0, .down⟩, .start, ?_, fun h => (by cases h), fun h => (by cases h)⟩⟩
    unfold StartsFrom
    rw [if_pos hcfg]
    exact .inl ⟨hnone, rfl⟩
  | append_singleton es ev ih =>
    have hidle := idle_run cfg env store flash world radio power es
    generalize hd : (Device.new store flash world radio power).run cfg env es = d at ih hidle
    intro d'
    rw [show d' = d.step cfg env ev from (run_concat es ev).trans (by rw [hd])]
    refine ⟨ih.1.step hcfg hidle ev, fun hfail => ?_⟩
    have hbefore : ¬ SaveFailed d.log := by
      rintro ⟨c, stored, hm⟩
      exact hfail ⟨c, stored, (log_prefix_step hidle ev).subset hm⟩
    obtain ⟨s, hs⟩ := ih.2 hbefore
    exact hs.step hcfg hidle ev hfail

theorem toNat_succ_of_lt {a : UInt32} (h : a.toNat + 1 < 2 ^ 32) : (a + 1).toNat = a.toNat + 1 := by
  rw [UInt32.toNat_add, UInt32.toNat_one]
  exact Nat.mod_eq_of_lt h

theorem toNat_succ (a : UInt32) : (a + 1).toNat = a.toNat + 1 ∨ (a + 1).toNat = 0 := by
  have hlt := a.toNat_lt
  rw [UInt32.toNat_add, UInt32.toNat_one]
  omega

theorem epochs_eq (l : List Obs) : epochs l = (Checkpoint.published (l.map Obs.action)).map UInt32.toNat := by
  induction l with
  | nil => rfl
  | cons o l ih => cases o <;> simp_all [epochs, Checkpoint.published, Obs.action]

/-- No identity is replayed: in every run of a freshly provisioned device, with boots, timer expiries,
failures and losses of power at any point, each `tag_init` is called with the counter of the last save
that took effect, 0 if there is none. If no save reports a failure, and fewer than `2^32` epochs are
advertised, the counter an advertised key goes with is its epoch, and these epochs start at 0, never
decrease and never skip one. -/
theorem no_replay (cfg : Config) (env : Env) (hcfg : cfg.persistCounter = true) (d0 : Bytes dLen) (sk0 : Bytes skLen)
    (store : Store) (hd0 : store.get nvsNamespace nvsKeyD0 = some (.blob d0.val))
    (hsk0 : store.get nvsNamespace nvsKeySk0 = some (.blob sk0.val)) (hfresh : store nvsNamespaceState = none)
    (flash : Sched Nvs.Fate) (world : World) (radio : Sched EspErr) (power : Sched Bool) (es : List Event) :
    let log := ((Device.new store flash world radio power).run cfg env es).log
    (∀ past c st rest, log = past ++ .init c st :: rest → c = lastSaved past) ∧
    ((∀ c stored, .saved c (some .err) stored ∉ log) → (epochs log).toFinset.card < 2 ^ 32 →
      (∀ key c, .handed key c ∈ log → ComputesKey env d0 ((updateStep env)^[c.toNat] sk0) key) ∧
      (∀ e, (epochs log).head? = some e → e = 0) ∧
      (epochs log).IsChain fun e e' => e ≤ e' ∧ e' ≤ e + 1) := by
  intro log
  obtain ⟨hledger, hfollows⟩ := follows_run hcfg env hfresh flash world radio power es
  have hgen := (genuine_new env store flash world radio power).run cfg es
  refine ⟨fun past c st rest hl => hledger.log past _ rest hl, fun hfail hcard => ?_⟩
  obtain ⟨s, hs⟩ := hfollows fun ⟨c, stored, hm⟩ => hfail c stored hm
  have hinv := hs.run.inv
  rw [epochs_eq] at hcard ⊢
  have hlt := hinv.gapless.lt_top (f := UInt32.toNat) toNat_succ (fun a ha => by rw [hinv.first a ha]; rfl) hcard
  have hwrap : .rotated 0 ∉ log := by
    intro hm
    obtain ⟨a, ha, h0⟩ := hinv.advances 0 (List.mem_map.2 ⟨_, hm, rfl⟩)
    have hne := toNat_succ_of_lt (hlt a ha)
    rw [← h0] at hne
    cases hne
  refine ⟨fun key c hm => ?_, fun e he => ?_, hinv.gapless.map_isChain fun a ha => toNat_succ_of_lt (hlt a ha)⟩
  · obtain ⟨past, rest, hl⟩ := List.append_of_mem hm
    obtain ⟨-, d0', sk0', e, hseed, -, hkey, he⟩ := hgen.log past _ rest hl
    obtain rfl : d0' = d0 := Option.some.inj (hseed.1.symm.trans (Store.blob_eq_some_iff.2 hd0))
    obtain rfl : sk0' = sk0 := Option.some.inj (hseed.2.symm.trans (Store.blob_eq_some_iff.2 hsk0))
    obtain rfl := he fun hp => hwrap (by rw [show log = _ from hl]; exact List.mem_append_left _ hp)
    exact hkey
  · rw [List.head?_map] at he
    cases hl : (Checkpoint.published (log.map Obs.action)).head? with
    | none => rw [hl] at he; cases he
    | some a =>
      rw [hl, hinv.first a hl] at he
      exact (Option.some.inj he).symm

/-- Over a boot that fails, a rotation that fails and one that power is lost in before its counter is
saved, the epochs on the air are 0, 1 three times and 2 twice; each boot resumes from the last save. -/
theorem no_replay_sample :
    epochs roughLog = [0, 1, 1, 1, 2, 2] ∧
    (∀ past c st rest, roughLog = past ++ .init c st :: rest → c = lastSaved past) ∧
    (∀ key c, .handed key c ∈ roughLog →
      ComputesKey Env.counting (Bytes.zero dLen) ((updateStep Env.counting)^[c.toNat] (Bytes.zero skLen)) key) ∧
    (∀ e, (epochs roughLog).head? = some e → e = 0) ∧
    (epochs roughLog).IsChain fun e e' => e ≤ e' ∧ e' ≤ e + 1 := by
  have hfresh : zeroStore nvsNamespaceState = none := by decide
  have hepochs : epochs roughLog = [0, 1, 1, 1, 2, 2] := by rw [roughLog_eq]; rfl
  have hsaved : ∀ c stored, .saved c (some .err) stored ∉ roughLog := by rw [roughLog_eq]; simp
  have hcard : (epochs roughLog).toFinset.card < 2 ^ 32 := by rw [hepochs]; decide
  refine ⟨hepochs, ?_⟩
  rw [roughLog] at hsaved hcard ⊢
  obtain ⟨hresume, h⟩ := no_replay ⟨true, true⟩ Env.counting rfl (Bytes.zero dLen) (Bytes.zero skLen) zeroStore
    zeroStore_get.1 zeroStore_get.2.1 hfresh Device.rough.flash.sched Device.rough.world Device.rough.radio
    Device.rough.power roughEvents
  exact ⟨hresume, h hsaved hcard⟩

end Esptag
