/-
When the tag keeps a retry pending: from the moment `on_ready` has returned the rotation timer is
armed, whatever fails later, exactly if the radio took the key `on_ready` handed to it. Otherwise the
tag stays dark until the next boot.
-/
import Esptag.Device.Genuine

namespace Esptag

open Octets Crypto Nvs

section

variable {cfg : Config} {env : Env} {d : Device}

/-! ## The steps -/

/-- When the timer is armed: not before `on_ready` arms it, and always after that. -/
structure Pending (d : Device) : Prop where
  syncing : d.phase = .syncing → d.armed = false
  ready : d.phase = .ready → d.armed = true

/-- `on_ready` runs to its end, as power is not lost on the way, and the radio refuses the key. -/
def Refused (d : Device) : Event → Prop
  | .sync => d.phase = .syncing ∧ d.power.All (· = false) 2 ∧ d.radio.now ≠ .ok
  | _ => False

theorem Device.settle_pending {rc : Except Stop Unit} {d' : Device} {phase : Phase}
    (h : rc = .ok () → Pending { d' with phase := phase }) : Pending (.settle phase (rc, d')) := by
  cases rc with
  | error e => exact ⟨fun h => (by cases h), fun h => (by cases h)⟩
  | ok _ => exact h rfl

/-- The step lemma. -/
theorem Pending.step (hcfg : cfg.rotateEnable = true) (h : Pending d) (hidle : d.phase ≠ .off → Idle d.flash)
    {ev : Event} (hev : ¬ Refused d ev) : Pending (d.step cfg env ev) := by
  have heff := step_effect cfg env hidle ev
  generalize d.step cfg env ev = d' at heff ⊢
  cases heff with
  | boot rc d' hboot => exact Device.settle_pending fun _ => ⟨fun _ => hboot.armed, fun h => (by cases h)⟩
  | sync hphase rc d' hready =>
    refine Device.settle_pending fun hrc => ⟨fun h => (by cases h), fun _ => (hready.armed hrc).2 (.inl ⟨?_, hcfg⟩)⟩
    by_contra hradio
    exact hev ⟨hphase, hready.returns.1 hrc, hradio⟩
  | unsynced => exact h
  | timeout _ rc d' hturn =>
    exact Device.settle_pending fun hrc => ⟨fun h => (by cases h), fun _ => hturn.armed hrc⟩
  | unarmed => exact h
  | powerLoss => exact ⟨fun h => (by cases h), fun h => (by cases h)⟩

/-- The ready callback that the radio refuses leaves the timer unarmed. -/
theorem Refused.step (cfg : Config) (env : Env) (h : Pending d) (hidle : d.phase ≠ .off → Idle d.flash) {ev : Event}
    (hev : Refused d ev) : (d.step cfg env ev).phase = .ready ∧ (d.step cfg env ev).armed = false := by
  have heff := step_effect cfg env hidle ev
  generalize d.step cfg env ev = d' at heff ⊢
  cases heff with
  | sync hphase rc d' hready =>
    obtain ⟨-, hpower, hradio⟩ := hev
    obtain rfl : rc = .ok () := hready.returns.2 hpower
    refine ⟨rfl, ?_⟩
    have hiff := hready.armed rfl
    rw [h.syncing hphase] at hiff
    simp only [hradio, false_and, Bool.false_eq_true, or_self, iff_false, Bool.not_eq_true] at hiff
    exact hiff
  | unsynced hphase => exact absurd hev.1 hphase
  | boot => exact hev.elim
  | timeout => exact hev.elim
  | unarmed => exact hev.elim
  | powerLoss => exact hev.elim

/-- The run lemma: as long as no ready callback is refused. -/
theorem pending_run (hcfg : cfg.rotateEnable = true) (store : Store) (flash : Sched Nvs.Fate) (world : World)
    (radio : Sched EspErr) (power : Sched Bool) {es : List Event}
    (hes : ∀ pre ev, pre ++ [ev] <+: es → Pending ((Device.new store flash world radio power).run cfg env pre) →
      ¬ Refused ((Device.new store flash world radio power).run cfg env pre) ev) :
    ∀ pre, pre <+: es → Pending ((Device.new store flash world radio power).run cfg env pre) := by
  intro pre
  induction pre using List.reverseRecOn with
  | nil => exact fun _ => ⟨fun h => (by cases h), fun h => (by cases h)⟩
  | append_singleton pre ev ih =>
    intro hpre
    have hp := ih ((List.prefix_append pre [ev]).trans hpre)
    rw [run_concat]
    exact hp.step hcfg (idle_run cfg env store flash world radio power pre) (hes pre ev hpre hp)

/-- After a refused ready callback the timer never expires. -/
theorem run_timeouts (harmed : d.armed = false) : ∀ n, d.run cfg env (List.replicate n .timeout) = d
  | 0 => rfl
  | n + 1 => by
    have hstep : d.step cfg env .timeout = d := if_neg fun h => by rw [harmed] at h; cases h.2
    rw [List.replicate_succ', run_concat, run_timeouts harmed n, hstep]

end

/-- The retry is always pending, over a run and everything it goes through, exactly if the radio takes
the key in every ready callback that runs to its end: whenever `on_ready` has returned, and after any
number of timer expiries whatever fails in them, the timer is armed. -/
theorem armed_iff (cfg : Config) (env : Env) (store : Store) (flash : Sched Nvs.Fate) (world : World)
    (radio : Sched EspErr) (power : Sched Bool) (es : List Event) (hcfg : cfg.rotateEnable = true) :
    let run := (Device.new store flash world radio power).run cfg env
    (∀ pre, pre <+: es → (run pre).phase = .ready → (run pre).armed = true) ↔
      ∀ pre, pre ++ [.sync] <+: es → (run pre).phase = .syncing → (run pre).power.All (· = false) 2 →
        (run pre).radio.now = .ok := by
  intro run
  constructor
  · intro h
    have hnone : ∀ pre ev, pre ++ [ev] <+: es → Pending (run pre) → ¬ Refused (run pre) ev := by
      intro pre ev hpre hp href
      have hdark := href.step cfg env hp (idle_run cfg env store flash world radio power pre)
      rw [← run_concat] at hdark
      have harmed := h _ hpre hdark.1
      rw [hdark.2] at harmed
      cases harmed
    intro pre hpre hphase hpower
    by_contra hradio
    have hp := pending_run hcfg store flash world radio power hnone pre ((List.prefix_append pre [.sync]).trans hpre)
    exact hnone pre .sync hpre hp ⟨hphase, hpower, hradio⟩
  · intro h pre hpre
    refine (pending_run hcfg store flash world radio power (fun pre ev hpre _ href => ?_) pre hpre).ready
    cases ev with
    | sync => exact href.2.2 (h pre hpre href.1 href.2.1)
    | boot => exact href
    | timeout => exact href
    | powerLoss => exact href

/-- The radio of the sample device takes the key in all three ready callbacks, if not in every
rotation: the timer is armed whenever it waits for it, also after the rotation that failed and the key
that was refused. -/
theorem armed_iff_sample :
    let run := Device.rough.run ⟨true, true⟩ Env.counting
    (∀ n ∈ [3, 4, 5, 8, 9, 12], (run (roughEvents.take n)).phase = .ready) ∧
      ∀ pre, pre <+: roughEvents → (run pre).phase = .ready → (run pre).armed = true := by
  intro run
  have hsync : ∀ n < 12, roughEvents[n]? = some .sync → (run (roughEvents.take n)).radio.now = .ok := by decide +kernel
  refine ⟨by decide +kernel, (armed_iff ⟨true, true⟩ Env.counting zeroStore Device.rough.flash.sched Device.rough.world
    Device.rough.radio Device.rough.power roughEvents rfl).2 ?_⟩
  rintro pre ⟨rest, hrest⟩ - -
  have hlen : pre.length < 12 := by
    have := congrArg List.length hrest
    simp [roughEvents] at this
    omega
  have hpre : roughEvents.take pre.length = pre := by rw [← hrest, List.append_assoc, List.take_left]
  have hev : roughEvents[pre.length]? = some .sync := by rw [← hrest, List.append_assoc]; simp
  have h := hsync pre.length hlen hev
  rwa [hpre] at h

/-- One refusal by the radio in the ready callback leaves the tag dark: the timer is not armed, and as
it never expires, nothing arms it. -/
theorem dark_after_refusal :
    let d := (Device.sample fun i => if i = 1 then .fail 0 else .ok).run ⟨true, true⟩ Env.counting [.boot, .sync]
    d.phase = .ready ∧ d.armed = false ∧ ∀ n, d.run ⟨true, true⟩ Env.counting (List.replicate n .timeout) = d := by
  intro d
  obtain ⟨hready, harmed, -⟩ := run_boot_sync (sound_sample ⟨true, true⟩ (fun i => if i = 1 then .fail 0 else .ok) rfl)
  have hdark : d.armed = false := by
    rw [← Bool.not_eq_true]
    intro h
    exact absurd (harmed.1 h).1 (by decide)
  exact ⟨hready, hdark, run_timeouts hdark⟩

end Esptag
