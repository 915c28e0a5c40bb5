/-
Resuming from the counter: `tag_init` at the counter of a live tag rebuilds it, as long as the
counter did not wrap. `tag->counter++` has no guard at the top of its range, and `tag_init` then
starts the ratchet over while the live tag goes on.
-/
import Esptag.Tag.Run

namespace Esptag

open Octets Crypto

/-- `tag_init` at the counter of `tag`, on the same seed and with no primitive failing, gives the
ratchet key and the advertising key of `tag`. -/
def Resumes (env : Env) (tag : Tag) : Prop :=
  ∀ (blank : Tag) (w : World), blank.d0 = tag.d0 → blank.sk0 = tag.sk0 → w.Faultless →
    let r := (tagInit env blank tag.counter).run w
    r.1.1 = .ok ∧ r.1.2.skCurr = tag.skCurr ∧ r.1.2.pCurr = tag.pCurr

/-- A tag is resumed from its counter exactly when the counter, which is the epoch modulo `2^32`,
leads to the epoch's key. -/
theorem resumes_iff {env : Env} {d0 : Bytes dLen} {sk0 : Bytes skLen} {e : Nat} {tag : Tag}
    (h : tag.At env d0 sk0 e) : Resumes env tag ↔ epochSk env sk0 (e % 2 ^ 32) = epochSk env sk0 e := by
  constructor
  · intro hres
    obtain ⟨hok, hsk, -⟩ := hres tag World.start rfl rfl World.start_faultless
    rcases (tagInit_spec env tag tag.counter World.start).ret with ⟨-, -, hat⟩ | ⟨herr, -⟩
    · rw [← h.epoch, ← h.seedSk, ← hat.ratchet, hsk, h.ratchet, h.seedSk]
    · rw [hok] at herr; cases herr
  · intro heq blank w hd hs hw r
    have hsk : epochSk env blank.sk0 tag.counter.toNat = tag.skCurr := by
      rw [hs, h.seedSk, h.epoch, heq, h.ratchet]
    rcases (tagInit_spec env blank tag.counter w).ret with ⟨hok, -, hat⟩ | ⟨-, -, -, herr⟩
    · have hcurr : r.1.2.skCurr = tag.skCurr := by rw [hat.ratchet, hsk]
      refine ⟨hok, hcurr, ?_⟩
      have hkey := hat.key
      rw [hcurr, hd, h.seedD, h.key] at hkey
      exact (Option.some.inj hkey).symm
    · rcases herr with herr | herr
      · exact absurd (hw.good _) herr
      · rw [hsk, hd, h.seedD, h.key] at herr; cases herr

/-- The step from `tag` does not wrap the counter: a rotation that gets through is not made at the
top of the range. -/
def BelowTop (env : Env) (tag : Tag) (w : World) : Prop := Rotates env tag w → tag.counter.toNat + 1 < 2 ^ 32

/-- While no step wraps the counter, it counts the epochs. -/
theorem rotateTimes_lt {env : Env} {d0 : Bytes dLen} {sk0 : Bytes skLen} {e : Nat} {tag : Tag}
    (h : tag.At env d0 sk0 e) (he : e < 2 ^ 32) (w : World) : ∀ n,
      (∀ j < n, let s := (rotateTimes env tag j).run w
        BelowTop env s.1.2 s.2) →
      e + ((rotateTimes env tag n).run w).1.1.count .ok < 2 ^ 32
  | 0, _ => he
  | n + 1, hstep => by
    have ih := rotateTimes_lt h he w n fun j hj => hstep j (by omega)
    have hat := rotateTimes_at h w n
    have hbelow := hstep n (by omega)
    rw [run_rotateTimes_succ]
    generalize (rotateTimes env tag n).run w = r at ih hat hbelow ⊢
    have hrot := tagRotate_ok_iff env r.1.2 r.2
    generalize (tagRotate env r.1.2).run r.2 = s at hrot ⊢
    simp only [List.count_append]
    cases hrc : s.1.1 with
    | ok =>
      have hlt := hbelow (hrot.1 hrc)
      rw [hat.epoch, Nat.mod_eq_of_lt ih] at hlt
      exact hlt
    | err => exact ih

/-- After `tag_init` at `c` and any rotations: while no step wraps the counter, every state reached
is resumed from its counter; and at any later state it is exactly when the ratchet leads to the
same key in `c + k` steps, `k` of the rotations having succeeded, as in that number modulo `2^32`. -/
theorem tagInit_resumes (env : Env) (tag : Tag) (c : UInt32) (w : World)
    (hinit : ((tagInit env tag c).run w).1.1 = .ok) :
    let i := (tagInit env tag c).run w
    let run n := (rotateTimes env i.1.2 n).run i.2
    (∀ n, (∀ j < n, BelowTop env (run j).1.2 (run j).2) → Resumes env (run n).1.2) ∧
    (∀ n, let k := (run n).1.1.count .ok
      Resumes env (run n).1.2 ↔ epochSk env tag.sk0 ((c.toNat + k) % 2 ^ 32) = epochSk env tag.sk0 (c.toNat + k)) := by
  intro i run
  have hat : i.1.2.At env tag.d0 tag.sk0 c.toNat := tagInit_at hinit
  refine ⟨fun n hstep => ?_, fun n => resumes_iff (rotateTimes_at hat i.2 n)⟩
  rw [resumes_iff (rotateTimes_at hat i.2 n)]
  rw [Nat.mod_eq_of_lt (rotateTimes_lt hat c.toNat_lt i.2 n hstep)]

/-- The tag that got from epoch 7 to epoch 11 in five rotations, one of which failed, is resumed. -/
theorem tagInit_resumes_counting :
    (falteringRun 7 5).1.1 = [.ok, .err, .ok, .ok, .ok] ∧ (falteringRun 7 5).1.2.counter = 11 ∧
    Resumes Env.counting (falteringRun 7 5).1.2 := by
  have hctr : ∀ j < 5, (falteringRun 7 j).1.2.counter.toNat + 1 < 2 ^ 32 := by decide +kernel
  refine ⟨falteringRun_statuses, by decide +kernel, ?_⟩
  rw [falteringRun, faltering]
  refine (tagInit_resumes Env.counting Tag.zero 7 World.faltering (by decide +kernel)).1 5 fun j hj _ => ?_
  have h := hctr j hj
  rw [falteringRun, faltering] at h
  exact h

/-- A successful rotation at the top of the counter's range: the counter is 0 again, and the tag is
not resumed from it unless the ratchet came back to the seed. -/
theorem not_resumes_of_wrap {env : Env} {d0 : Bytes dLen} {sk0 : Bytes skLen} {tag : Tag}
    (h : tag.At env d0 sk0 (2 ^ 32 - 1)) {w : World} (hrot : Rotates env tag w)
    (hne : epochSk env sk0 (2 ^ 32) ≠ sk0) :
    let r := (rotateTimes env tag 1).run w
    r.1.1 = [.ok] ∧ r.1.2.counter = 0 ∧ ¬ Resumes env r.1.2 := by
  intro r
  have hrcs : r.1.1 = [.ok] := congrArg ([] ++ [·]) ((tagRotate_ok_iff env tag w).2 hrot)
  have hr : r.1.2.At env d0 sk0 (2 ^ 32 - 1 + r.1.1.count .ok) := rotateTimes_at h w 1
  rw [hrcs, show 2 ^ 32 - 1 + List.count Status.ok [.ok] = 2 ^ 32 from rfl] at hr
  refine ⟨hrcs, UInt32.toNat_inj.1 hr.epoch, ?_⟩
  rw [resumes_iff hr]
  exact fun heq => hne heq.symm

/-- One rotation past the top: `tag_init` at `2^32 - 1` and the rotation both succeed, and the tag is
not resumed from its counter. -/
theorem not_resumes_past_top :
    let i := (tagInit Env.counting Tag.zero 0xFFFFFFFF).run World.start
    let r := (rotateTimes Env.counting i.1.2 1).run i.2
    i.1.1 = .ok ∧ r.1.1 = [.ok] ∧ r.1.2.counter = 0 ∧ ¬ Resumes Env.counting r.1.2 := by
  have hinit := tagInit_counting (c := 0xFFFFFFFF) (by decide +kernel)
  have hle := (tagInit_spec Env.counting Tag.zero 0xFFFFFFFF World.start).le
  have hat := tagInit_at hinit
  generalize (tagInit Env.counting Tag.zero 0xFFFFFFFF).run World.start = i at hinit hle hat ⊢
  have hat : i.1.2.At Env.counting (Bytes.zero dLen) (Bytes.zero skLen) (2 ^ 32 - 1) := hat
  refine ⟨hinit, not_resumes_of_wrap hat ⟨(World.start_faultless.of_le hle).good _, ?_⟩ ?_⟩
  · rw [hat.ratchet, hat.seedD, epochSk_counting, updateStep_counting]
    exact Option.isSome_iff_exists.1 (by decide +kernel)
  · rw [epochSk_counting]
    exact fun h => absurd (congrArg Subtype.val h) (by decide +kernel)

end Esptag
