/-
The two halves of `crypto_advance_sk`'s buffer do not get into each other's way: what the half being
written holds never shows, so the function is the iteration of `crypto_update_sk`, call by call, and
`tag_init`, which runs it inside the tag, keeps the `sk_0` it starts from.
-/
import Esptag.Tag.Basic

namespace Esptag.Crypto

open Octets

section

variable {env : Env} {sk : Bytes skLen} {n k j : Nat} {rc : Status} {w w' : World}

/-- The hash inputs of more steps continue those of fewer. -/
theorem ratchetInputs_add (env : Env) (sk : Bytes skLen) (a b : Nat) :
    ratchetInputs env sk (a + b) = ratchetInputs env sk a ++ ratchetInputs env ((updateStep env)^[a] sk) b := by
  simp only [ratchetInputs, List.range_add, List.map_append, List.map_map, Function.comp_def,
    ← Function.iterate_add_apply, Nat.add_comm]

theorem RatchetSpec.of_good (h : RatchetSpec env sk n w rc w' k) (hg : w.Good n) :
    rc = .ok ∧ w'.sched = w.sched.skip n ∧ w'.queries = w.queries ++ ratchetInputs env sk n := by
  rcases h.ret with ⟨rfl, hrc, hs, hq⟩ | ⟨hk, -, hf, -⟩
  · exact ⟨hrc, hs, hq⟩
  · exact absurd (hg k hk) hf

theorem RatchetSpec.of_fails (h : RatchetSpec env sk n w rc w' k) (hj : j < n) (hg : w.Good j)
    (hf : w.sched.fate (w.sched.calls + j) ≠ .ok) :
    rc = .err ∧ w'.sched = w.sched.skip (j + 1) ∧ w'.queries = w.queries ++ ratchetInputs env sk (j + 1) := by
  have hkj : k ≤ j := h.good.le_of_fails hf
  rcases h.ret with ⟨rfl, -⟩ | ⟨-, hrc, hfk, hs, hq⟩
  · exact absurd hj (not_lt.2 hkj)
  · obtain rfl : k = j := le_antisymm hkj (hg.le_of_fails hfk)
    exact ⟨hrc, hs, hq⟩

/-- The schedule settles how a number of steps goes. -/
theorem RatchetSpec.unique {rc' : Status} {w'' : World} {k' : Nat} (h : RatchetSpec env sk n w rc w' k)
    (h' : RatchetSpec env sk n w rc' w'' k') : rc = rc' ∧ w'.sched = w''.sched ∧ w'.queries = w''.queries := by
  rcases h'.ret with ⟨rfl, hrc, hs, hq⟩ | ⟨hk, hrc, hf, hs, hq⟩
  · obtain ⟨g1, g2, g3⟩ := h.of_good h'.good
    exact ⟨g1.trans hrc.symm, g2.trans hs.symm, g3.trans hq.symm⟩
  · obtain ⟨g1, g2, g3⟩ := h.of_fails hk h'.good hf
    exact ⟨g1.trans hrc.symm, g2.trans hs.symm, g3.trans hq.symm⟩

end

/-! ## The other half -/

/-- Two states of the buffer that agree on the half `sk_curr` points to. -/
structure PingPong.SameCurr (buf buf' : PingPong) : Prop where
  curr : buf.curr = buf'.curr
  bytes : buf.skCurr.bytes = buf'.skCurr.bytes

/-- Whatever the half being written held before, the loop returns and leaves the same. -/
theorem advanceLoop_sameCurr (env : Env) (n : Nat) {buf buf' : PingPong} (h : buf.SameCurr buf') (w : World) :
    let r := (advanceLoop env n buf).run w
    let r' := (advanceLoop env n buf').run w
    r.1.1 = r'.1.1 ∧ r.2.sched = r'.2.sched ∧ r.2.queries = r'.2.queries ∧
      (r.1.1 = .ok → r.1.2.skCurr.bytes = r'.1.2.skCurr.bytes) := by
  obtain ⟨k, hk, hout⟩ := advanceLoop_spec env n buf.skCurr.bytes buf w rfl
  obtain ⟨k', hk', hout'⟩ := advanceLoop_spec env n buf.skCurr.bytes buf' w h.bytes.symm
  obtain ⟨hrc, hs, hq⟩ := hk.unique hk'
  refine ⟨hrc, hs, hq, fun hok => ?_⟩
  rw [hout hok, hout' (hrc.symm.trans hok)]

/-! ## The iteration -/

/-- `crypto_advance_sk` from `sk_0`: with no failing call the iterated key after exactly `counter`
steps of the ratchet, and with the `j`-th one failing an error after exactly `j`. -/
structure Iterates (env : Env) (sk0 : Bytes skLen) (counter : UInt32) (skI : Bytes skLen) (w : World)
    (rc : Status) (skI' : Bytes skLen) (w' : World) : Prop where
  ok : w.Good counter.toNat → rc = .ok ∧ skI' = (updateStep env)^[counter.toNat] sk0 ∧
    w'.sched = w.sched.skip counter.toNat ∧ w'.queries = w.queries ++ ratchetInputs env sk0 counter.toNat
  err : ∀ j, 1 ≤ j → j ≤ counter.toNat → w.Good (j - 1) → w.sched.fate (w.sched.calls + (j - 1)) ≠ .ok →
    rc = .err ∧ skI' = skI ∧ w'.sched = w.sched.skip j ∧ w'.queries = w.queries ++ ratchetInputs env sk0 j

theorem cryptoAdvanceSk_iterates (env : Env) (sk0 : Bytes skLen) (counter : UInt32) (skI : Bytes skLen) (w : World) :
    let r := (cryptoAdvanceSk env sk0 counter skI).run w
    Iterates env sk0 counter skI w r.1.1 r.1.2 r.2 := by
  obtain ⟨k, hk, hok, herr⟩ := cryptoAdvanceSk_spec env sk0 counter skI w
  constructor
  · intro hg
    obtain ⟨hrc, hs, hq⟩ := hk.of_good hg
    exact ⟨hrc, hok hrc, hs, hq⟩
  · intro j h1 hj hg hf
    obtain ⟨hrc, hs, hq⟩ := hk.of_fails (by omega) hg hf
    rw [Nat.sub_add_cancel h1] at hs hq
    exact ⟨hrc, herr hrc, hs, hq⟩

/-- Advancing by `a` and then by `b` is advancing by `a + b`. -/
theorem cryptoAdvanceSk_add (env : Env) (sk0 : Bytes skLen) {a b : UInt32} (hab : a.toNat + b.toNat < 2 ^ 32)
    (mid skI : Bytes skLen) {w : World} (hg : w.Good (a.toNat + b.toNat)) :
    let r := (cryptoAdvanceSk env sk0 a mid).run w
    let s := (cryptoAdvanceSk env r.1.2 b skI).run r.2
    let t := (cryptoAdvanceSk env sk0 (a + b) skI).run w
    s.1 = t.1 ∧ s.2.sched = t.2.sched ∧ s.2.queries = t.2.queries := by
  intro r s t
  have hsum : (a + b).toNat = a.toNat + b.toNat := by rw [UInt32.toNat_add, Nat.mod_eq_of_lt hab]
  obtain ⟨-, hrout, hrs, hrq⟩ := (cryptoAdvanceSk_iterates env sk0 a mid w).ok (hg.mono (Nat.le_add_right _ _))
  obtain ⟨hsrc, hsout, hss, hsq⟩ := (cryptoAdvanceSk_iterates env r.1.2 b skI r.2).ok ((World.good_add hrs).1 hg).2
  obtain ⟨htrc, htout, hts, htq⟩ := (cryptoAdvanceSk_iterates env sk0 (a + b) skI w).ok (by rwa [hsum])
  refine ⟨Prod.ext (hsrc.trans htrc.symm) ?_, ?_, ?_⟩
  · rw [hsout, htout, hrout, hsum, Nat.add_comm, Function.iterate_add_apply]
  · rw [hss, hts, hrs, hsum, Sched.skip_skip]
  · rw [hsq, htq, hrq, hrout, hsum, ratchetInputs_add, List.append_assoc]

/-- `crypto_update_sk` is one step when its call succeeds, whatever `sk_next` held. -/
theorem cryptoUpdateSk_good (env : Env) (sk : Bytes skLen) (skNext : Buf skLen) {w : World} (hg : w.Good 1) :
    ((cryptoUpdateSk env sk skNext).run w).1 = (.ok, ⟨updateStep env sk, true⟩) := by
  rcases (cryptoUpdateSk_spec env sk skNext w).ret with ⟨-, hrc, hout⟩ | ⟨hf, -⟩
  · exact Prod.ext hrc hout
  · exact absurd (World.good_one.1 hg) hf

theorem tagInit_sk0 (env : Env) (tag : Tag) (counter : UInt32) (w : World) :
    ((tagInit env tag counter).run w).1.2.sk0 = tag.sk0 := by
  rcases (tagInit_spec env tag counter w).ret with ⟨-, -, hat⟩ | ⟨-, -, hsk0, -⟩
  · exact hat.seedSk
  · exact hsk0

/-- `crypto_advance_sk` is the iteration of `crypto_update_sk`: of as many steps as the counter says,
additive in the counter, and independent of the half of the buffer it is writing. -/
theorem pingPong_iterates (env : Env) (sk0 : Bytes skLen) :
    (∀ (sk : Bytes skLen) (skNext : Buf skLen) (w : World), w.Good 1 →
      ((cryptoUpdateSk env sk skNext).run w).1 = (.ok, ⟨updateStep env sk, true⟩)) ∧
    (∀ (counter : UInt32) (skI : Bytes skLen) (w : World),
      let r := (cryptoAdvanceSk env sk0 counter skI).run w
      Iterates env sk0 counter skI w r.1.1 r.1.2 r.2) ∧
    (∀ (tag : Tag) (counter : UInt32) (w : World), ((tagInit env tag counter).run w).1.2.sk0 = tag.sk0) ∧
    (∀ (a b : UInt32) (mid skI : Bytes skLen) (w : World), a.toNat + b.toNat < 2 ^ 32 →
      w.Good (a.toNat + b.toNat) →
        let r := (cryptoAdvanceSk env sk0 a mid).run w
        let s := (cryptoAdvanceSk env r.1.2 b skI).run r.2
        let t := (cryptoAdvanceSk env sk0 (a + b) skI).run w
        s.1 = t.1 ∧ s.2.sched = t.2.sched ∧ s.2.queries = t.2.queries) ∧
    (∀ (n : Nat) (buf buf' : PingPong) (w : World), buf.SameCurr buf' →
      let r := (advanceLoop env n buf).run w
      let r' := (advanceLoop env n buf').run w
      r.1.1 = r'.1.1 ∧ r.2.sched = r'.2.sched ∧ r.2.queries = r'.2.queries ∧
        (r.1.1 = .ok → r.1.2.skCurr.bytes = r'.1.2.skCurr.bytes)) :=
  ⟨fun sk skNext _ hg => cryptoUpdateSk_good env sk skNext hg, cryptoAdvanceSk_iterates env sk0, tagInit_sk0 env,
    fun _ _ mid skI _ hab hg => cryptoAdvanceSk_add env sk0 hab mid skI hg,
    fun n _ _ w h => advanceLoop_sameCurr env n h w⟩

end Esptag.Crypto
