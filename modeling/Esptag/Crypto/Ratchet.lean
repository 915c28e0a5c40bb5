/-
The ratchet: `crypto_update_sk` is one step `U`, `crypto_advance_sk` iterates it in two halves of
one buffer. A failed hash call ends either of them with its output untouched; the number of hash
calls is exact.
-/
import Esptag.Crypto.Kdf

namespace Esptag.Crypto

open Octets

/-! ## One step -/

/-- `U`: one ratchet step, `KDF(sk, "update", 32)`. -/
def updateStep (env : Env) (sk : Bytes skLen) : Bytes skLen :=
  ⟨kdfBytes env sk.val labelUpdate.val skLen, length_kdfBytes _ _ _ _⟩

/-- The hash inputs of `k` ratchet steps from `sk` on. -/
def ratchetInputs (env : Env) (sk : Bytes skLen) (k : Nat) : List (List UInt8) :=
  (List.range k).map fun i => kdfInput ((updateStep env)^[i] sk).val labelUpdate.val 1

theorem ratchetInputs_succ (env : Env) (sk : Bytes skLen) (k : Nat) :
    ratchetInputs env sk (k + 1) =
      kdfInput sk.val labelUpdate.val 1 :: ratchetInputs env (updateStep env sk) k := by
  simp [ratchetInputs, List.range_succ_eq_map, Function.comp_def]

theorem count_skLen : Blocks.count hashLen skLen = 1 := rfl

variable (env : Env) {w : World}

/-- What `crypto_update_sk` does: one hash call; it stores the next key when the call succeeds, and
nothing when it fails. -/
structure UpdateSpec (env : Env) (sk : Bytes skLen) (skNext : Buf skLen) (w : World) (rc : Status)
    (skNext' : Buf skLen) (w' : World) : Prop where
  sched : w'.sched = w.sched.skip 1
  queries : w'.queries = w.queries ++ ratchetInputs env sk 1
  ret : (w.sched.now = .ok ∧ rc = .ok ∧ skNext' = ⟨updateStep env sk, true⟩) ∨
    (w.sched.now ≠ .ok ∧ rc = .err ∧ skNext' = skNext)

theorem run_cryptoUpdateSk (sk : Bytes skLen) (skNext : Buf skLen) (w : World) :
    (cryptoUpdateSk env sk skNext).run w = (kdf env sk labelUpdate skNext skLen).run w := by
  simp only [cryptoUpdateSk, Prog.run_bind]
  generalize (kdf env sk labelUpdate skNext skLen).run w = r
  obtain ⟨⟨rc, out⟩, w'⟩ := r
  cases rc <;> rfl

theorem cryptoUpdateSk_spec (sk : Bytes skLen) (skNext : Buf skLen) (w : World) :
    let r := (cryptoUpdateSk env sk skNext).run w
    UpdateSpec env sk skNext w r.1.1 r.1.2 r.2 := by
  obtain ⟨k, hk⟩ := kdf_spec env sk labelUpdate skNext skLen (le_refl _) (by decide) w
  rw [run_cryptoUpdateSk]
  generalize (kdf env sk labelUpdate skNext skLen).run w = r at hk ⊢
  have ht := hk.touched
  rcases hk.ret with ⟨h1, h2, h3, h4, h5⟩ | ⟨h1, h2, h3, hf, h5, h6⟩
  · rw [count_skLen] at h1
    subst h1
    refine ⟨h4, h5, .inl ⟨World.good_one.1 hk.good, h2, Buf.ext (Subtype.ext ?_) ?_⟩⟩
    · rw [h3, List.drop_of_length_le (by simp), List.append_nil]
      rfl
    · rw [ht, Bool.or_eq_true]
      exact .inr rfl
  · rw [count_skLen] at h1
    obtain rfl : k = 0 := by omega
    refine ⟨h5, h6, .inr ⟨hf, h2, Buf.ext (Subtype.ext ?_) ?_⟩⟩
    · simpa [Blocks.blocks] using h3
    · rw [ht, decide_eq_false (lt_irrefl 0), Bool.or_false]

/-! ## The iteration -/

/-- What `n` ratchet steps from `sk` do to the world: `k` of them succeed, and these are all, or
the next one failed. -/
structure RatchetSpec (env : Env) (sk : Bytes skLen) (n : Nat) (w : World) (rc : Status) (w' : World) (k : Nat) :
    Prop where
  good : w.Good k
  ret : (k = n ∧ rc = .ok ∧ w'.sched = w.sched.skip k ∧ w'.queries = w.queries ++ ratchetInputs env sk k) ∨
    (k < n ∧ rc = .err ∧ w.sched.fate (w.sched.calls + k) ≠ .ok ∧ w'.sched = w.sched.skip (k + 1) ∧
      w'.queries = w.queries ++ ratchetInputs env sk (k + 1))

@[simp] theorem PingPong.skCurr_swap_setNext (buf : PingPong) (b : Buf skLen) :
    (buf.setNext b).swap.skCurr = b := by simp [PingPong.skCurr, PingPong.swap, PingPong.setNext]

@[simp] theorem PingPong.skCurr_setNext (buf : PingPong) (b : Buf skLen) :
    (buf.setNext b).skCurr = buf.skCurr := by simp [PingPong.skCurr, PingPong.setNext]

/-- The loop of `crypto_advance_sk`: whatever the other half holds, `sk_curr` ends up at the half
with the iterated key. -/
theorem advanceLoop_spec : ∀ (n : Nat) (sk : Bytes skLen) (buf : PingPong) (w : World), buf.skCurr.bytes = sk →
    let r := (advanceLoop env n buf).run w
    ∃ k, RatchetSpec env sk n w r.1.1 r.2 k ∧ (r.1.1 = .ok → r.1.2.skCurr.bytes = (updateStep env)^[n] sk)
  | 0, sk, buf, w, hb => by
    refine ⟨0, ⟨fun i hi => absurd hi (Nat.not_lt_zero i), .inl ⟨rfl, rfl, rfl, ?_⟩⟩, fun _ => hb⟩
    simp [advanceLoop, ratchetInputs]
  | n + 1, sk, buf, w, hb => by
    intro r
    have hr : r = (advanceLoop env (n + 1) buf).run w := rfl
    simp only [advanceLoop, Prog.run_bind, hb] at hr
    obtain ⟨hs, hq, hret⟩ := cryptoUpdateSk_spec env sk buf.skNext w
    generalize (cryptoUpdateSk env sk buf.skNext).run w = s at hs hq hret hr
    obtain ⟨⟨rc, next⟩, w₁⟩ := s
    simp only at hs hq hret
    rcases hret with ⟨hf, rfl, rfl⟩ | ⟨hf, rfl, rfl⟩
    · simp only [ne_eq, not_true, if_false] at hr
      obtain ⟨k, hk, hout⟩ := advanceLoop_spec n (updateStep env sk)
        (buf.setNext ⟨updateStep env sk, true⟩).swap w₁ (by simp)
      rw [← hr] at hk hout
      refine ⟨k + 1, ⟨?_, ?_⟩, fun h => ?_⟩
      · rintro (_ | i) hi
        · exact hf
        · have := hk.good i (by omega)
          rw [hs] at this
          rwa [show w.sched.calls + (i + 1) = w.sched.calls + 1 + i by omega]
      · rw [ratchetInputs_succ, ratchetInputs_succ]
        rcases hk.ret with ⟨g1, g2, g3, g4⟩ | ⟨g1, g2, g3, g4, g5⟩
        · refine .inl ⟨by omega, g2, ?_, ?_⟩
          · rw [g3, hs, Sched.skip_skip, Nat.add_comm]
          · rw [g4, hq, List.append_assoc]; rfl
        · rw [hs] at g3
          refine .inr ⟨by omega, g2, ?_, ?_, ?_⟩
          · rwa [show w.sched.calls + (k + 1) = w.sched.calls + 1 + k by omega]
          · rw [g4, hs, Sched.skip_skip, Nat.add_comm]
          · rw [g5, hq, List.append_assoc]; rfl
      · exact hout h
    · simp only [ne_eq, reduceCtorEq, not_false_eq_true, if_true, Prog.run_pure] at hr
      rw [hr]
      exact ⟨0, ⟨fun i hi => absurd hi (Nat.not_lt_zero i), .inr ⟨by omega, rfl, hf, hs, hq⟩⟩, fun h => by cases h⟩

/-- `crypto_advance_sk`: the iterated key, or the error of the step that failed and the output as
it was. -/
theorem cryptoAdvanceSk_spec (env : Env) (sk0 : Bytes skLen) (counter : UInt32) (skI : Bytes skLen) (w : World) :
    let r := (cryptoAdvanceSk env sk0 counter skI).run w
    ∃ k, RatchetSpec env sk0 counter.toNat w r.1.1 r.2 k ∧
      (r.1.1 = .ok → r.1.2 = (updateStep env)^[counter.toNat] sk0) ∧ (r.1.1 = .err → r.1.2 = skI) := by
  intro r
  have hr : r = (cryptoAdvanceSk env sk0 counter skI).run w := rfl
  simp only [cryptoAdvanceSk, Prog.run_bind] at hr
  obtain ⟨k, hk, hout⟩ := advanceLoop_spec env counter.toNat sk0
    ⟨fun half => if half then Buf.fresh env.junk skLen else (Buf.fresh env.junk skLen).write 0 sk0.val, false⟩ w
    (by simp [PingPong.skCurr])
  generalize (advanceLoop env counter.toNat _).run w = s at hk hr hout
  obtain ⟨⟨rc, buf⟩, w'⟩ := s
  cases rc with
  | ok =>
    simp only [ne_eq, not_true, if_false, Prog.run_bind, Prog.run_pure, run_leave] at hr
    rw [hr]
    refine ⟨k, ⟨hk.good, hk.ret⟩, fun _ => ?_, fun h => absurd h (by simp)⟩
    simp only [hout rfl, Bytes.write_all]
  | err =>
    simp only [ne_eq, reduceCtorEq, not_false_eq_true, if_true, Prog.run_bind, Prog.run_pure, run_leave] at hr
    rw [hr]
    exact ⟨k, ⟨hk.good, hk.ret⟩, fun h => absurd h (by simp), fun _ => rfl⟩

/-! ## Consequences -/

section

variable {env : Env} {sk : Bytes skLen} {n k : Nat} {rc : Status} {w' : World}

theorem RatchetSpec.le (h : RatchetSpec env sk n w rc w' k) : w.sched ≤ w'.sched := by
  rcases h.ret with ⟨-, -, h, -⟩ | ⟨-, -, -, h, -⟩ <;> rw [h] <;> exact Sched.le_skip _ _

/-- It returns OK exactly when none of the `n` calls fails. -/
theorem RatchetSpec.ok_iff (h : RatchetSpec env sk n w rc w' k) : rc = .ok ↔ w.Good n := by
  constructor
  · rintro rfl
    rcases h.ret with ⟨rfl, -⟩ | ⟨-, hrc, -⟩
    · exact h.good
    · cases hrc
  · intro hg
    rcases h.ret with ⟨-, hrc, -⟩ | ⟨hk, -, hf, -⟩
    · exact hrc
    · exact absurd (hg k hk) hf

theorem RatchetSpec.sched (h : RatchetSpec env sk n w .ok w' k) : w'.sched = w.sched.skip n := by
  rcases h.ret with ⟨rfl, -, h, -⟩ | ⟨-, h, -⟩
  · exact h
  · cases h

end

end Esptag.Crypto
