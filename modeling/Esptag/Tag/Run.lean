/-
Runs of the tag: after `tag_init` and any rotations, some failed and some not, the tag is at the
epoch that counts the successful ones; no failure of any crypto function changes its output.
-/
import Esptag.Tag.Basic

namespace Esptag

open Octets Crypto

/-! ## All or nothing -/

/-- Every error is all-or-nothing: `tag_rotate` leaves the tag, and each crypto function its output
buffer, as it was. -/
theorem err_unchanged (env : Env) (w : World) :
    (∀ tag : Tag, let r := (tagRotate env tag).run w
      r.1.1 = .err → r.1.2 = tag) ∧
    (∀ (skPrev : Bytes skLen) (skNext : Buf skLen), let r := (cryptoUpdateSk env skPrev skNext).run w
      r.1.1 = .err → r.1.2 = skNext) ∧
    (∀ (sk0 : Bytes skLen) (counter : UInt32) (skI : Bytes skLen), let r := (cryptoAdvanceSk env sk0 counter skI).run w
      r.1.1 = .err → r.1.2 = skI) ∧
    (∀ (d0 : Bytes dLen) (skI : Bytes skLen) (pI : Bytes pLen), let r := (cryptoDeriveP env d0 skI pI).run w
      r.1.1 = .err → r.1.2 = pI) := by
  refine ⟨fun tag => ?_, fun skPrev skNext => ?_, fun sk0 counter skI => ?_, fun d0 skI pI => ?_⟩
  · intro r h
    rcases (tagRotate_spec env tag w).ret with ⟨hok, -⟩ | ⟨-, htag, -⟩
    · rw [h] at hok; cases hok
    · exact htag
  · intro r h
    rcases (cryptoUpdateSk_spec env skPrev skNext w).ret with ⟨-, hok, -⟩ | ⟨-, -, hnext⟩
    · rw [h] at hok; cases hok
    · exact hnext
  · intro r h
    obtain ⟨k, -, -, herr⟩ := cryptoAdvanceSk_spec env sk0 counter skI w
    exact herr h
  · intro r h
    rcases (cryptoDeriveP_spec env d0 skI pI w).ret with ⟨hok, -⟩ | ⟨-, hp, -⟩
    · rw [h] at hok; cases hok
    · exact hp

/-! ## Runs of rotations -/

/-- `n` calls of `tag_rotate`, one after another: their statuses, and the tag after them. -/
def rotateTimes (env : Env) (tag : Tag) : Nat → CryptoM (List Status × Tag)
  | 0 => return ([], tag)
  | n + 1 => do
    let (rcs, tag) ← rotateTimes env tag n
    let (rc, tag) ← tagRotate env tag
    return (rcs ++ [rc], tag)

theorem run_rotateTimes_succ (env : Env) (tag : Tag) (n : Nat) (w : World) :
    let r := (rotateTimes env tag n).run w
    let s := (tagRotate env r.1.2).run r.2
    (rotateTimes env tag (n + 1)).run w = ((r.1.1 ++ [s.1.1], s.1.2), s.2) := by
  simp only [rotateTimes, Prog.run_bind]
  generalize (rotateTimes env tag n).run w = r
  obtain ⟨⟨rcs, tag'⟩, w'⟩ := r
  simp only
  generalize (tagRotate env tag').run w' = s
  obtain ⟨⟨rc, tag''⟩, w''⟩ := s
  rfl

/-- The run lemma: each successful rotation is one epoch, a failed one is none. -/
theorem rotateTimes_at {env : Env} {d0 : Bytes dLen} {sk0 : Bytes skLen} {e : Nat} {tag : Tag}
    (h : tag.At env d0 sk0 e) (w : World) : ∀ n, let r := (rotateTimes env tag n).run w
      r.1.2.At env d0 sk0 (e + r.1.1.count .ok)
  | 0 => h
  | n + 1 => by
    have ih := rotateTimes_at h w n
    rw [run_rotateTimes_succ]
    generalize (rotateTimes env tag n).run w = r at ih ⊢
    have hs := (tagRotate_spec env r.1.2 r.2).at ih
    generalize (tagRotate env r.1.2).run r.2 = s at hs ⊢
    simp only [List.count_append]
    cases hrc : s.1.1 with
    | ok => rw [hrc, if_pos rfl] at hs; exact hs
    | err => rw [hrc, if_neg (by decide)] at hs; exact hs

/-- The tag's invariant over whole runs: with `k` successful rotations after a successful
`tag_init` at `c`, the tag has its seed, the counter `c + k` modulo `2^32`, the ratchet key of epoch
`c + k` and the advertising key computed from that. -/
theorem tagInit_rotateTimes (env : Env) (tag : Tag) (c : UInt32) (w : World) (n : Nat)
    (hinit : ((tagInit env tag c).run w).1.1 = .ok) :
    let i := (tagInit env tag c).run w
    let r := (rotateTimes env i.1.2 n).run i.2
    let k := r.1.1.count .ok
    r.1.2.d0 = tag.d0 ∧ r.1.2.sk0 = tag.sk0 ∧ r.1.2.counter.toNat = (c.toNat + k) % 2 ^ 32 ∧
      r.1.2.skCurr = (updateStep env)^[c.toNat + k] tag.sk0 ∧
      ComputesKey env tag.d0 r.1.2.skCurr r.1.2.pCurr := by
  intro i r k
  have hat : i.1.2.At env tag.d0 tag.sk0 c.toNat := tagInit_at hinit
  have hr := rotateTimes_at hat i.2 n
  exact ⟨hr.seedD, hr.seedSk, hr.epoch, hr.ratchet, computesKey_of_epochKey hr.key⟩

/-- `tag_init` returns OK exactly when none of its calls fails and the epoch has a key. -/
theorem tagInit_ok_iff (env : Env) (tag : Tag) (c : UInt32) (w : World) :
    ((tagInit env tag c).run w).1.1 = .ok ↔
      w.Good (c.toNat + deriveCalls) ∧ ∃ key, epochKey env tag.d0 (epochSk env tag.sk0 c.toNat) = some key := by
  have hret := (tagInit_spec env tag c w).ret
  constructor
  · intro hok
    rcases hret with ⟨-, h2, h3⟩ | ⟨h1, -⟩
    · exact ⟨h2, _, h3.ratchet ▸ h3.key⟩
    · rw [hok] at h1; cases h1
  · rintro ⟨hg, key, hkey⟩
    rcases hret with ⟨h1, -⟩ | ⟨-, -, -, h3 | h3⟩
    · exact h1
    · exact absurd hg h3
    · rw [hkey] at h3; cases h3

/-- `tag_rotate` gets through: none of its calls fails and the next epoch has a key. -/
def Rotates (env : Env) (tag : Tag) (w : World) : Prop :=
  w.Good rotateCalls ∧ ∃ key, epochKey env tag.d0 (updateStep env tag.skCurr) = some key

theorem tagRotate_ok_iff (env : Env) (tag : Tag) (w : World) :
    ((tagRotate env tag).run w).1.1 = .ok ↔ Rotates env tag w := by
  have hret := (tagRotate_spec env tag w).ret
  constructor
  · intro hok
    rcases hret with ⟨-, h2, key, h3, -⟩ | ⟨h1, -⟩
    · exact ⟨h2, key, h3⟩
    · rw [hok] at h1; cases h1
  · rintro ⟨hg, key, hkey⟩
    rcases hret with ⟨h1, -⟩ | ⟨-, -, h3 | h3⟩
    · exact h1
    · exact absurd hg h3
    · rw [hkey] at h3; cases h3

/-- One step of the counting environment adds 1 to the key. -/
theorem updateStep_counting (x : Nat) : updateStep Env.counting (be skLen x) = be skLen (x + 1) := by
  apply Subtype.ext
  have hlen : (toBE skLen x).length = hashLen := length_toBE _ _
  simp only [updateStep, kdfBytes, Blocks.output, count_skLen, Blocks.blocks, kdfBlock, kdfInput, Env.counting,
    val_be, List.nil_append, Nat.zero_add]
  rw [List.append_assoc, List.take_left' hlen, List.take_of_length_le (by simp), beNat_toBE]
  apply beNat_inj (by simp)
  rw [beNat_toBE, beNat_toBE, Nat.mod_add_mod]

theorem epochSk_counting (e : Nat) : epochSk Env.counting (Bytes.zero skLen) e = be skLen e := by
  induction e with
  | zero => exact Subtype.ext (by decide)
  | succ e ih => rw [epochSk_succ, ih, updateStep_counting]

/-- In the counting environment, `tag_init` of the zero seed succeeds at every epoch with a key. -/
theorem tagInit_counting {c : UInt32} (h : (epochKey Env.counting (Bytes.zero dLen) (be skLen c.toNat)).isSome) :
    ((tagInit Env.counting Tag.zero c).run World.start).1.1 = .ok := by
  rw [tagInit_ok_iff]
  refine ⟨World.start_faultless.good _, ?_⟩
  have hsk : epochSk Env.counting Tag.zero.sk0 c.toNat = be skLen c.toNat := epochSk_counting _
  rw [hsk]
  exact Option.isSome_iff_exists.1 h

/-- The tag of the zero seed brought up at `c`, while one of the calls fails. -/
def faltering (c : UInt32) : (Status × Tag) × World := (tagInit Env.counting Tag.zero c).run World.faltering

/-- And rotated `n` times. -/
def falteringRun (c : UInt32) (n : Nat) : (List Status × Tag) × World :=
  (rotateTimes Env.counting (faltering c).1.2 n).run (faltering c).2

theorem falteringRun_statuses : (falteringRun 7 5).1.1 = [.ok, .err, .ok, .ok, .ok] := by decide +kernel

/-- From epoch 7, with one failure in five rotations, to epoch 11. -/
theorem tagInit_rotateTimes_counting :
    (falteringRun 7 5).1.1 = [.ok, .err, .ok, .ok, .ok] ∧ (falteringRun 7 5).1.2.counter = 11 ∧
    (falteringRun 7 5).1.2.skCurr = be skLen 11 ∧
    ComputesKey Env.counting (Bytes.zero dLen) (be skLen 11) (falteringRun 7 5).1.2.pCurr := by
  have hrcs := falteringRun_statuses
  obtain ⟨-, -, hctr, hsk, hkey⟩ := tagInit_rotateTimes Env.counting Tag.zero 7 World.faltering 5 (by decide +kernel)
  rw [falteringRun, faltering] at hrcs ⊢
  generalize (rotateTimes Env.counting _ 5).run _ = r at hrcs hctr hsk hkey ⊢
  rw [hrcs] at hctr hsk
  replace hsk : r.1.2.skCurr = be skLen 11 := hsk.trans (epochSk_counting 11)
  rw [hsk] at hkey
  exact ⟨hrcs, UInt32.toNat_inj.1 hctr, hsk, hkey⟩

end Esptag
