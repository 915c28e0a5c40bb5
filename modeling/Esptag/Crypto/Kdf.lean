/-
The KDF: `kdf` hashes the inputs `z ‖ counter ‖ info` for the counters 1, 2, …, one block at a time,
and stores exactly the first `out_len` bytes of the digests; when the call after `k` good ones
fails, it stops having stored the first `k` blocks. Hence the one-block ratchet step and its
iteration.
-/
import Esptag.Crypto.Basic
import Esptag.Lib.Blocks

namespace Esptag.Crypto

open Octets

/-! ## The specification -/

/-- The hash input of block `i`. -/
def kdfInput (z info : List UInt8) (i : Nat) : List UInt8 := z ++ toBE counterLen i ++ info

/-- Block `i` of the KDF's output. -/
def kdfBlock (env : Env) (z info : List UInt8) (i : Nat) : List UInt8 := (env.sha256 (kdfInput z info i)).val

/-- `KDF(z, info, n)`: the first `n` bytes of the blocks. -/
def kdfBytes (env : Env) (z info : List UInt8) (n : Nat) : List UInt8 :=
  Blocks.output (kdfBlock env z info) hashLen n

@[simp] theorem length_kdfBlock (env : Env) (z info : List UInt8) (i : Nat) :
    (kdfBlock env z info i).length = hashLen := (env.sha256 _).2

@[simp] theorem length_kdfBytes (env : Env) (z info : List UInt8) (n : Nat) : (kdfBytes env z info n).length = n :=
  Blocks.length_output (fun i => length_kdfBlock env z info (i + 1)) hashLen_pos n

/-- Hash inputs of keys of one length are equal only for equal keys, labels and block counters. -/
theorem kdfInput_inj {z z' info info' : List UInt8} {i i' : Nat} (hz : z.length = z'.length)
    (hi : i < 2 ^ 32) (hi' : i' < 2 ^ 32) (h : kdfInput z info i = kdfInput z' info' i') :
    z = z' ∧ info = info' ∧ i = i' := by
  unfold kdfInput at h
  obtain ⟨h, hinfo⟩ := List.append_inj h (by simp [hz])
  obtain ⟨hz', hc⟩ := List.append_inj h hz
  exact ⟨hz', hinfo, toBE_inj (lt_of_lt_of_eq hi (by norm_num)) (lt_of_lt_of_eq hi' (by norm_num)) hc⟩

/-! ## One block -/

/-- The world after hashing the inputs `l`. -/
def World.hashed (w : World) (l : List (List UInt8)) : World :=
  { w with sched := w.sched.skip l.length, queries := w.queries ++ l }

theorem World.hashed_hashed (w : World) (l l' : List (List UInt8)) :
    (w.hashed l).hashed l' = w.hashed (l ++ l') := by simp [World.hashed]

theorem hash_ok (env : Env) {w : World} (h : w.sched.now = .ok) (input : List UInt8) (block : Buf hashLen) :
    (hash env input block).run w = ((.ok, ⟨env.sha256 input, true⟩), w.hashed [input]) := by
  simp [hash, psaHashCompute, h, World.hashed, World.tick, Buf.write_all]

theorem hash_err (env : Env) {w : World} (h : w.sched.now ≠ .ok) (input : List UInt8) (block : Buf hashLen) :
    ∃ block', (hash env input block).run w = ((.err, block'), w.hashed [input]) := by
  cases hf : w.sched.now with
  | ok => exact absurd hf h
  | fails => exact ⟨block, by simp [hash, psaHashCompute, hf, World.hashed, World.tick]⟩
  | wrongLen len hl => exact ⟨_, by simp [hash, psaHashCompute, hf, hl, World.hashed, World.tick]; rfl⟩

/-- The four counter bytes of the source are the big-endian counter. -/
theorem toBE_four (c : Nat) : toBE counterLen c =
    [UInt8.ofNat (c >>> 24), UInt8.ofNat (c >>> 16), UInt8.ofNat (c >>> 8), UInt8.ofNat (c >>> 0)] := by
  simp [toBE, Nat.shiftRight_eq_div_pow, Nat.div_div_eq_div_mul]

theorem encodeCounter_bytes {inBuf : Buf maxBufLen} {z old rest : List UInt8} (hz : z.length = skLen)
    (hold : old.length = counterLen) (h : inBuf.bytes.val = z ++ old ++ rest) (c : Nat) :
    (encodeCounter inBuf c).bytes.val = z ++ toBE counterLen c ++ rest := by
  obtain ⟨o0, o1, o2, o3, rfl⟩ : ∃ o0 o1 o2 o3, old = [o0, o1, o2, o3] := by
    match old, hold with
    | [o0, o1, o2, o3], _ => exact ⟨o0, o1, o2, o3, rfl⟩
  have h0 := Bytes.val_write_byte (skLen + 0) z o0 ([o1, o2, o3] ++ rest)
    (by simpa using h) hz (UInt8.ofNat (c >>> 24))
  have h1 := Bytes.val_write_byte (skLen + 1) (z ++ [UInt8.ofNat (c >>> 24)]) o1 ([o2, o3] ++ rest)
    (by simpa using h0) (by simp [hz]) (UInt8.ofNat (c >>> 16))
  have h2 := Bytes.val_write_byte (skLen + 2) (z ++ [UInt8.ofNat (c >>> 24), UInt8.ofNat (c >>> 16)]) o2
    ([o3] ++ rest) (by simpa using h1) (by simp [hz]) (UInt8.ofNat (c >>> 8))
  have h3 := Bytes.val_write_byte (skLen + 3)
    (z ++ [UInt8.ofNat (c >>> 24), UInt8.ofNat (c >>> 16), UInt8.ofNat (c >>> 8)]) o3 rest
    (by simpa using h2) (by simp [hz]) (UInt8.ofNat (c >>> 0))
  rw [toBE_four]
  simpa [encodeCounter] using h3

/-! ## The loop -/

/-- What the output buffer holds after `k` blocks: these blocks, cut at `outLen`, and what it held
before. -/
def filled (f : Nat → List UInt8) (out0 : List UInt8) (outLen k : Nat) : List UInt8 :=
  (Blocks.blocks f k).take outLen ++ out0.drop (min (hashLen * k) outLen)

theorem filled_zero (f : Nat → List UInt8) (out0 : List UInt8) (outLen : Nat) : filled f out0 outLen 0 = out0 := by
  simp [filled, Blocks.blocks]

/-- All blocks: the output, and nothing past it. -/
theorem filled_count {f : Nat → List UInt8} (out0 : List UInt8) (outLen : Nat) :
    filled f out0 outLen (Blocks.count hashLen outLen) = Blocks.output f hashLen outLen ++ out0.drop outLen := by
  have h := Blocks.le_count_mul hashLen_pos outLen
  rw [filled, Nat.min_eq_right h]
  rfl

/-- Fewer blocks than the output takes: whole blocks. -/
theorem filled_lt {f : Nat → List UInt8} (hf : ∀ i, (f (i + 1)).length = hashLen) (out0 : List UInt8)
    {outLen k : Nat} (hk : hashLen * k ≤ outLen) :
    filled f out0 outLen k = Blocks.blocks f k ++ out0.drop (hashLen * k) := by
  rw [filled, Nat.min_eq_left hk, List.take_of_length_le]
  rw [Blocks.length_blocks hf]
  exact hk

theorem blockOffset_eq {outLen k : Nat} (hk : hashLen * k ≤ outLen) (h32 : outLen < 2 ^ 32) :
    blockOffset (k + 1) = hashLen * k := by
  unfold blockOffset
  rw [Nat.add_sub_cancel, Nat.mul_comm, u32_of_lt (by omega)]

/-- The subtraction `out_len - offset` does not underflow, and the copy stays within the output. -/
theorem toCopy_eq {outLen offset : Nat} (h : offset ≤ outLen) (h32 : outLen < 2 ^ 32) :
    toCopy outLen offset = min hashLen (outLen - offset) := by
  have hs : u32 (outLen + 2 ^ 32 - offset) = outLen - offset := by unfold u32; omega
  unfold toCopy
  rw [hs]
  split <;> omega

/-- Copying block `k + 1` out. -/
theorem filled_succ {m : Nat} {f : Nat → List UInt8} (hf : ∀ i, (f (i + 1)).length = hashLen) {out0 out : Bytes m}
    {outLen k : Nat} (hm : outLen ≤ m) (h32 : outLen < 2 ^ 32) (hk : hashLen * k < outLen)
    (h : out.val = filled f out0.val outLen k) :
    (out.write (blockOffset (k + 1)) ((f (k + 1)).take (toCopy outLen (blockOffset (k + 1))))).val =
      filled f out0.val outLen (k + 1) := by
  have hlen : (Blocks.blocks f k).length = hashLen * k := Blocks.length_blocks hf k
  rw [blockOffset_eq hk.le h32, toCopy_eq hk.le h32]
  generalize hc : min hashLen (outLen - hashLen * k) = c
  rw [filled_lt hf _ hk.le] at h
  -- the rest of the old content splits after the copied bytes
  have hsplit : out.val = Blocks.blocks f k ++ (out0.val.drop (hashLen * k)).take c ++
      (out0.val.drop (hashLen * k)).drop c := by rw [h, List.append_assoc, List.take_append_drop]
  have hw := Bytes.val_write_prefix out _ _ _ ((f (k + 1)).take c) hsplit (by
    rw [List.length_take, List.length_take, List.length_drop, hf, Bytes.length_val]; omega)
  have hcut : (Blocks.blocks f k ++ f (k + 1)).take outLen = Blocks.blocks f k ++ (f (k + 1)).take c := by
    rw [List.take_append, List.take_of_length_le (by omega), hlen]
    congr 1
    rw [List.take_eq_take_iff, hf]; omega
  rw [hlen] at hw
  rw [hw, filled, Blocks.blocks, hcut, List.drop_drop]
  congr 2
  rw [Nat.mul_succ]; omega

/-- The hash inputs of the blocks after the first `j`. -/
def kdfInputs (z info : List UInt8) (j k : Nat) : List (List UInt8) :=
  (List.range k).map fun i => kdfInput z info (j + i + 1)

theorem kdfInputs_succ (z info : List UInt8) (j k : Nat) :
    kdfInputs z info j (k + 1) = kdfInput z info (j + 1) :: kdfInputs z info (j + 1) k := by
  simp only [kdfInputs, List.range_succ_eq_map, List.map_cons, List.map_map, Nat.add_zero, List.cons.injEq, true_and]
  apply List.map_congr_left
  intro i _
  simp only [Function.comp_apply]
  congr 1; omega

/-- What the loop of `kdf` does with `n` iterations to go after block `j`: it stores `k` more
blocks, and these are all, or the next call failed. -/
structure KdfLoopSpec {m : Nat} (env : Env) (z info : List UInt8) (out0 : Bytes m) (outLen j n : Nat)
    (out : Buf m) (w : World) (rc : Status) (out' : Buf m) (w' : World) (k : Nat) : Prop where
  le : k ≤ n
  good : w.Good k
  bytes : out'.bytes.val = filled (kdfBlock env z info) out0.val outLen (j + k)
  touched : out'.touched = (out.touched || decide (0 < k))
  ret : (k = n ∧ rc = .ok ∧ w' = w.hashed (kdfInputs z info j k)) ∨
    (k < n ∧ rc = .err ∧ w.sched.fate (w.sched.calls + k) ≠ .ok ∧ w' = w.hashed (kdfInputs z info j (k + 1)))

theorem kdfLoop_spec {m : Nat} (env : Env) (z : Bytes skLen) (info : Label) (out0 : Bytes m) {outLen : Nat}
    (hm : outLen ≤ m) (h32 : outLen < 2 ^ 32) :
    ∀ (n j : Nat) (inBuf : Buf maxBufLen) (block : Buf hashLen) (out : Buf m) (w : World),
      j + n = Blocks.count hashLen outLen →
      (∃ old rest, old.length = counterLen ∧ inBuf.bytes.val = z.val ++ old ++ (info.val ++ rest)) →
      out.bytes.val = filled (kdfBlock env z.val info.val) out0.val outLen j →
      let r := (kdfLoop env (skLen + counterLen + info.val.length) outLen n (j + 1) inBuf block out).run w
      ∃ k, KdfLoopSpec env z.val info.val out0 outLen j n out w r.1.1 r.1.2.2.2 r.2 k
  | 0, j, inBuf, block, out, w, _, _, ho => by
    refine ⟨0, le_refl _, fun i hi => absurd hi (Nat.not_lt_zero i), ho, by simp [kdfLoop], .inl ⟨rfl, rfl, ?_⟩⟩
    simp [kdfLoop, World.hashed, kdfInputs]
  | n + 1, j, inBuf, block, out, w, hj, ⟨old, rest, hold, hin⟩, ho => by
    have henc := encodeCounter_bytes z.2 hold hin (j + 1)
    have hinput : (encodeCounter inBuf (j + 1)).bytes.val.take (skLen + counterLen + info.val.length) =
        kdfInput z.val info.val (j + 1) := by
      rw [henc, ← List.append_assoc, List.take_left' (by simp [Nat.add_assoc])]; rfl
    simp only [kdfLoop, Prog.run_bind, hinput]
    by_cases hf : w.sched.now = .ok
    · rw [hash_ok env hf]
      simp only [ne_eq, not_true, if_false]
      have hlt : hashLen * j < outLen := Blocks.mul_lt_of_lt_count hashLen_pos (by omega)
      have hstep := filled_succ (fun i => length_kdfBlock env z.val info.val (i + 1)) hm h32 hlt ho
      have htouch : 0 < ((env.sha256 (kdfInput z.val info.val (j + 1))).val.take
          (toCopy outLen (blockOffset (j + 1)))).length := by
        rw [List.length_take, Bytes.length_val, blockOffset_eq hlt.le h32, toCopy_eq hlt.le h32]
        have : hashLen = 32 := rfl
        omega
      replace htouch := Buf.write_touched out (blockOffset (j + 1)) _ htouch
      obtain ⟨k, hk⟩ := kdfLoop_spec env z info out0 hm h32 n (j + 1) (encodeCounter inBuf (j + 1))
        ⟨env.sha256 (kdfInput z.val info.val (j + 1)), true⟩
        (out.write (blockOffset (j + 1))
          ((env.sha256 (kdfInput z.val info.val (j + 1))).val.take (toCopy outLen (blockOffset (j + 1)))))
        (w.hashed [kdfInput z.val info.val (j + 1)]) (by omega) ⟨_, rest, by simp, henc⟩ hstep
      generalize (kdfLoop env _ outLen n (j + 1 + 1) _ _ _).run _ = r at hk ⊢
      refine ⟨k + 1, by have := hk.le; omega, fun i hi => ?_, ?_, ?_, ?_⟩
      · cases i with
        | zero => exact hf
        | succ i =>
          have := hk.good i (by omega)
          rwa [show w.sched.calls + (i + 1) = w.sched.calls + 1 + i by omega]
      · rw [show j + (k + 1) = j + 1 + k by omega]
        exact hk.bytes
      · rw [hk.touched, htouch]; simp
      · rw [kdfInputs_succ, kdfInputs_succ]
        rcases hk.ret with ⟨h1, h2, h3⟩ | ⟨h1, h2, h3, h4⟩
        · exact .inl ⟨by omega, h2, by rw [h3, World.hashed_hashed]; rfl⟩
        · refine .inr ⟨by omega, h2, ?_, by rw [h4, World.hashed_hashed]; rfl⟩
          rwa [show w.sched.calls + (k + 1) = w.sched.calls + 1 + k by omega]
    · obtain ⟨block', hb⟩ := hash_err env hf (kdfInput z.val info.val (j + 1)) block
      rw [hb]
      simp only [ne_eq, reduceCtorEq, not_false_eq_true, if_true, Prog.run_pure]
      exact ⟨0, by omega, fun i hi => absurd hi (Nat.not_lt_zero i), ho, by simp,
        .inr ⟨by omega, rfl, hf, by rw [kdfInputs_succ]; rfl⟩⟩

/-! ## The whole function -/

/-- What `kdf` does: it hashes and stores `k` blocks; these are all of the output, or the next call
failed. -/
structure KdfSpec {m : Nat} (env : Env) (z info : List UInt8) (out : Buf m) (outLen : Nat) (w : World)
    (rc : Status) (out' : Buf m) (w' : World) (k : Nat) : Prop where
  good : w.Good k
  touched : out'.touched = (out.touched || decide (0 < k))
  ret : (k = Blocks.count hashLen outLen ∧ rc = .ok ∧
      out'.bytes.val = kdfBytes env z info outLen ++ out.bytes.val.drop outLen ∧
      w'.sched = w.sched.skip k ∧ w'.queries = w.queries ++ kdfInputs z info 0 k) ∨
    (k < Blocks.count hashLen outLen ∧ rc = .err ∧
      out'.bytes.val = Blocks.blocks (kdfBlock env z info) k ++ out.bytes.val.drop (hashLen * k) ∧
      w.sched.fate (w.sched.calls + k) ≠ .ok ∧
      w'.sched = w.sched.skip (k + 1) ∧ w'.queries = w.queries ++ kdfInputs z info 0 (k + 1))

/-- The input buffer of `kdf` before its loop: the key, four bytes of whatever was there, the label. -/
theorem inBuf_layout (b : Buf maxBufLen) (z : Bytes skLen) (info : Label) :
    ∃ old rest, old.length = counterLen ∧
      ((b.write 0 z.val).write (skLen + counterLen) info.val).bytes.val = z.val ++ old ++ (info.val ++ rest) := by
  have hz := z.2
  have hi := info.2.2
  obtain ⟨b, t⟩ := b
  have hlen : (b.val.drop skLen).length = counterLen + (info.val.length + (b.val.drop
      (skLen + counterLen + info.val.length)).length) := by
    simp only [List.length_drop, Bytes.length_val, maxBufLen, maxInLen]; omega
  have h0 : (b.write 0 z.val).val = z.val ++ b.val.drop skLen := by
    rw [Bytes.val_write _ _ _ (by rw [hz]; decide)]; simp [hz]
  have h1 : (b.write 0 z.val).val = z.val ++ (b.val.drop skLen).take counterLen ++
      ((b.val.drop (skLen + counterLen)).take info.val.length) ++
      b.val.drop (skLen + counterLen + info.val.length) := by
    rw [h0, List.append_assoc, List.append_assoc, ← List.drop_drop (i := info.val.length), List.take_append_drop,
      ← List.drop_drop, List.take_append_drop]
  refine ⟨(b.val.drop skLen).take counterLen, b.val.drop (skLen + counterLen + info.val.length), ?_, ?_⟩
  · rw [List.length_take]; omega
  have h2 := Bytes.val_write_prefix _ _ _ _ info.val h1 (by
    rw [List.length_take, List.length_drop, Bytes.length_val]; simp only [maxBufLen, maxInLen]; omega)
  rw [List.length_append, hz, List.length_take, hlen, Nat.min_eq_left (Nat.le_add_right _ _)] at h2
  rw [← List.append_assoc]
  exact h2

theorem kdf_spec {m : Nat} (env : Env) (z : Bytes skLen) (info : Label) (out : Buf m) (outLen : Nat)
    (hm : outLen ≤ m) (h32 : outLen + 31 < 2 ^ 32) (w : World) :
    let r := (kdf env z info out outLen).run w
    ∃ k, KdfSpec env z.val info.val out outLen w r.1.1 r.1.2 r.2 k := by
  have hi := info.2
  have hle : ¬ skLen + counterLen + info.val.length > maxBufLen := by
    simp only [maxBufLen, maxInLen] at *; omega
  have hnum : u32 (outLen + hashLen - 1) / hashLen = Blocks.count hashLen outLen := by
    rw [u32_of_lt (lt_of_le_of_lt (by simp) h32)]; rfl
  obtain ⟨k, hk⟩ := kdfLoop_spec env z info out.bytes hm (by omega) (Blocks.count hashLen outLen) 0
    (((Buf.fresh env.junk maxBufLen).write 0 z.val).write (skLen + counterLen) info.val)
    (Buf.fresh env.junk hashLen) out w (by omega) (inBuf_layout _ z info)
    (filled_zero _ _ _).symm
  unfold kdf
  simp only [hle, if_false, Prog.run_bind, hnum]
  rw [Nat.zero_add] at hk
  generalize (kdfLoop env _ outLen _ (0 + 1) _ _ out).run w = r at hk ⊢
  obtain ⟨⟨rc, inBuf, block, out'⟩, w'⟩ := r
  simp only at hk ⊢
  have hb := hk.bytes
  rw [Nat.zero_add] at hb
  refine ⟨k, hk.good, hk.touched, ?_⟩
  rcases hk.ret with ⟨h1, h2, h3⟩ | ⟨h1, h2, h3, h4⟩
  · refine .inl ⟨h1, h2, ?_, ?_, ?_⟩
    · rw [h1, filled_count] at hb; exact hb
    · simp [h3, World.hashed, kdfInputs]
    · simp [h3, World.hashed]
  · refine .inr ⟨h1, h2, ?_, h3, ?_, ?_⟩
    · rw [filled_lt (fun i => length_kdfBlock env z.val info.val (i + 1)) _
        (Blocks.mul_lt_of_lt_count hashLen_pos h1).le] at hb
      exact hb
    · simp [h4, World.hashed, kdfInputs]
    · simp [h4, World.hashed]

end Esptag.Crypto
