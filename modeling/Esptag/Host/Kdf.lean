/-
The KDF at every length. `kdf` of `crypto.c`, which counts blocks, and `kdf` of `fetch_reports.py`,
which counts bytes, write the same output; a failed hash call leaves the blocks before it; and the
hash inputs of two calls meet only where key, label and block number do.
-/
import Esptag.Host.FetchReports

namespace Esptag.Crypto

open Octets

/-- The hash inputs a call of `kdf` forms, in order. -/
def kdfQueries {m : Nat} (env : Env) (z : Bytes skLen) (info : Label) (out : Buf m) (outLen : Nat) (w : World) :
    List (List UInt8) :=
  ((kdf env z info out outLen).run w).2.queries.drop w.queries.length

/-- What `kdf` leaves in `out`, which has `rest` bytes after the output. -/
structure KdfExact {rest : Nat} (env : Env) (z : Bytes skLen) (info : Label) (outLen : Nat)
    (out : Buf (outLen + rest)) (w : World) (rc : Status) (out' : Buf (outLen + rest)) : Prop where
  -- no hash call fails: the output, the one of the host, and nothing beyond it
  ok : w.Good (Blocks.count hashLen outLen) → rc = .ok ∧ ∃ bytes, bytes.length = outLen ∧
    (∀ k, outLen ≤ hashLen * k → bytes = (Blocks.blocks (kdfBlock env z.val info.val) k).take outLen) ∧
    FetchReports.kdf env.sha256 z.val info.val outLen = .ok bytes ∧
    out'.bytes.val = bytes ++ out.bytes.val.drop outLen
  -- the `j`-th hash call is the first to fail: the blocks before it
  err : ∀ j, 1 ≤ j → j ≤ Blocks.count hashLen outLen → w.Good (j - 1) →
    w.sched.fate (w.sched.calls + (j - 1)) ≠ .ok → rc = .err ∧
      out'.bytes.val = Blocks.blocks (kdfBlock env z.val info.val) (j - 1) ++ out.bytes.val.drop (hashLen * (j - 1))
  index : ∀ counter, 1 ≤ counter → counter ≤ u32 (outLen + hashLen - 1) / hashLen →
    counter < 2 ^ 32 ∧ blockOffset counter = hashLen * (counter - 1) ∧ blockOffset counter ≤ outLen ∧
      toCopy outLen (blockOffset counter) = min hashLen (outLen - blockOffset counter)

section

variable {m outLen : Nat} {env : Env} {z z' : Bytes skLen} {info info' : Label} {w : World}

theorem count_lt (h32 : outLen + 31 < 2 ^ 32) : Blocks.count hashLen outLen < 2 ^ 32 :=
  lt_of_le_of_lt (Nat.div_le_self _ _) h32

theorem numBlocks_eq (h32 : outLen + 31 < 2 ^ 32) :
    u32 (outLen + hashLen - 1) / hashLen = Blocks.count hashLen outLen := by
  rw [u32_of_lt (lt_of_le_of_lt (by simp) h32)]
  rfl

/-- The block numbers `kdf` counts through. -/
theorem kdf_index (h32 : outLen + 31 < 2 ^ 32) {counter : Nat} (h1 : 1 ≤ counter)
    (hc : counter ≤ Blocks.count hashLen outLen) :
    counter < 2 ^ 32 ∧ blockOffset counter = hashLen * (counter - 1) ∧ blockOffset counter ≤ outLen ∧
      toCopy outLen (blockOffset counter) = min hashLen (outLen - blockOffset counter) := by
  obtain ⟨k, rfl⟩ : ∃ k, counter = k + 1 := ⟨counter - 1, by omega⟩
  have hlt : hashLen * k < outLen := Blocks.mul_lt_of_lt_count hashLen_pos hc
  have hoff : blockOffset (k + 1) = hashLen * k := blockOffset_eq hlt.le (by omega)
  rw [hoff, Nat.add_sub_cancel]
  exact ⟨lt_of_le_of_lt hc (count_lt h32), rfl, hlt.le, toCopy_eq hlt.le (by omega)⟩

theorem KdfSpec.of_good {out out' : Buf m} {rc : Status} {w' : World} {k : Nat}
    (h : KdfSpec env z.val info.val out outLen w rc out' w' k) (hg : w.Good (Blocks.count hashLen outLen)) :
    rc = .ok ∧ out'.bytes.val = kdfBytes env z.val info.val outLen ++ out.bytes.val.drop outLen := by
  rcases h.ret with ⟨-, hrc, hbytes, -⟩ | ⟨hk, -, -, hf, -⟩
  · exact ⟨hrc, hbytes⟩
  · exact absurd (hg k hk) hf

theorem KdfSpec.of_fails {out out' : Buf m} {rc : Status} {w' : World} {k j : Nat}
    (h : KdfSpec env z.val info.val out outLen w rc out' w' k) (hj : j < Blocks.count hashLen outLen)
    (hg : w.Good j) (hf : w.sched.fate (w.sched.calls + j) ≠ .ok) :
    rc = .err ∧
      out'.bytes.val = Blocks.blocks (kdfBlock env z.val info.val) j ++ out.bytes.val.drop (hashLen * j) := by
  have hkj : k ≤ j := h.good.le_of_fails hf
  rcases h.ret with ⟨rfl, -⟩ | ⟨-, hrc, hbytes, hfk, -⟩
  · exact absurd hj (not_lt.2 hkj)
  · obtain rfl : k = j := le_antisymm hkj (hg.le_of_fails hfk)
    exact ⟨hrc, hbytes⟩

/-- The inputs are those of the first blocks, in order. -/
theorem kdfQueries_eq (out : Buf m) (hm : outLen ≤ m) (h32 : outLen + 31 < 2 ^ 32) :
    ∃ k ≤ Blocks.count hashLen outLen, kdfQueries env z info out outLen w = kdfInputs z.val info.val 0 k := by
  obtain ⟨k, h⟩ := kdf_spec env z info out outLen hm h32 w
  unfold kdfQueries
  rcases h.ret with ⟨hk, -, -, -, hq⟩ | ⟨hk, -, -, -, -, hq⟩
  · refine ⟨k, hk.le, ?_⟩
    rw [hq, List.drop_left' rfl]
  · refine ⟨k + 1, hk, ?_⟩
    rw [hq, List.drop_left' rfl]

/-- The input at position `i` is that of block `i + 1`. -/
theorem kdfQueries_get {out : Buf m} (hm : outLen ≤ m) (h32 : outLen + 31 < 2 ^ 32) {i : Nat} {q : List UInt8}
    (h : (kdfQueries env z info out outLen w)[i]? = some q) :
    i + 1 < 2 ^ 32 ∧ q = kdfInput z.val info.val (i + 1) := by
  obtain ⟨k, hk, hq⟩ : ∃ k ≤ Blocks.count hashLen outLen,
      kdfQueries env z info out outLen w = kdfInputs z.val info.val 0 k := kdfQueries_eq out hm h32
  rw [hq, kdfInputs, List.getElem?_map, Option.map_eq_some_iff] at h
  obtain ⟨j, hj, rfl⟩ := h
  obtain ⟨hi, rfl⟩ := List.getElem?_eq_some_iff.1 hj
  rw [List.length_range] at hi
  have := count_lt h32
  rw [List.getElem_range, Nat.zero_add]
  exact ⟨by omega, rfl⟩

end

/-- `kdf` at every length: it writes exactly the output, which is the host's, or the blocks before
the hash call that failed; and two calls form one hash input only for one key, one label and one
block number, so "update" and "diversify" never do. -/
theorem kdf_everyLength (env : Env) (z : Bytes skLen) (info : Label) (outLen rest : Nat)
    (out : Buf (outLen + rest)) (h32 : outLen + 31 < 2 ^ 32) (w : World) :
    (let r := (kdf env z info out outLen).run w
     KdfExact env z info outLen out w r.1.1 r.1.2) ∧
    ∀ (env' : Env) (z' : Bytes skLen) (info' : Label) (outLen' rest' : Nat) (out' : Buf (outLen' + rest'))
      (w' : World), outLen' + 31 < 2 ^ 32 →
        (∀ (i j : Nat) (q : List UInt8), (kdfQueries env z info out outLen w)[i]? = some q →
          (kdfQueries env' z' info' out' outLen' w')[j]? = some q → z = z' ∧ info = info' ∧ i = j) ∧
        (info = labelUpdate → info' = labelDiversify →
          List.Disjoint (kdfQueries env z info out outLen w) (kdfQueries env' z' info' out' outLen' w')) := by
  obtain ⟨k, hk⟩ := kdf_spec env z info out outLen (Nat.le_add_right _ _) h32 w
  refine ⟨⟨fun hg => ?_, fun j h1 hj hg hf => ?_, fun counter h1 hc => ?_⟩,
    fun env' z' info' outLen' rest' out' w' h32' => ?_⟩
  · obtain ⟨hrc, hbytes⟩ := hk.of_good hg
    refine ⟨hrc, _, length_kdfBytes env _ _ _, fun k hle => ?_, FetchReports.kdf_eq env _ _ (count_lt h32), hbytes⟩
    exact (Blocks.take_blocks (fun i => length_kdfBlock env _ _ (i + 1)) hashLen_pos hle).symm
  · exact hk.of_fails (by omega) hg hf
  · rw [numBlocks_eq h32] at hc
    exact kdf_index h32 h1 hc
  · have hmeet : ∀ (i j : Nat) (q : List UInt8), (kdfQueries env z info out outLen w)[i]? = some q →
        (kdfQueries env' z' info' out' outLen' w')[j]? = some q → z = z' ∧ info = info' ∧ i = j := by
      intro i j q hi hj
      obtain ⟨hi32, hq⟩ := kdfQueries_get (Nat.le_add_right _ _) h32 hi
      obtain ⟨hj32, hq'⟩ := kdfQueries_get (Nat.le_add_right _ _) h32' hj
      obtain ⟨hz, hinfo, hij⟩ := kdfInput_inj (z.2.trans z'.2.symm) hi32 hj32 (hq.symm.trans hq')
      exact ⟨Subtype.ext hz, Subtype.ext hinfo, Nat.succ.inj hij⟩
    refine ⟨hmeet, ?_⟩
    rintro rfl rfl q hq hq'
    obtain ⟨i, hi⟩ := List.mem_iff_getElem?.1 hq
    obtain ⟨j, hj⟩ := List.mem_iff_getElem?.1 hq'
    have := (hmeet i j q hi hj).2.1
    exact absurd this (by decide)

theorem kdf_everyLength_counting :
    let out : Buf (40 + 8) := Buf.fresh Env.counting.junk 48
    let r := (kdf Env.counting (Bytes.zero skLen) labelUpdate out 40).run World.start
    r.1.1 = .ok ∧ r.1.2.bytes.val.drop 40 = List.replicate 8 0xA5 := by
  intro out r
  obtain ⟨hrc, bytes, hlen, -, -, hbytes⟩ := (kdf_everyLength Env.counting (Bytes.zero skLen) labelUpdate 40 8 out
    (by decide) World.start).1.ok (World.start_faultless.good _)
  refine ⟨hrc, ?_⟩
  rw [hbytes, List.drop_left' hlen]
  rfl

end Esptag.Crypto
