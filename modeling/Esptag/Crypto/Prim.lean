/-
What `crypto.c` is built on: SHA-256 through PSA and big numbers through mbedTLS. Both compute
exactly, but every call may fail; which calls do is decided by the schedule in the `World`. The
world also keeps what no C variable holds: the inputs hashed so far, and every local buffer as it
was left when its function returned.
-/
import Esptag.Common

namespace Esptag.Crypto

open Octets

/-! ## The environment -/

/-- A micro-ecc number: `num_words` = 7 words, least significant first. -/
abbrev Vli := {l : List UInt32 // l.length = 7}

/-- What the crypto module is linked against, and built with: `CONFIG_ESPTAG_ZEROIZE`, SHA-256,
micro-ecc's `EccPoint_compute_public_key` as a function of the scalar's words (the two coordinates,
or nothing where it returns 0), and the content of freshly allocated stack memory. -/
structure Env where
  zeroize : Bool
  sha256 : List UInt8 → Bytes hashLen
  eccPoint : Vli → Option (Vli × Vli)
  junk : Nat → UInt8

/-- `mbedtls_platform_zeroize` of a whole buffer under `#ifdef CONFIG_ESPTAG_ZEROIZE`: what the buffer
holds from then on. -/
def Env.scrub {n : Nat} (env : Env) (b : Buf n) : Buf n := if env.zeroize then b.zeroize else b

/-- How a primitive call turns out: it succeeds, it fails, or (hash calls only) it reports success
with the wrong output length. -/
inductive Fate where
  | ok
  | fails
  | wrongLen (len : Nat) (h : len ≠ hashLen)
  deriving DecidableEq

/-- The local buffers of `crypto.c` and `tag.c`. -/
inductive Local where
  | inBuf | block | buf (half : Bool) | uv | dI | fullKey | compressedKey | skNext
  deriving DecidableEq, Repr

/-- A local buffer as its function left it. -/
structure Dead where
  name : Local
  size : Nat
  buf : Buf size
  deriving DecidableEq

structure World where
  sched : Sched Fate
  queries : List (List UInt8)
  dead : List Dead

/-- A program of the crypto module. -/
abbrev CryptoM := Prog World

namespace World

/-- One more primitive call made. -/
def tick (w : World) : World := { w with sched := w.sched.skip 1 }

/-- The next `n` primitive calls succeed. -/
def Good (w : World) (n : Nat) : Prop := w.sched.All (· = Fate.ok) n

/-- No call fails from `w` on. -/
def Faultless (w : World) : Prop := Sched.Always (· = Fate.ok) w.sched

@[simp] theorem tick_sched (w : World) : w.tick.sched = w.sched.skip 1 := rfl

theorem good_zero (w : World) : w.Good 0 := Sched.all_zero

theorem good_one {w : World} : w.Good 1 ↔ w.sched.now = .ok := Sched.all_one

theorem good_add {w w' : World} {m n : Nat} (h : w'.sched = w.sched.skip m) :
    w.Good (m + n) ↔ w.Good m ∧ w'.Good n := by
  unfold Good
  rw [h]
  exact Sched.all_add

theorem Good.mono {w : World} {m n : Nat} (h : w.Good n) (hmn : m ≤ n) : w.Good m := Sched.All.mono h hmn

/-- The calls up to one that does not succeed are the most that do. -/
theorem Good.le_of_fails {w : World} {k j : Nat} (h : w.Good k) (hf : w.sched.fate (w.sched.calls + j) ≠ .ok) :
    k ≤ j := not_lt.1 fun hlt => hf (h j hlt)

theorem not_good_of_now {w : World} (h : w.sched.now ≠ .ok) {n : Nat} (hn : 0 < n) : ¬ w.Good n :=
  fun hg => h (good_one.1 (hg.mono hn))

theorem Faultless.good {w : World} (h : w.Faultless) (n : Nat) : w.Good n := Sched.Always.all h n

theorem Faultless.of_le {w w' : World} (h : w.Faultless) (hle : w.sched ≤ w'.sched) : w'.Faultless :=
  Sched.Always.of_le h hle

/-- Nothing called yet, and no call fails. -/
def start : World := ⟨⟨fun _ => .ok, 0⟩, [], []⟩

theorem start_faultless : start.Faultless := fun _ _ => rfl

/-- Nothing called yet, and only one call fails. -/
def faltering : World := { start with sched := ⟨fun i => if i = 40 then .fails else .ok, 0⟩ }

end World

/-- An environment to run on: the hash is one more than the number its first 32 bytes spell, the
point multiplication returns the scalar for both coordinates. -/
def Env.counting : Env where
  zeroize := true
  sha256 l := be hashLen (beNat (l.take hashLen) + 1)
  eccPoint k := some (k, k)
  junk _ := 0xA5

/-- Records a local buffer with what it holds when its function returns. -/
def leave {n : Nat} (name : Local) (b : Buf n) : CryptoM Unit :=
  Prog.modify fun w => { w with dead := w.dead ++ [⟨name, n, b⟩] }

@[simp] theorem run_leave {n : Nat} (name : Local) (b : Buf n) (w : World) :
    (leave name b).run w = ((), { w with dead := w.dead ++ [⟨name, n, b⟩] }) := rfl

/-! ## PSA -/

/-- `psa_status_t`, as far as `crypto.c` tells its values apart. -/
inductive PsaStatus where
  | success
  | error
  deriving DecidableEq, Repr

/-- `psa_hash_compute(PSA_ALG_SHA_256, in, in_len, out, HASH_LEN, &actual_len)`: the status, the
output length and the output buffer, which a failed call leaves alone. -/
def psaHashCompute (env : Env) (input : List UInt8) (out : Buf hashLen) :
    CryptoM (PsaStatus × Nat × Buf hashLen) where
  run w :=
    let w' := { w.tick with queries := w.queries ++ [input] }
    match w.sched.now with
    | .ok => ((.success, hashLen, out.write 0 (env.sha256 input).val), w')
    | .fails => ((.error, 0, out), w')
    | .wrongLen len _ => ((.success, len, out.write 0 (env.sha256 input).val), w')

/-! ## mbedTLS big numbers -/

/-- A primitive call with the result `r` (nothing where the library itself refuses); it has none
when it fails, for lack of memory or of randomness. -/
def primCall {α : Type} (r : Option α) : CryptoM (Option α) where
  run w := (if w.sched.now = .ok then r else none, w.tick)

@[simp] theorem run_primCall {α : Type} (r : Option α) (w : World) :
    (primCall r).run w = (if w.sched.now = .ok then r else none, w.tick) := rfl

/-- `mbedtls_mpi_read_binary`. -/
def mpiReadBinary (buf : List UInt8) : CryptoM (Option Nat) := primCall (some (beNat buf))

/-- `mbedtls_mpi_mul_mpi`. -/
def mpiMulMpi (a b : Nat) : CryptoM (Option Nat) := primCall (some (a * b))

/-- `mbedtls_mpi_add_mpi`. -/
def mpiAddMpi (a b : Nat) : CryptoM (Option Nat) := primCall (some (a + b))

/-- `mbedtls_mpi_mod_mpi`, which refuses a zero modulus. -/
def mpiModMpi (a n : Nat) : CryptoM (Option Nat) := primCall (if n = 0 then none else some (a % n))

/-- `mbedtls_mpi_write_binary`: big-endian, padded with leading zeros; refused when the number
does not fit. -/
def mpiWriteBinary (x len : Nat) : CryptoM (Option (List UInt8)) :=
  primCall (if x < 256 ^ len then some (toBE len x) else none)

end Esptag.Crypto
