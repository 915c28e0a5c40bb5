/-
`crypto.c`: the counter-mode KDF, the ratchet of the symmetric key, the private scalar of an epoch
and its advertising key. Output parameters are passed in with their old content and returned with
their new one; a local buffer is rebound at every store and at its scrubbing, and `leave` records what
it holds where its function returns.
-/
import Esptag.Crypto.Uecc

namespace Esptag.Crypto

open Octets

/-! ## Constants -/

/-- `COUNTER_LEN`. -/
abbrev counterLen : Nat := 4
/-- `MAX_INFO_LEN`. -/
abbrev maxInfoLen : Nat := 9
/-- `MAX_IN_LEN`. -/
abbrev maxInLen : Nat := skLen + counterLen + maxInfoLen
/-- `MAX_BUF_LEN`. -/
abbrev maxBufLen : Nat := maxInLen * 2
/-- `UV_LEN`. -/
abbrev uvLen : Nat := 36
/-- `DIVERSIFY_LEN`. -/
abbrev diversifyLen : Nat := uvLen * 2

/-- `P224_N`. -/
def p224N : List UInt8 :=
  [0xFF, 0xFF, 0xFF, 0xFF, 0xFF, 0xFF, 0xFF,
   0xFF, 0xFF, 0xFF, 0xFF, 0xFF, 0xFF, 0xFF,
   0x16, 0xA2, 0xE0, 0xB8, 0xF0, 0x3E, 0x13,
   0xDD, 0x29, 0x45, 0x5C, 0x5C, 0x2A, 0x3D]

/-- A KDF label of a length `kdf` asserts. -/
abbrev Label := {l : List UInt8 // 0 < l.length ∧ l.length ≤ maxInfoLen}

/-- `LABEL_UPDATE`, without its terminator. -/
def labelUpdate : Label := ⟨Text.ascii "update".toList, by decide⟩

/-- `LABEL_DIVERSIFY`, without its terminator. -/
def labelDiversify : Label := ⟨Text.ascii "diversify".toList, by decide⟩

/-! ## Bringing the module up -/

/-- `psa_crypto_init`. -/
def psaCryptoInit : CryptoM PsaStatus where
  run w := (if w.sched.now = .ok then .success else .error, w.tick)

/-- `crypto_init`. -/
def cryptoInit : CryptoM Status := do
  let status ← psaCryptoInit
  if status ≠ .success then
    return .err
  return .ok

/-! ## The KDF -/

/-- `hash`. -/
def hash (env : Env) (input : List UInt8) (out : Buf hashLen) : CryptoM (Status × Buf hashLen) := do
  let (status, actualLen, out) ← psaHashCompute env input out
  if status ≠ .success then
    return (.err, out)
  if actualLen ≠ hashLen then
    return (.err, out)
  return (.ok, out)

/-- Stores the block counter, big-endian, between `z` and `info`. -/
def encodeCounter (inBuf : Buf maxBufLen) (counter : Nat) : Buf maxBufLen :=
  let inBuf := inBuf.write (skLen + 0) [UInt8.ofNat (counter >>> 24)]
  let inBuf := inBuf.write (skLen + 1) [UInt8.ofNat (counter >>> 16)]
  let inBuf := inBuf.write (skLen + 2) [UInt8.ofNat (counter >>> 8)]
  inBuf.write (skLen + 3) [UInt8.ofNat (counter >>> 0)]

/-- The offset of a block in the output. -/
def blockOffset (counter : Nat) : Nat := u32 ((counter - 1) * hashLen)

/-- How much of a block is copied; the subtraction is of `size_t`s. -/
def toCopy (outLen offset : Nat) : Nat :=
  if u32 (outLen + 2 ^ 32 - offset) < hashLen then u32 (outLen + 2 ^ 32 - offset) else hashLen

section

variable {m : Nat} (env : Env)

/-- The loop of `kdf`, with `n` iterations to go: the status and the buffers it leaves. -/
def kdfLoop (inLen outLen : Nat) : Nat → Nat → Buf maxBufLen → Buf hashLen → Buf m →
    CryptoM (Status × Buf maxBufLen × Buf hashLen × Buf m)
  | 0, _, inBuf, block, out => return (.ok, inBuf, block, out)
  | n + 1, counter, inBuf, block, out => do
    let inBuf := encodeCounter inBuf counter
    let (rc, block) ← hash env (inBuf.bytes.val.take inLen) block
    if rc ≠ .ok then
      return (.err, inBuf, block, out)
    let offset := blockOffset counter
    let out := out.write offset (block.bytes.val.take (toCopy outLen offset))
    kdfLoop inLen outLen n (counter + 1) inBuf block out

/-- `kdf`. The asserted preconditions are in the types of `z` and `info`; `out` points into an
object of `m` bytes. -/
def kdf (z : Bytes skLen) (info : Label) (out : Buf m) (outLen : Nat) : CryptoM (Status × Buf m) := do
  let inLen := skLen + counterLen + info.val.length
  if inLen > maxBufLen then
    return (.err, out)
  let inBuf := Buf.fresh env.junk maxBufLen
  let inBuf := inBuf.write 0 z.val
  let inBuf := inBuf.write (skLen + counterLen) info.val
  let numBlocks := u32 (outLen + hashLen - 1) / hashLen
  let block := Buf.fresh env.junk hashLen
  let (rc, inBuf, block, out) ← kdfLoop env inLen outLen numBlocks 1 inBuf block out
  let inBuf := env.scrub inBuf
  let block := env.scrub block
  leave .inBuf inBuf
  leave .block block
  return (rc, out)

/-! ## The ratchet -/

/-- `crypto_update_sk`. -/
def cryptoUpdateSk (skPrev : Bytes skLen) (skNext : Buf skLen) : CryptoM (Status × Buf skLen) := do
  let (rc, skNext) ← kdf env skPrev labelUpdate skNext skLen
  if rc ≠ .ok then
    return (.err, skNext)
  return (.ok, skNext)

/-- `buf[2][SK_LEN]` of `crypto_advance_sk`; `curr` says which half `sk_curr` points to, and
`sk_next` points to the other. -/
structure PingPong where
  half : Bool → Buf skLen
  curr : Bool

/-- `*sk_curr`. -/
def PingPong.skCurr (buf : PingPong) : Buf skLen := buf.half buf.curr

/-- `*sk_next`. -/
def PingPong.skNext (buf : PingPong) : Buf skLen := buf.half !buf.curr

/-- Stores `*sk_next`. -/
def PingPong.setNext (buf : PingPong) (b : Buf skLen) : PingPong :=
  { buf with half := Function.update buf.half (!buf.curr) b }

/-- Swaps `sk_curr` and `sk_next`. -/
def PingPong.swap (buf : PingPong) : PingPong := { buf with curr := !buf.curr }

/-- Scrubs `buf`, both halves. -/
def PingPong.scrub (buf : PingPong) : PingPong := { buf with half := fun half => env.scrub (buf.half half) }

/-- The loop of `crypto_advance_sk`, with `n` iterations to go. -/
def advanceLoop : Nat → PingPong → CryptoM (Status × PingPong)
  | 0, buf => return (.ok, buf)
  | n + 1, buf => do
    let (rc, next) ← cryptoUpdateSk env buf.skCurr.bytes buf.skNext
    let buf := buf.setNext next
    if rc ≠ .ok then
      return (.err, buf)
    advanceLoop n buf.swap

/-- `crypto_advance_sk`. -/
def cryptoAdvanceSk (sk0 : Bytes skLen) (counter : UInt32) (skI : Bytes skLen) :
    CryptoM (Status × Bytes skLen) := do
  let fresh := Buf.fresh env.junk skLen
  let buf : PingPong := ⟨fun half => if half then fresh else fresh.write 0 sk0.val, false⟩
  let (rc, buf) ← advanceLoop env counter.toNat buf
  if rc ≠ .ok then
    let buf := buf.scrub env
    leave (.buf false) (buf.half false)
    leave (.buf true) (buf.half true)
    return (.err, skI)
  let skI := skI.write 0 buf.skCurr.bytes.val
  let buf := buf.scrub env
  leave (.buf false) (buf.half false)
  leave (.buf true) (buf.half true)
  return (.ok, skI)

/-! ## The advertising key -/

/-- `compute_d`: `d_i = (d_0 · u + v) mod n`. -/
def computeD (d0 : Bytes dLen) (u v : List UInt8) (dI : Buf dLen) : CryptoM (Status × Buf dLen) := do
  let some n ← mpiReadBinary p224N | return (.err, dI)
  let some mu ← mpiReadBinary u | return (.err, dI)
  let some mv ← mpiReadBinary v | return (.err, dI)
  let some acc ← mpiReadBinary d0.val | return (.err, dI)
  let some acc ← mpiMulMpi acc mu | return (.err, dI)
  let some acc ← mpiModMpi acc n | return (.err, dI)
  let some acc ← mpiAddMpi acc mv | return (.err, dI)
  let some acc ← mpiModMpi acc n | return (.err, dI)
  -- the check that acc is non-zero is skipped in the source
  let some written ← mpiWriteBinary acc dLen | return (.err, dI)
  return (.ok, dI.write 0 written)

/-- `d_to_p`. -/
def dToP (d : Bytes dLen) (p : Bytes pLen) : CryptoM (Status × Bytes pLen) := do
  let fullKey := Buf.fresh env.junk pubKeyLen
  let (ret, fullKey) ← ueccComputePublicKey env d fullKey
  if ret ≠ true then
    leave .fullKey fullKey
    return (.err, p)
  let compressedKey := Buf.fresh env.junk compressedLen
  let compressedKey := ueccCompress fullKey.bytes compressedKey
  let fullKey := env.scrub fullKey
  let p := p.write 0 ((compressedKey.bytes.val.drop 1).take pLen)
  let compressedKey := env.scrub compressedKey
  leave .fullKey fullKey
  leave .compressedKey compressedKey
  return (.ok, p)

/-- `crypto_derive_p`. -/
def cryptoDeriveP (d0 : Bytes dLen) (skI : Bytes skLen) (pI : Bytes pLen) : CryptoM (Status × Bytes pLen) := do
  let uv := Buf.fresh env.junk diversifyLen
  let (rc, uv) ← kdf env skI labelDiversify uv diversifyLen
  if rc ≠ .ok then
    let uv := env.scrub uv
    leave .uv uv
    return (.err, pI)
  let dI := Buf.fresh env.junk dLen
  let (rc, dI) ← computeD d0 (uv.bytes.val.take uvLen) (uv.bytes.val.drop uvLen) dI
  let uv := env.scrub uv
  if rc ≠ .ok then
    leave .uv uv
    leave .dI dI
    return (.err, pI)
  let (rc, pI) ← dToP env dI.bytes pI
  let dI := env.scrub dI
  leave .uv uv
  leave .dI dI
  if rc ≠ .ok then
    return (.err, pI)
  return (.ok, pI)

end

end Esptag.Crypto
