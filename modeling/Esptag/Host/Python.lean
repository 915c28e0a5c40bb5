/-
What the host scripts share: Python's conversions of integers, which raise when a number does not
fit, the ways a script ends early, and the parameters of `esptag_const.py`.
-/
import Esptag.Common

namespace Esptag

open Octets

/-! ## Ending early -/

/-- The texts the scripts pass to `sys.exit`, by what they name. -/
inductive ExitText where
  /-- `{path}: not a 32-byte seed (expected 64 hex chars or 32 raw bytes)` -/
  | notASeed (path : List Char)
  /-- `d_0 rejection sampling exhausted (impossible; bad seed?)` -/
  | samplingExhausted
  /-- `{path}: bad hex for {key!r} (not a valid esptag seed?)` -/
  | badHex (path key : List Char)
  /-- `{path}: missing {key!r} line (not a valid esptag seed?)` -/
  | missingLine (path key : List Char)
  /-- `{path}: unexpected key sizes (d_0={len}B, sk_0={len}B; want 28/32)` -/
  | keySizes (path : List Char) (lenD0 lenSk0 : Nat)
  /-- `--epochs must be >= 1 and --start must be >= 0` -/
  | badEpochs
  /-- `--interval-ms must be >= 1` -/
  | badInterval
  deriving DecidableEq, Repr

/-- How a script ends early: an exception of a conversion, or `sys.exit`. -/
inductive PyError where
  | overflowError
  | valueError
  | systemExit (text : ExitText)
  deriving DecidableEq, Repr

/-- A script's computation. -/
abbrev PyM := Except PyError

/-! ## Integers -/

/-- `x.to_bytes(n, "big")`. -/
def toBytes (x n : Nat) : PyM (List UInt8) := if x < 256 ^ n then .ok (toBE n x) else .error .overflowError

/-- `bytes([x])`. -/
def byteOf (x : Nat) : PyM (List UInt8) := if x < 256 then .ok [UInt8.ofNat x] else .error .valueError

theorem toBytes_of_lt {x n : Nat} (h : x < 256 ^ n) : toBytes x n = .ok (toBE n x) := if_pos h

theorem bind_eq_ok {ε α β : Type} {x : Except ε α} {f : α → Except ε β} {b : β} (h : (x >>= f) = .ok b) :
    ∃ a, x = .ok a ∧ f a = .ok b := by
  cases x with
  | error e => cases h
  | ok a => exact ⟨a, rfl, h⟩

/-! ## `esptag_const.py` -/

namespace EsptagConst

/-- `SEED_LEN`. -/
abbrev seedLen : Nat := 32

/-- `P224_N`, read from its hexadecimal form. -/
def p224N : Nat :=
  match Text.fromHex "FFFFFFFFFFFFFFFFFFFFFFFFFFFF16A2E0B8F03E13DD29455C5C2A3D".toList with
  | some l => beNat l
  | none => 0

/-- `NAMESPACE`. -/
def nvsNamespace : List Char := "esptag".toList

/-- `KEY_D0`. -/
def keyD0 : List Char := "d_0".toList

/-- `KEY_SK0`. -/
def keySk0 : List Char := "sk_0".toList

end EsptagConst

end Esptag
