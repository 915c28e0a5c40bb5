/-
The symbols shared by the firmware's modules (`common.h`, `crypto.h`) and the build options that
guard its code (`Kconfig.projbuild`).
-/
import Esptag.Lib.Bytes
import Esptag.Lib.Prog
import Esptag.Lib.Text

namespace Esptag

/-- `status_t`. -/
inductive Status where
  | ok
  | err
  deriving DecidableEq, Repr

/-- Why the firmware stops part way: it calls `abort`, or loses power. -/
inductive Stop where
  | abort
  | powerLoss
  deriving DecidableEq, Repr

/-- `SK_LEN`: symmetric key length. -/
abbrev skLen : Nat := 32
/-- `D_LEN`: private scalar length. -/
abbrev dLen : Nat := 28
/-- `P_LEN`: advertising key length. -/
abbrev pLen : Nat := 28
/-- `HASH_LEN`: SHA-256 output length. -/
abbrev hashLen : Nat := 32

theorem hashLen_pos : 0 < hashLen := by decide

/-- A value stored in a `size_t` or a `uint32_t`: both are 32 bits wide on this target. -/
def u32 (x : Nat) : Nat := x % 2 ^ 32

theorem u32_of_lt {x : Nat} (h : x < 2 ^ 32) : u32 x = x := Nat.mod_eq_of_lt h

/-- The build options that decide what the firmware does with its counter:
`CONFIG_ESPTAG_PERSIST_COUNTER` and `CONFIG_ESPTAG_ROTATE_ENABLE`. -/
structure Config where
  persistCounter : Bool
  rotateEnable : Bool
  deriving DecidableEq, Repr

end Esptag
