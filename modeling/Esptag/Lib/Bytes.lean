/-
Byte strings of fixed length and byte buffers: `Bytes n` carries its length, `Bytes.write` is the
`memcpy` into it, and `Buf n` is a buffer of program memory that also records whether anything was
ever stored in it. Big-endian numbers: `beNat` reads a byte string, `toBE` writes one of a fixed
width.
-/
import Mathlib.Tactic

namespace Octets

/-! ## Fixed-length byte strings -/

/-- A byte string of length `n`. -/
abbrev Bytes (n : Nat) := {l : List UInt8 // l.length = n}

namespace Bytes

variable {n : Nat}

@[simp] theorem length_val (b : Bytes n) : b.val.length = n := b.2

/-- `n` zero bytes. -/
def zero (n : Nat) : Bytes n := ⟨List.replicate n 0, List.length_replicate⟩

/-- `dst` with `src` stored from offset `off` on; what does not fit is cut off. -/
def write (dst : Bytes n) (off : Nat) (src : List UInt8) : Bytes n :=
  ⟨(dst.val.take off ++ src ++ dst.val.drop (off + src.length)).take n, by
    simp only [List.length_take, List.length_append, List.length_drop, length_val]; omega⟩

theorem val_write (dst : Bytes n) (off : Nat) (src : List UInt8) (h : off + src.length ≤ n) :
    (dst.write off src).val = dst.val.take off ++ src ++ dst.val.drop (off + src.length) := by
  apply List.take_of_length_le
  simp only [List.length_append, List.length_take, List.length_drop, length_val]; omega

/-- Overwriting a whole byte string leaves nothing of it. -/
@[simp] theorem write_all (dst src : Bytes n) : dst.write 0 src.val = src := by
  apply Subtype.ext
  rw [val_write _ _ _ (by simp)]
  simp

/-- A write just after a known prefix extends the prefix. -/
theorem val_write_prefix (dst : Bytes n) (pre old post src : List UInt8)
    (h : dst.val = pre ++ old ++ post) (hl : old.length = src.length) :
    (dst.write pre.length src).val = pre ++ src ++ post := by
  have hn : pre.length + old.length + post.length = n := by
    have := dst.2; rw [h] at this; simpa [Nat.add_assoc] using this
  rw [val_write _ _ _ (by omega), h, ← hl]
  simp

/-- Storing one byte over another. -/
theorem val_write_byte {dst : Bytes n} (off : Nat) (pre : List UInt8) (old : UInt8) (post : List UInt8)
    (h : dst.val = pre ++ [old] ++ post) (hl : pre.length = off) (b : UInt8) :
    (dst.write off [b]).val = pre ++ [b] ++ post := by
  rw [← hl]
  exact val_write_prefix dst pre [old] post [b] h rfl

/-- Two writes that fill a byte string. -/
theorem val_write_write (dst : Bytes n) (s t : List UInt8) (h : s.length + t.length = n) :
    ((dst.write 0 s).write s.length t).val = s ++ t := by
  have h1 : (dst.write 0 s).val = s ++ dst.val.drop s.length := by
    rw [val_write _ _ _ (by omega)]; simp
  have h2 := val_write_prefix (dst.write 0 s) s (dst.val.drop s.length) [] t (by simpa using h1)
    (by rw [List.length_drop, length_val]; omega)
  simpa using h2

end Bytes

/-! ## Buffers -/

/-- A buffer of program memory: its bytes, and whether anything was stored in it since it was
allocated. -/
@[ext] structure Buf (n : Nat) where
  bytes : Bytes n
  touched : Bool
  deriving DecidableEq

namespace Buf

variable {n : Nat}

/-- A buffer just allocated, holding whatever the memory held. -/
def fresh (junk : Nat → UInt8) (n : Nat) : Buf n :=
  ⟨⟨(List.range n).map junk, by simp⟩, false⟩

/-- `memcpy` into a buffer. -/
def write (b : Buf n) (off : Nat) (src : List UInt8) : Buf n :=
  ⟨b.bytes.write off src, b.touched || !src.isEmpty⟩

/-- `memset` of a whole buffer to zero. -/
def zeroize (b : Buf n) : Buf n := ⟨Bytes.zero n, b.touched⟩

/-- Nothing stored in the buffer is left in it. -/
def Clean (b : Buf n) : Prop := b.touched = true → b.bytes = Bytes.zero n

@[simp] theorem write_bytes (b : Buf n) (off : Nat) (src : List UInt8) :
    (b.write off src).bytes = b.bytes.write off src := rfl

theorem write_touched (b : Buf n) (off : Nat) (src : List UInt8) (h : 0 < src.length) :
    (b.write off src).touched = true := by
  have : src.isEmpty = false := by
    rw [List.isEmpty_eq_false_iff_exists_mem]; exact List.exists_mem_of_length_pos h
  simp [write, this]

/-- Overwriting a whole buffer. -/
theorem write_all (b : Buf n) (src : Bytes n) (h : 0 < n) : b.write 0 src.val = ⟨src, true⟩ := by
  have ht := write_touched b 0 src.val (by simpa using h)
  have hb := Bytes.write_all b.bytes src
  exact congrArg₂ Buf.mk hb ht

@[simp] theorem zeroize_touched (b : Buf n) : b.zeroize.touched = b.touched := rfl

theorem clean_zeroize (b : Buf n) : b.zeroize.Clean := fun _ => rfl

theorem clean_fresh (junk : Nat → UInt8) (n : Nat) : (fresh junk n).Clean := fun h => by cases h

end Buf

/-! ## Big-endian numbers -/

/-- The number a byte string spells, most significant byte first. -/
def beNat (l : List UInt8) : Nat := l.foldl (fun acc b => acc * 256 + b.toNat) 0

/-- The `n` low bytes of `x`, most significant first. -/
def toBE : Nat → Nat → List UInt8
  | 0, _ => []
  | n + 1, x => toBE n (x / 256) ++ [UInt8.ofNat x]

@[simp] theorem beNat_nil : beNat [] = 0 := rfl

theorem beNat_concat (l : List UInt8) (b : UInt8) : beNat (l ++ [b]) = beNat l * 256 + b.toNat := by
  simp [beNat, List.foldl_append]

theorem beNat_lt (l : List UInt8) : beNat l < 256 ^ l.length := by
  induction l using List.reverseRecOn with
  | nil => simp
  | append_singleton l b ih =>
    rw [beNat_concat, List.length_append, List.length_singleton, pow_succ]
    have := b.toNat_lt
    omega

@[simp] theorem length_toBE (n x : Nat) : (toBE n x).length = n := by
  induction n generalizing x with
  | zero => rfl
  | succ n ih => simp [toBE, ih]

theorem beNat_toBE (n x : Nat) : beNat (toBE n x) = x % 256 ^ n := by
  induction n generalizing x with
  | zero => simp [toBE, Nat.mod_one]
  | succ n ih =>
    have h : x % 256 ^ (n + 1) = x % 256 + 256 * (x / 256 % 256 ^ n) := by rw [pow_succ', Nat.mod_mul]
    rw [toBE, beNat_concat, ih, UInt8.toNat_ofNat', h]
    omega

theorem beNat_toBE_of_lt {n x : Nat} (h : x < 256 ^ n) : beNat (toBE n x) = x := by
  rw [beNat_toBE, Nat.mod_eq_of_lt h]

/-- A byte string is the fixed-width form of the number it spells: leading zeros included. -/
theorem toBE_beNat (l : List UInt8) : toBE l.length (beNat l) = l := by
  induction l using List.reverseRecOn with
  | nil => rfl
  | append_singleton l b ih =>
    have hb := b.toNat_lt
    rw [List.length_append, List.length_singleton, toBE, beNat_concat]
    congr 1
    · rw [show (beNat l * 256 + b.toNat) / 256 = beNat l by omega, ih]
    · congr 1
      apply UInt8.toNat_inj.1
      rw [UInt8.toNat_ofNat']
      omega

/-- Byte strings of one length that spell the same number are equal. -/
theorem beNat_inj {l m : List UInt8} (hl : l.length = m.length) (h : beNat l = beNat m) : l = m := by
  rw [← toBE_beNat l, ← toBE_beNat m, hl, h]

/-- The fixed-width form as a byte string of that length. -/
def be (n x : Nat) : Bytes n := ⟨toBE n x, length_toBE n x⟩

@[simp] theorem val_be (n x : Nat) : (be n x).val = toBE n x := rfl

theorem toBE_inj {n x y : Nat} (hx : x < 256 ^ n) (hy : y < 256 ^ n) (h : toBE n x = toBE n y) : x = y := by
  rw [← beNat_toBE_of_lt hx, ← beNat_toBE_of_lt hy, h]

end Octets
