/-
Text and bytes as Python's methods treat them: stripping, hexadecimal digits in and out
(`bytes.hex`, `bytes.fromhex`), splitting into lines and at a separator. Reading back what was
written returns it.
-/
import Mathlib.Data.List.DropRight
import Mathlib.Tactic

namespace Text

-- Decided along the list, where other instances run through every character or byte there is.
instance (priority := 2000) decidableForallMem {α : Type} {P : α → Prop} [DecidablePred P] (l : List α) :
    Decidable (∀ x ∈ l, P x) :=
  List.decidableBAll P l

/-! ## Stripping -/

section

variable {α : Type} {p : α → Bool}

/-- A list without what satisfies `p` at its two ends. -/
def strip (p : α → Bool) (l : List α) : List α := (l.dropWhile p).rdropWhile p

theorem strip_eq_self {l : List α} (h : ∀ x ∈ l, p x = false) : strip p l = l := by
  have hl : l.dropWhile p = l := by
    cases l with
    | nil => rfl
    | cons x l => rw [List.dropWhile_cons, h x (by simp)]; rfl
  rw [strip, hl, List.rdropWhile_eq_self_iff]
  intro hne
  rw [h _ (List.getLast_mem hne)]
  decide

theorem strip_concat (l : List α) {x : α} (hx : p x = true) : strip p (l ++ [x]) = strip p l := by
  unfold strip
  by_cases h : ∀ y ∈ l, p y = true
  · rw [List.dropWhile_append, List.dropWhile_eq_nil_iff.2 h]
    simp [hx]
  · have hne : l.dropWhile p ≠ [] := fun he => h (List.dropWhile_eq_nil_iff.1 he)
    rw [List.dropWhile_append]
    simp only [List.isEmpty_iff, hne, if_false]
    exact List.rdropWhile_concat_pos _ _ _ hx

theorem length_strip_le (l : List α) : (strip p l).length ≤ l.length :=
  le_trans (List.rdropWhile_prefix p _).length_le (List.dropWhile_suffix p).length_le

end

/-! ## Hexadecimal -/

/-- A digit of `bytes.hex`. -/
def hexDigit (d : Nat) : Char := Char.ofNat (if d < 10 then 48 + d else 87 + d)

/-- The value of a hexadecimal digit of either case. -/
def hexVal (c : Char) : Option Nat :=
  if 48 ≤ c.toNat ∧ c.toNat ≤ 57 then some (c.toNat - 48)
  else if 97 ≤ c.toNat ∧ c.toNat ≤ 102 then some (c.toNat - 87)
  else if 65 ≤ c.toNat ∧ c.toNat ≤ 70 then some (c.toNat - 55)
  else none

/-- ASCII whitespace. -/
def isAsciiSpace (n : Nat) : Bool := (9 ≤ n && n ≤ 13) || n == 32

/-- `bytes.hex`. -/
def toHex : List UInt8 → List Char
  | [] => []
  | b :: bs => hexDigit (b.toNat / 16) :: hexDigit (b.toNat % 16) :: toHex bs

/-- `bytes.fromhex`: ASCII whitespace between bytes is skipped; nothing where it raises
ValueError. -/
def fromHex : List Char → Option (List UInt8)
  | [] => some []
  | [c] => if isAsciiSpace c.toNat then some [] else none
  | c :: c' :: rest =>
    if isAsciiSpace c.toNat then fromHex (c' :: rest)
    else match hexVal c, hexVal c' with
      | some hi, some lo => (fromHex rest).map (UInt8.ofNat (16 * hi + lo) :: ·)
      | _, _ => none

@[simp] theorem length_toHex (l : List UInt8) : (toHex l).length = 2 * l.length := by
  induction l with
  | nil => rfl
  | cons b l ih => simp only [toHex, List.length_cons, ih]; omega

theorem hexVal_hexDigit : ∀ d, d < 16 → hexVal (hexDigit d) = some d := by decide

theorem hexDigit_not_space : ∀ d, d < 16 → isAsciiSpace (hexDigit d).toNat = false := by decide

theorem fromHex_toHex (l : List UInt8) : fromHex (toHex l) = some l := by
  induction l with
  | nil => rfl
  | cons b l ih =>
    have hb := b.toNat_lt
    have h1 : b.toNat / 16 < 16 := by omega
    have h2 : b.toNat % 16 < 16 := by omega
    have hval : 16 * (b.toNat / 16) + b.toNat % 16 = b.toNat := by omega
    simp only [toHex, fromHex, hexDigit_not_space _ h1, Bool.false_eq_true, if_false, hexVal_hexDigit _ h1,
      hexVal_hexDigit _ h2, ih, Option.map_some, hval, UInt8.ofNat_toNat]

/-- What every lower-case digit satisfies, every character of `bytes.hex` does. -/
theorem forall_mem_toHex {P : Char → Prop} (h : ∀ d, d < 16 → P (hexDigit d)) (l : List UInt8) :
    ∀ c ∈ toHex l, P c := by
  induction l with
  | nil => simp [toHex]
  | cons b l ih =>
    have hb := b.toNat_lt
    simp only [toHex, List.forall_mem_cons]
    exact ⟨h _ (by omega), h _ (by omega), ih⟩

/-- `l` is the contiguous hexadecimal digits, of either case, of the bytes. -/
inductive Hex : List Char → List UInt8 → Prop
  | nil : Hex [] []
  | pair {c c' : Char} {hi lo : Nat} {l : List Char} {s : List UInt8} (hc : hexVal c = some hi)
      (hc' : hexVal c' = some lo) (h : Hex l s) : Hex (c :: c' :: l) (UInt8.ofNat (16 * hi + lo) :: s)

/-- `l` is the hexadecimal digits of the bytes, with ASCII whitespace around the pairs. -/
inductive SpacedHex : List Char → List UInt8 → Prop
  | nil : SpacedHex [] []
  | space {c : Char} {l : List Char} {s : List UInt8} (hc : isAsciiSpace c.toNat = true) (h : SpacedHex l s) :
      SpacedHex (c :: l) s
  | pair {c c' : Char} {hi lo : Nat} {l : List Char} {s : List UInt8} (hc : hexVal c = some hi)
      (hc' : hexVal c' = some lo) (h : SpacedHex l s) : SpacedHex (c :: c' :: l) (UInt8.ofNat (16 * hi + lo) :: s)

/-- A hexadecimal digit is not whitespace. -/
theorem not_space_of_hexVal {c : Char} {d : Nat} (h : hexVal c = some d) : isAsciiSpace c.toNat = false := by
  cases hs : isAsciiSpace c.toNat with
  | false => rfl
  | true =>
    have hrange : ¬ (48 ≤ c.toNat ∧ c.toNat ≤ 57) ∧ ¬ (97 ≤ c.toNat ∧ c.toNat ≤ 102) ∧
        ¬ (65 ≤ c.toNat ∧ c.toNat ≤ 70) := by
      simp only [isAsciiSpace, Bool.or_eq_true, Bool.and_eq_true, decide_eq_true_eq, beq_iff_eq] at hs
      omega
    rw [hexVal, if_neg hrange.1, if_neg hrange.2.1, if_neg hrange.2.2] at h
    cases h

theorem fromHex_space {c : Char} (h : isAsciiSpace c.toNat = true) (l : List Char) : fromHex (c :: l) = fromHex l := by
  cases l with
  | nil =>
    rw [fromHex]
    exact if_pos h
  | cons c' l => rw [fromHex, if_pos h]

/-- `bytes.fromhex` reads exactly the pairs of digits with whitespace around them. -/
theorem fromHex_eq_some_iff {l : List Char} {s : List UInt8} : fromHex l = some s ↔ SpacedHex l s := by
  constructor
  · intro h
    induction l using fromHex.induct generalizing s with
    | case1 =>
      obtain rfl := Option.some.inj h
      exact .nil
    | case2 c hc =>
      rw [fromHex_space hc] at h
      obtain rfl := Option.some.inj h
      exact .space hc .nil
    | case3 c hc =>
      have hnone : fromHex [c] = none := if_neg hc
      rw [hnone] at h
      cases h
    | case4 c c' l hc ih =>
      rw [fromHex_space hc] at h
      exact .space hc (ih h)
    | case5 c c' l hc hi lo hlo hhi ih =>
      rw [fromHex, if_neg hc] at h
      simp only [hhi, hlo, Option.map_eq_some_iff] at h
      obtain ⟨t, ht, rfl⟩ := h
      exact .pair hhi hlo (ih ht)
    | case6 c c' l hc hnone =>
      rw [fromHex, if_neg hc] at h
      split at h
      · exact absurd ‹_› (hnone _ _ ‹_›)
      · cases h
  · intro h
    induction h with
    | nil => rfl
    | space hc _ ih => rw [fromHex_space hc, ih]
    | pair hc hc' _ ih =>
      rw [fromHex, not_space_of_hexVal hc, hc, hc']
      simp [ih]

theorem Hex.spaced {l : List Char} {s : List UInt8} (h : Hex l s) : SpacedHex l s := by
  induction h with
  | nil => exact .nil
  | pair hc hc' _ ih => exact .pair hc hc' ih

theorem Hex.length {l : List Char} {s : List UInt8} (h : Hex l s) : l.length = 2 * s.length := by
  induction h with
  | nil => rfl
  | pair _ _ _ ih => simp only [List.length_cons, ih]; omega

/-- Without whitespace the digits are contiguous. -/
theorem SpacedHex.contiguous {l : List Char} {s : List UInt8} (h : SpacedHex l s)
    (hl : ∀ c ∈ l, isAsciiSpace c.toNat = false) : Hex l s := by
  induction h with
  | nil => exact .nil
  | space hc _ _ =>
    rw [hl _ List.mem_cons_self] at hc
    cases hc
  | pair hc hc' _ ih => exact .pair hc hc' (ih fun c hm => hl c (by simp [hm]))

/-- Each whitespace character takes the place of a digit. -/
theorem SpacedHex.length {l : List Char} {s : List UInt8} (h : SpacedHex l s) :
    l.length = 2 * s.length + l.countP fun c => isAsciiSpace c.toNat := by
  induction h with
  | nil => rfl
  | @space c l s hc _ ih =>
    have hcount := List.countP_cons_of_pos (p := fun c : Char => isAsciiSpace c.toNat) (l := l) hc
    rw [hcount, List.length_cons]
    omega
  | pair hc hc' _ ih =>
    rw [List.countP_cons_of_neg (by rw [not_space_of_hexVal hc]; decide),
      List.countP_cons_of_neg (by rw [not_space_of_hexVal hc']; decide)]
    simp only [List.length_cons]
    omega

/-- The characters of spaced digits are ASCII. -/
theorem SpacedHex.ascii {l : List Char} {s : List UInt8} (h : SpacedHex l s) : ∀ c ∈ l, c.toNat < 128 := by
  have hdigit : ∀ {c : Char} {d : Nat}, hexVal c = some d → c.toNat < 128 := by
    intro c d h
    unfold hexVal at h
    split at h
    · omega
    split at h
    · omega
    split at h
    · omega
    · cases h
  induction h with
  | nil => simp
  | space hc _ ih =>
    simp only [isAsciiSpace, Bool.or_eq_true, Bool.and_eq_true, decide_eq_true_eq, beq_iff_eq] at hc
    exact List.forall_mem_cons.2 ⟨by omega, ih⟩
  | pair hc hc' _ ih => exact List.forall_mem_cons.2 ⟨hdigit hc, List.forall_mem_cons.2 ⟨hdigit hc', ih⟩⟩

/-! ## ASCII -/

/-- ASCII text as bytes. -/
def ascii (s : List Char) : List UInt8 := s.map fun c => UInt8.ofNat c.toNat

@[simp] theorem length_ascii (s : List Char) : (ascii s).length = s.length := by simp [ascii]

/-- `bytes.decode("ascii")`; nothing where it raises UnicodeDecodeError. -/
def decodeAscii (l : List UInt8) : Option (List Char) :=
  if ∀ b ∈ l, b.toNat < 128 then some (l.map fun b => Char.ofNat b.toNat) else none

theorem decodeAscii_ascii {s : List Char} (h : ∀ c ∈ s, c.toNat < 128) : decodeAscii (ascii s) = some s := by
  have hb : ∀ c ∈ s, (UInt8.ofNat c.toNat).toNat = c.toNat := fun c hc => by
    have := h c hc
    rw [UInt8.toNat_ofNat']
    omega
  unfold decodeAscii ascii
  rw [if_pos]
  · rw [List.map_map]
    congr 1
    conv_rhs => rw [← List.map_id s]
    apply List.map_congr_left
    intro c hc
    rw [Function.comp_apply, hb c hc, Char.ofNat_toNat, id]
  · intro b hm
    obtain ⟨c, hc, rfl⟩ := List.mem_map.1 hm
    rw [hb c hc]
    exact h c hc

/-- `str.upper` of ASCII text. -/
def upper (s : List Char) : List Char := s.map Char.toUpper

/-- `removeAll`, with `n` characters of an occurrence still to pass over. -/
def removeFrom (p : List Char) : Nat → List Char → List Char
  | _, [] => []
  | n + 1, _ :: rest => removeFrom p n rest
  | 0, c :: rest =>
    if p ≠ [] ∧ p <+: c :: rest then removeFrom p (p.length - 1) rest else c :: removeFrom p 0 rest

/-- `str.replace(p, "")`. -/
def removeAll (p s : List Char) : List Char := removeFrom p 0 s

/-! ## Lines -/

/-- The characters that end a line for `str.splitlines`. -/
def isLineBreak (c : Char) : Bool :=
  [0x0A, 0x0B, 0x0C, 0x0D, 0x1C, 0x1D, 0x1E, 0x85, 0x2028, 0x2029].contains c.toNat

/-- The characters `str.strip` removes. -/
def isSpace (c : Char) : Bool :=
  [0x09, 0x0A, 0x0B, 0x0C, 0x0D, 0x1C, 0x1D, 0x1E, 0x1F, 0x20, 0x85, 0xA0, 0x1680, 0x2000, 0x2001, 0x2002, 0x2003,
    0x2004, 0x2005, 0x2006, 0x2007, 0x2008, 0x2009, 0x200A, 0x2028, 0x2029, 0x202F, 0x205F, 0x3000].contains c.toNat

/-- The lines of a text after the line `cur` begun; a carriage return and a newline end one line. -/
def splitLinesFrom : List Char → List Char → List (List Char)
  | cur, [] => if cur = [] then [] else [cur]
  | cur, c :: rest =>
    if c.toNat = 0x0D ∧ rest.head?.map Char.toNat = some 0x0A then cur :: splitLinesFrom [] rest.tail
    else if isLineBreak c then cur :: splitLinesFrom [] rest
    else splitLinesFrom (cur ++ [c]) rest
termination_by _ l => l.length
decreasing_by all_goals simp only [List.length_cons, List.length_tail]; omega

/-- `str.splitlines`. -/
def splitLines (l : List Char) : List (List Char) := splitLinesFrom [] l

theorem splitLinesFrom_append (cur l rest : List Char) (h : ∀ c ∈ l, isLineBreak c = false) :
    splitLinesFrom cur (l ++ '\n' :: rest) = (cur ++ l) :: splitLines rest := by
  induction l generalizing cur with
  | nil =>
    rw [List.nil_append, splitLinesFrom, if_neg fun h => absurd h.1 (by decide), if_pos (by decide), List.append_nil]
    rfl
  | cons c l ih =>
    have hc := h c (by simp)
    have hcr : ¬ c.toNat = 0x0D := fun h0 => by
      unfold isLineBreak at hc
      rw [h0] at hc
      exact absurd hc (by decide)
    rw [List.cons_append, splitLinesFrom, if_neg fun h => hcr h.1, if_neg (by rw [hc]; decide),
      ih _ fun c' hc' => h c' (by simp [hc'])]
    simp

/-- A line and its newline are split off. -/
theorem splitLines_append {l : List Char} (rest : List Char) (h : ∀ c ∈ l, isLineBreak c = false) :
    splitLines (l ++ '\n' :: rest) = l :: splitLines rest := splitLinesFrom_append [] l rest h

@[simp] theorem splitLines_nil : splitLines [] = [] := by
  rw [splitLines, splitLinesFrom]; rfl

/-! ## Separators -/

/-- `str.partition` at one character: what is before it, the separator if it is there, what is
after it. -/
def partition (sep : Char) (l : List Char) : List Char × List Char × List Char :=
  match l.dropWhile (· ≠ sep) with
  | [] => (l, [], [])
  | _ :: rest => (l.takeWhile (· ≠ sep), [sep], rest)

theorem partition_append (sep : Char) {l : List Char} (rest : List Char) (h : sep ∉ l) :
    partition sep (l ++ sep :: rest) = (l, [sep], rest) := by
  have hl : ∀ c ∈ l, decide (c ≠ sep) = true := fun c hc => by
    rw [decide_eq_true_eq]
    rintro rfl
    exact h hc
  unfold partition
  rw [List.dropWhile_append_of_pos hl, List.takeWhile_append_of_pos hl]
  simp

/-- The rows of a table in comma-separated text, none of whose fields is quoted. -/
def csvRows (l : List Char) : List (List (List Char)) := (splitLines l).map (List.splitOn ',')

/-! ## Files of text -/

/-- `str.encode`. -/
def utf8 (s : List Char) : List UInt8 := s.flatMap String.utf8EncodeChar

/-- `bytes.decode`; nothing where it raises UnicodeDecodeError. -/
def decodeUtf8 (l : List UInt8) : Option (List Char) := (ByteArray.utf8Decode? ⟨l.toArray⟩).map Array.toList

/-- The end-of-line characters of a file, as reading it as text returns them. -/
def universalNewlines : List Char → List Char
  | [] => []
  | '\r' :: '\n' :: rest => '\n' :: universalNewlines rest
  | '\r' :: rest => '\n' :: universalNewlines rest
  | c :: rest => c :: universalNewlines rest

theorem decodeUtf8_utf8 (s : List Char) : decodeUtf8 (utf8 s) = some s := by
  have henc : (⟨(utf8 s).toArray⟩ : ByteArray) = s.utf8Encode := by
    rw [utf8, List.utf8Encode]
    exact ByteArray.ext List.data_toByteArray.symm
  rw [decodeUtf8, henc, List.utf8Decode?_utf8Encode, Option.map_some]

theorem utf8_eq_ascii {s : List Char} (h : ∀ c ∈ s, c.toNat < 128) : utf8 s = ascii s := by
  induction s with
  | nil => rfl
  | cons c s ih =>
    obtain ⟨hc, hs⟩ := List.forall_mem_cons.1 h
    have hsize : c.utf8Size = 1 := by
      rw [Char.utf8Size_eq_one_iff, UInt32.le_iff_toNat_le]
      exact Nat.le_of_lt_succ hc
    rw [utf8, List.flatMap_cons, ← utf8, ih hs, String.utf8EncodeChar_eq_singleton hsize]
    rfl

theorem universalNewlines_eq_self {s : List Char} (h : '\r' ∉ s) : universalNewlines s = s := by
  induction s with
  | nil => rfl
  | cons c s ih =>
    rw [List.mem_cons, not_or] at h
    rw [universalNewlines, ih h.2]
    · rintro _ rfl
      exact absurd rfl h.1
    · rintro rfl
      exact absurd rfl h.1

end Text
