/-
What `derive_keys.load_seed` accepts: 32 raw bytes, 64 hexadecimal digits, and, its length test being
made before decoding, texts of 64 characters with whitespace between the digits, which are shorter
seeds.
-/
import Esptag.Host.DeriveKeys

namespace Esptag.DeriveKeys

open Text

/-! ## The two forms -/

/-- The text of a seed file: its content without the whitespace at its ends. -/
def seedText (raw : List UInt8) : List Char :=
  (strip (fun b => isAsciiSpace b.toNat) raw).map fun b => Char.ofNat b.toNat

/-- A file with the content `raw` holds the seed: its bytes, or their hexadecimal digits. -/
inductive SeedFile (raw : List UInt8) : List UInt8 → Prop
  | bytes (hlen : raw.length = EsptagConst.seedLen) : SeedFile raw raw
  | digits {seed : List UInt8} (hlen : (seedText raw).length = EsptagConst.seedLen * 2) (h : Hex (seedText raw) seed) :
      SeedFile raw seed

/-- `load_seed` returns seeds of the right length only, exactly those the file holds, and exits
otherwise. -/
structure LoadsSeed (path : List Char) (raw : List UInt8) : Prop where
  size : ∀ seed, loadSeed path raw = .ok seed → seed.length = EsptagConst.seedLen
  accepts : ∀ seed, loadSeed path raw = .ok seed ↔ SeedFile raw seed
  exits : ∀ e, loadSeed path raw = .error e → e = .systemExit (.notASeed path)

/-- The text of the file is 64 characters, hexadecimal digits with whitespace between some pairs. -/
structure Gapped (raw : List UInt8) : Prop where
  length : (seedText raw).length = EsptagConst.seedLen * 2
  digits : ∃ seed, SpacedHex (seedText raw) seed
  gap : ∃ c ∈ seedText raw, isAsciiSpace c.toNat = true

/-! ## What is decoded -/

section

variable {path : List Char} {raw seed : List UInt8}

theorem length_seedText (raw : List UInt8) :
    (seedText raw).length = (strip (fun b => isAsciiSpace b.toNat) raw).length := List.length_map _

/-- Too few bytes for the text. -/
theorem length_seedText_ne (h : raw.length = EsptagConst.seedLen) :
    (seedText raw).length ≠ EsptagConst.seedLen * 2 := by
  have hle := length_strip_le (p := fun b : UInt8 => isAsciiSpace b.toNat) raw
  rw [h] at hle
  rw [length_seedText]
  exact (lt_of_le_of_lt hle (by decide)).ne

theorem toNat_ofNat_byte (b : UInt8) : (Char.ofNat b.toNat).toNat = b.toNat := by
  have hvalid : b.toNat.isValidChar := .inl (lt_trans b.toNat_lt (by decide))
  rw [Char.ofNat, dif_pos hvalid]
  rfl

/-- Decoding as ASCII and then as hexadecimal. -/
theorem decode_eq_some_iff : (decodeAscii (strip (fun b => isAsciiSpace b.toNat) raw)).bind fromHex = some seed ↔
    SpacedHex (seedText raw) seed := by
  unfold decodeAscii
  split
  case isTrue => exact fromHex_eq_some_iff
  case isFalse hbig =>
    refine iff_of_false (by simp) fun h => hbig fun b hb => ?_
    have hc := h.ascii (Char.ofNat b.toNat) (List.mem_map.2 ⟨b, hb, rfl⟩)
    rwa [toNat_ofNat_byte] at hc

/-- A text of 64 characters that decodes is the seed. -/
theorem loadSeed_digits (hlen : (seedText raw).length = EsptagConst.seedLen * 2) (h : SpacedHex (seedText raw) seed) :
    loadSeed path raw = .ok seed := by
  rw [length_seedText] at hlen
  unfold loadSeed
  simp only [hlen, if_true, decode_eq_some_iff.2 h]

/-- Otherwise the bytes are the seed, if they are enough. -/
theorem loadSeed_bytes (h : ¬ ((seedText raw).length = EsptagConst.seedLen * 2 ∧ ∃ s, SpacedHex (seedText raw) s)) :
    loadSeed path raw =
      if raw.length = EsptagConst.seedLen then .ok raw else .error (.systemExit (.notASeed path)) := by
  rw [length_seedText] at h
  unfold loadSeed
  by_cases hlen : (strip (fun b => isAsciiSpace b.toNat) raw).length = EsptagConst.seedLen * 2
  · cases hdecode : (decodeAscii (strip (fun b => isAsciiSpace b.toNat) raw)).bind fromHex with
    | some s => exact absurd ⟨hlen, s, decode_eq_some_iff.1 hdecode⟩ h
    | none => simp only [hlen, if_true, hdecode]
  · simp only [hlen, if_false]

/-! ## What is accepted -/

/-- Digits with a gap are too short a seed. -/
theorem Gapped.not_loadsSeed (h : Gapped raw) : ¬ LoadsSeed path raw := by
  intro hload
  obtain ⟨seed, hseed⟩ := h.digits
  obtain ⟨c, hc, hspace⟩ := h.gap
  have hsize := hload.size seed (loadSeed_digits h.length hseed)
  have hlen := hseed.length
  have hpos : 0 < (seedText raw).countP fun c => isAsciiSpace c.toNat := List.countP_pos_iff.2 ⟨c, hc, hspace⟩
  rw [h.length, hsize, Nat.mul_comm] at hlen
  omega

/-- 64 contiguous digits are one seed, and no other is accepted. -/
theorem loadsSeed_of_digits (hlen : (seedText raw).length = EsptagConst.seedLen * 2) (hhex : Hex (seedText raw) seed) :
    LoadsSeed path raw := by
  have hrun : loadSeed path raw = .ok seed := loadSeed_digits hlen hhex.spaced
  refine ⟨fun s hs => ?_, fun s => ?_, fun e he => ?_⟩
  · obtain rfl := Except.ok.inj (hrun.symm.trans hs)
    have hl := hhex.length
    rw [hlen] at hl
    omega
  · rw [hrun]
    constructor
    · rintro ⟨⟩
      exact .digits hlen hhex
    · rintro (hraw | ⟨-, hs⟩)
      · exact absurd hlen (length_seedText_ne hraw)
      · have heq := (fromHex_eq_some_iff.2 hhex.spaced).symm.trans (fromHex_eq_some_iff.2 hs.spaced)
        rw [Option.some.inj heq]
  · rw [hrun] at he
    cases he

/-- A file whose text is no seed is accepted for its bytes only. -/
theorem loadsSeed_of_not_text
    (h : ¬ ((seedText raw).length = EsptagConst.seedLen * 2 ∧ ∃ s, SpacedHex (seedText raw) s)) :
    LoadsSeed path raw := by
  have hrun : loadSeed path raw = _ := loadSeed_bytes h
  refine ⟨fun s hs => ?_, fun s => ?_, fun e he => ?_⟩
  · rw [hrun] at hs
    split at hs
    · obtain rfl := Except.ok.inj hs
      assumption
    · cases hs
  · rw [hrun]
    constructor
    · intro hs
      split at hs
      · obtain rfl := Except.ok.inj hs
        exact .bytes ‹_›
      · cases hs
    · rintro (hraw | ⟨hlen, hs⟩)
      · exact if_pos hraw
      · exact absurd ⟨hlen, s, hs.spaced⟩ h
  · rw [hrun] at he
    split at he
    · cases he
    · exact (Except.error.inj he).symm

theorem loadsSeed_of_not_gapped (h : ¬ Gapped raw) : LoadsSeed path raw := by
  by_cases htext : (seedText raw).length = EsptagConst.seedLen * 2 ∧ ∃ s, SpacedHex (seedText raw) s
  · obtain ⟨hlen, seed, hseed⟩ := htext
    have hhex : Hex (seedText raw) seed := hseed.contiguous fun c hc => by
      by_contra hspace
      exact h ⟨hlen, ⟨seed, hseed⟩, c, hc, by simpa using hspace⟩
    exact loadsSeed_of_digits hlen hhex
  · exact loadsSeed_of_not_text htext

end

/-- `load_seed` returns exactly the seeds of the two forms, all of 32 bytes, unless the text of the
file is 64 characters with whitespace between hexadecimal digits. -/
theorem loadsSeed_iff (path : List Char) (raw : List UInt8) : LoadsSeed path raw ↔ ¬ Gapped raw := by
  constructor
  · rintro hload hgap
    exact hgap.not_loadsSeed hload
  · exact loadsSeed_of_not_gapped

/-- Two spaces among 62 digits: a seed of 31 bytes. -/
theorem loadSeed_gapped : ¬ ∀ (path : List Char) (raw : List UInt8), LoadsSeed path raw := by
  intro h
  let raw : List UInt8 := List.replicate 2 48 ++ List.replicate 2 32 ++ List.replicate 60 48
  have hrun : loadSeed [] raw = .ok (List.replicate 31 0) := by decide +kernel
  exact absurd ((h [] raw).size _ hrun) (by decide)

end Esptag.DeriveKeys
