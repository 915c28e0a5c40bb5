/-
`derive_keys.py` and the output of `gen_seed.py`: the root secrets of a master seed, and the two
files they are written to. The seed is read back from either form it is stored in.
-/
import Esptag.Host.Python

namespace Esptag

open Octets

/-- What `gen_seed.py` writes for a seed. -/
def GenSeed.line (seed : List UInt8) : List Char := Text.toHex seed ++ ['\n']

namespace DeriveKeys

/-! ## The functions -/

/-- `HKDF_SALT`. -/
def hkdfSalt : List UInt8 := Text.ascii "esptag root keys v1".toList

/-- `INFO_SK0`. -/
def infoSk0 : List UInt8 := Text.ascii "esptag sk_0".toList

/-- `INFO_D0`. -/
def infoD0 : List UInt8 := Text.ascii "esptag d_0".toList

section

variable (hmac : List UInt8 → List UInt8 → Bytes hashLen)

/-- `hkdf_extract`. -/
def hkdfExtract (salt ikm : List UInt8) : List UInt8 := (hmac salt ikm).val

/-- The `while` loop of `hkdf_expand`. -/
def expandLoop (prk info : List UInt8) (length : Nat) (out t : List UInt8) (counter : Nat) : PyM (List UInt8) :=
  if out.length < length then do
    let c ← byteOf counter
    let t := (hmac prk (t ++ info ++ c)).val
    expandLoop prk info length (out ++ t) t (counter + 1)
  else .ok out
termination_by length - out.length
decreasing_by
  have : hashLen = 32 := rfl
  simp only [List.length_append, Bytes.length_val]
  omega

/-- `hkdf_expand`. -/
def hkdfExpand (prk info : List UInt8) (length : Nat) : PyM (List UInt8) := do
  let out ← expandLoop hmac prk info length [] [] 1
  return out.take length

/-- The rejection sampling of `derive_roots`. -/
def sampleD0 (prk : List UInt8) (attempt : Nat) : PyM (List UInt8) := do
  let a ← byteOf attempt
  let block ← hkdfExpand hmac prk (infoD0 ++ a) dLen
  let candidate := beNat block
  if 1 ≤ candidate ∧ candidate < EsptagConst.p224N then
    toBytes candidate dLen
  else if attempt + 1 > 255 then
    .error (.systemExit .samplingExhausted)
  else
    sampleD0 prk (attempt + 1)
termination_by 256 - attempt

/-- `derive_roots`. -/
def deriveRoots (seed : List UInt8) : PyM (List UInt8 × List UInt8) := do
  let prk := hkdfExtract hmac hkdfSalt seed
  let sk0 ← hkdfExpand hmac prk infoSk0 skLen
  let d0 ← sampleD0 hmac prk 0
  return (d0, sk0)

end

/-- `load_seed`, of a file with the content `raw`. -/
def loadSeed (path : List Char) (raw : List UInt8) : PyM (List UInt8) :=
  let text := Text.strip (fun b => Text.isAsciiSpace b.toNat) raw
  -- a text of the right length that does not decode falls through
  match if text.length = EsptagConst.seedLen * 2 then (Text.decodeAscii text).bind Text.fromHex else none with
  | some seed => .ok seed
  | none =>
    if raw.length = EsptagConst.seedLen then .ok raw
    else .error (.systemExit (.notASeed path))

/-- `build_nvs_csv`. -/
def buildNvsCsv (d0 sk0 : List UInt8) : List Char :=
  let lines := [
    "key,type,encoding,value".toList,
    EsptagConst.nvsNamespace ++ ",namespace,,".toList,
    EsptagConst.keyD0 ++ ",data,hex2bin,".toList ++ Text.toHex d0,
    EsptagConst.keySk0 ++ ",data,hex2bin,".toList ++ Text.toHex sk0]
  ['\n'].intercalate lines ++ ['\n']

/-- `build_keys_file`. -/
def buildKeysFile (d0 sk0 : List UInt8) : List Char :=
  EsptagConst.keyD0 ++ ['='] ++ Text.toHex d0 ++ ['\n'] ++ EsptagConst.keySk0 ++ ['='] ++ Text.toHex sk0 ++ ['\n']

/-! ## Sizes -/

section

variable {hmac : List UInt8 → List UInt8 → Bytes hashLen}

theorem expandLoop_length {prk info : List UInt8} {length : Nat} {out t : List UInt8} {counter : Nat} {r : List UInt8}
    (h : expandLoop hmac prk info length out t counter = .ok r) : length ≤ r.length := by
  induction out, t, counter using expandLoop.induct hmac prk info length with
  | case1 out t counter hlt ih =>
    rw [expandLoop, if_pos hlt] at h
    obtain ⟨c, -, h⟩ := bind_eq_ok h
    exact ih c h
  | case2 out t counter hge =>
    rw [expandLoop, if_neg hge] at h
    obtain rfl := Except.ok.inj h
    omega

/-- `hkdf_expand` returns as many bytes as it is asked for, if it returns. -/
theorem hkdfExpand_length {prk info : List UInt8} {length : Nat} {r : List UInt8}
    (h : hkdfExpand hmac prk info length = .ok r) : r.length = length := by
  obtain ⟨out, hout, h⟩ := bind_eq_ok h
  obtain rfl := Except.ok.inj h
  rw [List.length_take]
  exact Nat.min_eq_left (expandLoop_length hout)

theorem toBytes_length {x n : Nat} {r : List UInt8} (h : toBytes x n = .ok r) : r.length = n := by
  unfold toBytes at h
  split at h
  · obtain rfl := Except.ok.inj h
    exact length_toBE n x
  · cases h

theorem sampleD0_length {prk : List UInt8} {attempt : Nat} {r : List UInt8}
    (h : sampleD0 hmac prk attempt = .ok r) : r.length = dLen := by
  induction attempt using sampleD0.induct with
  | case1 attempt ih =>
    rw [sampleD0] at h
    obtain ⟨a, -, h⟩ := bind_eq_ok h
    obtain ⟨block, -, h⟩ := bind_eq_ok h
    simp only at h
    split at h
    · exact toBytes_length h
    · split at h
      · cases h
      · exact ih ‹_› h

theorem deriveRoots_length {seed d0 sk0 : List UInt8} (h : deriveRoots hmac seed = .ok (d0, sk0)) :
    d0.length = dLen ∧ sk0.length = skLen := by
  obtain ⟨sk, hsk, h⟩ := bind_eq_ok h
  obtain ⟨d, hd, h⟩ := bind_eq_ok h
  obtain ⟨rfl, rfl⟩ := Prod.mk.inj (Except.ok.inj h)
  exact ⟨sampleD0_length hd, hkdfExpand_length hsk⟩

/-! ## The attempts -/

/-- Up to one block is one HMAC. -/
theorem hkdfExpand_one (prk info : List UInt8) {length : Nat} (h0 : 0 < length) (h : length ≤ hashLen) :
    hkdfExpand hmac prk info length = .ok ((hmac prk (info ++ [1])).val.take length) := by
  have hdone : expandLoop hmac prk info length (hmac prk (info ++ [1])).val (hmac prk (info ++ [1])).val 2 =
      .ok (hmac prk (info ++ [1])).val := by
    rw [expandLoop, if_neg (by rw [Bytes.length_val]; omega)]
  have hloop : expandLoop hmac prk info length [] [] 1 = .ok (hmac prk (info ++ [1])).val := by
    rw [expandLoop, if_pos (by simpa using h0)]
    exact hdone
  unfold hkdfExpand
  rw [hloop]
  rfl

/-- The block of attempt `a`. -/
def rootBlock (hmac : List UInt8 → List UInt8 → Bytes hashLen) (prk : List UInt8) (a : Nat) : List UInt8 :=
  (hmac prk (infoD0 ++ [UInt8.ofNat a] ++ [1])).val.take dLen

/-- A block that is accepted for `d_0`. -/
def InRange (block : List UInt8) : Prop := 1 ≤ beNat block ∧ beNat block < EsptagConst.p224N

instance (block : List UInt8) : Decidable (InRange block) := inferInstanceAs (Decidable (_ ∧ _))

section

variable (prk : List UInt8)

theorem length_rootBlock (a : Nat) : (rootBlock hmac prk a).length = dLen := by
  rw [rootBlock, List.length_take, Bytes.length_val]
  rfl

/-- The block of an attempt is HKDF-Expand's. -/
theorem hkdfExpand_rootBlock (a : Nat) :
    hkdfExpand hmac prk (infoD0 ++ [UInt8.ofNat a]) dLen = .ok (rootBlock hmac prk a) :=
  hkdfExpand_one prk _ (by decide) (by decide)

theorem toBE_rootBlock (a : Nat) : toBE dLen (beNat (rootBlock hmac prk a)) = rootBlock hmac prk a := by
  have h := toBE_beNat (rootBlock hmac prk a)
  rwa [length_rootBlock] at h

/-- One attempt: the block if it is in range, the next attempt if there is one. -/
theorem sampleD0_attempt {a : Nat} (ha : a < 256) :
    sampleD0 hmac prk a =
      if InRange (rootBlock hmac prk a) then .ok (rootBlock hmac prk a)
      else if a + 1 > 255 then .error (.systemExit .samplingExhausted)
      else sampleD0 hmac prk (a + 1) := by
  have hbyte : byteOf a = .ok [UInt8.ofNat a] := if_pos ha
  have hlt : beNat (rootBlock hmac prk a) < 256 ^ dLen := by
    have h := beNat_lt (rootBlock hmac prk a)
    rwa [length_rootBlock] at h
  rw [sampleD0, hbyte]
  simp only [bind, Except.bind, hkdfExpand_rootBlock, toBytes_of_lt hlt, toBE_rootBlock]
  rfl

/-- Rejected attempts lead to the next one. -/
theorem sampleD0_run : ∀ a, a ≤ 255 → (∀ b < a, ¬ InRange (rootBlock hmac prk b)) →
    sampleD0 hmac prk 0 = sampleD0 hmac prk a
  | 0, _, _ => rfl
  | a + 1, ha, hrej => by
    rw [sampleD0_run a (by omega) fun b hb => hrej b (by omega), sampleD0_attempt prk (by omega),
      if_neg (hrej a (by omega)), if_neg (by omega)]

/-- The first block in range is returned. -/
theorem sampleD0_accepted {a : Nat} (ha : a < 256) (hrej : ∀ b < a, ¬ InRange (rootBlock hmac prk b))
    (hacc : InRange (rootBlock hmac prk a)) : sampleD0 hmac prk 0 = .ok (rootBlock hmac prk a) := by
  rw [sampleD0_run prk a (by omega) hrej, sampleD0_attempt prk ha, if_pos hacc]

/-- Without a block in range the attempts run out. -/
theorem sampleD0_exhausted (hrej : ∀ a < 256, ¬ InRange (rootBlock hmac prk a)) :
    sampleD0 hmac prk 0 = .error (.systemExit .samplingExhausted) := by
  rw [sampleD0_run prk 255 (le_refl _) fun b hb => hrej b (by omega), sampleD0_attempt prk (by omega),
    if_neg (hrej 255 (by omega)), if_pos (by omega)]

end

/-- `derive_roots` is the sampling next to one HMAC for `sk_0`. -/
theorem deriveRoots_eq (seed : List UInt8) :
    deriveRoots hmac seed = (sampleD0 hmac (hkdfExtract hmac hkdfSalt seed) 0).map fun d0 =>
      (d0, (hmac (hkdfExtract hmac hkdfSalt seed) (infoSk0 ++ [1])).val) := by
  have hsk0 : hkdfExpand hmac (hkdfExtract hmac hkdfSalt seed) infoSk0 skLen = .ok _ :=
    hkdfExpand_one (hkdfExtract hmac hkdfSalt seed) infoSk0 (by decide) (by decide)
  rw [List.take_of_length_le (by rw [Bytes.length_val])] at hsk0
  unfold deriveRoots
  simp only [hsk0]
  cases sampleD0 hmac (hkdfExtract hmac hkdfSalt seed) 0 <;> rfl

/-- A candidate in range at the first attempt is the root scalar. -/
theorem deriveRoots_first (seed : List UInt8) {block : List UInt8}
    (hb : block = (hmac (hkdfExtract hmac hkdfSalt seed) (infoD0 ++ [0] ++ [1])).val.take dLen)
    (hlo : 1 ≤ beNat block) (hhi : beNat block < EsptagConst.p224N) :
    deriveRoots hmac seed = .ok (block, (hmac (hkdfExtract hmac hkdfSalt seed) (infoSk0 ++ [1])).val.take skLen) := by
  have hfirst : block = rootBlock hmac (hkdfExtract hmac hkdfSalt seed) 0 := hb
  have hacc : InRange block := ⟨hlo, hhi⟩
  rw [hfirst] at hacc ⊢
  rw [deriveRoots_eq, sampleD0_accepted _ (by omega) (fun b hb => absurd hb (Nat.not_lt_zero b)) hacc,
    List.take_of_length_le (by rw [Bytes.length_val])]
  rfl

end

/-! ## Reading the seed back -/

theorem hex_byte_not_space (d : Nat) (hd : d < 16) :
    Text.isAsciiSpace (UInt8.ofNat (Text.hexDigit d).toNat).toNat = false := by
  revert d
  decide

/-- The seed as `gen_seed.py` writes it. -/
theorem loadSeed_line (path : List Char) (seed : Bytes EsptagConst.seedLen) :
    loadSeed path (Text.ascii (GenSeed.line seed.val)) = .ok seed.val := by
  have hspace : ∀ b ∈ Text.ascii (Text.toHex seed.val), Text.isAsciiSpace b.toNat = false := by
    intro b hb
    obtain ⟨c, hc, rfl⟩ := List.mem_map.1 hb
    exact Text.forall_mem_toHex (P := fun c => Text.isAsciiSpace (UInt8.ofNat c.toNat).toNat = false)
      hex_byte_not_space seed.val c hc
  have hascii : ∀ c ∈ Text.toHex seed.val, c.toNat < 128 :=
    Text.forall_mem_toHex (P := fun c => c.toNat < 128) (by decide) seed.val
  have hstrip : Text.strip (fun b => Text.isAsciiSpace b.toNat) (Text.ascii (GenSeed.line seed.val)) =
      Text.ascii (Text.toHex seed.val) := by
    rw [GenSeed.line, Text.ascii, List.map_append]
    exact (Text.strip_concat _ (by decide)).trans (Text.strip_eq_self hspace)
  have hlen : (Text.ascii (Text.toHex seed.val)).length = EsptagConst.seedLen * 2 := by
    rw [Text.length_ascii, Text.length_toHex, seed.2, Nat.mul_comm]
  unfold loadSeed
  simp only [hstrip, hlen, if_true, Text.decodeAscii_ascii hascii, Option.bind_some, Text.fromHex_toHex]

/-- The seed as its raw bytes: they are too few to be taken for the hex form. -/
theorem loadSeed_raw (path : List Char) (seed : Bytes EsptagConst.seedLen) :
    loadSeed path seed.val = .ok seed.val := by
  have hlen := Text.length_strip_le (p := fun b => Text.isAsciiSpace b.toNat) seed.val
  have hne : ¬ (Text.strip (fun b => Text.isAsciiSpace b.toNat) seed.val).length = EsptagConst.seedLen * 2 := by
    rw [seed.2] at hlen
    intro h
    rw [h] at hlen
    exact absurd hlen (by decide)
  unfold loadSeed
  simp only [hne, if_false, seed.2, if_true]

end DeriveKeys

end Esptag
