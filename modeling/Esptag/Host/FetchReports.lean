/-
`fetch_reports.py`: the host's derivation of the epochs' private scalars from the root secrets,
which agrees with the firmware's specification for every epoch, and its reading of the key file
that carries these secrets.
-/
import Esptag.Host.DeriveKeys
import Esptag.Tag.Run

namespace Esptag.FetchReports

open Octets Crypto

/-! ## The functions -/

section

variable (sha256 : List UInt8 → Bytes hashLen)

/-- The `while` loop of `kdf`. -/
def kdfLoop (z info : List UInt8) (outLen : Nat) (out : List UInt8) (counter : Nat) : PyM (List UInt8) :=
  if out.length < outLen then do
    let c ← toBytes counter 4
    kdfLoop z info outLen (out ++ (sha256 (z ++ c ++ info)).val) (counter + 1)
  else .ok out
termination_by outLen - out.length
decreasing_by
  have : hashLen = 32 := rfl
  simp only [List.length_append, Bytes.length_val]
  omega

/-- `kdf`. -/
def kdf (z info : List UInt8) (outLen : Nat) : PyM (List UInt8) := do
  let out ← kdfLoop sha256 z info outLen [] 1
  return out.take outLen

/-- `update_sk`. -/
def updateSk (sk : List UInt8) : PyM (List UInt8) := kdf sha256 sk (Text.ascii "update".toList) skLen

/-- `derive_private`. -/
def derivePrivate (d0 sk : List UInt8) : PyM (List UInt8) := do
  let uv ← kdf sha256 sk (Text.ascii "diversify".toList) 72
  let u := beNat (uv.take 36)
  let v := beNat (uv.drop 36)
  let dEpoch := (beNat d0 * u + v) % EsptagConst.p224N
  toBytes dEpoch dLen

/-- The first loop of `derive_epoch_keys`: `n` ratchet steps. -/
def skipEpochs (sk : List UInt8) : Nat → PyM (List UInt8)
  | 0 => .ok sk
  | n + 1 => do
    let sk ← updateSk sha256 sk
    skipEpochs sk n

/-- The second loop of `derive_epoch_keys`: what it yields, with `n` epochs to go. -/
def yieldEpochs (d0 : List UInt8) : List UInt8 → Nat → Nat → PyM (List (Nat × List UInt8))
  | _, _, 0 => .ok []
  | sk, epoch, n + 1 => do
    let d ← derivePrivate sha256 d0 sk
    let sk ← updateSk sha256 sk
    let rest ← yieldEpochs d0 sk (epoch + 1) n
    return (epoch, d) :: rest

/-- `derive_epoch_keys`, run to its end. -/
def deriveEpochKeys (d0 sk0 : List UInt8) (start count : Nat) : PyM (List (Nat × List UInt8)) := do
  let sk ← skipEpochs sha256 sk0 start
  yieldEpochs sha256 d0 sk start count

end

/-! ## The KDF is the firmware's -/

variable (env : Env)

/-- The loop after `k` blocks: it stops at the first number of blocks that covers the output. -/
theorem kdfLoop_eq (z info : List UInt8) {outLen : Nat} (h32 : Blocks.count hashLen outLen < 2 ^ 32) :
    ∀ n k, k + n = Blocks.count hashLen outLen →
      kdfLoop env.sha256 z info outLen (Blocks.blocks (kdfBlock env z info) k) (k + 1) =
        .ok (Blocks.blocks (kdfBlock env z info) (Blocks.count hashLen outLen))
  | 0, k, hk => by
    have hle := Blocks.le_count_mul hashLen_pos outLen
    rw [kdfLoop, if_neg, ← hk, Nat.add_zero]
    rw [Blocks.length_blocks fun i => length_kdfBlock env z info (i + 1), ← Nat.add_zero k, hk]
    exact not_lt.2 hle
  | n + 1, k, hk => by
    have hlt : hashLen * k < outLen := Blocks.mul_lt_of_lt_count hashLen_pos (by omega)
    have hc : toBytes (k + 1) 4 = .ok (toBE 4 (k + 1)) := toBytes_of_lt (lt_of_le_of_lt (by omega) h32)
    rw [kdfLoop, if_pos (by rwa [Blocks.length_blocks fun i => length_kdfBlock env z info (i + 1)]), hc]
    exact kdfLoop_eq z info h32 n (k + 1) (by omega)

theorem kdf_eq (z info : List UInt8) {outLen : Nat} (h32 : Blocks.count hashLen outLen < 2 ^ 32) :
    kdf env.sha256 z info outLen = .ok (kdfBytes env z info outLen) := by
  have h := kdfLoop_eq env z info h32 (Blocks.count hashLen outLen) 0 (Nat.zero_add _)
  unfold kdf
  rw [show ([] : List UInt8) = Blocks.blocks (kdfBlock env z info) 0 from rfl, h]
  rfl

theorem updateSk_eq (sk : Bytes skLen) : updateSk env.sha256 sk.val = .ok (updateStep env sk).val :=
  kdf_eq env sk.val labelUpdate.val (by decide)

/-! ## The scalars are the firmware's -/

theorem p224N_eq : EsptagConst.p224N = curveOrder := by decide +kernel

/-- The private scalar of epoch `e`. -/
def epochPrivate (d0 : Bytes dLen) (sk0 : Bytes skLen) (e : Nat) : Bytes dLen :=
  be dLen (epochScalar env d0 (epochSk env sk0 e))

theorem derivePrivate_eq (d0 : Bytes dLen) (sk0 : Bytes skLen) (e : Nat) :
    derivePrivate env.sha256 d0.val (epochSk env sk0 e).val = .ok (epochPrivate env d0 sk0 e).val := by
  have hkdf : kdf env.sha256 (epochSk env sk0 e).val (Text.ascii "diversify".toList) 72 =
      .ok (diversify env (epochSk env sk0 e)) := kdf_eq env _ labelDiversify.val (by decide)
  have hlt := lt_trans (epochScalar_lt env d0 (epochSk env sk0 e)) curveOrder_lt
  unfold derivePrivate
  rw [hkdf, p224N_eq]
  exact toBytes_of_lt hlt

theorem skipEpochs_eq (sk0 : Bytes skLen) : ∀ n e,
    skipEpochs env.sha256 (epochSk env sk0 e).val n = .ok (epochSk env sk0 (e + n)).val
  | 0, _ => rfl
  | n + 1, e => by
    rw [skipEpochs, updateSk_eq, ← epochSk_succ]
    have h := skipEpochs_eq sk0 n (e + 1)
    rwa [Nat.add_right_comm] at h

theorem yieldEpochs_eq (d0 : Bytes dLen) (sk0 : Bytes skLen) : ∀ n e,
    yieldEpochs env.sha256 d0.val (epochSk env sk0 e).val e n =
      .ok ((List.range' e n).map fun i => (i, (epochPrivate env d0 sk0 i).val))
  | 0, _ => rfl
  | n + 1, e => by
    rw [yieldEpochs, derivePrivate_eq, updateSk_eq, ← epochSk_succ]
    have h := yieldEpochs_eq d0 sk0 n (e + 1)
    simp only [bind, Except.bind] at h ⊢
    rw [h]
    rfl

/-- `derive_epoch_keys` yields the epochs of its range with their scalars, in order. -/
theorem deriveEpochKeys_eq (d0 : Bytes dLen) (sk0 : Bytes skLen) (start count : Nat) :
    deriveEpochKeys env.sha256 d0.val sk0.val start count =
      .ok ((List.range' start count).map fun e => (e, (epochPrivate env d0 sk0 e).val)) := by
  have h := skipEpochs_eq env sk0 start 0
  rw [Nat.zero_add] at h
  unfold deriveEpochKeys
  rw [show sk0.val = (epochSk env sk0 0).val from rfl, h]
  exact yieldEpochs_eq env d0 sk0 count start

/-! ## The key file -/

/-- The loop of `load_seed` over the lines, with the entries read so far, the last one first. -/
def readLines (path : List Char) : List (List Char) → List (List Char × List UInt8) →
    PyM (List (List Char × List UInt8))
  | [], values => .ok values
  | raw :: rest, values =>
    let line := Text.strip Text.isSpace raw
    if line = [] ∨ '=' ∉ line then readLines path rest values
    else
      let (key, _, hexval) := Text.partition '=' line
      match Text.fromHex (Text.strip Text.isSpace hexval) with
      | some value => readLines path rest ((Text.strip Text.isSpace key, value) :: values)
      | none => .error (.systemExit (.badHex path (Text.strip Text.isSpace key)))

/-- `load_seed`, of a file with the text `text`. -/
def loadSeed (path text : List Char) : PyM (List UInt8 × List UInt8) := do
  let values ← readLines path (Text.splitLines text) []
  match values.lookup EsptagConst.keyD0, values.lookup EsptagConst.keySk0 with
  | none, _ => .error (.systemExit (.missingLine path EsptagConst.keyD0))
  | some _, none => .error (.systemExit (.missingLine path EsptagConst.keySk0))
  | some d0, some sk0 =>
    if d0.length ≠ dLen ∨ sk0.length ≠ skLen then
      .error (.systemExit (.keySizes path d0.length sk0.length))
    else .ok (d0, sk0)

/-- A character of a key-file line: none that ends a line, is stripped or separates. -/
def Plain (c : Char) : Prop := Text.isLineBreak c = false ∧ Text.isSpace c = false ∧ c ≠ '='

instance (c : Char) : Decidable (Plain c) := inferInstanceAs (Decidable (_ ∧ _ ∧ _))

theorem plain_toHex (l : List UInt8) : ∀ c ∈ Text.toHex l, Plain c :=
  Text.forall_mem_toHex (P := Plain) (by decide) l

/-- A line `key=hex` is one entry. -/
theorem readLines_entry (path : List Char) {key : List Char} (hkey : ∀ c ∈ key, Plain c) (value : List UInt8)
    (rest : List (List Char)) (values : List (List Char × List UInt8)) :
    readLines path ((key ++ '=' :: Text.toHex value) :: rest) values =
      readLines path rest ((key, value) :: values) := by
  have hvalue := plain_toHex value
  have hline : Text.strip Text.isSpace (key ++ '=' :: Text.toHex value) = key ++ '=' :: Text.toHex value := by
    apply Text.strip_eq_self
    simp only [List.mem_append, List.mem_cons]
    rintro c (hc | rfl | hc)
    · exact (hkey c hc).2.1
    · decide
    · exact (hvalue c hc).2.1
  have hskip : ¬ (key ++ '=' :: Text.toHex value = [] ∨ '=' ∉ key ++ '=' :: Text.toHex value) := by simp
  have hpart := Text.partition_append '=' (Text.toHex value) fun hm => (hkey _ hm).2.2 rfl
  have hk : Text.strip Text.isSpace key = key := Text.strip_eq_self fun c hc => (hkey c hc).2.1
  have hv : Text.strip Text.isSpace (Text.toHex value) = Text.toHex value :=
    Text.strip_eq_self fun c hc => (hvalue c hc).2.1
  rw [readLines]
  simp only [hline, hskip, if_false, hpart, hk, hv, Text.fromHex_toHex]

theorem splitLines_entry {key : List Char} (hkey : ∀ c ∈ key, Plain c) (value : List UInt8) (rest : List Char) :
    Text.splitLines ((key ++ '=' :: Text.toHex value) ++ '\n' :: rest) =
      (key ++ '=' :: Text.toHex value) :: Text.splitLines rest := by
  apply Text.splitLines_append
  simp only [List.mem_append, List.mem_cons]
  rintro c (hc | rfl | hc)
  · exact (hkey c hc).1
  · decide
  · exact (plain_toHex value c hc).1

/-- The key file is read back as the secrets it was built from. -/
theorem loadSeed_buildKeysFile (path : List Char) {d0 sk0 : List UInt8} (hd : d0.length = dLen)
    (hs : sk0.length = skLen) : loadSeed path (DeriveKeys.buildKeysFile d0 sk0) = .ok (d0, sk0) := by
  have hkd : ∀ c ∈ EsptagConst.keyD0, Plain c := by decide
  have hks : ∀ c ∈ EsptagConst.keySk0, Plain c := by decide
  have hlines : Text.splitLines (DeriveKeys.buildKeysFile d0 sk0) =
      [EsptagConst.keyD0 ++ '=' :: Text.toHex d0, EsptagConst.keySk0 ++ '=' :: Text.toHex sk0] := by
    have h1 := splitLines_entry hkd d0 (EsptagConst.keySk0 ++ '=' :: Text.toHex sk0 ++ '\n' :: [])
    have h2 := splitLines_entry hks sk0 []
    rw [h2, Text.splitLines_nil] at h1
    rw [← h1]
    congr 1
    simp [DeriveKeys.buildKeysFile]
  have hne : (EsptagConst.keyD0 == EsptagConst.keySk0) = false := by decide
  unfold loadSeed
  rw [hlines, readLines_entry path hkd, readLines_entry path hks, readLines]
  simp [bind, Except.bind, List.lookup_cons, hne, hd, hs]

end Esptag.FetchReports
