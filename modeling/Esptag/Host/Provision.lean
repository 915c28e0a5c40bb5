/-
The provisioning chain: the master seed `gen_seed.py` writes is the one `derive_keys.py` reads, and
the root secrets it derives from it reach both the host tools, through the key file, and the device,
through the partition CSV and the flash, byte for byte.
-/
import Esptag.Host.FetchReports
import Esptag.Nvs.Register

namespace Esptag.Provision

open Octets Nvs

/-! ## The partition generator -/

/-- A row of the partition CSV: key, type, encoding, value. -/
abbrev Row := List (List Char)

/-- The rows of a table with one namespace of `hex2bin` values. -/
def hexRows (ns : Name) (entries : List (Name × List Char)) : List Row :=
  ["key".toList, "type".toList, "encoding".toList, "value".toList] ::
  [ns, "namespace".toList, [], []] ::
  entries.map fun e => [e.1, "data".toList, "hex2bin".toList, e.2]

/-- ESP-IDF's NVS partition generator, as far as the build relies on it: of a table with one
namespace of `hex2bin` values, small enough for a partition, it makes a flash content that holds the
decoded values as blobs. -/
structure PartitionTool where
  image : List Row → Store
  hex2bin : ∀ (ns : Name) (entries : List (Name × List Char)), ns.length ≤ 15 →
    (∀ e ∈ entries, e.1.length ≤ 15 ∧ (∀ c ∈ e.2, Text.hexVal c ≠ none) ∧ Text.fromHex e.2 ≠ none) →
    (entries.map Prod.fst).Nodup → (entries.map fun e => e.2.length).sum ≤ 1024 →
    ∀ e ∈ entries, ∀ data, Text.fromHex e.2 = some data →
      (image (hexRows ns entries)).get ns e.1 = some (.blob data)

/-- The entries under a namespace, stored one after another. -/
def storeEntries (ns : Name) : Store → List (Name × List Char) → Store
  | st, [] => st
  | st, e :: es => storeEntries ns (st.set ns e.1 (.blob ((Text.fromHex e.2).getD []))) es

theorem get_set_of_ne (st : Store) (ns : Name) {key key' : Name} (h : key' ≠ key) (v : Value) :
    (st.set ns key v).get ns key' = st.get ns key' := by
  unfold Store.get Store.set
  rw [Function.update_self]
  cases st ns <;> simp [Function.update_of_ne h]

theorem storeEntries_get_of_notMem (ns : Name) (key : Name) : ∀ (es : List (Name × List Char)) (st : Store),
    key ∉ es.map Prod.fst → (storeEntries ns st es).get ns key = st.get ns key
  | [], _, _ => rfl
  | e :: es, st, h => by
    rw [List.map_cons, List.mem_cons, not_or] at h
    rw [storeEntries, storeEntries_get_of_notMem ns key es _ h.2, get_set_of_ne _ _ h.1]

theorem storeEntries_get (ns : Name) : ∀ (es : List (Name × List Char)) (st : Store), (es.map Prod.fst).Nodup →
    ∀ e ∈ es, ∀ data, Text.fromHex e.2 = some data → (storeEntries ns st es).get ns e.1 = some (.blob data)
  | e' :: es, st, hnd, e, he, data, hdata => by
    rw [List.map_cons, List.nodup_cons] at hnd
    rw [storeEntries]
    rcases List.mem_cons.1 he with rfl | he
    · rw [storeEntries_get_of_notMem ns e.1 es _ hnd.1, Store.get_set_self, hdata]
      rfl
    · exact storeEntries_get ns es _ hnd.2 e he data hdata

/-- The generator for tables of this one shape, and nothing else. -/
def PartitionTool.reference : PartitionTool where
  image
    | _ :: (ns :: _) :: rows => storeEntries ns (fun _ => none) (rows.map fun r => (r.getD 0 [], r.getD 3 []))
    | _ => fun _ => none
  hex2bin ns entries _ _ hnd _ e he data hdata := by
    have hmap : (entries.map fun e => [e.1, "data".toList, "hex2bin".toList, e.2]).map
        (fun r => (r.getD 0 [], r.getD 3 [])) = entries := by
      rw [List.map_map]
      exact List.map_id' entries
    simp only [hexRows]
    rw [hmap]
    exact storeEntries_get ns entries _ hnd e he data hdata

/-! ## The table -/

/-- A field the table is made of: no comma, no end of line. -/
def Field (f : List Char) : Prop := ∀ c ∈ f, Text.isLineBreak c = false ∧ c ≠ ','

instance (f : List Char) : Decidable (Field f) := inferInstanceAs (Decidable (∀ c ∈ f, _))

theorem field_toHex (l : List UInt8) : Field (Text.toHex l) :=
  Text.forall_mem_toHex (P := fun c => Text.isLineBreak c = false ∧ c ≠ ',') (by decide) l

/-- What holds of the separator and of every element holds throughout a joined list. -/
theorem forall_mem_intercalate {α : Type} {P : α → Prop} {sep : List α} (hsep : ∀ c ∈ sep, P c) :
    ∀ r : List (List α), (∀ f ∈ r, ∀ c ∈ f, P c) → ∀ c ∈ sep.intercalate r, P c
  | [], _ => by simp
  | [f], h => by simpa using h
  | f :: f' :: r, h => by
    obtain ⟨hf, hr⟩ := List.forall_mem_cons.1 h
    have ih := forall_mem_intercalate hsep (f' :: r) hr
    rw [List.intercalate_cons_cons]
    intro c hc
    rcases List.mem_append.1 hc with hc | hc
    · rcases List.mem_append.1 hc with hc | hc
      · exact hf c hc
      · exact hsep c hc
    · exact ih c hc

/-- A text of lines of fields is the table of its rows. -/
theorem csvRows_lines : ∀ (rows : List Row), (∀ r ∈ rows, r ≠ [] ∧ ∀ f ∈ r, Field f) →
    Text.csvRows (rows.flatMap fun r => [','].intercalate r ++ ['\n']) = rows
  | [], _ => by simp [Text.csvRows]
  | r :: rows, h => by
    obtain ⟨⟨hne, hr⟩, hrows⟩ := List.forall_mem_cons.1 h
    have hbreak : ∀ c ∈ [','].intercalate r, Text.isLineBreak c = false :=
      forall_mem_intercalate (by decide) r fun f hf c hc => (hr f hf c hc).1
    have ih := csvRows_lines rows hrows
    unfold Text.csvRows at ih ⊢
    rw [List.flatMap_cons, List.append_assoc, List.singleton_append, Text.splitLines_append _ hbreak, List.map_cons, ih,
      List.splitOn_intercalate ',' (fun f hf hm => (hr f hf _ hm).2 rfl) hne]

/-- The partition CSV is a table of one namespace with the two secrets, where the firmware looks
for them. -/
theorem csvRows_buildNvsCsv (d0 sk0 : List UInt8) : Text.csvRows (DeriveKeys.buildNvsCsv d0 sk0) =
    hexRows nvsNamespace [(nvsKeyD0, Text.toHex d0), (nvsKeySk0, Text.toHex sk0)] := by
  have htext : DeriveKeys.buildNvsCsv d0 sk0 =
      (hexRows nvsNamespace [(nvsKeyD0, Text.toHex d0), (nvsKeySk0, Text.toHex sk0)]).flatMap
        fun r => [','].intercalate r ++ ['\n'] := by
    unfold DeriveKeys.buildNvsCsv hexRows
    simp only [List.map_cons, List.map_nil, List.flatMap_cons, List.flatMap_nil, List.append_nil,
      List.intercalate_cons_cons, List.intercalate_singleton, List.append_assoc]
    -- what is left to compare are the literal parts of the lines
    rfl
  rw [htext]
  apply csvRows_lines
  have hrow : ∀ (key : Name) (data : List UInt8), Field key →
      ∀ f ∈ [key, "data".toList, "hex2bin".toList, Text.toHex data], Field f := by
    intro key data hkey
    simp only [List.forall_mem_cons]
    exact ⟨hkey, by decide, by decide, field_toHex data, by simp⟩
  simp only [hexRows, List.map_cons, List.map_nil]
  refine List.forall_mem_cons.2 ⟨by decide, List.forall_mem_cons.2 ⟨by decide, List.forall_mem_cons.2 ⟨?_, ?_⟩⟩⟩
  · exact ⟨by simp, hrow _ d0 (by decide)⟩
  · rw [List.forall_mem_singleton]
    exact ⟨by simp, hrow _ sk0 (by decide)⟩

/-! ## On the device -/

/-- The generated partition holds the two secrets under the firmware's keys. -/
theorem image_get (tool : PartitionTool) {d0 sk0 : List UInt8} (hd : d0.length = dLen) (hs : sk0.length = skLen) :
    let st := tool.image (Text.csvRows (DeriveKeys.buildNvsCsv d0 sk0))
    st.get nvsNamespace nvsKeyD0 = some (.blob d0) ∧ st.get nvsNamespace nvsKeySk0 = some (.blob sk0) := by
  have hhex : ∀ l c, c ∈ Text.toHex l → Text.hexVal c ≠ none := fun l =>
    Text.forall_mem_toHex (P := fun c => Text.hexVal c ≠ none) (by decide) l
  have h := tool.hex2bin nvsNamespace [(nvsKeyD0, Text.toHex d0), (nvsKeySk0, Text.toHex sk0)] (by decide)
    (by simpa [Text.fromHex_toHex] using ⟨⟨by decide, hhex d0⟩, by decide, hhex sk0⟩) (by simp [nvsKeyD0, nvsKeySk0])
    (by simp [hd, hs, dLen, skLen])
  rw [csvRows_buildNvsCsv]
  exact ⟨h (nvsKeyD0, Text.toHex d0) (by simp) d0 (Text.fromHex_toHex d0),
    h (nvsKeySk0, Text.toHex sk0) (by simp) sk0 (Text.fromHex_toHex sk0)⟩

/-- A seed whose two secrets are in the flash is loaded, unless a flash call fails. -/
theorem nvsStoreLoadSeed_of_get {s : Flash} (hs : Idle s) {d0 : Bytes dLen} {sk0 : Bytes skLen}
    (hd : s.store.get nvsNamespace nvsKeyD0 = some (.blob d0.val))
    (hsk : s.store.get nvsNamespace nvsKeySk0 = some (.blob sk0.val)) (bufD : Bytes dLen) (bufSk : Bytes skLen)
    (hf : s.fate 0 = .ok ∧ s.fate 1 = .ok ∧ s.fate 2 = .ok) :
    ((nvsStoreLoadSeed bufD bufSk).run s).1 = .ok (.ok, d0, sk0) :=
  ((nvsStoreLoadSeed_spec hs bufD bufSk).ok d0 sk0).2
    ⟨hf.1, hf.2.1, hf.2.2, Store.blob_eq_some_iff.2 hd, Store.blob_eq_some_iff.2 hsk⟩

/-- Nothing is lost on the way: the seed is read back from both of its forms, and for the root
secrets derived from it the host tools read the same two byte strings from the key file that the
firmware loads from the partition. -/
theorem provisioning_exact (hmac : List UInt8 → List UInt8 → Bytes hashLen) (tool : PartitionTool)
    (seedPath keysPath : List Char) (seed : Bytes EsptagConst.seedLen) :
    DeriveKeys.loadSeed seedPath (Text.ascii (GenSeed.line seed.val)) = .ok seed.val ∧
    DeriveKeys.loadSeed seedPath seed.val = .ok seed.val ∧
    ∀ d0 sk0, DeriveKeys.deriveRoots hmac seed.val = .ok (d0, sk0) →
      FetchReports.loadSeed keysPath (DeriveKeys.buildKeysFile d0 sk0) = .ok (d0, sk0) ∧
      let st := tool.image (Text.csvRows (DeriveKeys.buildNvsCsv d0 sk0))
      (st.get nvsNamespace nvsKeyD0 = some (.blob d0) ∧ d0.length = dLen) ∧
      (st.get nvsNamespace nvsKeySk0 = some (.blob sk0) ∧ sk0.length = skLen) ∧
      ∀ (s : Flash), Idle s → s.store = st → s.fate 0 = .ok ∧ s.fate 1 = .ok ∧ s.fate 2 = .ok →
        ∀ bufD bufSk, ∃ d sk, ((nvsStoreLoadSeed bufD bufSk).run s).1 = .ok (.ok, d, sk) ∧
          d.val = d0 ∧ sk.val = sk0 := by
  refine ⟨DeriveKeys.loadSeed_line seedPath seed, DeriveKeys.loadSeed_raw seedPath seed, fun d0 sk0 h => ?_⟩
  obtain ⟨hd, hsk⟩ := DeriveKeys.deriveRoots_length h
  obtain ⟨himgD, himgSk⟩ := image_get tool hd hsk
  refine ⟨FetchReports.loadSeed_buildKeysFile keysPath hd hsk, ⟨himgD, hd⟩, ⟨himgSk, hsk⟩, ?_⟩
  intro s hs hst hf bufD bufSk
  rw [← hst] at himgD himgSk
  exact ⟨⟨d0, hd⟩, ⟨sk0, hsk⟩, nvsStoreLoadSeed_of_get hs himgD himgSk bufD bufSk hf, rfl, rfl⟩

/-- An HMAC whose outputs all spell `2 ^ 40`, for a seed of spaces and a flash that never fails. -/
theorem provisioning_exact_spaces :
    let hmac := fun _ _ => be hashLen (2 ^ 40)
    let d0 := be dLen 256
    let sk0 := be skLen (2 ^ 40)
    let seed : Bytes EsptagConst.seedLen := ⟨List.replicate 32 32, List.length_replicate⟩
    let st := PartitionTool.reference.image (Text.csvRows (DeriveKeys.buildNvsCsv d0.val sk0.val))
    DeriveKeys.loadSeed [] (Text.ascii (GenSeed.line seed.val)) = .ok seed.val ∧
    DeriveKeys.loadSeed [] seed.val = .ok seed.val ∧
    DeriveKeys.deriveRoots hmac seed.val = .ok (d0.val, sk0.val) ∧
    FetchReports.loadSeed [] (DeriveKeys.buildKeysFile d0.val sk0.val) = .ok (d0.val, sk0.val) ∧
    ((nvsStoreLoadSeed (Bytes.zero dLen) (Bytes.zero skLen)).run (Flash.boot ⟨fun _ => .ok, 0⟩ st)).1 =
      .ok (.ok, d0, sk0) := by
  intro hmac d0 sk0 seed st
  have hroots : DeriveKeys.deriveRoots hmac seed.val = .ok (d0.val, sk0.val) :=
    DeriveKeys.deriveRoots_first seed.val (by decide) (by decide) (by decide)
  obtain ⟨hline, hraw, h⟩ := provisioning_exact hmac .reference [] [] seed
  obtain ⟨hkeys, -, -, hload⟩ := h _ _ hroots
  obtain ⟨d, sk, hrun, hd, hsk⟩ := hload (Flash.boot ⟨fun _ => .ok, 0⟩ st) (idle_boot _ _) rfl ⟨rfl, rfl, rfl⟩
    (Bytes.zero dLen) (Bytes.zero skLen)
  obtain rfl := Subtype.ext hd
  obtain rfl := Subtype.ext hsk
  exact ⟨hline, hraw, hroots, hkeys, hrun⟩

end Esptag.Provision
