/-
Loading the seed, after any sequence of calls from a boot: it is accepted exactly when it is stored
in full, and what is not accepted does not reach past the buffers.
-/
import Esptag.Nvs.Register

namespace Esptag.Nvs

open Octets

/-- A read of at most `n` bytes of `v` turned the buffer `out` into `out'`: it left it alone, or
stored a blob that fits, and what is past the blob stayed. -/
def Stored {n : Nat} (v : Option Value) (out out' : Bytes n) : Prop :=
  out' = out ∨ ∃ data, v = some (.blob data) ∧ data.length ≤ n ∧ out'.val = data ++ out.val.drop data.length

/-- The calls of `nvs_store_load_seed` succeed from `s`, and both keys hold blobs of the right
lengths. -/
structure Provisioned (s : Flash) (d sk : List UInt8) : Prop where
  openOk : ∃ id s', (nvsOpen nvsNamespace .readOnly).run s = (.ok (.ok, id), s')
  readD0 : s.fate 1 = .ok
  readSk0 : s.fate 2 = .ok
  d0 : s.store.get nvsNamespace nvsKeyD0 = some (.blob d)
  sk0 : s.store.get nvsNamespace nvsKeySk0 = some (.blob sk)
  lenD0 : d.length = dLen
  lenSk0 : sk.length = skLen

section

variable {s : Flash} {d : List UInt8} {sk : List UInt8}

/-- The open succeeds when it does not fail and the namespace exists. -/
theorem open_ok_iff (hs : Idle s) :
    (∃ id s', (nvsOpen nvsNamespace .readOnly).run s = (.ok (.ok, id), s')) ↔
      s.fate 0 = .ok ∧ s.store nvsNamespace ≠ none := by
  rw [run_nvsOpen nvsNamespace .readOnly hs.noneOpen]
  cases hf : s.fate 0 with
  | fails code stored => simp
  | cut stored => simp
  | ok =>
    by_cases hns : s.store nvsNamespace = none
    · simp [hns]
    · simp [hns]

theorem provisioned_iff (hs : Idle s) (d : Bytes dLen) (sk : Bytes skLen) :
    Provisioned s d.val sk.val ↔ s.fate 0 = .ok ∧ s.fate 1 = .ok ∧ s.fate 2 = .ok ∧
      s.store.blob dLen nvsNamespace nvsKeyD0 = some d ∧ s.store.blob skLen nvsNamespace nvsKeySk0 = some sk := by
  rw [Store.blob_eq_some_iff, Store.blob_eq_some_iff]
  constructor
  · rintro ⟨hopen, h1, h2, hd, hsk, -, -⟩
    exact ⟨((open_ok_iff hs).1 hopen).1, h1, h2, hd, hsk⟩
  · rintro ⟨h0, h1, h2, hd, hsk⟩
    have hns : s.store nvsNamespace ≠ none := fun hns => by
      rw [Store.get, hns] at hd
      cases hd
    exact ⟨(open_ok_iff hs).2 ⟨h0, hns⟩, h1, h2, hd, hsk, d.2, sk.2⟩

theorem stored_seedD0 (s : Flash) (d0 : Bytes dLen) :
    Stored (s.store.get nvsNamespace nvsKeyD0) d0 (s.seedD0 d0) := by
  unfold Flash.seedD0
  split
  · exact Store.readInto_cases _ _ _ _
  · exact .inl rfl

theorem stored_seedSk0 (s : Flash) (sk0 : Bytes skLen) :
    Stored (s.store.get nvsNamespace nvsKeySk0) sk0 (s.seedSk0 sk0) := by
  unfold Flash.seedSk0
  split
  · exact Store.readInto_cases _ _ _ _
  · exact .inl rfl

/-- A change of `sk_0` means that `d_0` was read and accepted. -/
theorem accepted_of_seedSk0 {sk0 : Bytes skLen} (d0 : Bytes dLen) (h : s.seedSk0 sk0 ≠ sk0) :
    s.store.get nvsNamespace nvsKeyD0 = some (.blob (s.seedD0 d0).val) := by
  unfold Flash.seedSk0 at h
  split at h
  case isTrue hc =>
    obtain ⟨h0, ⟨h1, hsome⟩, -⟩ := hc
    obtain ⟨d, hd⟩ := Option.isSome_iff_exists.1 hsome
    rw [Flash.seedD0, if_pos ⟨h0, h1⟩, Store.readInto_of_blob hd, ← Store.blob_eq_some_iff]
    exact hd
  case isFalse => exact absurd rfl h

end

/-- `nvs_store_load_seed` returns OK exactly for a seed provisioned in full, which it then leaves in
the buffers; in every case it writes within them, and it touches `sk_0` only when the `d_0` it read
was accepted. -/
theorem loadSeed_provisioned (sched : Sched Fate) (store : Store) (cs : List Call) (d0 : Bytes dLen)
    (sk0 : Bytes skLen) :
    let s := (Flash.boot sched store).steps cs
    let r := ((nvsStoreLoadSeed d0 sk0).run s).1
    ((∃ d sk, r = .ok (.ok, d, sk)) ↔ ∃ d sk, Provisioned s d sk) ∧
    (∀ d sk, r = .ok (.ok, d, sk) → s.store.get nvsNamespace nvsKeyD0 = some (.blob d.val) ∧
      s.store.get nvsNamespace nvsKeySk0 = some (.blob sk.val)) ∧
    ∀ rc d sk, r = .ok (rc, d, sk) →
      Stored (s.store.get nvsNamespace nvsKeyD0) d0 d ∧ Stored (s.store.get nvsNamespace nvsKeySk0) sk0 sk ∧
      (sk ≠ sk0 → s.store.get nvsNamespace nvsKeyD0 = some (.blob d.val)) := by
  intro s r
  have hs : Idle s := (steps_spec cs (idle_boot sched store)).idle
  have hspec : SeedSpec s r _ := nvsStoreLoadSeed_spec hs d0 sk0
  have hleft : SeedLeft s d0 sk0 r _ := nvsStoreLoadSeed_left hs d0 sk0
  refine ⟨?_, fun d sk h => ?_, fun rc d sk h => ?_⟩
  · constructor
    · rintro ⟨d, sk, h⟩
      exact ⟨d.val, sk.val, (provisioned_iff hs d sk).2 ((hspec.ok d sk).1 h)⟩
    · rintro ⟨d, sk, h⟩
      exact ⟨⟨d, h.lenD0⟩, ⟨sk, h.lenSk0⟩, (hspec.ok _ _).2 ((provisioned_iff hs _ _).1 h)⟩
  · obtain ⟨-, -, -, hd, hsk⟩ := (hspec.ok d sk).1 h
    exact ⟨Store.blob_eq_some_iff.1 hd, Store.blob_eq_some_iff.1 hsk⟩
  · obtain ⟨rfl, rfl⟩ := hleft.bufs rc d sk h
    exact ⟨stored_seedD0 s d0, stored_seedSk0 s sk0, accepted_of_seedSk0 d0⟩

end Esptag.Nvs
