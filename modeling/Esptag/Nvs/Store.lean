/-
`nvs_store.c`: the provisioned seed, read from a namespace the firmware never writes, and the
rotation counter, kept in a namespace of its own. What each function returns, stores and leaves
open, for every fate of the flash calls it makes.
-/
import Esptag.Nvs.Basic

namespace Esptag.Nvs

open Octets

/-! ## The functions -/

/-- `NVS_NAMESPACE`. -/
def nvsNamespace : Name := "esptag".toList
/-- `NVS_KEY_D0`. -/
def nvsKeyD0 : Name := "d_0".toList
/-- `NVS_KEY_SK0`. -/
def nvsKeySk0 : Name := "sk_0".toList
/-- `NVS_NAMESPACE_STATE`. -/
def nvsNamespaceState : Name := "esptag_st".toList
/-- `NVS_KEY_COUNTER`. -/
def nvsKeyCounter : Name := "counter".toList

theorem nvsNamespace_ne : nvsNamespace ≠ nvsNamespaceState := by decide

/-- `nvs_store_init`. -/
def nvsStoreInit : FlashM Status := do
  let err ← nvsFlashInit
  if err ≠ .ok then
    return .err
  return .ok

/-- `load_blob`, into a buffer of the expected length. -/
def loadBlob {n : Nat} (handle : Nat) (key : Name) (out : Bytes n) : FlashM (Status × Bytes n) := do
  let (err, len, out) ← nvsGetBlob handle key out
  if err ≠ .ok then
    return (.err, out)
  if len ≠ n then
    return (.err, out)
  return (.ok, out)

/-- `nvs_store_load_seed`. -/
def nvsStoreLoadSeed (d0 : Bytes dLen) (sk0 : Bytes skLen) : FlashM (Status × Bytes dLen × Bytes skLen) := do
  let (err, handle) ← nvsOpen nvsNamespace .readOnly
  if err ≠ .ok then
    return (.err, d0, sk0)
  let (rc, d0) ← loadBlob handle nvsKeyD0 d0
  -- sk_0 is read only when d_0 was accepted
  let (rc, sk0) ← if rc ≠ .ok then pure (Status.err, sk0) else loadBlob handle nvsKeySk0 sk0
  let ret : Status := if rc ≠ .ok then .err else .ok
  nvsClose handle
  return (ret, d0, sk0)

/-- `nvs_store_load_counter`. -/
def nvsStoreLoadCounter (counter : UInt32) : FlashM (Status × UInt32) := do
  let (err, handle) ← nvsOpen nvsNamespaceState .readOnly
  if err = .notFound then
    return (.ok, 0)
  if err ≠ .ok then
    return (.err, counter)
  let (err, counter) ← nvsGetU32 handle nvsKeyCounter counter
  nvsClose handle
  if err = .notFound then
    return (.ok, 0)
  if err ≠ .ok then
    return (.err, counter)
  return (.ok, counter)

/-- `nvs_store_save_counter`. -/
def nvsStoreSaveCounter (counter : UInt32) : FlashM Status := do
  let (err, handle) ← nvsOpen nvsNamespaceState .readWrite
  if err ≠ .ok then
    return .err
  let err ← nvsSetU32 handle nvsKeyCounter counter
  if err ≠ .ok then
    nvsClose handle
    return .err
  let err ← nvsCommit handle
  nvsClose handle
  if err ≠ .ok then
    return .err
  return .ok

/-! ## Between calls -/

/-- No handle is open, and each one opened since the boot was closed once. -/
structure Idle (s : Flash) : Prop where
  noneOpen : s.handles = []
  balanced : s.closed = s.opened
  once : s.opened.Nodup
  issued : ∀ id ∈ s.opened, id < s.next

theorem idle_reboot (s : Flash) : Idle s.reboot := ⟨rfl, rfl, List.nodup_nil, fun _ h => by cases h⟩

theorem Idle.after {s : Flash} (h : Idle s) (k : Nat) (used : Bool) (st : Store) : Idle (s.after k used st) := by
  cases used with
  | false => exact ⟨rfl, h.balanced, h.once, h.issued⟩
  | true =>
    refine ⟨rfl, congrArg (· ++ [s.next]) h.balanced, ?_, ?_⟩
    · refine List.nodup_append.2 ⟨h.once, List.nodup_singleton _, fun a ha b hb => ?_⟩
      rw [List.mem_singleton] at hb
      have := h.issued a ha
      omega
    · intro id hid
      simp only [Flash.after, if_true] at hid ⊢
      rcases List.mem_append.1 hid with hid | hid
      · exact Nat.lt_succ_of_lt (h.issued id hid)
      · rw [List.mem_singleton] at hid; omega

theorem Idle.tick {s : Flash} (h : Idle s) : Idle s.tick := ⟨h.noneOpen, h.balanced, h.once, h.issued⟩

theorem run_nvsStoreInit (s : Flash) : nvsStoreInit.run s = (match s.sched.now with
    | .ok => .ok .ok
    | .fails _ _ => .ok .err
    | .cut _ => .error .powerLoss, s.tick) := by
  simp only [nvsStoreInit, nvsFlashInit, Act.run_bind]
  cases s.sched.now <;> rfl

/-! ## Saving the counter -/

/-- The counter the flash holds. -/
def Flash.counter (s : Flash) : Option Value := s.store.get nvsNamespaceState nvsKeyCounter

/-- A save from `s` takes effect: no call fails, or only the commit does and the value is stored all
the same, or power is lost during the set or the commit and the value is stored. -/
def Flash.saveStores (s : Flash) : Bool :=
  match s.fate 0, s.fate 1, s.fate 2 with
  | .ok, .ok, .ok => true
  | .ok, .ok, .fails _ stored => stored
  | .ok, .ok, .cut stored => stored
  | .ok, .cut stored, _ => stored
  | _, _, _ => false

/-- What `nvs_store_save_counter` does. -/
structure SaveSpec (s : Flash) (v : UInt32) (rc : Except Stop Status) (s' : Flash) : Prop where
  le : s.sched ≤ s'.sched
  ok : rc = .ok .ok ↔ s.fate 0 = .ok ∧ s.fate 1 = .ok ∧ s.fate 2 = .ok
  err : rc = .ok .err → (∃ code b, s.fate 0 = .fails code b) ∨ (s.fate 0 = .ok ∧ ∃ code b, s.fate 1 = .fails code b) ∨
    (s.fate 0 = .ok ∧ s.fate 1 = .ok ∧ ∃ code b, s.fate 2 = .fails code b)
  stop : ∀ e, rc = .error e → e = .powerLoss
  counter : s'.counter = if s.saveStores then some (.u32 v) else s.counter
  others : ∀ ns, ns ≠ nvsNamespaceState → s'.store ns = s.store ns
  idle : (∃ st, rc = .ok st) → Idle s'

/-- A save that is not cut off. -/
theorem SaveSpec.after {s : Flash} (hs : Idle s) (v : UInt32) (rc : Status) (k : Nat) (used : Bool) {st : Store}
    (hok : rc = .ok ↔ s.fate 0 = .ok ∧ s.fate 1 = .ok ∧ s.fate 2 = .ok)
    (herr : rc = .err → (∃ code b, s.fate 0 = .fails code b) ∨ (s.fate 0 = .ok ∧ ∃ code b, s.fate 1 = .fails code b) ∨
      (s.fate 0 = .ok ∧ s.fate 1 = .ok ∧ ∃ code b, s.fate 2 = .fails code b))
    (hctr : st.get nvsNamespaceState nvsKeyCounter = if s.saveStores then some (.u32 v) else s.counter)
    (hoth : ∀ ns, ns ≠ nvsNamespaceState → st ns = s.store ns) :
    SaveSpec s v (.ok rc) (s.after k used st) where
  le := Sched.le_skip _ _
  ok := by rw [← hok]; simp
  err := fun h => herr (Except.ok.inj h)
  stop := fun _ h => by cases h
  counter := hctr
  others := hoth
  idle := fun _ => hs.after k used st

/-- A save that is cut off. -/
theorem SaveSpec.cut {s s' : Flash} (v : UInt32) {k : Nat} (hsched : s'.sched = s.sched.skip k)
    (hok : ¬ (s.fate 0 = .ok ∧ s.fate 1 = .ok ∧ s.fate 2 = .ok))
    (hctr : s'.counter = if s.saveStores then some (.u32 v) else s.counter)
    (hoth : ∀ ns, ns ≠ nvsNamespaceState → s'.store ns = s.store ns) :
    SaveSpec s v (.error .powerLoss) s' where
  le := by rw [hsched]; exact Sched.le_skip _ _
  ok := iff_of_false (by simp) hok
  err := fun h => by cases h
  stop := fun _ h => by cases h; rfl
  counter := hctr
  others := hoth
  idle := fun ⟨_, h⟩ => by cases h

theorem nvsStoreSaveCounter_spec {s : Flash} (hs : Idle s) (v : UInt32) :
    let r := (nvsStoreSaveCounter v).run s
    SaveSpec s v r.1 r.2 := by
  have hh := hs.noneOpen
  -- the content after the open and after the commit
  have hcreate : ∀ ns, ns ≠ nvsNamespaceState → s.store.create nvsNamespaceState ns = s.store ns :=
    fun ns h => Store.create_of_ne _ h
  have hset : ∀ ns, ns ≠ nvsNamespaceState →
      (s.store.create nvsNamespaceState).set nvsNamespaceState nvsKeyCounter (.u32 v) ns = s.store ns :=
    fun ns h => (Store.set_of_ne _ h _ _).trans (hcreate ns h)
  have hfor : s.store.openFor .readWrite nvsNamespaceState = s.store.create nvsNamespaceState := rfl
  simp only [nvsStoreSaveCounter, Act.run_bind, run_nvsOpen nvsNamespaceState .readWrite hh, hfor]
  cases hf0 : s.fate 0 with
  | fails code stored =>
    refine .after hs v .err 1 false (by simp [hf0]) (by simp [hf0]) ?_ ?_ <;> cases stored
    · simp [Flash.saveStores, hf0, Flash.counter]
    · simp [Flash.saveStores, hf0, Flash.counter]
    · exact fun _ _ => rfl
    · exact hcreate
  | cut stored =>
    refine .cut v (k := 1) rfl (by simp [hf0]) ?_ ?_ <;> cases stored
    · simp [Flash.saveStores, hf0, Flash.counter]
    · simp [Flash.saveStores, hf0, Flash.counter]
    · exact fun _ _ => rfl
    · exact hcreate
  | ok =>
    simp only [reduceCtorEq, false_and, if_false, ne_eq, not_true, Act.run_bind, run_nvsSetU32]
    cases hf1 : s.fate 1 with
    | fails code stored =>
      simp only [reduceCtorEq, not_false_eq_true, if_true, Act.run_bind, run_nvsClose]
      exact .after hs v .err 2 true (by simp [hf1]) (by simp [hf0, hf1])
        (by simp [Flash.saveStores, hf0, hf1, Flash.counter]) hcreate
    | cut stored =>
      refine .cut v (k := 2) rfl (by simp [hf1]) ?_ ?_ <;> cases stored
      · simp [Flash.saveStores, hf0, hf1, Flash.counter]
      · simp [Flash.saveStores, hf0, hf1, Flash.counter, Store.setAll]
      · exact hcreate
      · exact hset
    | ok =>
      simp only [not_true, if_false, Act.run_bind, List.nil_append, run_nvsCommit]
      cases hf2 : s.fate 2 with
      | fails code stored =>
        simp only [run_nvsClose, reduceCtorEq, not_false_eq_true, if_true]
        refine .after hs v .err 3 true (by simp [hf2]) (by simp [hf0, hf1, hf2]) ?_ ?_ <;> cases stored
        · simp [Flash.saveStores, hf0, hf1, hf2, Flash.counter]
        · simp [Flash.saveStores, hf0, hf1, hf2, Store.setAll]
        · exact hcreate
        · exact hset
      | cut stored =>
        refine .cut v (k := 3) rfl (by simp [hf2]) ?_ ?_ <;> cases stored
        · simp [Flash.saveStores, hf0, hf1, hf2, Flash.counter]
        · simp [Flash.saveStores, hf0, hf1, hf2, Flash.counter, Store.setAll]
        · exact hcreate
        · exact hset
      | ok =>
        simp only [run_nvsClose, not_true, if_false]
        exact .after hs v .ok 3 true (by simp [hf0, hf1, hf2]) (by simp)
          (by simp [Flash.saveStores, hf0, hf1, hf2, Store.setAll]) hset

/-! ## Loading the counter -/

/-- What `nvs_store_load_counter` does: it returns OK exactly when its calls succeed, with 0 where
nothing is stored and with the stored counter where one is; an error of the flash is an error. -/
structure LoadSpec (s : Flash) (c0 : UInt32) (rc : Except Stop (Status × UInt32)) (s' : Flash) : Prop where
  le : s.sched ≤ s'.sched
  ok : ∀ x, rc = .ok (.ok, x) ↔ s.fate 0 = .ok ∧ ((s.store nvsNamespaceState = none ∧ x = 0) ∨
    (s.store nvsNamespaceState ≠ none ∧ s.fate 1 = .ok ∧
      ((s.counter = none ∧ x = 0) ∨ s.counter = some (.u32 x))))
  err : (∃ code stored, s.fate 0 = .fails code stored) ∨
    (s.fate 0 = .ok ∧ s.store nvsNamespaceState ≠ none ∧
      ((∃ code stored, s.fate 1 = .fails code stored) ∨
        (s.fate 1 = .ok ∧ s.counter ≠ none ∧ ∀ x, s.counter ≠ some (.u32 x)))) → rc = .ok (.err, c0)
  stop : ∀ e, rc = .error e → e = .powerLoss
  store : s'.store = s.store
  idle : (∃ r, rc = .ok r) → Idle s'

theorem nvsStoreLoadCounter_spec {s : Flash} (hs : Idle s) (c0 : UInt32) :
    let r := (nvsStoreLoadCounter c0).run s
    LoadSpec s c0 r.1 r.2 := by
  have hh := hs.noneOpen
  have hfor : s.store.openFor .readOnly nvsNamespaceState = s.store := rfl
  simp only [nvsStoreLoadCounter, Act.run_bind, run_nvsOpen nvsNamespaceState .readOnly hh, hfor, ite_self]
  cases hf0 : s.fate 0 with
  | fails code stored =>
    exact ⟨Sched.le_skip _ _, by simp [hf0], by simp [hf0], by simp, rfl, fun _ => hs.after _ _ _⟩
  | cut stored =>
    exact ⟨Sched.le_skip _ _, by simp [hf0], by simp [hf0], by simp, rfl, by simp⟩
  | ok =>
    by_cases hns : s.store nvsNamespaceState = none
    · simp only [hns, and_self, if_true, Act.run_pure]
      refine ⟨Sched.le_skip _ _, by simp [hf0, hns, eq_comm], by simp [hf0, hns], by simp, rfl, fun _ => hs.after _ _ _⟩
    · simp only [hns, and_false, if_false, reduceCtorEq, ne_eq, not_true, Act.run_bind, run_nvsGetU32]
      cases hf1 : s.fate 1 with
      | fails code stored =>
        simp only [run_nvsClose, reduceCtorEq, if_false, not_false_eq_true, if_true, Act.run_pure]
        exact ⟨Sched.le_skip _ _, by simp [hf1, hns], by simp, by simp, rfl, fun _ => hs.after _ _ _⟩
      | cut stored =>
        exact ⟨Sched.le_skip _ _, by simp [hf1, hns], by simp [hf0, hf1], by simp, rfl, by simp⟩
      | ok =>
        simp only [run_nvsClose]
        cases hc : s.store.get nvsNamespaceState nvsKeyCounter with
        | none =>
          simp only [if_true, Act.run_pure]
          exact ⟨Sched.le_skip _ _, by simp [hf0, hf1, hns, Flash.counter, hc, eq_comm],
            by simp [hf0, hf1, Flash.counter, hc], by simp, rfl, fun _ => hs.after _ _ _⟩
        | some v =>
          cases v with
          | u32 x =>
            simp only [reduceCtorEq, if_false, not_true, Act.run_pure]
            exact ⟨Sched.le_skip _ _, by simp [hf0, hf1, hns, Flash.counter, hc],
              by simp [hf0, hf1, Flash.counter, hc], by simp, rfl, fun _ => hs.after _ _ _⟩
          | blob data =>
            simp only [reduceCtorEq, if_false, not_false_eq_true, if_true, Act.run_pure]
            exact ⟨Sched.le_skip _ _, by simp [hns, Flash.counter, hc], by simp, by simp, rfl,
              fun _ => hs.after _ _ _⟩
          | other =>
            simp only [reduceCtorEq, if_false, not_false_eq_true, if_true, Act.run_pure]
            exact ⟨Sched.le_skip _ _, by simp [hns, Flash.counter, hc], by simp, by simp, rfl,
              fun _ => hs.after _ _ _⟩

/-! ## Loading the seed -/

/-- The blob under a key, where it has `n` bytes. -/
def Store.blob (st : Store) (n : Nat) (ns key : Name) : Option (Bytes n) :=
  match st.get ns key with
  | some (.blob data) => if h : data.length = n then some ⟨data, h⟩ else none
  | _ => none

theorem Store.blob_eq_some_iff {st : Store} {n : Nat} {ns key : Name} {b : Bytes n} :
    st.blob n ns key = some b ↔ st.get ns key = some (.blob b.val) := by
  unfold blob
  cases hv : st.get ns key with
  | none => simp
  | some v =>
    cases v with
    | u32 x => simp
    | other => simp
    | blob data =>
      by_cases h : data.length = n
      · simp only [h, dite_true, Option.some.injEq, Value.blob.injEq]
        constructor
        · rintro rfl
          rfl
        · intro hb
          exact Subtype.ext hb
      · simp only [h, dite_false, reduceCtorEq, Option.some.injEq, Value.blob.injEq, false_iff]
        rintro rfl
        exact h b.2

/-- What a read of the blob under a key into `n` bytes stores there: the blob, where it fits. -/
def Store.fits (st : Store) (n : Nat) (ns key : Name) : Option (List UInt8) :=
  match st.get ns key with
  | some (.blob data) => if data.length ≤ n then some data else none
  | _ => none

/-- A buffer after such a read. -/
def Store.readInto {n : Nat} (st : Store) (ns key : Name) (out : Bytes n) : Bytes n :=
  match st.fits n ns key with
  | some data => out.write 0 data
  | none => out

theorem Store.fits_eq_some_iff {st : Store} {n : Nat} {ns key : Name} {data : List UInt8} :
    st.fits n ns key = some data ↔ st.get ns key = some (.blob data) ∧ data.length ≤ n := by
  unfold fits
  cases hv : st.get ns key with
  | none => simp
  | some v =>
    cases v with
    | u32 x => simp
    | other => simp
    | blob data' =>
      simp only [Option.some.injEq, Value.blob.injEq]
      constructor
      · intro h
        split at h
        · obtain rfl := Option.some.inj h
          exact ⟨rfl, ‹_›⟩
        · cases h
      · rintro ⟨rfl, h⟩
        exact if_pos h

/-- A read leaves the buffer alone, or stores a blob that fits. -/
theorem Store.readInto_cases {n : Nat} (st : Store) (ns key : Name) (out : Bytes n) :
    st.readInto ns key out = out ∨ ∃ data, st.get ns key = some (.blob data) ∧ data.length ≤ n ∧
      (st.readInto ns key out).val = data ++ out.val.drop data.length := by
  unfold readInto
  cases h : st.fits n ns key with
  | none => exact .inl rfl
  | some data =>
    obtain ⟨hget, hle⟩ := Store.fits_eq_some_iff.1 h
    refine .inr ⟨data, hget, hle, ?_⟩
    rw [Bytes.val_write _ _ _ (by rwa [Nat.zero_add])]
    simp

/-- A blob that fills the buffer is all of it. -/
theorem Store.readInto_of_blob {n : Nat} {st : Store} {ns key : Name} {b : Bytes n} (h : st.blob n ns key = some b)
    (out : Bytes n) : st.readInto ns key out = b := by
  have hfits : st.fits n ns key = some b.val := Store.fits_eq_some_iff.2 ⟨Store.blob_eq_some_iff.1 h, b.2.le⟩
  unfold readInto
  rw [hfits]
  exact Bytes.write_all out b

theorem Store.blob_none {st : Store} {ns : Name} (h : st ns = none) (n : Nat) (key : Name) :
    st.blob n ns key = none := by simp [blob, get, h]

theorem Store.readInto_none {n : Nat} {st : Store} {ns : Name} (h : st ns = none) (key : Name) (out : Bytes n) :
    st.readInto ns key out = out := by simp [readInto, fits, get, h]

section

variable {s : Flash} {n : Nat} (k : Nat) (st : Store) (ns : Name) (mode : OpenMode) (key : Name) (out : Bytes n)

/-- `load_blob` through the open handle: it succeeds with a blob that fills the buffer, and fails
having stored a shorter one, or nothing. -/
theorem run_loadBlob :
    (∃ b, s.fate k = .ok ∧ st.blob n ns key = some b ∧
      (loadBlob s.next key out).run (s.holding k st ns mode []) = (.ok (.ok, b), s.holding (k + 1) st ns mode [])) ∨
    (¬ (s.fate k = .ok ∧ ∃ b, st.blob n ns key = some b) ∧
      ((loadBlob s.next key out).run (s.holding k st ns mode []) =
          (.ok (.err, if s.fate k = .ok then st.readInto ns key out else out), s.holding (k + 1) st ns mode []) ∨
        (loadBlob s.next key out).run (s.holding k st ns mode []) =
          (.error .powerLoss, s.holding (k + 1) st ns mode []))) := by
  simp only [loadBlob, Act.run_bind, run_nvsGetBlob]
  cases hf : s.fate k with
  | fails code stored => exact .inr ⟨by simp, .inl rfl⟩
  | cut stored => exact .inr ⟨by simp, .inr rfl⟩
  | ok =>
    unfold Store.blob Store.readInto Store.fits
    cases hv : st.get ns key with
    | none => exact .inr ⟨by simp, .inl rfl⟩
    | some v =>
      cases v with
      | u32 x => exact .inr ⟨by simp, .inl rfl⟩
      | other => exact .inr ⟨by simp, .inl rfl⟩
      | blob data =>
        rcases lt_trichotomy n data.length with hlt | rfl | hgt
        · refine .inr ⟨by simp [hlt.ne'], .inl ?_⟩
          simp [hlt, not_le.2 hlt]
        · have hw := Bytes.write_all out ⟨data, rfl⟩
          simp only at hw
          exact .inl ⟨⟨data, rfl⟩, rfl, by simp, by simp [hw]⟩
        · refine .inr ⟨by simp [hgt.ne], .inl ?_⟩
          simp [hgt.le, not_lt.2 hgt.le, hgt.ne]

end

/-- What `nvs_store_load_seed` does: it returns OK exactly when its calls succeed and the two keys
hold blobs that fill the buffers, which then hold them. -/
structure SeedSpec (s : Flash) (rc : Except Stop (Status × Bytes dLen × Bytes skLen)) (s' : Flash) : Prop where
  le : s.sched ≤ s'.sched
  ok : ∀ d sk, rc = .ok (.ok, d, sk) ↔ s.fate 0 = .ok ∧ s.fate 1 = .ok ∧ s.fate 2 = .ok ∧
    s.store.blob dLen nvsNamespace nvsKeyD0 = some d ∧ s.store.blob skLen nvsNamespace nvsKeySk0 = some sk
  stop : ∀ e, rc = .error e → e = .powerLoss
  store : s'.store = s.store
  idle : (∃ r, rc = .ok r) → Idle s'

/-- `d_0` after `nvs_store_load_seed` returned, OK or not. -/
def Flash.seedD0 (s : Flash) (d0 : Bytes dLen) : Bytes dLen :=
  if s.fate 0 = .ok ∧ s.fate 1 = .ok then s.store.readInto nvsNamespace nvsKeyD0 d0 else d0

/-- `sk_0` after `nvs_store_load_seed` returned, OK or not: it is read only when `d_0` was accepted. -/
def Flash.seedSk0 (s : Flash) (sk0 : Bytes skLen) : Bytes skLen :=
  if s.fate 0 = .ok ∧ (s.fate 1 = .ok ∧ (s.store.blob dLen nvsNamespace nvsKeyD0).isSome) ∧ s.fate 2 = .ok then
    s.store.readInto nvsNamespace nvsKeySk0 sk0
  else sk0

/-- What `nvs_store_load_seed` leaves in its buffers, returning `rc`, and how many calls it made. -/
structure SeedLeft (s : Flash) (d0 : Bytes dLen) (sk0 : Bytes skLen)
    (rc : Except Stop (Status × Bytes dLen × Bytes skLen)) (s' : Flash) : Prop where
  bufs : ∀ st d sk, rc = .ok (st, d, sk) → d = s.seedD0 d0 ∧ sk = s.seedSk0 sk0
  calls : ∀ d sk, rc = .ok (.ok, d, sk) → s'.sched = s.sched.skip 3

section

variable {s s' : Flash} {d0 d : Bytes dLen} {sk0 sk : Bytes skLen}

theorem SeedLeft.ok (hd : d = s.seedD0 d0) (hsk : sk = s.seedSk0 sk0) (hs' : s'.sched = s.sched.skip 3) :
    SeedLeft s d0 sk0 (.ok (.ok, d, sk)) s' := by
  refine ⟨?_, fun _ _ _ => hs'⟩
  rintro st' d' sk' ⟨⟩
  exact ⟨hd, hsk⟩

theorem SeedLeft.err (hd : d = s.seedD0 d0) (hsk : sk = s.seedSk0 sk0) :
    SeedLeft s d0 sk0 (.ok (.err, d, sk)) s' := by
  refine ⟨?_, fun d' sk' h => by cases h⟩
  rintro st' d' sk' ⟨⟩
  exact ⟨hd, hsk⟩

theorem SeedLeft.cut (e : Stop) : SeedLeft s d0 sk0 (.error e) s' :=
  ⟨fun _ _ _ h => (by cases h), fun _ _ h => (by cases h)⟩

end

theorem nvsStoreLoadSeed_full {s : Flash} (hs : Idle s) (d0 : Bytes dLen) (sk0 : Bytes skLen) :
    let r := (nvsStoreLoadSeed d0 sk0).run s
    SeedSpec s r.1 r.2 ∧ SeedLeft s d0 sk0 r.1 r.2 := by
  have hh := hs.noneOpen
  have hfor : s.store.openFor .readOnly nvsNamespace = s.store := rfl
  simp only [nvsStoreLoadSeed, Act.run_bind, run_nvsOpen nvsNamespace .readOnly hh, hfor, ite_self]
  cases hf0 : s.fate 0 with
  | fails code stored =>
    refine ⟨⟨Sched.le_skip _ _, fun d sk => iff_of_false (by simp) ?_, by simp, rfl, fun _ => hs.after _ _ _⟩, ?_⟩
    · exact fun h => by rw [hf0] at h; cases h.1
    · exact .err (by simp [Flash.seedD0, hf0]) (by simp [Flash.seedSk0, hf0])
  | cut stored =>
    refine ⟨⟨Sched.le_skip _ _, fun d sk => iff_of_false (by simp) ?_, by simp, rfl, by simp⟩, .cut _⟩
    exact fun h => by rw [hf0] at h; cases h.1
  | ok =>
    by_cases hns : s.store nvsNamespace = none
    · simp only [hns, and_self, if_true, ne_eq, reduceCtorEq, not_false_eq_true, Act.run_pure]
      refine ⟨⟨Sched.le_skip _ _, fun d sk => iff_of_false (by simp) ?_, by simp, rfl, fun _ => hs.after _ _ _⟩, ?_⟩
      · simp [Store.blob_none hns]
      · exact .err (by simp [Flash.seedD0, Store.readInto_none hns])
          (by simp [Flash.seedSk0, Store.blob_none hns])
    simp only [hns, and_false, if_false, ne_eq, not_true, Act.run_bind]
    rcases run_loadBlob (s := s) 1 s.store nvsNamespace .readOnly nvsKeyD0 d0 with
      ⟨d, hf1, hd, hrun⟩ | ⟨hbad, hrun | hrun⟩
    · have hd0 : d = s.seedD0 d0 := by simp [Flash.seedD0, hf0, hf1, Store.readInto_of_blob hd]
      simp only [hrun, not_true, if_false, Act.run_bind]
      rcases run_loadBlob (s := s) (1 + 1) s.store nvsNamespace .readOnly nvsKeySk0 sk0 with
        ⟨sk, hf2, hsk, hrun⟩ | ⟨hbad, hrun | hrun⟩
      · simp only [hrun, run_nvsClose, not_true, if_false, Act.run_pure]
        refine ⟨⟨Sched.le_skip _ _, fun d' sk' => ?_, by simp, rfl, fun _ => hs.after _ _ _⟩, ?_⟩
        · simp [hf0, hf1, hf2, hd, hsk]
        · exact .ok hd0 (by simp [Flash.seedSk0, hf0, hf1, hf2, hd, Store.readInto_of_blob hsk]) rfl
      · simp only [hrun, run_nvsClose, reduceCtorEq, not_false_eq_true, if_true, Act.run_pure]
        refine ⟨⟨Sched.le_skip _ _, fun d' sk'' => iff_of_false (by simp) ?_, by simp, rfl,
          fun _ => hs.after _ _ _⟩, ?_⟩
        · exact fun h => hbad ⟨h.2.2.1, sk'', h.2.2.2.2⟩
        · exact .err hd0 (by simp [Flash.seedSk0, hf0, hf1, hd])
      · simp only [hrun]
        refine ⟨⟨Sched.le_skip _ _, fun d' sk'' => iff_of_false (by simp) ?_, by simp, rfl, by simp⟩, .cut _⟩
        exact fun h => hbad ⟨h.2.2.1, sk'', h.2.2.2.2⟩
    · simp only [hrun, reduceCtorEq, not_false_eq_true, if_true, Act.run_bind, Act.run_pure, run_nvsClose]
      refine ⟨⟨Sched.le_skip _ _, fun d sk => iff_of_false (by simp) ?_, by simp, rfl, fun _ => hs.after _ _ _⟩, ?_⟩
      · exact fun h => hbad ⟨h.2.1, d, h.2.2.2.1⟩
      · refine .err (by simp [Flash.seedD0, hf0]) ?_
        rw [Flash.seedSk0, if_neg fun h => hbad ⟨h.2.1.1, Option.isSome_iff_exists.1 h.2.1.2⟩]
    · simp only [hrun]
      refine ⟨⟨Sched.le_skip _ _, fun d sk => iff_of_false (by simp) ?_, by simp, rfl, by simp⟩, .cut _⟩
      exact fun h => hbad ⟨h.2.1, d, h.2.2.2.1⟩

theorem nvsStoreLoadSeed_spec {s : Flash} (hs : Idle s) (d0 : Bytes dLen) (sk0 : Bytes skLen) :
    let r := (nvsStoreLoadSeed d0 sk0).run s
    SeedSpec s r.1 r.2 := (nvsStoreLoadSeed_full hs d0 sk0).1

theorem nvsStoreLoadSeed_left {s : Flash} (hs : Idle s) (d0 : Bytes dLen) (sk0 : Bytes skLen) :
    let r := (nvsStoreLoadSeed d0 sk0).run s
    SeedLeft s d0 sk0 r.1 r.2 := (nvsStoreLoadSeed_full hs d0 sk0).2

end Esptag.Nvs
