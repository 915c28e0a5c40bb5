/-
Non-volatile storage as `nvs_store.c` uses it: a durable map of namespaces, handles that are opened
and closed, and values that become durable when they are committed. A schedule decides which calls
fail and where power is lost; what a failed commit or a loss of power leaves behind is its choice
too.
-/
import Esptag.Common

namespace Esptag.Nvs

open Octets

/-! ## The state -/

/-- A namespace or key name. -/
abbrev Name := List Char

/-- A stored value; `other` is any type the firmware does not read. -/
inductive Value where
  | blob (data : List UInt8)
  | u32 (x : UInt32)
  | other
  deriving DecidableEq, Repr

/-- `nvs_open_mode_t`. -/
inductive OpenMode where
  | readOnly
  | readWrite
  deriving DecidableEq, Repr

/-- The flash content: the namespaces, and the values of their keys. -/
abbrev Store := Name → Option (Name → Option Value)

namespace Store

/-- The value under a namespace and a key. -/
def get (st : Store) (ns key : Name) : Option Value := (st ns).bind fun m => m key

/-- Makes a namespace exist. -/
def create (st : Store) (ns : Name) : Store := Function.update st ns (some ((st ns).getD fun _ => none))

/-- What opening a namespace does to the content: for writing, the namespace is created. -/
def openFor (st : Store) (mode : OpenMode) (ns : Name) : Store := if mode = .readWrite then st.create ns else st

/-- Stores a value. -/
def set (st : Store) (ns key : Name) (v : Value) : Store :=
  Function.update st ns (some (Function.update ((st ns).getD fun _ => none) key (some v)))

@[simp] theorem get_create (st : Store) (ns ns' key : Name) : (st.create ns).get ns' key = st.get ns' key := by
  unfold get create
  by_cases h : ns' = ns
  · subst h
    rw [Function.update_self]
    cases st ns' <;> rfl
  · rw [Function.update_of_ne h]

@[simp] theorem get_set_self (st : Store) (ns key : Name) (v : Value) : (st.set ns key v).get ns key = some v := by
  simp [get, set]

theorem set_of_ne (st : Store) {ns ns' : Name} (h : ns' ≠ ns) (key : Name) (v : Value) :
    (st.set ns key v) ns' = st ns' := Function.update_of_ne h _ _

theorem create_of_ne (st : Store) {ns ns' : Name} (h : ns' ≠ ns) : (st.create ns) ns' = st ns' :=
  Function.update_of_ne h _ _

end Store

/-- `esp_err_t`, as far as the firmware tells its values apart. -/
inductive EspErr where
  | ok
  | notFound
  | invalidLength
  | typeMismatch
  | invalidHandle
  | readOnly
  | fail (code : Nat)
  deriving DecidableEq, Repr

/-- How a flash call turns out: as documented, with an error of its own, or cut off by a loss of
power; in the last two cases `stored` says whether what it was to store became durable. -/
inductive Fate where
  | ok
  | fails (code : Nat) (stored : Bool)
  | cut (stored : Bool)
  deriving DecidableEq, Repr

/-- Stores several values in a namespace. -/
def Store.setAll (st : Store) (ns : Name) (l : List (Name × Value)) : Store :=
  l.foldl (fun st p => st.set ns p.1 p.2) st

/-- An open handle, with what was set through it and not committed. -/
structure Handle where
  id : Nat
  ns : Name
  mode : OpenMode
  pending : List (Name × Value)
  deriving DecidableEq

/-- The storage: its durable content, and, since the last boot, the open handles and which handles
were opened and closed. -/
structure Flash where
  sched : Sched Fate
  store : Store
  handles : List Handle
  next : Nat
  opened : List Nat
  closed : List Nat

namespace Flash

/-- One more flash call made. -/
def tick (s : Flash) : Flash := { s with sched := s.sched.skip 1 }

/-- A boot: the handles are gone with the memory they were in. -/
def reboot (s : Flash) : Flash := { s with handles := [], next := 0, opened := [], closed := [] }

/-- The open handle `id`. -/
def handle (s : Flash) (id : Nat) : Option Handle := s.handles.find? (·.id = id)

/-- The fate of the `i`-th call from now. -/
def fate (s : Flash) (i : Nat) : Fate := s.sched.fate (s.sched.calls + i)

end Flash

/-! ## The calls -/

/-- A program over the storage. -/
abbrev FlashM := Act Stop Flash

/-- `nvs_flash_init`. -/
def nvsFlashInit : FlashM EspErr where
  run s := match s.sched.now with
    | .ok => (.ok .ok, s.tick)
    | .fails code _ => (.ok (.fail code), s.tick)
    | .cut _ => (.error .powerLoss, s.tick)

/-- `nvs_open`: the error and the handle. -/
def nvsOpen (ns : Name) (mode : OpenMode) : FlashM (EspErr × Nat) where
  run s := match s.sched.now with
    | .ok =>
      if mode = .readOnly ∧ s.store ns = none then (.ok (.notFound, 0), s.tick)
      else (.ok (.ok, s.next), { s.tick with
        store := s.store.openFor mode ns, handles := s.handles ++ [⟨s.next, ns, mode, []⟩],
        next := s.next + 1, opened := s.opened ++ [s.next] })
    | .fails code stored =>
      (.ok (.fail code, 0), { s.tick with store := if stored then s.store.openFor mode ns else s.store })
    | .cut stored =>
      (.error .powerLoss, { s.tick with store := if stored then s.store.openFor mode ns else s.store })

/-- `nvs_get_blob` into a buffer of `n` bytes: the error, the length and the buffer. A blob longer
than the buffer is refused without writing; of a shorter one the actual length is reported. -/
def nvsGetBlob {n : Nat} (id : Nat) (key : Name) (out : Bytes n) : FlashM (EspErr × Nat × Bytes n) where
  run s := match s.sched.now with
    | .ok => (.ok (match s.handle id with
      | none => (.invalidHandle, n, out)
      | some h => match s.store.get h.ns key with
        | none => (.notFound, n, out)
        | some (.blob data) =>
          if n < data.length then (.invalidLength, data.length, out) else (.ok, data.length, out.write 0 data)
        | some _ => (.typeMismatch, n, out)), s.tick)
    | .fails code _ => (.ok (.fail code, n, out), s.tick)
    | .cut _ => (.error .powerLoss, s.tick)

/-- `nvs_get_u32`: the error and the value. -/
def nvsGetU32 (id : Nat) (key : Name) (out : UInt32) : FlashM (EspErr × UInt32) where
  run s := match s.sched.now with
    | .ok => (.ok (match s.handle id with
      | none => (.invalidHandle, out)
      | some h => match s.store.get h.ns key with
        | none => (.notFound, out)
        | some (.u32 x) => (.ok, x)
        | some _ => (.typeMismatch, out)), s.tick)
    | .fails code _ => (.ok (.fail code, out), s.tick)
    | .cut _ => (.error .powerLoss, s.tick)

/-- `nvs_set_u32`: a failed call stores nothing; power lost during it may have stored the value. -/
def nvsSetU32 (id : Nat) (key : Name) (x : UInt32) : FlashM EspErr where
  run s := match s.handle id with
    | none => (.ok .invalidHandle, s.tick)
    | some h =>
      if h.mode = .readOnly then (.ok .readOnly, s.tick)
      else match s.sched.now with
        | .ok => (.ok .ok, { s.tick with handles := s.handles.map fun g =>
            if g.id = id then { g with pending := g.pending ++ [(key, .u32 x)] } else g })
        | .fails code _ => (.ok (.fail code), s.tick)
        | .cut stored => (.error .powerLoss, { s.tick with
            store := if stored then s.store.setAll h.ns (h.pending ++ [(key, .u32 x)]) else s.store })

/-- `nvs_commit`. -/
def nvsCommit (id : Nat) : FlashM EspErr where
  run s := match s.handle id with
    | none => (.ok .invalidHandle, s.tick)
    | some h => match s.sched.now with
      | .ok => (.ok .ok, { s.tick with store := s.store.setAll h.ns h.pending })
      | .fails code stored =>
        (.ok (.fail code), { s.tick with store := if stored then s.store.setAll h.ns h.pending else s.store })
      | .cut stored =>
        (.error .powerLoss, { s.tick with store := if stored then s.store.setAll h.ns h.pending else s.store })

/-- `nvs_close`. -/
def nvsClose (id : Nat) : FlashM Unit :=
  Act.modify fun s => { s with handles := s.handles.filter (·.id ≠ id), closed := s.closed ++ [id] }

/-! ## One handle at a time -/

/-- The storage after `k` calls, the content being `st`, with no handle opened or with one opened
and closed. -/
def Flash.after (s : Flash) (k : Nat) (used : Bool) (st : Store) : Flash :=
  { s with sched := s.sched.skip k, store := st, handles := [],
           next := if used then s.next + 1 else s.next,
           opened := if used then s.opened ++ [s.next] else s.opened,
           closed := if used then s.closed ++ [s.next] else s.closed }

/-- The storage after `k` calls, the content being `st`, with one handle open. -/
def Flash.holding (s : Flash) (k : Nat) (st : Store) (ns : Name) (mode : OpenMode) (pending : List (Name × Value)) :
    Flash :=
  { s with sched := s.sched.skip k, store := st, handles := [⟨s.next, ns, mode, pending⟩], next := s.next + 1,
           opened := s.opened ++ [s.next] }

section

variable {s : Flash} (k : Nat) (st : Store) (ns : Name) (mode : OpenMode) (pending : List (Name × Value))

@[simp] theorem after_store (used : Bool) : (s.after k used st).store = st := rfl

@[simp] theorem holding_store : (s.holding k st ns mode pending).store = st := rfl

@[simp] theorem handle_holding : (s.holding k st ns mode pending).handle s.next = some ⟨s.next, ns, mode, pending⟩ := by
  simp [Flash.handle, Flash.holding]

theorem run_nvsOpen (h : s.handles = []) : (nvsOpen ns mode).run s = match s.fate 0 with
    | .ok =>
      if mode = .readOnly ∧ s.store ns = none then (.ok (.notFound, 0), s.after 1 false s.store)
      else (.ok (.ok, s.next), s.holding 1 (s.store.openFor mode ns) ns mode [])
    | .fails code stored =>
      (.ok (.fail code, 0), s.after 1 false (if stored then s.store.openFor mode ns else s.store))
    | .cut stored =>
      (.error .powerLoss, s.after 1 false (if stored then s.store.openFor mode ns else s.store)) := by
  simp [nvsOpen, Flash.after, Flash.holding, Flash.tick, h]
  rfl

theorem run_nvsSetU32 (key : Name) (x : UInt32) :
    (nvsSetU32 s.next key x).run (s.holding k st ns .readWrite pending) = match s.fate k with
    | .ok => (.ok .ok, s.holding (k + 1) st ns .readWrite (pending ++ [(key, .u32 x)]))
    | .fails code _ => (.ok (.fail code), s.holding (k + 1) st ns .readWrite pending)
    | .cut stored => (.error .powerLoss, s.holding (k + 1)
        (if stored then st.setAll ns (pending ++ [(key, .u32 x)]) else st) ns .readWrite pending) := by
  simp [nvsSetU32, Flash.holding, Flash.tick, Flash.handle]
  rfl

theorem run_nvsCommit :
    (nvsCommit s.next).run (s.holding k st ns mode pending) = match s.fate k with
    | .ok => (.ok .ok, s.holding (k + 1) (st.setAll ns pending) ns mode pending)
    | .fails code stored =>
      (.ok (.fail code), s.holding (k + 1) (if stored then st.setAll ns pending else st) ns mode pending)
    | .cut stored =>
      (.error .powerLoss, s.holding (k + 1) (if stored then st.setAll ns pending else st) ns mode pending) := by
  simp [nvsCommit, Flash.holding, Flash.tick, Flash.handle]
  rfl

theorem run_nvsGetU32 (key : Name) (out : UInt32) :
    (nvsGetU32 s.next key out).run (s.holding k st ns mode pending) = match s.fate k with
    | .ok => (.ok (match st.get ns key with
      | none => (.notFound, out)
      | some (.u32 x) => (.ok, x)
      | some _ => (.typeMismatch, out)), s.holding (k + 1) st ns mode pending)
    | .fails code _ => (.ok (.fail code, out), s.holding (k + 1) st ns mode pending)
    | .cut _ => (.error .powerLoss, s.holding (k + 1) st ns mode pending) := by
  simp [nvsGetU32, Flash.holding, Flash.tick, Flash.handle]
  rfl

theorem run_nvsGetBlob {n : Nat} (key : Name) (out : Bytes n) :
    (nvsGetBlob s.next key out).run (s.holding k st ns mode pending) = match s.fate k with
    | .ok => (.ok (match st.get ns key with
      | none => (.notFound, n, out)
      | some (.blob data) =>
        if n < data.length then (.invalidLength, data.length, out) else (.ok, data.length, out.write 0 data)
      | some _ => (.typeMismatch, n, out)), s.holding (k + 1) st ns mode pending)
    | .fails code _ => (.ok (.fail code, n, out), s.holding (k + 1) st ns mode pending)
    | .cut _ => (.error .powerLoss, s.holding (k + 1) st ns mode pending) := by
  simp [nvsGetBlob, Flash.holding, Flash.tick, Flash.handle]
  rfl

theorem run_nvsClose :
    (nvsClose s.next).run (s.holding k st ns mode pending) = (.ok (), s.after k true st) := by
  simp [nvsClose, Flash.holding, Flash.after]

end

end Esptag.Nvs
