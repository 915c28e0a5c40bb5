/-
The counter as a durable register: over any sequence of calls of `nvs_store.c`, with flash calls
failing and power lost at will, a successful load gives the value of the last save that took
effect, the seed's namespace is never changed, and between calls no handle is open.
-/
import Esptag.Nvs.Store

namespace Esptag.Nvs

open Octets

/-! ## Runs of calls -/

/-- A call of the module. -/
inductive Call where
  | saveCounter (v : UInt32)
  | loadCounter (counter : UInt32)
  | loadSeed (d0 : Bytes dLen) (sk0 : Bytes skLen)

/-- The storage a call leaves; when power is lost during it, after the next boot. -/
def settle {α : Type} : Except Stop α × Flash → Flash
  | (.ok _, s') => s'
  | (.error _, s') => s'.reboot

/-- The storage after a call. -/
def Flash.step (s : Flash) : Call → Flash
  | .saveCounter v => settle ((nvsStoreSaveCounter v).run s)
  | .loadCounter c => settle ((nvsStoreLoadCounter c).run s)
  | .loadSeed d0 sk0 => settle ((nvsStoreLoadSeed d0 sk0).run s)

/-- The storage after a sequence of calls. -/
def Flash.steps (s : Flash) (cs : List Call) : Flash := cs.foldl Flash.step s

/-- The values of the saves among the calls that took effect, in order. -/
def Flash.effects (s : Flash) : List Call → List UInt32
  | [] => []
  | .saveCounter v :: cs => (if s.saveStores then [v] else []) ++ (s.step (.saveCounter v)).effects cs
  | c :: cs => (s.step c).effects cs

/-- The storage as a boot finds it. -/
def Flash.boot (sched : Sched Fate) (store : Store) : Flash := ⟨sched, store, [], 0, [], []⟩

theorem idle_boot (sched : Sched Fate) (store : Store) : Idle (Flash.boot sched store) :=
  ⟨rfl, rfl, List.nodup_nil, fun _ h => by cases h⟩

/-! ## The register -/

/-- The value an abstract register holds after the saves `l`, having held `v`. -/
def register (v : Option Value) (l : List UInt32) : Option Value := (l.getLast?.map .u32).or v

theorem register_append (v : Option Value) (l m : List UInt32) :
    register (register v l) m = register v (l ++ m) := by
  unfold register
  cases m.eq_nil_or_concat with
  | inl h => simp [h]
  | inr h =>
    obtain ⟨m', x, rfl⟩ := h
    simp [← List.append_assoc]

/-- What a call keeps: the storage idle, the seed's namespace; and what it makes of the counter. -/
structure StepSpec (s s' : Flash) (l : List UInt32) : Prop where
  idle : Idle s'
  seed : s'.store nvsNamespace = s.store nvsNamespace
  counter : s'.counter = register s.counter l

theorem idle_settle {α : Type} {r : Except Stop α × Flash} (h : (∃ a, r.1 = .ok a) → Idle r.2) :
    Idle (settle r) := by
  obtain ⟨_ | a, s'⟩ := r
  · exact idle_reboot s'
  · exact h ⟨a, rfl⟩

theorem store_settle {α : Type} (r : Except Stop α × Flash) : (settle r).store = r.2.store := by
  obtain ⟨_ | a, s'⟩ := r <;> rfl

/-- The step lemma. -/
theorem step_spec {s : Flash} (hs : Idle s) (c : Call) : StepSpec s (s.step c) (s.effects [c]) := by
  cases c with
  | saveCounter v =>
    have h := nvsStoreSaveCounter_spec hs v
    refine ⟨idle_settle h.idle, ?_, ?_⟩
    · rw [Flash.step, store_settle]
      exact h.others _ nvsNamespace_ne
    · have hc := h.counter
      rw [Flash.counter, Flash.step, store_settle]
      simp only [Flash.effects, List.append_nil]
      cases hst : s.saveStores with
      | true => rw [hst] at hc; exact hc
      | false => rw [hst] at hc; exact hc
  | loadCounter c =>
    have h := nvsStoreLoadCounter_spec hs c
    refine ⟨idle_settle h.idle, ?_, ?_⟩
    · rw [Flash.step, store_settle, h.store]
    · rw [Flash.counter, Flash.step, store_settle, h.store]; rfl
  | loadSeed d0 sk0 =>
    have h := nvsStoreLoadSeed_spec hs d0 sk0
    refine ⟨idle_settle h.idle, ?_, ?_⟩
    · rw [Flash.step, store_settle, h.store]
    · rw [Flash.counter, Flash.step, store_settle, h.store]; rfl

theorem effects_cons (s : Flash) (c : Call) (cs : List Call) :
    s.effects (c :: cs) = s.effects [c] ++ (s.step c).effects cs := by
  cases c <;> simp [Flash.effects]

/-- The run lemma. -/
theorem steps_spec : ∀ (cs : List Call) {s : Flash}, Idle s → StepSpec s (s.steps cs) (s.effects cs)
  | [], s, hs => ⟨hs, rfl, by simp [register, Flash.effects, Flash.steps]⟩
  | c :: cs, s, hs => by
    have h := step_spec hs c
    have ih := steps_spec cs h.idle
    refine ⟨ih.idle, ih.seed.trans h.seed, ?_⟩
    rw [effects_cons, ← register_append, ← h.counter]
    exact ih.counter

/-- A flash error other than NOT_FOUND is never read as a first boot. -/
theorem loadCounter_of_open_err {s s' : Flash} {err : EspErr} {id : Nat} (c0 : UInt32)
    (h : (nvsOpen nvsNamespaceState .readOnly).run s = (.ok (err, id), s')) (hok : err ≠ .ok) (hnf : err ≠ .notFound) :
    ((nvsStoreLoadCounter c0).run s).1 = .ok (.err, c0) := by
  unfold nvsStoreLoadCounter
  rw [Act.bind_ok h]
  simp [hok, hnf]

theorem loadCounter_of_get_err {s s' s'' : Flash} {err : EspErr} {id : Nat} {c0 x : UInt32}
    (h : (nvsOpen nvsNamespaceState .readOnly).run s = (.ok (.ok, id), s'))
    (hget : (nvsGetU32 id nvsKeyCounter c0).run s' = (.ok (err, x), s'')) (hok : err ≠ .ok) (hnf : err ≠ .notFound) :
    ((nvsStoreLoadCounter c0).run s).1 = .ok (.err, x) := by
  unfold nvsStoreLoadCounter
  rw [Act.bind_ok h]
  simp only [reduceCtorEq, if_false, ne_eq, not_true]
  rw [Act.bind_ok hget]
  simp [nvsClose, Act.run_bind, hok, hnf]

/-- A stored counter is read back exactly when the two calls succeed. -/
theorem loadCounter_saved {t : Flash} (h : Idle t) {v : UInt32} (hc : t.counter = some (.u32 v)) (c0 : UInt32) :
    ((nvsStoreLoadCounter c0).run t).1 = .ok (.ok, v) ↔ t.fate 0 = .ok ∧ t.fate 1 = .ok := by
  have hns : t.store nvsNamespaceState ≠ none := by
    intro hns
    rw [Flash.counter, Store.get, hns] at hc
    cases hc
  rw [(nvsStoreLoadCounter_spec h c0).ok v, hc]
  simp [hns]

/-- Where no counter is stored, 0 is read exactly when the calls succeed. -/
theorem loadCounter_unsaved {t : Flash} (h : Idle t) (hc : t.counter = none) (c0 : UInt32) :
    ((nvsStoreLoadCounter c0).run t).1 = .ok (.ok, 0) ↔
      t.fate 0 = .ok ∧ (t.store nvsNamespaceState = none ∨ t.fate 1 = .ok) := by
  rw [(nvsStoreLoadCounter_spec h c0).ok 0, hc]
  by_cases hns : t.store nvsNamespaceState = none <;> simp [hns]

/-- The counter store as a durable register, after any sequence of calls from a boot. A load that
returns OK gives the last save that took effect, or 0 when there was none and none is stored, and it
returns OK exactly when its calls succeed; a save takes effect when it returns OK, and when it returns
an error, exactly if it failed only at the commit and its value was stored. A flash error other than
NOT_FOUND is an error of the load. The seed's namespace is unchanged. Every handle opened was closed
once, and none is open. -/
theorem counter_durable_register (sched : Sched Fate) (store : Store) (cs : List Call) :
    let s := Flash.boot sched store
    let t := s.steps cs
    (∀ c0 x, ((nvsStoreLoadCounter c0).run t).1 = .ok (.ok, x) →
      (∀ v, (s.effects cs).getLast? = some v → x = v) ∧
      (s.effects cs = [] → store.get nvsNamespaceState nvsKeyCounter = none → x = 0)) ∧
    (∀ c0, (∀ v, (s.effects cs).getLast? = some v →
        (((nvsStoreLoadCounter c0).run t).1 = .ok (.ok, v) ↔ t.fate 0 = .ok ∧ t.fate 1 = .ok)) ∧
      (s.effects cs = [] → store.get nvsNamespaceState nvsKeyCounter = none →
        (((nvsStoreLoadCounter c0).run t).1 = .ok (.ok, 0) ↔
          t.fate 0 = .ok ∧ (t.store nvsNamespaceState = none ∨ t.fate 1 = .ok)))) ∧
    (∀ v, let rc := ((nvsStoreSaveCounter v).run t).1
      (rc = .ok .ok → t.effects [.saveCounter v] = [v]) ∧
      (rc = .ok .err → (t.effects [.saveCounter v] = [v] ↔
        t.fate 0 = .ok ∧ t.fate 1 = .ok ∧ ∃ code, t.fate 2 = .fails code true))) ∧
    (∀ c0 err id t', (nvsOpen nvsNamespaceState .readOnly).run t = (.ok (err, id), t') → err ≠ .notFound →
      (err ≠ .ok → ((nvsStoreLoadCounter c0).run t).1 = .ok (.err, c0)) ∧
      (err = .ok → ∀ err' x t'', (nvsGetU32 id nvsKeyCounter c0).run t' = (.ok (err', x), t'') → err' ≠ .notFound →
        err' ≠ .ok → ((nvsStoreLoadCounter c0).run t).1 = .ok (.err, x))) ∧
    t.store nvsNamespace = store nvsNamespace ∧
    t.handles = [] ∧ t.opened.Nodup ∧ t.closed = t.opened := by
  intro s t
  have h : StepSpec s t (s.effects cs) := steps_spec cs (idle_boot sched store)
  refine ⟨fun c0 x hx => ?_, fun c0 => ⟨fun v hv => ?_, fun hnil hfresh => ?_⟩, fun v => ?_,
    fun c0 err id t' hopen hnf => ⟨fun hok => ?_, ?_⟩, h.seed, h.idle.noneOpen, h.idle.once, h.idle.balanced⟩
  · have hload : (t.counter = none ∧ x = 0) ∨ t.counter = some (.u32 x) := by
      rcases (((nvsStoreLoadCounter_spec h.idle c0).ok x).1 hx).2 with ⟨hns, rfl⟩ | ⟨-, -, hc⟩
      · exact .inl ⟨by rw [Flash.counter, Store.get, hns]; rfl, rfl⟩
      · exact hc
    rw [h.counter] at hload
    refine ⟨fun v hv => ?_, fun hnil hfresh => ?_⟩
    · rw [register, hv] at hload
      simpa [eq_comm] using hload
    · rw [hnil, show s.counter = none from hfresh] at hload
      simpa [register] using hload
  · have hc : t.counter = some (.u32 v) := by rw [h.counter, register, hv]; rfl
    exact loadCounter_saved h.idle hc c0
  · have hc : t.counter = none := by
      rw [h.counter, hnil, show s.counter = none from hfresh]
      rfl
    exact loadCounter_unsaved h.idle hc c0
  · have hsave := nvsStoreSaveCounter_spec h.idle v
    have heff : t.effects [.saveCounter v] = [v] ↔ t.saveStores = true := by
      cases hst : t.saveStores <;> simp [Flash.effects, hst]
    refine ⟨fun hrc => ?_, fun hrc => ?_⟩
    · obtain ⟨h0, h1, h2⟩ := hsave.ok.1 hrc
      rw [heff, Flash.saveStores, h0, h1, h2]
    · rw [heff, Flash.saveStores]
      rcases hsave.err hrc with ⟨code, b, h0⟩ | ⟨h0, code, b, h1⟩ | ⟨h0, h1, code, b, h2⟩
      · simp [h0]
      · simp [h0, h1]
      · simp [h0, h1, h2]
  · exact loadCounter_of_open_err c0 hopen hok hnf
  · rintro rfl err' x t'' hget hnf' hok'
    exact loadCounter_of_get_err hopen hget hok' hnf'

end Esptag.Nvs
