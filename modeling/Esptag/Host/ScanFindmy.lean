/-
`scan_findmy.scan`: the loop over the adverts the scanner hears, which shows those that pass its
filters and tells an identity not seen before from a repeated one.
-/
import Esptag.Lib.FirstSeen
import Esptag.Lib.Text

namespace Esptag.ScanFindmy

/-! ## What is heard -/

/-- A `float`. -/
inductive PyFloat where
  | finite (q : ℚ)
  | inf
  | negInf
  | nan
  deriving DecidableEq

/-- `n < x`, of an integer and a `float`. -/
def ltFloat (n : Int) : PyFloat → Bool
  | .finite q => decide ((n : ℚ) < q)
  | .inf => true
  | .negInf => false
  | .nan => false

/-- `0 < x`. -/
def PyFloat.pos : PyFloat → Bool
  | .finite q => decide (0 < q)
  | .inf => true
  | .negInf => false
  | .nan => false

/-- An advert as the scanner reports it: `adv_key_bytes` if it is a `SeparatedOfflineFindingDevice`,
and the signal strength if there is one. -/
structure Device where
  macAddress : List Char
  className : List Char
  advKeyBytes : Option (List UInt8)
  rssi : Option Int

/-- `_full_key_hex`. -/
def fullKeyHex (d : Device) : Option (List Char) := d.advKeyBytes.map Text.toHex

def Device.mac (d : Device) : List Char := Text.upper d.macAddress

def Device.kind (d : Device) : List Char := Text.removeAll "OfflineFindingDevice".toList d.className

/-! ## The filters -/

/-- `mac_filter`, `key_filter` and `rssi_floor`. -/
structure Filters where
  mac : Option (List Char)
  key : Option (List Char)
  rssiFloor : Option PyFloat

/-- `filter and value != filter`: neither `None` nor an empty filter refuses anything. -/
def mismatch (filter value : Option (List Char)) : Bool :=
  match filter with
  | none => false
  | some f => f ≠ [] && value ≠ some f

/-- `rssi_floor is not None and rssi is not None and rssi < rssi_floor`. -/
def belowFloor (floor : Option PyFloat) (rssi : Option Int) : Bool :=
  match floor, rssi with
  | some x, some n => ltFloat n x
  | _, _ => false

/-- The adverts that are shown. -/
structure Filters.Accepts (f : Filters) (d : Device) : Prop where
  mac : ∀ m, f.mac = some m → m ≠ [] → d.mac = m
  key : ∀ k, f.key = some k → k ≠ [] → fullKeyHex d = some k
  rssi : ∀ x n, f.rssiFloor = some x → d.rssi = some n → ltFloat n x = false

theorem mismatch_eq_false_iff {filter value : Option (List Char)} :
    mismatch filter value = false ↔ ∀ f, filter = some f → f ≠ [] → value = some f := by
  cases filter with
  | none => simp [mismatch]
  | some f => simp [mismatch]

theorem belowFloor_eq_false_iff {floor : Option PyFloat} {rssi : Option Int} :
    belowFloor floor rssi = false ↔ ∀ x n, floor = some x → rssi = some n → ltFloat n x = false := by
  cases floor <;> cases rssi <;> simp [belowFloor]

/-- They pass the three tests of the loop. -/
theorem Filters.accepts_iff (f : Filters) (d : Device) : f.Accepts d ↔
    mismatch f.mac (some d.mac) = false ∧ mismatch f.key (fullKeyHex d) = false ∧
      belowFloor f.rssiFloor d.rssi = false := by
  rw [mismatch_eq_false_iff, mismatch_eq_false_iff, belowFloor_eq_false_iff]
  constructor
  · rintro ⟨hmac, hkey, hrssi⟩
    exact ⟨fun m hm hne => congrArg some (hmac m hm hne), hkey, hrssi⟩
  · rintro ⟨hmac, hkey, hrssi⟩
    exact ⟨fun m hm hne => Option.some.inj (hmac m hm hne), hkey, hrssi⟩

instance (f : Filters) (d : Device) : Decidable (f.Accepts d) := decidable_of_iff' _ (f.accepts_iff d)

/-! ## The loop -/

/-- What is printed after a key. -/
inductive Flag where
  /-- `  <-- new epoch (rotation)` -/
  | rotation
  /-- `  <-- first identity` -/
  | firstIdentity
  /-- `  (repeat)` -/
  | repeated
  deriving DecidableEq

/-- The two lines printed for an advert: `[{count:4d}] {mac} rssi={rssi}  ({kind})`, without the
strength if it is unknown, and `p_curr = {key}{flag}`, or that there is no full key. -/
structure Record where
  count : Nat
  mac : List Char
  rssi : Option Int
  kind : List Char
  identity : Option (List Char × Flag)
  deriving DecidableEq

/-- The variables of the loop, and what it has printed. -/
structure Scan where
  seenKeys : Finset (List Char)
  seenMacs : Finset (List Char)
  count : Nat
  printed : List Record

def Scan.start : Scan := ⟨∅, ∅, 0, []⟩

/-- The loop's body past the filters. -/
def Scan.shown (s : Scan) (d : Device) : Scan :=
  let key := fullKeyHex d
  let count := s.count + 1
  let seenMacs := insert d.mac s.seenMacs
  let newEpoch := match key with
    | some k => k ∉ s.seenKeys
    | none => false
  let rotated := newEpoch && 0 < s.seenKeys.card
  let seenKeys := match key with
    | some k => insert k s.seenKeys
    | none => s.seenKeys
  let flag := if rotated then .rotation else if newEpoch then .firstIdentity else .repeated
  ⟨seenKeys, seenMacs, count, s.printed ++ [⟨count, d.mac, d.rssi, d.kind, key.map (·, flag)⟩]⟩

/-- The loop's body. -/
def scanStep (f : Filters) (s : Scan) (d : Device) : Scan :=
  if mismatch f.mac (some d.mac) then s
  else if mismatch f.key (fullKeyHex d) then s
  else if belowFloor f.rssiFloor d.rssi then s
  else s.shown d

/-- What a scan prints: the time limit if there is one, the adverts, and the totals of the last line,
`Done. {count} matching advertisement(s); … distinct identit(y/ies); … distinct address(es).` -/
structure Report where
  limit : Option PyFloat
  records : List Record
  adverts : Nat
  identities : Nat
  addresses : Nat

/-- `scan`, of the devices the scanner reports. -/
def scan (duration : PyFloat) (f : Filters) (devices : List Device) : Report :=
  let s := devices.foldl (scanStep f) .start
  ⟨if duration.pos then some duration else none, s.printed, s.count, s.seenKeys.card, s.seenMacs.card⟩

/-! ## One device -/

/-- A refused device leaves the variables alone. -/
theorem scanStep_eq (f : Filters) (s : Scan) (d : Device) : scanStep f s d = if f.Accepts d then s.shown d else s := by
  unfold scanStep
  simp only [Filters.accepts_iff]
  cases mismatch f.mac (some d.mac) <;> cases mismatch f.key (fullKeyHex d) <;>
    cases belowFloor f.rssiFloor d.rssi <;> rfl

/-- The loop runs over the accepted devices. -/
theorem foldl_scanStep (f : Filters) (ds : List Device) (s : Scan) :
    ds.foldl (scanStep f) s = (ds.filter fun d => f.Accepts d).foldl Scan.shown s := by
  have hstep : scanStep f = fun s d => if f.Accepts d then s.shown d else s :=
    funext fun s => funext fun d => scanStep_eq f s d
  rw [List.foldl_filter, hstep]
  simp only [decide_eq_true_eq]

/-- The flag of a key that comes after the keys `earlier`. -/
def flagAfter (earlier : List (List Char)) (k : List Char) : Flag :=
  if k ∈ earlier then .repeated else if earlier = [] then .firstIdentity else .rotation

theorem flagAfter_ne_repeated_iff (earlier : List (List Char)) (k : List Char) :
    flagAfter earlier k ≠ .repeated ↔ k ∉ earlier := by
  unfold flagAfter
  by_cases hk : k ∈ earlier <;> by_cases hne : earlier = [] <;> simp [hk, hne]

theorem flagAfter_eq_firstIdentity_iff (earlier : List (List Char)) (k : List Char) :
    flagAfter earlier k = .firstIdentity ↔ earlier = [] := by
  unfold flagAfter
  by_cases hne : earlier = []
  · subst hne
    simp
  · by_cases hk : k ∈ earlier <;> simp [hk, hne]

theorem flagAfter_eq_rotation_iff (earlier : List (List Char)) (k : List Char) :
    flagAfter earlier k = .rotation ↔ k ∉ earlier ∧ earlier ≠ [] := by
  unfold flagAfter
  by_cases hk : k ∈ earlier <;> by_cases hne : earlier = [] <;> simp [hk, hne]

/-- The keys of the adverts. -/
def keysOf (ds : List Device) : List (List Char) := ds.filterMap fullKeyHex

/-- What is printed for `d` when the adverts `before` have come. -/
def recordAfter (before : List Device) (d : Device) : Record :=
  ⟨before.length + 1, d.mac, d.rssi, d.kind, (fullKeyHex d).map fun k => (k, flagAfter (keysOf before) k)⟩

def Record.flag (r : Record) : Option Flag := r.identity.map Prod.snd

/-- The variables when the adverts `ds` have been shown. -/
structure Shown (ds : List Device) (s : Scan) : Prop where
  count : s.count = ds.length
  keys : s.seenKeys = (keysOf ds).toFinset
  macs : s.seenMacs = (ds.map Device.mac).toFinset
  length : s.printed.length = ds.length
  record : ∀ i d, ds[i]? = some d → s.printed[i]? = some (recordAfter (ds.take i) d)
  rotations : s.printed.countP (·.flag = some .rotation) = s.seenKeys.card - 1

theorem keysOf_concat (ds : List Device) (d : Device) : keysOf (ds ++ [d]) = keysOf ds ++ (fullKeyHex d).toList := by
  unfold keysOf
  rw [List.filterMap_append]
  cases h : fullKeyHex d <;> simp [h]

theorem Shown.mem_seenKeys {ds : List Device} {s : Scan} (h : Shown ds s) (k : List Char) :
    k ∈ s.seenKeys ↔ k ∈ keysOf ds := by
  rw [h.keys, List.mem_toFinset]

theorem Shown.card_pos_iff {ds : List Device} {s : Scan} (h : Shown ds s) : 0 < s.seenKeys.card ↔ keysOf ds ≠ [] := by
  rw [h.keys, Finset.card_pos, List.toFinset_nonempty_iff]

/-- The record of an advert. -/
theorem Shown.printed_shown {ds : List Device} {s : Scan} (h : Shown ds s) (d : Device) :
    (s.shown d).printed = s.printed ++ [recordAfter ds d] := by
  unfold Scan.shown recordAfter
  rw [h.count]
  cases fullKeyHex d with
  | none => rfl
  | some k =>
    simp only [h.mem_seenKeys, h.card_pos_iff, Option.map_some, flagAfter]
    by_cases hk : k ∈ keysOf ds <;> by_cases hne : keysOf ds = [] <;> simp [hk, hne]

/-- Only a key that is neither seen nor the first is flagged as a rotation. -/
theorem flag_recordAfter_iff (ds : List Device) (d : Device) : (recordAfter ds d).flag = some .rotation ↔
    ∃ k, fullKeyHex d = some k ∧ k ∉ keysOf ds ∧ keysOf ds ≠ [] := by
  unfold recordAfter Record.flag
  cases fullKeyHex d with
  | none => simp
  | some k => simp [flagAfter_eq_rotation_iff]

/-- The keys seen and the rotations flagged grow together, but for the first key. -/
theorem Shown.rotations_shown {ds : List Device} {s : Scan} (h : Shown ds s) (d : Device) :
    (s.shown d).printed.countP (·.flag = some .rotation) = (s.shown d).seenKeys.card - 1 := by
  rw [h.printed_shown, List.countP_append, h.rotations, List.countP_singleton]
  simp only [decide_eq_true_eq, flag_recordAfter_iff, ← h.card_pos_iff, ← h.mem_seenKeys]
  unfold Scan.shown
  cases fullKeyHex d with
  | none => simp
  | some k => simp only [FirstSeen.card_insert_sub_one, Option.some.injEq, exists_eq_left']

/-! ## The run -/

theorem shown_start : Shown [] .start := ⟨rfl, rfl, rfl, rfl, by simp, rfl⟩

/-- One more advert. -/
theorem Shown.shown {ds : List Device} {s : Scan} (h : Shown ds s) (d : Device) : Shown (ds ++ [d]) (s.shown d) := by
  refine ⟨?_, ?_, ?_, ?_, fun i d' hi => ?_, h.rotations_shown d⟩
  · show s.count + 1 = _
    rw [h.count, List.length_append, List.length_singleton]
  · rw [keysOf_concat, List.toFinset_append, ← h.keys]
    unfold Scan.shown
    cases fullKeyHex d with
    | none => simp
    | some k => rw [Finset.union_comm]; rfl
  · show insert d.mac s.seenMacs = _
    rw [List.map_append, List.toFinset_append, ← h.macs, Finset.insert_eq, Finset.union_comm]
    rfl
  · rw [h.printed_shown, List.length_append, List.length_append, h.length]
    rfl
  · rw [h.printed_shown]
    rcases lt_or_ge i ds.length with hlt | hge
    · rw [List.getElem?_append_left hlt] at hi
      rw [List.getElem?_append_left (by rwa [h.length]), List.take_append_of_le_length hlt.le]
      exact h.record i d' hi
    · -- the advert that has just come
      have hlen := (List.getElem?_eq_some_iff.1 hi).1
      rw [List.length_append, List.length_singleton] at hlen
      obtain rfl : i = ds.length := by omega
      rw [List.getElem?_concat_length] at hi
      obtain rfl := Option.some.inj hi
      rw [← h.length, List.getElem?_concat_length, h.length, List.take_left' rfl]

theorem shown_run (ds : List Device) : Shown ds (ds.foldl Scan.shown .start) := by
  induction ds using List.reverseRecOn with
  | nil => exact shown_start
  | append_singleton ds d ih =>
    rw [List.foldl_append]
    exact ih.shown d

/-! ## What is printed -/

/-- Record `i` shows the key `k` with the flag. -/
def Report.Flags (r : Report) (i : ℕ) (k : List Char) (flag : Flag) : Prop :=
  r.records[i]?.bind Record.identity = some (k, flag)

/-- The records and totals of the adverts `ds`: each key is new at its first advert only, the first
of all as the first identity, and the others as rotations. -/
structure EpochFlags (ds : List Device) (r : Report) : Prop where
  length : r.records.length = ds.length
  record : ∀ i d, ds[i]? = some d → ∃ identity : Option (List Char × Flag),
    r.records[i]? = some (Record.mk (i + 1) d.mac d.rssi d.kind identity) ∧ identity.map Prod.fst = fullKeyHex d
  new : ∀ i k flag, r.Flags i k flag → (flag ≠ .repeated ↔ FirstSeen.First fullKeyHex ds i k)
  once : ∀ k ∈ keysOf ds, ∃! i, ∃ flag, r.Flags i k flag ∧ flag ≠ .repeated
  firstIdentity : ∀ i k flag, r.Flags i k flag → (flag = .firstIdentity ↔ keysOf (ds.take i) = [])
  rotations : r.records.countP (·.flag = some .rotation) = (keysOf ds).toFinset.card - 1
  adverts : r.adverts = ds.length
  identities : r.identities = (keysOf ds).toFinset.card
  addresses : r.addresses = (ds.map Device.mac).toFinset.card

section

variable {ds : List Device} {s : Scan} {r : Report}

/-- A record has the key of its advert, with the flag due after the adverts before. -/
theorem Shown.flags_iff (h : Shown ds s) (hr : r.records = s.printed) (i : ℕ) (k : List Char) (flag : Flag) :
    r.Flags i k flag ↔ ds[i]?.bind fullKeyHex = some k ∧ flag = flagAfter (keysOf (ds.take i)) k := by
  unfold Report.Flags
  rw [hr]
  cases hd : ds[i]? with
  | none =>
    have hi : ds.length ≤ i := List.getElem?_eq_none_iff.1 hd
    rw [List.getElem?_eq_none (by rwa [h.length])]
    simp
  | some d =>
    rw [h.record i d hd]
    simp only [Option.bind_some, recordAfter, Option.map_eq_some_iff, Prod.mk.injEq]
    constructor
    · rintro ⟨k', hk, rfl, rfl⟩
      exact ⟨hk, rfl⟩
    · rintro ⟨hk, rfl⟩
      exact ⟨k, hk, rfl, rfl⟩

/-- The records with a new key are those of the first adverts of the keys. -/
theorem Shown.new_iff (h : Shown ds s) (hr : r.records = s.printed) (i : ℕ) (k : List Char) :
    (∃ flag, r.Flags i k flag ∧ flag ≠ .repeated) ↔ FirstSeen.First fullKeyHex ds i k := by
  constructor
  · rintro ⟨flag, hflag, hne⟩
    obtain ⟨hk, rfl⟩ := (h.flags_iff hr i k flag).1 hflag
    exact ⟨hk, (flagAfter_ne_repeated_iff _ k).1 hne⟩
  · rintro ⟨hk, hunseen⟩
    exact ⟨_, (h.flags_iff hr i k _).2 ⟨hk, rfl⟩, (flagAfter_ne_repeated_iff _ k).2 hunseen⟩

end

/-- `scan` prints what it would if the refused devices were not there; and it flags each key of the
accepted ones as new exactly once, and counts them. -/
theorem scan_epochFlags (duration : PyFloat) (f : Filters) (devices : List Device) :
    let accepted := devices.filter fun d => f.Accepts d
    scan duration f devices = scan duration f accepted ∧ EpochFlags accepted (scan duration f devices) := by
  intro accepted
  have hrun : devices.foldl (scanStep f) .start = accepted.foldl Scan.shown .start := foldl_scanStep f devices .start
  have hagain : accepted.foldl (scanStep f) .start = accepted.foldl Scan.shown .start := by
    rw [foldl_scanStep, List.filter_filter]
    simp only [Bool.and_self]
    rfl
  have hs : Shown accepted (devices.foldl (scanStep f) .start) := by
    rw [hrun]
    exact shown_run accepted
  have hr : (scan duration f devices).records = (devices.foldl (scanStep f) .start).printed := rfl
  constructor
  · unfold scan
    rw [hrun, hagain]
  · refine ⟨hs.length, fun i d hd => ?_, fun i k flag hflag => ?_, fun k hk => ?_, fun i k flag hflag => ?_, ?_,
      hs.count, congrArg Finset.card hs.keys, congrArg Finset.card hs.macs⟩
    · have hi : (accepted.take i).length = i := List.length_take_of_le (List.getElem?_eq_some_iff.1 hd).1.le
      have hrec := hs.record i d hd
      unfold recordAfter at hrec
      rw [hi] at hrec
      exact ⟨_, hrec, by cases fullKeyHex d <;> rfl⟩
    · obtain ⟨hk, rfl⟩ := (hs.flags_iff hr i k flag).1 hflag
      rw [flagAfter_ne_repeated_iff]
      exact ⟨fun hunseen => ⟨hk, hunseen⟩, fun hfirst => hfirst.unseen⟩
    · simp only [hs.new_iff hr]
      exact FirstSeen.existsUnique_first hk
    · obtain ⟨-, rfl⟩ := (hs.flags_iff hr i k flag).1 hflag
      exact flagAfter_eq_firstIdentity_iff _ k
    · rw [← hs.keys]
      exact hs.rotations

end Esptag.ScanFindmy
