/-
The second half of `fetch_reports.main`: the key pairs it asks the network for, and the list of
reports it prints, each under the epoch of its key. None is lost or printed twice, they are in the
order of time, and where two epochs have one key the later epoch is printed.
-/
import Esptag.Host.FetchReports

namespace Esptag.FetchReports

open Octets Crypto

/-! ## findmy -/

/-- What `main` uses of the `findmy` package: a key pair of a private scalar, unless that is refused,
equal for equal public keys; and the location history of some key pairs, the entries of a dictionary
of those it has reports of. -/
structure FindMy (K R : Type) where
  keyPair : List UInt8 → Option K
  history : List K → List (K × List R)
  timestamp : R → Int
  asked : ∀ ks e, e ∈ history ks → e.1 ∈ ks

/-- A network that has the reports `reports`, each of a public key: it refuses a scalar that is not
from 1 to n - 1, and answers for each key pair once. -/
def FindMy.reference {K R : Type} [DecidableEq K] (publicKey : Nat → K) (reports : List (K × R))
    (timestamp : R → Int) : FindMy K R where
  keyPair priv := if 0 < beNat priv ∧ beNat priv < curveOrder then some (publicKey (beNat priv)) else none
  history ks := ks.dedup.map fun kp => (kp, (reports.filter fun p => p.1 = kp).map Prod.snd)
  timestamp := timestamp
  asked ks e h := by
    obtain ⟨kp, hkp, rfl⟩ := List.mem_map.1 h
    exact List.mem_dedup.1 hkp

/-! ## The function -/

section

variable {K R : Type} [DecidableEq K] (F : FindMy K R)

/-- `epoch_of` and `keypairs`. -/
structure KeyPairs (K : Type) where
  epochOf : K → Option Nat
  keypairs : List K

/-- The loop over the epochs; nothing where a key pair is refused. -/
def keyLoop : KeyPairs K → List (Nat × List UInt8) → Option (KeyPairs K)
  | s, [] => some s
  | s, (epoch, priv) :: rest => do
    let kp ← F.keyPair priv
    keyLoop ⟨Function.update s.epochOf kp (some epoch), s.keypairs ++ [kp]⟩ rest

/-- `flat`: the reports with the epochs of their keys; nothing where a key is not in `epoch_of`. -/
def flatten (epochOf : K → Option Nat) : List (K × List R) → Option (List (Nat × R))
  | [] => some []
  | (kp, rs) :: rest => do
    let flat ← flatten epochOf rest
    if rs = [] then
      return flat
    else
      let epoch ← epochOf kp
      return rs.map (fun r => (epoch, r)) ++ flat

/-- `main`, of the epochs and scalars it derived: the lines it prints, an epoch and a report each. -/
def printed (pairs : List (Nat × List UInt8)) : Option (List (Nat × R)) := do
  let s ← keyLoop F ⟨fun _ => none, []⟩ pairs
  let flat ← flatten s.epochOf (F.history s.keypairs)
  return flat.mergeSort fun a b => F.timestamp a.2 ≤ F.timestamp b.2

/-! ## What is printed -/

/-- The last epoch whose scalar has the key pair. -/
def lastEpoch (pairs : List (Nat × List UInt8)) (kp : K) : Option Nat :=
  ((pairs.filter fun p => F.keyPair p.2 = some kp).getLast?).map Prod.fst

/-- The key pairs of the scalars. -/
def keyPairs (pairs : List (Nat × List UInt8)) : List K := pairs.filterMap fun p => F.keyPair p.2

variable {F} {pairs : List (Nat × List UInt8)}

theorem lastEpoch_cons (p : Nat × List UInt8) (kp : K) : lastEpoch F (p :: pairs) kp =
    (lastEpoch F pairs kp).or (if F.keyPair p.2 = some kp then some p.1 else none) := by
  unfold lastEpoch
  by_cases h : F.keyPair p.2 = some kp
  · rw [List.filter_cons_of_pos (by simpa using h), if_pos h, List.getLast?_cons]
    cases (pairs.filter fun p => F.keyPair p.2 = some kp).getLast? <;> rfl
  · rw [List.filter_cons_of_neg (by simpa using h), if_neg h, Option.or_none]

/-- After the loop, `epoch_of` has the last epoch of each key pair. -/
theorem keyLoop_eq {s : KeyPairs K} (h : ∀ p ∈ pairs, F.keyPair p.2 ≠ none) : keyLoop F s pairs =
    some ⟨fun kp => (lastEpoch F pairs kp).or (s.epochOf kp), s.keypairs ++ keyPairs F pairs⟩ := by
  induction pairs generalizing s with
  | nil => simp [keyLoop, keyPairs, lastEpoch]
  | cons p rest ih =>
    obtain ⟨hp, hrest⟩ := List.forall_mem_cons.1 h
    obtain ⟨kp, hkp⟩ := Option.ne_none_iff_exists'.1 hp
    obtain ⟨epoch, priv⟩ := p
    simp only at hkp
    rw [keyLoop, hkp, Option.bind_eq_bind, Option.bind_some, ih hrest]
    congr 2
    · funext kp'
      simp only [lastEpoch_cons, hkp, Option.or_assoc]
      by_cases h' : kp' = kp
      · subst h'
        rw [Function.update_self, if_pos rfl, Option.some_or]
      · rw [Function.update_of_ne h', if_neg fun h => h' (Option.some.inj h).symm, Option.none_or]
    · rw [List.append_assoc, keyPairs, keyPairs, List.filterMap_cons, hkp]
      rfl

theorem keyLoop_none {s : KeyPairs K} (h : ∃ p ∈ pairs, F.keyPair p.2 = none) : keyLoop F s pairs = none := by
  induction pairs generalizing s with
  | nil => simp at h
  | cons p rest ih =>
    obtain ⟨epoch, priv⟩ := p
    cases hkp : F.keyPair priv with
    | none => rw [keyLoop, hkp]; rfl
    | some kp =>
      rw [keyLoop, hkp, Option.bind_eq_bind, Option.bind_some]
      refine ih ?_
      obtain ⟨p, hm, hp⟩ := h
      rcases List.mem_cons.1 hm with rfl | hm
      · rw [hkp] at hp
        cases hp
      · exact ⟨p, hm, hp⟩

omit [DecidableEq K] in
/-- The reports under the epochs of their keys, where every key with reports has one. -/
theorem flatten_eq {epochOf : K → Option Nat} {byKey : List (K × List R)}
    (h : ∀ p ∈ byKey, ∃ e, epochOf p.1 = some e) :
    ∃ flat, flatten epochOf byKey = some flat ∧ flat.map Prod.snd = byKey.flatMap Prod.snd ∧
      ∀ e r, (e, r) ∈ flat ↔ ∃ kp rs, (kp, rs) ∈ byKey ∧ r ∈ rs ∧ epochOf kp = some e := by
  induction byKey with
  | nil => exact ⟨[], rfl, rfl, by simp⟩
  | cons p rest ih =>
    obtain ⟨hp, hrest⟩ := List.forall_mem_cons.1 h
    obtain ⟨flat, hflat, hmap, hmem⟩ := ih hrest
    obtain ⟨kp, rs⟩ := p
    obtain ⟨epoch, hepoch⟩ := hp
    simp only at hepoch
    rw [flatten, hflat]
    by_cases hrs : rs = []
    · subst hrs
      refine ⟨flat, by simp, by rw [hmap]; simp, fun e r => ?_⟩
      rw [hmem]
      constructor
      · rintro ⟨kp', rs', hm, h⟩
        exact ⟨kp', rs', List.mem_cons_of_mem _ hm, h⟩
      · rintro ⟨kp', rs', hm, hr, he⟩
        rcases List.mem_cons.1 hm with heq | hm
        · obtain ⟨-, rfl⟩ := Prod.mk.inj heq
          cases hr
        · exact ⟨kp', rs', hm, hr, he⟩
    · refine ⟨rs.map (fun r => (epoch, r)) ++ flat, by simp [hrs, hepoch], ?_, fun e r => ?_⟩
      · rw [List.map_append, List.map_map, hmap]
        simp [Function.comp_def]
      · rw [List.mem_append, hmem, List.mem_map]
        constructor
        · rintro (⟨r', hr', heq⟩ | ⟨kp', rs', hm, hr, he⟩)
          · obtain ⟨rfl, rfl⟩ := Prod.mk.inj heq
            exact ⟨kp, rs, List.mem_cons_self .., hr', hepoch⟩
          · exact ⟨kp', rs', List.mem_cons_of_mem _ hm, hr, he⟩
        · rintro ⟨kp', rs', hm, hr, he⟩
          rcases List.mem_cons.1 hm with heq | hm
          · obtain ⟨rfl, rfl⟩ := Prod.mk.inj heq
            obtain rfl := Option.some.inj (hepoch.symm.trans he)
            exact .inl ⟨r, hr, rfl⟩
          · exact .inr ⟨kp', rs', hm, hr, he⟩

theorem lastEpoch_eq_none_iff (kp : K) : lastEpoch F pairs kp = none ↔ ∀ p ∈ pairs, F.keyPair p.2 ≠ some kp := by
  rw [lastEpoch, Option.map_eq_none_iff, List.getLast?_eq_none_iff, List.filter_eq_nil_iff]
  simp only [decide_eq_true_eq]

/-- Of epochs in order, the last one with the key pair is the greatest. -/
theorem lastEpoch_eq_some_iff (hinc : pairs.Pairwise fun p q => p.1 < q.1) (kp : K) (e : Nat) :
    lastEpoch F pairs kp = some e ↔ (∃ x, (e, x) ∈ pairs ∧ F.keyPair x = some kp) ∧
      ∀ p ∈ pairs, F.keyPair p.2 = some kp → p.1 ≤ e := by
  induction pairs generalizing e with
  | nil => simp [lastEpoch]
  | cons p rest ih =>
    obtain ⟨hlt, hrest⟩ := List.pairwise_cons.1 hinc
    rw [lastEpoch_cons]
    cases hlast : lastEpoch F rest kp with
    | none =>
      -- only the first one may have it
      have hno := (lastEpoch_eq_none_iff kp).1 hlast
      rw [Option.none_or]
      constructor
      · intro h
        split at h
        case isTrue hp =>
          obtain rfl := Option.some.inj h
          refine ⟨⟨p.2, List.mem_cons_self .., hp⟩, List.forall_mem_cons.2 ⟨fun _ => le_refl _, fun q hq hk => ?_⟩⟩
          exact absurd hk (hno q hq)
        case isFalse => cases h
      · rintro ⟨⟨x, hm, hx⟩, -⟩
        rcases List.mem_cons.1 hm with rfl | hm
        · exact if_pos hx
        · exact absurd hx (hno _ hm)
    | some e' =>
      obtain ⟨⟨x', hm', hx'⟩, hmax'⟩ := (ih hrest e').1 hlast
      rw [Option.some_or, Option.some_inj]
      constructor
      · rintro rfl
        refine ⟨⟨x', List.mem_cons_of_mem _ hm', hx'⟩, List.forall_mem_cons.2 ⟨fun _ => ?_, hmax'⟩⟩
        exact (hlt _ hm').le
      · rintro ⟨⟨x, hm, hx⟩, hmax⟩
        have hge := hmax _ (List.mem_cons_of_mem _ hm') hx'
        rcases List.mem_cons.1 hm with rfl | hm
        · exact absurd (hlt _ hm') (not_lt.2 hge)
        · exact le_antisymm hge (hmax' _ hm hx)

/-- What `main` makes of the scalars of some epochs. -/
structure Printed (F : FindMy K R) (epochs : List Nat) (key : Nat → Option K) (r : Option (List (Nat × R))) : Prop where
  refused : (∃ e ∈ epochs, key e = none) → r = none
  accepted : (∀ e ∈ epochs, key e ≠ none) → ∃ out, r = some out ∧
    (out.map Prod.snd).Perm ((F.history (epochs.filterMap key)).flatMap Prod.snd) ∧
    out.Pairwise (fun a b => F.timestamp a.2 ≤ F.timestamp b.2) ∧
    ∀ e x, (e, x) ∈ out ↔ ∃ kp rs, (kp, rs) ∈ F.history (epochs.filterMap key) ∧ x ∈ rs ∧ e ∈ epochs ∧
      key e = some kp ∧ ∀ e' ∈ epochs, key e' = some kp → e' ≤ e

theorem lastEpoch_map {epochs : List Nat} (hinc : epochs.Pairwise (· < ·)) (priv : Nat → List UInt8) (kp : K)
    (e : Nat) :
    lastEpoch F (epochs.map fun e => (e, priv e)) kp = some e ↔
      e ∈ epochs ∧ F.keyPair (priv e) = some kp ∧ ∀ e' ∈ epochs, F.keyPair (priv e') = some kp → e' ≤ e := by
  rw [lastEpoch_eq_some_iff (List.pairwise_map.2 hinc), List.forall_mem_map, ← and_assoc]
  refine and_congr_left fun _ => ?_
  constructor
  · rintro ⟨x, hm, hx⟩
    obtain ⟨e', he', heq⟩ := List.mem_map.1 hm
    obtain ⟨rfl, rfl⟩ := Prod.mk.inj heq
    exact ⟨he', hx⟩
  · rintro ⟨he, hkp⟩
    exact ⟨priv e, List.mem_map.2 ⟨e, he, rfl⟩, hkp⟩

theorem printed_spec {epochs : List Nat} (hinc : epochs.Pairwise (· < ·)) (priv : Nat → List UInt8) :
    Printed F epochs (fun e => F.keyPair (priv e)) (printed F (epochs.map fun e => (e, priv e))) := by
  have hkeys : keyPairs F (epochs.map fun e => (e, priv e)) = epochs.filterMap fun e => F.keyPair (priv e) :=
    List.filterMap_map
  constructor
  · rintro ⟨e, he, hnone⟩
    have hex : ∃ p ∈ epochs.map fun e => (e, priv e), F.keyPair p.2 = none :=
      ⟨(e, priv e), List.mem_map.2 ⟨e, he, rfl⟩, hnone⟩
    have hloop := keyLoop_none (s := ⟨fun _ => none, []⟩) hex
    rw [printed, hloop]
    rfl
  · intro hall
    have hpairs : ∀ p ∈ epochs.map fun e => (e, priv e), F.keyPair p.2 ≠ none := List.forall_mem_map.2 hall
    have hloop := keyLoop_eq (s := ⟨fun _ => none, []⟩) hpairs
    simp only [hkeys, List.nil_append, Option.or_none] at hloop
    have hsome : ∀ p ∈ F.history (epochs.filterMap fun e => F.keyPair (priv e)),
        ∃ e, lastEpoch F (epochs.map fun e => (e, priv e)) p.1 = some e := by
      intro p hp
      obtain ⟨e, he, hkp⟩ := List.mem_filterMap.1 (F.asked _ p hp)
      rw [← Option.ne_none_iff_exists', ne_eq, lastEpoch_eq_none_iff]
      exact fun h => h _ (List.mem_map_of_mem he) hkp
    obtain ⟨flat, hflat, hmap, hmem⟩ := flatten_eq hsome
    refine ⟨flat.mergeSort fun a b => F.timestamp a.2 ≤ F.timestamp b.2, ?_, ?_, ?_, fun e x => ?_⟩
    · rw [printed, hloop, Option.bind_eq_bind, Option.bind_some, hflat]
      rfl
    · rw [← hmap]
      exact (List.mergeSort_perm _ _).map _
    · have hsorted : (flat.mergeSort fun a b => F.timestamp a.2 ≤ F.timestamp b.2).Pairwise
          fun a b => decide (F.timestamp a.2 ≤ F.timestamp b.2) = true := by
        refine List.pairwise_mergeSort (fun a b c hab hbc => ?_) (fun a b => ?_) flat
        · simp only [decide_eq_true_eq] at *
          exact hab.trans hbc
        · simpa using le_total (F.timestamp a.2) (F.timestamp b.2)
      simpa only [decide_eq_true_eq] using hsorted
    · rw [List.mem_mergeSort, hmem]
      simp only [lastEpoch_map hinc]

end

/-- The reports `main` prints: where every scalar is accepted, those of the whole history of their
key pairs, each once, in the order of time, under an epoch whose key pair it is a report of, the last
one if the key pair is that of several; and where one is refused, none. -/
theorem printed_reports {K R : Type} [DecidableEq K] (F : FindMy K R) (env : Env) (d0 : Bytes dLen) (sk0 : Bytes skLen)
    (start count : Nat) : ∃ pairs, deriveEpochKeys env.sha256 d0.val sk0.val start count = .ok pairs ∧
      Printed F (List.range' start count) (fun e => F.keyPair (epochPrivate env d0 sk0 e).val) (printed F pairs) :=
  ⟨_, deriveEpochKeys_eq env d0 sk0 start count, printed_spec List.pairwise_lt_range' _⟩

/-- An environment in which the ratchet goes to and fro between two keys. -/
def toAndFro : Env := { Env.counting with
  sha256 := fun l => be hashLen (if beNat (l.take hashLen) = 2 ^ 40 then 2 ^ 41 else 2 ^ 40) }

/-- A scalar and its opposite have one public key; a report is its time. -/
def FindMy.sample : FindMy Nat Int :=
  .reference (fun d => min d (curveOrder - d)) [(2 ^ 104, 5), (2 ^ 105, 3), (2 ^ 104, 1)] id

/-- Epochs 0 and 2 have one key: its two reports are printed under epoch 2, with that of epoch 1
between them. -/
theorem printed_reports_sample : ∃ pairs,
    deriveEpochKeys toAndFro.sha256 (Bytes.zero dLen).val (Bytes.zero skLen).val 0 3 = .ok pairs ∧
      printed .sample pairs = some [(2, 1), (1, 3), (2, 5)] := by
  obtain ⟨pairs, hpairs, hprinted⟩ := printed_reports .sample toAndFro (Bytes.zero dLen) (Bytes.zero skLen) 0 3
  refine ⟨pairs, hpairs, ?_⟩
  have hkeys : ∀ e ∈ List.range' 0 3,
      FindMy.sample.keyPair (epochPrivate toAndFro (Bytes.zero dLen) (Bytes.zero skLen) e).val =
        some (if e = 1 then 2 ^ 105 else 2 ^ 104) := by decide +kernel
  have hhist : FindMy.sample.history ((List.range' 0 3).filterMap fun e =>
      FindMy.sample.keyPair (epochPrivate toAndFro (Bytes.zero dLen) (Bytes.zero skLen) e).val) =
      [(2 ^ 105, [3]), (2 ^ 104, [5, 1])] := by decide +kernel
  obtain ⟨out, hout, hperm, hsorted, hmem⟩ := hprinted.accepted fun e he => by rw [hkeys e he]; simp
  rw [hhist] at hperm
  -- the reports in the order of time
  have htimes : out.map Prod.snd = [1, 3, 5] := by
    refine List.Perm.eq_of_pairwise (fun _ _ _ _ => le_antisymm) (List.pairwise_map.2 hsorted) (by decide)
      (hperm.trans (by decide))
  -- and the last epoch of each one's key
  have hepochs : ∀ p ∈ out, (if p.2 = 3 then 1 else 2, p.2) = p := by
    rintro ⟨e, x⟩ hp
    obtain ⟨kp, rs, hin, hx, he, hkey, hlast⟩ := (hmem e x).1 hp
    rw [hhist] at hin
    have hlt : e < 3 := (List.mem_range'_1.1 he).2
    rw [hkeys e he] at hkey
    have h2 := fun h => hlast 2 (by decide) ((hkeys 2 (by decide)).trans h)
    simp only [List.mem_cons, Prod.mk.injEq, List.not_mem_nil, or_false] at hin
    rcases hin with ⟨rfl, rfl⟩ | ⟨rfl, rfl⟩
    · obtain rfl := List.mem_singleton.1 hx
      obtain rfl : e = 1 := by_contra fun h1 => by simp [h1] at hkey
      rfl
    · obtain rfl : e = 2 := le_antisymm (by omega) (h2 rfl)
      rcases List.mem_pair.1 hx with rfl | rfl <;> rfl
  calc printed .sample pairs = some (out.map fun p => (if p.2 = 3 then 1 else 2, p.2)) := by
        rw [hout, List.map_congr_left hepochs, List.map_id']
    _ = some ((out.map Prod.snd).map fun x => (if x = 3 then 1 else 2, x)) := by rw [List.map_map]; rfl
    _ = some [(2, 1), (1, 3), (2, 5)] := by rw [htimes]; rfl

end Esptag.FetchReports
