/-
`fetch_reports.main` up to the keys it asks for, and which of the tag's epochs these are: all that
are in force in a 7-day window if the rotation interval divides the window, and one too few for
some phases of the rotation if it does not.
-/
import Esptag.Host.FetchReports
import Esptag.Lib.Stretches

namespace Esptag.FetchReports

open Octets Crypto

/-! ## The epochs -/

/-- `RETENTION_DAYS`. -/
def retentionDays : Int := 7

/-- The window of reports, in milliseconds. -/
def retentionMs : Int := retentionDays * 86400000

/-- The arguments that say which keys to derive. -/
structure Args where
  seed : List Char
  start : Int := 0
  epochs : Int := 1
  intervalMs : Option Int := none

/-- The checks of `main`, and its `count`. -/
def epochCount (args : Args) : PyM Int :=
  if args.epochs < 1 ∨ args.start < 0 then .error (.systemExit .badEpochs)
  else
    match args.intervalMs with
    | none => .ok args.epochs
    | some interval =>
      if interval < 1 then .error (.systemExit .badInterval)
      else .ok (retentionDays * 86400000 / interval + 1)

/-- `main`, up to the epochs and scalars of the key pairs it asks for, with the text of the key file. -/
def mainKeys (sha256 : List UInt8 → Bytes hashLen) (args : Args) (text : List Char) :
    PyM (List (Nat × List UInt8)) := do
  let count ← epochCount args
  let (d0, sk0) ← loadSeed args.seed text
  deriveEpochKeys sha256 d0 sk0 args.start.toNat count.toNat

variable {args : Args} {text : List Char} {keys : List (Nat × List UInt8)} {interval count : Int}

theorem epochCount_interval (hi : args.intervalMs = some interval) (h : epochCount args = .ok count) :
    0 ≤ args.start ∧ 1 ≤ interval ∧ count = retentionMs / interval + 1 := by
  unfold epochCount at h
  rw [hi] at h
  split at h
  · cases h
  case isFalse hargs =>
    simp only at h
    split at h
    · cases h
    case isFalse hpos => exact ⟨by omega, by omega, (Except.ok.inj h).symm⟩

/-- The secrets read from a key file have their sizes. -/
theorem loadSeed_sizes {path : List Char} {d0 sk0 : List UInt8} (h : loadSeed path text = .ok (d0, sk0)) :
    d0.length = dLen ∧ sk0.length = skLen := by
  unfold loadSeed at h
  obtain ⟨values, -, h⟩ := bind_eq_ok h
  split at h
  · cases h
  · cases h
  · split at h
    · cases h
    case isFalse hsizes =>
      cases h
      exact ⟨by tauto, by tauto⟩

/-- The keys are those of the epochs of `[start, start + count)`, in order. -/
theorem mainKeys_epochs {env : Env} (h : mainKeys env.sha256 args text = .ok keys) :
    ∃ count, epochCount args = .ok count ∧ keys.map Prod.fst = List.range' args.start.toNat count.toNat := by
  unfold mainKeys at h
  obtain ⟨count, hcount, h⟩ := bind_eq_ok h
  obtain ⟨⟨d0, sk0⟩, hseed, h⟩ := bind_eq_ok h
  obtain ⟨hd, hs⟩ := loadSeed_sizes hseed
  have hkeys := deriveEpochKeys_eq env ⟨d0, hd⟩ ⟨sk0, hs⟩ args.start.toNat count.toNat
  refine ⟨count, hcount, ?_⟩
  rw [← Except.ok.inj (hkeys.symm.trans h), List.map_map]
  exact List.map_id _

/-! ## The window -/

section

variable {K : Type*} [CommRing K] [LinearOrder K]

/-- With epoch 0 begun at `origin` and an epoch every `interval` milliseconds, every epoch in force
at an instant of the window that opens at `t` is among `epochs`. -/
def Covers (epochs : List ℕ) (interval : ℤ) (origin t : K) : Prop :=
  ∀ x, t ≤ x → x < t + (retentionMs : ℤ) → ∀ e, Stretches.At origin (interval : K) e x → e ∈ epochs

variable [IsStrictOrderedRing K] {origin t : K}

/-- No epoch before the first is in force in the window. -/
theorem covers_range'_iff {l s k : ℕ} (hstart : Stretches.At origin (l : K) s t) :
    Covers (List.range' s k) l origin t ↔
      ∀ x n, t ≤ x → x < t + (retentionMs.toNat : ℕ) → Stretches.At origin (l : K) n x → n < s + k := by
  unfold Covers
  rw [Int.cast_natCast, show retentionMs = (retentionMs.toNat : ℕ) from rfl, Int.cast_natCast]
  constructor
  · intro h x n hopen hclose hn
    exact (List.mem_range'_1.1 (h x hopen hclose n hn)).2
  · intro h x hopen hclose n hn
    exact List.mem_range'_1.2 ⟨hstart.le hn hopen, h x n hopen hclose hn⟩

/-- The epochs of the keys, as natural numbers of milliseconds and of epochs. -/
theorem mainKeys_interval {env : Env} (hi : args.intervalMs = some interval)
    (h : mainKeys env.sha256 args text = .ok keys) : ∃ l s : ℕ, 0 < l ∧ interval = l ∧ args.start = s ∧
      keys.map Prod.fst = List.range' s (retentionMs.toNat / l + 1) := by
  obtain ⟨count, hcount, hkeys⟩ := mainKeys_epochs h
  obtain ⟨hpos, hinterval, rfl⟩ := epochCount_interval hi hcount
  obtain ⟨l, rfl⟩ := Int.eq_ofNat_of_zero_le (by omega : 0 ≤ interval)
  obtain ⟨s, hs⟩ := Int.eq_ofNat_of_zero_le hpos
  refine ⟨l, s, by omega, rfl, hs, ?_⟩
  rw [hkeys, hs]
  rfl

/-- The keys cover the window if and only if what of the first epoch is over when it opens, and what
the window has beyond whole epochs, are together at most one epoch. -/
theorem mainKeys_covers_iff {env : Env} (hi : args.intervalMs = some interval)
    (h : mainKeys env.sha256 args text = .ok keys)
    (hstart : Stretches.At origin (interval : K) args.start.toNat t) :
    Covers (keys.map Prod.fst) interval origin t ↔
      t - (origin + args.start * interval) + (retentionMs % interval : ℤ) ≤ interval := by
  obtain ⟨l, s, -, rfl, hs, hkeys⟩ := mainKeys_interval hi h
  have hmod : retentionMs % (l : ℤ) = (retentionMs.toNat % l : ℕ) := rfl
  rw [hs, Int.toNat_natCast, Int.cast_natCast] at hstart
  rw [hkeys, covers_range'_iff hstart, Stretches.div_add_one_iff hstart, hs, hmod]
  simp only [Int.cast_natCast]

end

/-- They cover it wherever in the first epoch it opens if and only if the interval divides 7 days. -/
theorem mainKeys_covers_forall_iff {K : Type*} [Field K] [LinearOrder K] [IsStrictOrderedRing K] {env : Env}
    (hi : args.intervalMs = some interval) (h : mainKeys env.sha256 args text = .ok keys) (origin : K) :
    (∀ t, Stretches.At origin (interval : K) args.start.toNat t → Covers (keys.map Prod.fst) interval origin t) ↔
      interval ∣ retentionMs := by
  obtain ⟨l, s, hl, rfl, hs, hkeys⟩ := mainKeys_interval hi h
  have hdvd : (l : ℤ) ∣ retentionMs ↔ l ∣ retentionMs.toNat := Int.natCast_dvd_natCast
  rw [hs, Int.toNat_natCast, Int.cast_natCast, hkeys, hdvd, ← Stretches.forall_div_add_one_iff hl origin s]
  exact forall₂_congr fun t hstart => covers_range'_iff hstart

/-! ## Two intervals -/

/-- The key file of `derive_keys.py` is one that `main` derives keys from. -/
theorem mainKeys_buildKeysFile (env : Env) (d0 : Bytes dLen) (sk0 : Bytes skLen)
    (hcount : epochCount args = .ok count) :
    mainKeys env.sha256 args (DeriveKeys.buildKeysFile d0.val sk0.val) =
      .ok ((List.range' args.start.toNat count.toNat).map fun e => (e, (epochPrivate env d0 sk0 e).val)) := by
  unfold mainKeys
  rw [hcount, loadSeed_buildKeysFile args.seed d0.property sk0.property]
  exact deriveEpochKeys_eq env d0 sk0 args.start.toNat count.toNat

/-- The keys of the zero secrets for a rotation interval, from epoch 0. -/
theorem mainKeys_counting {interval : Int} (h : 1 ≤ interval) :
    ∃ keys, mainKeys Env.counting.sha256 { seed := [], intervalMs := some interval }
      (DeriveKeys.buildKeysFile (Bytes.zero dLen).val (Bytes.zero skLen).val) = .ok keys := by
  have hcount : epochCount { seed := [], intervalMs := some interval } = .ok (retentionMs / interval + 1) := by
    unfold epochCount
    simp only [lt_irrefl, Int.not_lt.2 h, or_self, if_false]
    rfl
  exact ⟨_, mainKeys_buildKeysFile Env.counting (Bytes.zero dLen) (Bytes.zero skLen) hcount⟩

/-- Rotating every quarter of an hour. -/
theorem mainKeys_covers_iff_quarterHour :
    ∃ keys, mainKeys Env.counting.sha256 { seed := [], intervalMs := some 900000 }
      (DeriveKeys.buildKeysFile (Bytes.zero dLen).val (Bytes.zero skLen).val) = .ok keys ∧
      Covers (keys.map Prod.fst) 900000 (0 : ℤ) 899999 := by
  obtain ⟨keys, hkeys⟩ := mainKeys_counting (by decide : (1 : Int) ≤ 900000)
  refine ⟨keys, hkeys, (mainKeys_covers_iff rfl hkeys ⟨by decide, by decide⟩).2 (by decide)⟩

/-- Rotating every 5 hours, a window that opens 10000 seconds into epoch 0 runs into epoch 34, one
more than the 34 keys. -/
theorem mainKeys_fiveHours : ¬ ∀ (args : Args) (text : List Char) (keys : List (ℕ × List UInt8))
    (interval origin t : ℤ), args.intervalMs = some interval →
    mainKeys Env.counting.sha256 args text = .ok keys →
    Stretches.At origin interval args.start.toNat t → Covers (keys.map Prod.fst) interval origin t := by
  intro h
  obtain ⟨keys, hkeys⟩ := mainKeys_counting (by decide : (1 : Int) ≤ 18000000)
  obtain ⟨count, hcount, hepochs⟩ := mainKeys_epochs hkeys
  obtain ⟨-, -, rfl⟩ := epochCount_interval rfl hcount
  have hcover := h _ _ keys 18000000 0 10000000 rfl hkeys ⟨by decide, by decide⟩
  have hmem := hcover 612000000 (by decide) (by decide) 34 ⟨by decide, by decide⟩
  rw [hepochs] at hmem
  exact absurd hmem (by decide)

end Esptag.FetchReports
