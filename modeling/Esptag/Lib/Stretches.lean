/-
A line cut into consecutive half-open stretches of one length, numbered from an origin: which
stretch a point is in, and how many stretches a window meets.
-/
import Mathlib.Tactic

namespace Stretches

/-! ## Points -/

section

variable {K : Type*} [CommRing K] [LinearOrder K] [IsStrictOrderedRing K]

/-- `x` is in stretch `n` of those of length `l` from `o`. -/
structure At (o l : K) (n : ℕ) (x : K) : Prop where
  start : o + n * l ≤ x
  stop : x < o + (n + 1) * l

variable {o l w x y t : K} {m n s k : ℕ}

/-- A stretch with a point has a length. -/
theorem At.pos (h : At o l n x) : 0 < l := by
  have h1 := h.start
  have h2 := h.stop
  rw [add_mul, one_mul, ← add_assoc] at h2
  linarith

/-- A stretch that begins before another stops is not after it. -/
theorem At.le (hm : At o l m x) (hn : At o l n y) (hxy : x ≤ y) : m ≤ n := by
  have hl := hm.pos
  have h : (m : K) * l < (n + 1) * l := by
    have h1 := hm.start
    have h2 := hn.stop
    linarith
  have hlt : (m : K) < ((n + 1 : ℕ) : K) := by
    rw [Nat.cast_add_one]
    exact lt_of_mul_lt_mul_right h hl.le
  exact Nat.lt_succ_iff.1 (Nat.cast_lt.1 hlt)

/-- A point is in one stretch. -/
theorem At.unique (hm : At o l m x) (hn : At o l n x) : m = n := le_antisymm (hm.le hn le_rfl) (hn.le hm le_rfl)

theorem at_start (hl : 0 < l) (n : ℕ) : At o l n (o + n * l) := by
  refine ⟨le_rfl, ?_⟩
  rw [add_mul, one_mul]
  linarith

/-! ## Windows -/

/-- The `k` stretches from the one at the opening of a window are all it meets if and only if they
reach its end. -/
theorem forall_lt_iff (h : At o l s t) (hk : 0 < k) :
    (∀ x n, t ≤ x → x < t + w → At o l n x → n < s + k) ↔ t + w ≤ o + ((s + k : ℕ) : K) * l := by
  have hl := h.pos
  constructor
  · intro hall
    by_contra hend
    -- the stretch after these begins inside the window
    have hopen : t ≤ o + ((s + k : ℕ) : K) * l := by
      have h1 : ((s + 1 : ℕ) : K) * l ≤ ((s + k : ℕ) : K) * l :=
        mul_le_mul_of_nonneg_right (Nat.cast_le.2 (by omega)) hl.le
      have h2 := h.stop
      rw [Nat.cast_add_one] at h1
      linarith
    exact absurd (hall _ _ hopen (not_le.1 hend) (at_start hl (s + k))) (lt_irrefl _)
  · rintro hend x n - hx hn
    have h1 : (n : K) * l < ((s + k : ℕ) : K) * l := by
      have h2 := hn.start
      linarith
    exact Nat.cast_lt.1 (lt_of_mul_lt_mul_right h1 hl.le)

end

/-! ## As many as the length divides, and one -/

section

variable {K : Type*} [CommRing K] [LinearOrder K] [IsStrictOrderedRing K] {o t : K} {l w s : ℕ}

/-- `w / l + 1` stretches are all that a window of length `w` meets, unless the part of a stretch
left over by the window, together with what of the first stretch is over when the window opens, is
more than a stretch. -/
theorem div_add_one_iff (h : At o (l : K) s t) :
    (∀ x n, t ≤ x → x < t + w → At o (l : K) n x → n < s + (w / l + 1)) ↔
      t - (o + s * l) + ((w % l : ℕ) : K) ≤ l := by
  have hsplit : (w : K) = l * (w / l : ℕ) + (w % l : ℕ) := by
    rw [← Nat.cast_mul, ← Nat.cast_add, Nat.div_add_mod]
  have hreach : o + ((s + (w / l + 1) : ℕ) : K) * l = o + s * l + l * (w / l : ℕ) + l := by
    push_cast
    ring
  rw [forall_lt_iff h (Nat.succ_pos _), hreach, hsplit]
  constructor
  · intro hle
    linarith
  · intro hle
    linarith

end

section

variable {K : Type*} [Field K] [LinearOrder K] [IsStrictOrderedRing K] {l w : ℕ}

/-- They are so wherever in its first stretch the window opens only if the length divides it. -/
theorem forall_div_add_one_iff (hl : 0 < l) (o : K) (s : ℕ) :
    (∀ t, At o (l : K) s t → ∀ x n, t ≤ x → x < t + w → At o (l : K) n x → n < s + (w / l + 1)) ↔ l ∣ w := by
  constructor
  · intro hall
    rw [Nat.dvd_iff_mod_eq_zero]
    by_contra hmod
    have hrem : (0 : K) < ((w % l : ℕ) : K) := Nat.cast_pos.2 (Nat.pos_of_ne_zero hmod)
    have hlt : ((w % l : ℕ) : K) < l := Nat.cast_lt.2 (Nat.mod_lt w hl)
    -- half the remainder before the first stretch stops
    have hopen : At o (l : K) s (o + s * l + (l - ((w % l : ℕ) : K) / 2)) := by
      constructor
      · linarith
      · rw [add_mul, one_mul]
        linarith
    have hle := (div_add_one_iff hopen).1 (hall _ hopen)
    linarith
  · intro hdvd t h
    have hstop := h.stop
    rw [div_add_one_iff h, Nat.mod_eq_zero_of_dvd hdvd, Nat.cast_zero]
    rw [add_mul, one_mul] at hstop
    linarith

end

end Stretches
