/-
Loops that try again: a body that succeeds, gives up, or asks for another try, run a bounded number
of times. The loop succeeds with the first try that does, when all before it asked for another.
-/
import Esptag.Lib.Prog

/-- How a try ends. -/
inductive Try (α : Type) where
  | done (a : α)
  | stop
  | again
  deriving DecidableEq, Repr

namespace Prog

variable {σ α : Type}

/-- `for (tries = 0; tries < n; ++tries) body;` and a failure behind it. -/
def tries (body : Prog σ (Try α)) : Nat → Prog σ (Option α)
  | 0 => pure none
  | n + 1 => do
    match ← body with
    | .done a => return some a
    | .stop => return none
    | .again => tries body n

/-- The state before try `k`. -/
def before (body : Prog σ (Try α)) (s : σ) (k : Nat) : σ := (fun s => (body.run s).2)^[k] s

/-- How try `k` ends. -/
def nth (body : Prog σ (Try α)) (s : σ) (k : Nat) : Try α := (body.run (before body s k)).1

section

variable {body : Prog σ (Try α)} {s : σ}

@[simp] theorem before_zero : before body s 0 = s := rfl

theorem before_succ (k : Nat) : before body s (k + 1) = before body (body.run s).2 k := rfl

@[simp] theorem nth_zero : nth body s 0 = (body.run s).1 := rfl

theorem run_tries_succ (n : Nat) : (tries body (n + 1)).run s = match (body.run s).1 with
    | .done a => (some a, (body.run s).2)
    | .stop => (none, (body.run s).2)
    | .again => (tries body n).run (body.run s).2 := by
  rw [tries, run_bind]
  cases (body.run s).1 <;> rfl

/-- The loop returns what the first try that does not ask for another succeeds with. -/
theorem tries_eq_some_iff (n : Nat) (a : α) :
    ((tries body n).run s).1 = some a ↔ ∃ k < n, (∀ j < k, nth body s j = .again) ∧ nth body s k = .done a := by
  induction n generalizing s with
  | zero =>
    constructor
    · intro h
      cases h
    · rintro ⟨k, hk, -⟩
      exact absurd hk (Nat.not_lt_zero k)
  | succ n ih =>
    have hfirst : ∀ k, (∀ j < k, nth body s j = .again) → nth body s 0 ≠ .again → k = 0 := by
      intro k hk h0
      by_contra hne
      exact h0 (hk 0 (Nat.pos_of_ne_zero hne))
    rw [run_tries_succ]
    cases hr : (body.run s).1 with
    | done b =>
      constructor
      · intro h
        exact ⟨0, Nat.succ_pos n, fun j hj => absurd hj (Nat.not_lt_zero j), by rw [nth_zero, hr, Option.some.inj h]⟩
      · rintro ⟨k, -, hk, hdone⟩
        rw [hfirst k hk (by rw [nth_zero, hr]; nofun), nth_zero, hr] at hdone
        rw [Try.done.inj hdone]
    | stop =>
      constructor
      · intro h
        cases h
      · rintro ⟨k, -, hk, hdone⟩
        rw [hfirst k hk (by rw [nth_zero, hr]; nofun), nth_zero, hr] at hdone
        cases hdone
    | again =>
      rw [ih]
      constructor
      · rintro ⟨k, hkn, hk, hdone⟩
        refine ⟨k + 1, Nat.succ_lt_succ hkn, fun j hj => ?_, hdone⟩
        cases j with
        | zero => exact hr
        | succ j => exact hk j (Nat.lt_of_succ_lt_succ hj)
      · rintro ⟨k, hkn, hk, hdone⟩
        cases k with
        | zero =>
          rw [nth_zero, hr] at hdone
          cases hdone
        | succ k => exact ⟨k, Nat.lt_of_succ_lt_succ hkn, fun j hj => hk (j + 1) (Nat.succ_lt_succ hj), hdone⟩

end

end Prog
