/-
Unbounded loops, run for a number of iterations at most: an invariant indexed by the iterations
left shows that a loop ends within them, and what holds when it does.
-/
import Mathlib.Tactic

namespace Loop

variable {σ : Type} {c : σ → Bool} {b : σ → σ}

/-- `while (cond s) s = body s`; nothing when the condition still holds after `fuel` iterations. -/
def run (cond : σ → Bool) (body : σ → σ) : Nat → σ → Option σ
  | 0, s => if cond s then none else some s
  | fuel + 1, s => if cond s then run cond body fuel (body s) else some s

theorem run_of_not {s : σ} (h : c s = false) (fuel : Nat) : run c b fuel s = some s := by
  cases fuel <;> simp [run, h]

theorem run_succ {s : σ} (h : c s = true) (fuel : Nat) :
    run c b (fuel + 1) s = run c b fuel (b s) := by simp [run, h]

/-- The rule of total correctness: an invariant for `k + 1` iterations left leads to the one for
`k`, and with none left the condition fails. -/
theorem run_total (Inv : Nat → σ → Prop) (hbody : ∀ k s, Inv (k + 1) s → c s = true → Inv k (b s))
    (hzero : ∀ s, Inv 0 s → c s = false) :
    ∀ fuel s, Inv fuel s → ∃ k t, run c b fuel s = some t ∧ Inv k t ∧ c t = false
  | 0, s, h => ⟨0, s, run_of_not (hzero s h) 0, h, hzero s h⟩
  | fuel + 1, s, h => by
    cases hc : c s with
    | true =>
      rw [run_succ hc]
      exact run_total Inv hbody hzero fuel (b s) (hbody fuel s h hc)
    | false => exact ⟨fuel + 1, s, run_of_not hc _, h, hc⟩

end Loop
