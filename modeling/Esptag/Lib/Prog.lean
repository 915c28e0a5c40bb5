/-
Deterministic stateful programs over primitive calls that may fail, and the schedule that decides
their fates: the environment fixes the fate of the `i`-th call for every `i`, so a statement over
all schedules covers every mix of successes and failures. `Prog` programs always return;
`Act` programs may also stop part way, keeping the state they reached.
-/
import Mathlib.Tactic

/-! ## Programs -/

/-- A program over the state `σ`. -/
structure Prog (σ α : Type) where
  run : σ → α × σ

namespace Prog

variable {σ α β : Type}

instance : Monad (Prog σ) where
  pure a := ⟨fun s => (a, s)⟩
  bind x f := ⟨fun s => (f (x.run s).1).run (x.run s).2⟩

@[simp] theorem run_pure (a : α) (s : σ) : (pure a : Prog σ α).run s = (a, s) := rfl

@[simp] theorem run_bind (x : Prog σ α) (f : α → Prog σ β) (s : σ) :
    (x >>= f).run s = (f (x.run s).1).run (x.run s).2 := rfl

@[simp] theorem run_ite (c : Prop) [Decidable c] (x y : Prog σ α) (s : σ) :
    (if c then x else y).run s = if c then x.run s else y.run s := by split <;> rfl

/-- Changes the state. -/
def modify (f : σ → σ) : Prog σ Unit := ⟨fun s => ((), f s)⟩

@[simp] theorem run_modify (f : σ → σ) (s : σ) : (modify f).run s = ((), f s) := rfl

/-- The value of a function of the state. -/
def gets (f : σ → α) : Prog σ α := ⟨fun s => (f s, s)⟩

@[simp] theorem run_gets (f : σ → α) (s : σ) : (gets f).run s = (f s, s) := rfl

/-- From states related by `R`, `x` and `y` return the same and leave states related by `R`. -/
def Rel {τ : Type} (R : σ → τ → Prop) (x : Prog σ α) (y : Prog τ α) : Prop :=
  ∀ s t, R s t → (x.run s).1 = (y.run t).1 ∧ R (x.run s).2 (y.run t).2

section

variable {τ : Type} {R : σ → τ → Prop}

theorem Rel.pure (a : α) : Rel R (Pure.pure a) (Pure.pure a) := fun _ _ h => ⟨rfl, h⟩

/-- What follows is compared on the values `x` returns. -/
theorem Rel.bind {x : Prog σ α} {y : Prog τ α} {f : α → Prog σ β} {g : α → Prog τ β} (hx : Rel R x y)
    (hf : ∀ s, Rel R (f (x.run s).1) (g (x.run s).1)) : Rel R (x >>= f) (y >>= g) := by
  intro s t h
  obtain ⟨hret, hst⟩ := hx s t h
  rw [run_bind, run_bind, ← hret]
  exact hf s _ _ hst

theorem Rel.ite {c : Prop} [Decidable c] {x x' : Prog σ α} {y y' : Prog τ α} (h : c → Rel R x y)
    (h' : ¬ c → Rel R x' y') : Rel R (if c then x else x') (if c then y else y') := by
  by_cases hc : c
  · rw [if_pos hc, if_pos hc]
    exact h hc
  · rw [if_neg hc, if_neg hc]
    exact h' hc

end

end Prog

/-- A program over the state `σ` that may stop for a reason in `ε`. -/
structure Act (ε σ α : Type) where
  run : σ → Except ε α × σ

namespace Act

variable {ε σ α β : Type}

instance : Monad (Act ε σ) where
  pure a := ⟨fun s => (.ok a, s)⟩
  bind x f := ⟨fun s => match x.run s with
    | (.ok a, s') => (f a).run s'
    | (.error e, s') => (.error e, s')⟩

@[simp] theorem run_pure (a : α) (s : σ) : (pure a : Act ε σ α).run s = (.ok a, s) := rfl

theorem run_bind (x : Act ε σ α) (f : α → Act ε σ β) (s : σ) : (x >>= f).run s = match x.run s with
    | (.ok a, s') => (f a).run s'
    | (.error e, s') => (.error e, s') := rfl

@[simp] theorem run_ite (c : Prop) [Decidable c] (x y : Act ε σ α) (s : σ) :
    (if c then x else y).run s = if c then x.run s else y.run s := by split <;> rfl

/-- Stops. -/
def stop (e : ε) : Act ε σ α := ⟨fun s => (.error e, s)⟩

/-- Changes the state. -/
def modify (f : σ → σ) : Act ε σ Unit := ⟨fun s => (.ok (), f s)⟩

@[simp] theorem run_modify (f : σ → σ) (s : σ) : (modify f : Act ε σ Unit).run s = (.ok (), f s) := rfl

/-- The value of a function of the state. -/
def gets (f : σ → α) : Act ε σ α := ⟨fun s => (.ok (f s), s)⟩

theorem bind_ok {x : Act ε σ α} {f : α → Act ε σ β} {s s' : σ} {a : α} (h : x.run s = (.ok a, s')) :
    (x >>= f).run s = (f a).run s' := by rw [run_bind, h]

/-- From `s`, `x` returns in `Q` or stops in `E`. -/
def Wp (x : Act ε σ α) (Q : α → σ → Prop) (E : ε → σ → Prop) (s : σ) : Prop :=
  match x.run s with
  | (.ok a, s') => Q a s'
  | (.error e, s') => E e s'

section

variable {Q : α → σ → Prop} {E : ε → σ → Prop} {s : σ}

@[simp] theorem wp_pure (a : α) : (pure a : Act ε σ α).Wp Q E s ↔ Q a s := Iff.rfl

@[simp] theorem wp_modify {Q : Unit → σ → Prop} (f : σ → σ) : (modify f : Act ε σ Unit).Wp Q E s ↔ Q () (f s) := Iff.rfl

@[simp] theorem wp_gets (f : σ → α) : (gets f : Act ε σ α).Wp Q E s ↔ Q (f s) s := Iff.rfl

@[simp] theorem wp_bind {R : β → σ → Prop} (x : Act ε σ α) (f : α → Act ε σ β) :
    (x >>= f).Wp R E s ↔ x.Wp (fun a => (f a).Wp R E) E s := by
  unfold Wp
  rw [run_bind]
  generalize x.run s = r
  obtain ⟨_ | a, s'⟩ := r <;> rfl

theorem wp_of_ok {x : Act ε σ α} {a : α} {s' : σ} (h : x.run s = (.ok a, s')) : x.Wp Q E s ↔ Q a s' := by
  unfold Wp
  rw [h]

theorem wp_of_error {x : Act ε σ α} {e : ε} {s' : σ} (h : x.run s = (.error e, s')) : x.Wp Q E s ↔ E e s' := by
  unfold Wp
  rw [h]

/-- A property of the outcome, return or stop, is a postcondition of both. -/
theorem wp_outcome {P : Except ε α → σ → Prop} {x : Act ε σ α} :
    x.Wp (fun a => P (.ok a)) (fun e => P (.error e)) s ↔ P (x.run s).1 (x.run s).2 := by
  unfold Wp
  generalize x.run s = r
  obtain ⟨_ | a, s'⟩ := r <;> rfl

theorem Wp.mono {R : α → σ → Prop} {F : ε → σ → Prop} {x : Act ε σ α} (h : x.Wp Q E s) (hQ : ∀ a s, Q a s → R a s)
    (hE : ∀ e s, E e s → F e s) : x.Wp R F s := by
  unfold Wp at h ⊢
  generalize x.run s = r at h ⊢
  obtain ⟨_ | a, s'⟩ := r
  · exact hE _ _ h
  · exact hQ _ _ h

end

/-- No run of `x` makes `f` of the state smaller. -/
def Grows {τ : Type} [Preorder τ] (f : σ → τ) (x : Act ε σ α) : Prop := ∀ s, f s ≤ f (x.run s).2

section

variable {τ : Type} [Preorder τ] {f : σ → τ}

theorem Grows.pure (a : α) : Grows f (Pure.pure a : Act ε σ α) := fun _ => le_refl _

theorem Grows.stop (e : ε) : Grows f (Act.stop e : Act ε σ α) := fun _ => le_refl _

theorem Grows.gets (g : σ → α) : Grows f (Act.gets g : Act ε σ α) := fun _ => le_refl _

theorem Grows.bind {x : Act ε σ α} {g : α → Act ε σ β} (hx : Grows f x) (hg : ∀ a, Grows f (g a)) :
    Grows f (x >>= g) := by
  intro s
  have hs := hx s
  rw [run_bind]
  generalize x.run s = r at hs ⊢
  obtain ⟨_ | a, s'⟩ := r
  · exact hs
  · exact le_trans hs (hg a s')

theorem Grows.ite {c : Prop} [Decidable c] {x y : Act ε σ α} (hx : Grows f x) (hy : Grows f y) :
    Grows f (if c then x else y) := by
  split
  · exact hx
  · exact hy

end

end Act

/-! ## Schedules -/

/-- A schedule of fates for primitive calls, and how many calls were made. -/
structure Sched (φ : Type) where
  fate : Nat → φ
  calls : Nat

namespace Sched

variable {φ : Type}

/-- The fate of the next call. -/
def now (s : Sched φ) : φ := s.fate s.calls

/-- The schedule after `k` more calls. -/
def skip (s : Sched φ) (k : Nat) : Sched φ := { s with calls := s.calls + k }

@[simp] theorem skip_fate (s : Sched φ) (k : Nat) : (s.skip k).fate = s.fate := rfl

@[simp] theorem skip_calls (s : Sched φ) (k : Nat) : (s.skip k).calls = s.calls + k := rfl

@[simp] theorem skip_zero (s : Sched φ) : s.skip 0 = s := rfl

@[simp] theorem skip_skip (s : Sched φ) (j k : Nat) : (s.skip j).skip k = s.skip (j + k) := by
  simp only [skip, Nat.add_assoc]

/-- `s ≤ t`: the schedule `t` is `s` some calls later. -/
instance : Preorder (Sched φ) where
  le s t := ∃ k, t = s.skip k
  le_refl s := ⟨0, rfl⟩
  le_trans s t u := by
    rintro ⟨j, rfl⟩ ⟨k, rfl⟩
    exact ⟨j + k, skip_skip s j k⟩

theorem le_skip (s : Sched φ) (k : Nat) : s ≤ s.skip k := ⟨k, rfl⟩

theorem fate_of_le {s t : Sched φ} (h : s ≤ t) : t.fate = s.fate := by obtain ⟨k, rfl⟩ := h; rfl

theorem calls_of_le {s t : Sched φ} (h : s ≤ t) : s.calls ≤ t.calls := by
  obtain ⟨k, rfl⟩ := h; exact Nat.le_add_right _ _

/-- The next `n` calls meet fates in `P`. -/
def All (P : φ → Prop) (s : Sched φ) (n : Nat) : Prop := ∀ i < n, P (s.fate (s.calls + i))

section

variable {P : φ → Prop} {s : Sched φ}

theorem all_zero : s.All P 0 := fun i hi => absurd hi (Nat.not_lt_zero i)

theorem all_add {m n : Nat} : s.All P (m + n) ↔ s.All P m ∧ (s.skip m).All P n := by
  constructor
  · intro h
    refine ⟨fun i hi => h i (by omega), fun i hi => ?_⟩
    have := h (m + i) (by omega)
    rwa [← Nat.add_assoc] at this
  · rintro ⟨h1, h2⟩ i hi
    rcases Nat.lt_or_ge i m with him | him
    · exact h1 i him
    · have := h2 (i - m) (by omega)
      rwa [skip_fate, skip_calls, show s.calls + m + (i - m) = s.calls + i by omega] at this

theorem all_one : s.All P 1 ↔ P s.now :=
  ⟨fun h => h 0 Nat.one_pos, fun h i hi => by rwa [show i = 0 by omega]⟩

theorem all_succ {n : Nat} : s.All P (n + 1) ↔ P s.now ∧ (s.skip 1).All P n := by
  rw [Nat.add_comm, all_add, all_one]

theorem All.mono {m n : Nat} (h : s.All P n) (hmn : m ≤ n) : s.All P m := fun i hi => h i (by omega)

end

/-- Every call from now on meets a fate in `P`. -/
def Always (P : φ → Prop) (s : Sched φ) : Prop := ∀ i, s.calls ≤ i → P (s.fate i)

theorem Always.of_le {P : φ → Prop} {s t : Sched φ} (h : Always P s) (hle : s ≤ t) : Always P t := by
  intro i hi
  rw [fate_of_le hle]
  exact h i (le_trans (calls_of_le hle) hi)

theorem Always.now {P : φ → Prop} {s : Sched φ} (h : Always P s) : P s.now := h _ (le_refl _)

theorem Always.all {P : φ → Prop} {s : Sched φ} (h : Always P s) (n : Nat) : s.All P n :=
  fun i _ => h _ (Nat.le_add_right _ i)

end Sched

/-! ## Logs -/

/-- Every entry of a log is in `P`, given the entries before it. -/
def Log.Each {α : Type} (P : List α → α → Prop) (l : List α) : Prop :=
  ∀ past x rest, l = past ++ x :: rest → P past x

theorem Log.each_nil {α : Type} {P : List α → α → Prop} : Log.Each P [] := fun past x rest h => by
  simp at h

/-- The entries `m` that follow a log `l` are in `P`. -/
def Log.EachFrom {α : Type} (P : List α → α → Prop) : List α → List α → Prop
  | _, [] => True
  | l, x :: m => P l x ∧ EachFrom P (l ++ [x]) m

theorem Log.each_concat {α : Type} {P : List α → α → Prop} {l : List α} {x : α} :
    Log.Each P (l ++ [x]) ↔ Log.Each P l ∧ P l x := by
  constructor
  · intro h
    exact ⟨fun past y rest hl => h past y (rest ++ [x]) (by rw [hl]; simp), h l x [] rfl⟩
  · rintro ⟨hl, hx⟩ past y rest heq
    rcases List.eq_nil_or_concat rest with rfl | ⟨rest', z, rfl⟩
    · obtain ⟨rfl, h⟩ := List.append_inj' heq rfl
      rw [List.cons.injEq] at h
      exact h.1 ▸ hx
    · rw [List.concat_eq_append, ← List.cons_append, ← List.append_assoc] at heq
      exact hl past y rest' (List.append_inj' heq rfl).1

theorem Log.each_append {α : Type} {P : List α → α → Prop} (l m : List α) :
    Log.Each P (l ++ m) ↔ Log.Each P l ∧ Log.EachFrom P l m := by
  induction m generalizing l with
  | nil => simp [EachFrom]
  | cons x m ih => rw [List.append_cons, ih, each_concat, EachFrom, and_assoc]
