/-
A value that is advanced in memory, saved to durable storage and published, with restarts at any
point. Its owner saves each new value before publishing it, and publishes each one before advancing
again; then what is published, over all restarts, starts at the initial value and never goes back or
skips one.
-/
import Mathlib.Tactic

namespace Checkpoint

/-! ## The protocol -/

/-- What the owner does. A save that does not store was cut off. -/
inductive Action (α : Type) where
  | restart
  | resume (a : α)
  | advance (a : α)
  | save (a : α) (stored : Bool)
  | publish (a : α)

/-- Where the owner is: without a value, or with one that is saved and not published yet, published,
or not saved yet. -/
inductive Mode where
  | down
  | saved
  | published
  | advanced

/-- The value in the storage, and where the owner is. -/
structure State (α : Type) where
  stored : α
  mode : Mode

variable {α : Type}

/-- The steps, with the values they are about; `next` is what a value is advanced to. -/
inductive Step (next : α → α) : State α → Action α → State α → Prop
  | restart (s : State α) : Step next s .restart ⟨s.stored, .down⟩
  | resume (a : α) : Step next ⟨a, .down⟩ (.resume a) ⟨a, .saved⟩
  | publish (a : α) : Step next ⟨a, .saved⟩ (.publish a) ⟨a, .published⟩
  | again (a : α) : Step next ⟨a, .published⟩ (.publish a) ⟨a, .published⟩
  | advance (a : α) : Step next ⟨a, .published⟩ (.advance (next a)) ⟨a, .advanced⟩
  | save (a : α) : Step next ⟨a, .advanced⟩ (.save (next a) true) ⟨next a, .saved⟩
  | lose (a : α) : Step next ⟨a, .advanced⟩ (.save (next a) false) ⟨a, .down⟩

/-- The runs from a storage that holds `init`. -/
inductive Run (next : α → α) (init : α) : List (Action α) → State α → Prop
  | start : Run next init [] ⟨init, .down⟩
  | step {l : List (Action α)} {s s' : State α} {x : Action α} :
      Run next init l s → Step next s x s' → Run next init (l ++ [x]) s'

/-- The values published, in order. -/
def published (l : List (Action α)) : List α := l.filterMap fun
  | .publish a => some a
  | _ => none

/-- Each value is the one before it or the next one. -/
def Gapless (next : α → α) (l : List α) : Prop := l.IsChain fun a b => b = a ∨ b = next a

/-! ## What is published -/

/-- How the last value published relates to the storage and the owner; nothing is published before
the initial value is taken up. -/
def Follows (next : α → α) (init : α) : Option α → State α → Prop
  | none, ⟨v, .down⟩ | none, ⟨v, .saved⟩ => v = init
  | none, _ => False
  | some p, ⟨v, .down⟩ | some p, ⟨v, .saved⟩ => v = p ∨ v = next p
  | some p, ⟨v, .published⟩ | some p, ⟨v, .advanced⟩ => v = p

/-- What holds along a run. -/
structure Inv (next : α → α) (init : α) (l : List (Action α)) (s : State α) : Prop where
  gapless : Gapless next (published l)
  first : ∀ a, (published l).head? = some a → a = init
  last : Follows next init (published l).getLast? s
  advances : ∀ b, .advance b ∈ l → ∃ a ∈ published l, b = next a

theorem inv_start (next : α → α) (init : α) : Inv next init [] ⟨init, .down⟩ :=
  ⟨.nil, fun _ h => (by cases h), rfl, fun _ h => (by cases h)⟩

section

variable {next : α → α} {init : α} {l : List (Action α)} {s s' : State α} {x : Action α}

/-- A step that publishes nothing and does not advance. -/
theorem Inv.quiet (h : Inv next init l s) (hx : published [x] = []) (hadv : ∀ b, x ≠ .advance b)
    (hlast : Follows next init (published l).getLast? s') : Inv next init (l ++ [x]) s' := by
  have hp : published (l ++ [x]) = published l := by
    rw [published, List.filterMap_append]
    exact (congrArg (published l ++ ·) hx).trans (List.append_nil _)
  refine ⟨by rw [hp]; exact h.gapless, by rw [hp]; exact h.first, by rw [hp]; exact hlast, fun b hb => ?_⟩
  rw [hp]
  rcases List.mem_append.1 hb with hb | hb
  · exact h.advances b hb
  · exact absurd (List.mem_singleton.1 hb).symm (hadv b)

/-- A step that publishes what follows on. -/
theorem Inv.publish {a : α} (h : Inv next init l s) (hnone : (published l).getLast? = none → a = init)
    (hsome : ∀ p, (published l).getLast? = some p → a = p ∨ a = next p) :
    Inv next init (l ++ [.publish a]) ⟨a, .published⟩ := by
  have hp : published (l ++ [.publish a]) = published l ++ [a] := List.filterMap_append
  refine ⟨?_, ?_, ?_, fun b hb => ?_⟩
  · rw [hp]
    refine List.isChain_append.2 ⟨h.gapless, .singleton a, fun p hpl b hb => ?_⟩
    obtain rfl : a = b := Option.some.inj hb
    exact hsome p hpl
  · rw [hp]
    intro b hb
    cases hl : published l with
    | nil =>
      rw [hl] at hb hnone
      obtain rfl : a = b := Option.some.inj hb
      exact hnone rfl
    | cons c l' =>
      rw [hl] at hb
      exact h.first b (by rw [hl]; exact hb)
  · rw [hp, List.getLast?_concat]
    exact rfl
  · rw [hp]
    rcases List.mem_append.1 hb with hb | hb
    · obtain ⟨c, hc, hbc⟩ := h.advances b hb
      exact ⟨c, List.mem_append_left _ hc, hbc⟩
    · cases List.mem_singleton.1 hb

/-- The step lemma. -/
theorem inv_step (h : Inv next init l s) (hs : Step next s x s') : Inv next init (l ++ [x]) s' := by
  have hlast := h.last
  cases hs with
  | restart =>
    refine h.quiet rfl (by simp) ?_
    obtain ⟨v, m⟩ := s
    cases hl : (published l).getLast? with
    | none => rw [hl] at hlast; cases m <;> first | exact hlast | exact hlast.elim
    | some p => rw [hl] at hlast; cases m <;> first | exact hlast | exact .inl hlast
  | resume a =>
    refine h.quiet rfl (by simp) ?_
    cases hl : (published l).getLast? <;> (rw [hl] at hlast; exact hlast)
  | publish a =>
    refine h.publish (fun hl => ?_) (fun p hl => ?_) <;> (rw [hl] at hlast; exact hlast)
  | again a =>
    refine h.publish (fun hl => ?_) (fun p hl => ?_) <;> rw [hl] at hlast
    · exact hlast.elim
    · exact .inl hlast
  | advance a =>
    cases hl : (published l).getLast? with
    | none => rw [hl] at hlast; exact hlast.elim
    | some p =>
      rw [hl] at hlast
      obtain rfl : a = p := hlast
      have hp : published (l ++ [.advance (next a)]) = published l :=
        List.filterMap_append.trans (List.append_nil _)
      refine ⟨by rw [hp]; exact h.gapless, by rw [hp]; exact h.first, by rw [hp, hl]; exact rfl, fun b hb => ?_⟩
      rw [hp]
      rcases List.mem_append.1 hb with hb | hb
      · exact h.advances b hb
      · cases List.mem_singleton.1 hb
        exact ⟨a, List.mem_of_getLast? hl, rfl⟩
  | save a =>
    refine h.quiet rfl (by simp) ?_
    cases hl : (published l).getLast? with
    | none => rw [hl] at hlast; exact hlast.elim
    | some p =>
      rw [hl] at hlast
      obtain rfl : a = p := hlast
      exact .inr rfl
  | lose a =>
    refine h.quiet rfl (by simp) ?_
    cases hl : (published l).getLast? with
    | none => rw [hl] at hlast; exact hlast.elim
    | some p => rw [hl] at hlast; exact .inl hlast

/-- The run lemma. -/
theorem Run.inv (h : Run next init l s) : Inv next init l s := by
  induction h with
  | start => exact inv_start next init
  | step _ hs ih => exact inv_step ih hs

end

/-! ## Counting -/

section

variable {next : α → α} {f : α → ℕ} {l : List α}

/-- A gapless list from 0 has every number up to the ones it has, where advancing adds 1 or goes
back to 0. -/
theorem Gapless.covers (h : Gapless next l) (hnext : ∀ a, f (next a) = f a + 1 ∨ f (next a) = 0)
    (hfirst : ∀ a, l.head? = some a → f a = 0) : ∀ a ∈ l, ∀ k ≤ f a, ∃ b ∈ l, f b = k := by
  induction l using List.reverseRecOn with
  | nil => simp
  | append_singleton l c ih =>
    obtain ⟨hl, -, hc⟩ := List.isChain_append.1 h
    have ih := ih hl fun a ha => hfirst a (by simp [List.head?_append, ha])
    have hold : ∀ k, (∃ b ∈ l, f b = k) → ∃ b ∈ l ++ [c], f b = k :=
      fun k ⟨b, hb, hbk⟩ => ⟨b, List.mem_append_left _ hb, hbk⟩
    intro a ha k hk
    rcases List.mem_append.1 ha with ha | ha
    · exact hold k (ih a ha k hk)
    obtain rfl := List.mem_singleton.1 ha
    by_cases hka : k = f a
    · exact ⟨a, by simp, hka.symm⟩
    cases hlast : l.getLast? with
    | none =>
      have h0 := hfirst a (by rw [List.getLast?_eq_none_iff.1 hlast]; rfl)
      omega
    | some p =>
      have hp := List.mem_of_getLast? hlast
      rcases hc p hlast a rfl with rfl | rfl
      · exact hold k (ih a hp k hk)
      · rcases hnext p with h1 | h0
        · exact hold k (ih p hp k (by omega))
        · omega

/-- Where there are fewer than `n` numbers, none is `n - 1`. -/
theorem Gapless.lt_top (h : Gapless next l) (hnext : ∀ a, f (next a) = f a + 1 ∨ f (next a) = 0)
    (hfirst : ∀ a, l.head? = some a → f a = 0) {n : ℕ} (hn : (l.map f).toFinset.card < n) :
    ∀ a ∈ l, f a + 1 < n := by
  intro a ha
  by_contra hge
  have hsub : Finset.range n ⊆ (l.map f).toFinset := by
    intro k hk
    obtain ⟨b, hb, hbk⟩ := h.covers hnext hfirst a ha k (by have := Finset.mem_range.1 hk; omega)
    exact List.mem_toFinset.2 (List.mem_map.2 ⟨b, hb, hbk⟩)
  have hle := Finset.card_le_card hsub
  rw [Finset.card_range] at hle
  omega

/-- The numbers of a gapless list that never go back to 0 rise by steps of at most 1. -/
theorem Gapless.map_isChain (h : Gapless next l) (hnext : ∀ a ∈ l, f (next a) = f a + 1) :
    (l.map f).IsChain fun m n => m ≤ n ∧ n ≤ m + 1 := by
  rw [List.isChain_map]
  refine List.IsChain.imp_of_mem_imp ?_ h
  rintro a b ha - (rfl | rfl)
  · omega
  · rw [hnext a ha]; omega

end

end Checkpoint
