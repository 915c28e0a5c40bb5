/-
Items that come one after the other, some with a label: which item brings a label first, and how
many labels there are when one more comes.
-/
import Mathlib.Tactic

namespace FirstSeen

section

variable {α κ : Type*} {label : α → Option κ} {l : List α} {i j : ℕ} {k : κ}

/-- Item `i` is the first with the label `k`. -/
structure First (label : α → Option κ) (l : List α) (i : ℕ) (k : κ) : Prop where
  labelled : l[i]?.bind label = some k
  unseen : k ∉ (l.take i).filterMap label

theorem lt_length (h : l[i]?.bind label = some k) : i < l.length := by
  by_contra hge
  rw [List.getElem?_eq_none (not_lt.1 hge)] at h
  cases h

/-- A label of an item before `i` is one of those seen at `i`. -/
theorem mem_take (h : l[j]?.bind label = some k) (hlt : j < i) : k ∈ (l.take i).filterMap label := by
  obtain ⟨a, ha, hk⟩ := Option.bind_eq_some_iff.1 h
  refine List.mem_filterMap.2 ⟨a, List.mem_iff_getElem?.2 ⟨j, ?_⟩, hk⟩
  rw [List.getElem?_take_of_lt hlt, ha]

theorem First.unique (hi : First label l i k) (hj : First label l j k) : i = j := by
  rcases lt_trichotomy i j with hlt | heq | hlt
  · exact absurd (mem_take hi.labelled hlt) hj.unseen
  · exact heq
  · exact absurd (mem_take hj.labelled hlt) hi.unseen

/-- What comes after does not change which item is first. -/
theorem First.append (h : First label l i k) (r : List α) : First label (l ++ r) i k := by
  have hlt := lt_length h.labelled
  refine ⟨?_, ?_⟩
  · rw [List.getElem?_append_left hlt]
    exact h.labelled
  · rw [List.take_append_of_le_length hlt.le]
    exact h.unseen

theorem exists_first (h : k ∈ l.filterMap label) : ∃ i, First label l i k := by
  induction l using List.reverseRecOn with
  | nil => cases h
  | append_singleton l a ih =>
    by_cases hl : k ∈ l.filterMap label
    · obtain ⟨i, hi⟩ := ih hl
      exact ⟨i, hi.append [a]⟩
    · -- the last item brings the label
      have ha : label a = some k := by
        rw [List.filterMap_append, List.mem_append] at h
        simpa using h.resolve_left hl
      refine ⟨l.length, ?_, ?_⟩
      · rw [List.getElem?_concat_length]
        exact ha
      · rwa [List.take_left' rfl]

theorem existsUnique_first (h : k ∈ l.filterMap label) : ∃! i, First label l i k := by
  obtain ⟨i, hi⟩ := exists_first h
  exact ⟨i, hi, fun j hj => hj.unique hi⟩

end

/-- How many of the labels are not the very first, when one more comes. -/
theorem card_insert_sub_one {κ : Type*} [DecidableEq κ] (s : Finset κ) (k : κ) :
    (insert k s).card - 1 = s.card - 1 + if k ∉ s ∧ 0 < s.card then 1 else 0 := by
  by_cases hk : k ∈ s
  · rw [Finset.insert_eq_of_mem hk, if_neg fun h => h.1 hk, Nat.add_zero]
  · rw [Finset.card_insert_of_notMem hk]
    simp only [hk, not_false_iff, true_and]
    split <;> omega

end FirstSeen
