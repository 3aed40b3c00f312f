import WordLisp.Search

/-!
# What a binary search finds

The border between the indices that satisfy a condition and those that do not, as long as no index
of the second kind follows one of the first (`search_le_iff`). In a list that is in order this is
where the first element of the kind that is looked for stands (`getElem?_search`).
-/

namespace WordLisp

variable {satisfies : Nat → Bool} {low high : Nat}

/-- The search stays within its bounds. -/
theorem search_le (satisfies : Nat → Bool) (le : low ≤ high) :
    search satisfies low high ≤ high := by
  fun_induction search satisfies low high <;> omega

theorem le_search (satisfies : Nat → Bool) (low high : Nat) :
    low ≤ search satisfies low high := by
  fun_induction search satisfies low high <;> omega

/-- An index is at the border or behind it if it satisfies the condition. -/
theorem search_le_iff {i : Nat}
    (upward : ∀ i j, i ≤ j → j < high → satisfies i → satisfies j) (ge : low ≤ i) (lt : i < high) :
    search satisfies low high ≤ i ↔ satisfies i := by
  fun_induction search satisfies low high with
  | case1 low high hlt middle hmiddle ih =>
      rcases Nat.lt_or_ge i middle with hi | hi
      · exact ih (fun j k hjk hk ↦ upward j k hjk (by omega)) ge hi
      · have hle : search satisfies low middle ≤ middle := search_le _ (by omega)
        exact ⟨fun _ ↦ upward middle i hi lt hmiddle, fun _ ↦ Nat.le_trans hle hi⟩
  | case2 low high hlt middle hmiddle ih =>
      rcases Nat.lt_or_ge middle i with hi | hi
      · exact ih upward hi lt
      · have hgt : middle < search satisfies (middle + 1) high := le_search _ _ _
        refine ⟨fun hle ↦ by omega, fun hi' ↦ absurd ?_ hmiddle⟩
        exact upward i middle hi (by omega) hi'
  | case3 low high hnot => omega

section Ordered

variable {α : Type} {elements : List α} {order : α → α → Prop} {satisfies : α → Bool}

/-- An element of a list in order is at the border or behind it if it satisfies the condition, which
is passed on to greater ones. -/
theorem search_getElem?_le_iff (ordered : elements.Pairwise order)
    (upward : ∀ a b, order a b → satisfies a → satisfies b) {i : Nat} {a : α}
    (found : elements[i]? = some a) :
    search (fun i ↦ elements[i]?.any satisfies) 0 elements.length ≤ i ↔ satisfies a := by
  have hindices : ∀ i j, i ≤ j → j < elements.length →
      elements[i]?.any satisfies → elements[j]?.any satisfies := by
    intro i j hij hj hany
    rcases Nat.lt_or_eq_of_le hij with hlt | rfl
    · obtain ⟨first, hfirst, hsatisfies⟩ := (Option.any_eq_true _ _).mp hany
      obtain ⟨hi, rfl⟩ := List.getElem?_eq_some_iff.mp hfirst
      rw [List.getElem?_eq_getElem hj]
      exact upward _ _ (List.pairwise_iff_getElem.mp ordered i j hi hj hlt) hsatisfies
    · exact hany
  have hlt := (List.getElem?_eq_some_iff.mp found).1
  rw [search_le_iff hindices (Nat.zero_le i) hlt, found]
  exact Iff.rfl

/-- The border is at the element that satisfies the condition while no smaller one does. -/
theorem getElem?_search (ordered : elements.Pairwise order)
    (upward : ∀ a b, order a b → satisfies a → satisfies b) {a : α} (mem : a ∈ elements)
    (holds : satisfies a) (first : ∀ b, order b a → ¬satisfies b) :
    elements[search (fun i ↦ elements[i]?.any satisfies) 0 elements.length]? = some a := by
  have hborder := @search_getElem?_le_iff α elements order satisfies ordered upward
  obtain ⟨i, hi, rfl⟩ := List.mem_iff_getElem.mp mem
  have hle := (hborder (List.getElem?_eq_getElem hi)).mpr holds
  generalize search _ 0 elements.length = border at hborder hle ⊢
  rcases Nat.lt_or_eq_of_le hle with hlt | rfl
  · have hsmaller := List.pairwise_iff_getElem.mp ordered border i (Nat.lt_trans hlt hi) hi hlt
    have hsatisfies := (hborder (List.getElem?_eq_getElem (Nat.lt_trans hlt hi))).mp
      (Nat.le_refl border)
    exact absurd hsatisfies (first _ hsmaller)
  · exact List.getElem?_eq_getElem hi

end Ordered

end WordLisp
