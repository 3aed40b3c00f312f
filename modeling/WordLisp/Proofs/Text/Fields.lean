import Mathlib.Data.List.TakeWhile
import WordLisp.Text.Space

/-!
# Words between blanks

Blanks hold no words and belong to none (`fields_blank_append`), and what is not blank starts a word
that reaches up to the next blank (`fields_cons_word`). So only blanks have no words
(`fields_eq_nil_iff`).
-/

namespace WordLisp.Text

variable {text word rest blanks : List Rune}

/-- Nothing but blanks. -/
def Blank (text : List Rune) : Prop :=
  ∀ rune ∈ text, rune.isSpace

instance (text : List Rune) : Decidable (Blank text) :=
  inferInstanceAs (Decidable (∀ _ ∈ text, _))

/-- A blank in front of a text does not matter. -/
theorem fields_cons_space {rune : Rune} (space : rune.isSpace) (rest : List Rune) :
    fields (rune :: rest) = fields rest := by
  cases rest with
  | nil => simp [fields, space]
  | cons next rest => rw [fields, if_pos space]

/-- Neither do any blanks. -/
theorem fields_blank_append (blank : Blank blanks) (rest : List Rune) :
    fields (blanks ++ rest) = fields rest := by
  induction blanks with
  | nil => rfl
  | cons rune blanks ih =>
      obtain ⟨hrune, hblanks⟩ := List.forall_mem_cons.mp blank
      rw [List.cons_append, fields_cons_space hrune, ih hblanks]

/-- Blanks hold no words. -/
theorem fields_blank (blank : Blank text) : fields text = [] := by
  rw [← List.append_nil text, fields_blank_append blank, fields]

/-- Runes without blanks, up to a blank or to the end of the text, are its first word. -/
theorem fields_word_append (ne : word ≠ []) (whole : ∀ rune ∈ word, rune.isSpace = false)
    (stop : ∀ rune ∈ rest.head?, rune.isSpace) : fields (word ++ rest) = word :: fields rest := by
  induction word with
  | nil => exact absurd rfl ne
  | cons rune word ih =>
      obtain ⟨hrune, hword⟩ := List.forall_mem_cons.mp whole
      cases word with
      | nil =>
          cases rest with
          | nil => simp [fields, hrune]
          | cons next rest => simp [fields, hrune, stop next rfl]
      | cons next word =>
          have hnext := hword next List.mem_cons_self
          have hlater := ih (List.cons_ne_nil _ _) hword
          rw [List.cons_append] at hlater
          simp [fields, hrune, hnext, hlater]

/-- A rune that is not blank starts a word. -/
theorem fields_cons_word {rune : Rune} (word : rune.isSpace = false) (rest : List Rune) :
    fields (rune :: rest) = (rune :: rest).takeWhile (!·.isSpace) ::
      fields ((rune :: rest).dropWhile (!·.isSpace)) := by
  have hne : (rune :: rest).takeWhile (!·.isSpace) ≠ [] := by
    simp [word]
  have hwhole : ∀ next ∈ (rune :: rest).takeWhile (!·.isSpace), next.isSpace = false := by
    intro next hnext
    simpa using List.mem_takeWhile_imp hnext
  have hstop : ∀ next ∈ ((rune :: rest).dropWhile (!·.isSpace)).head?, next.isSpace := by
    intro next hnext
    have hblank := List.head?_dropWhile_not (!·.isSpace) (rune :: rest)
    rw [hnext] at hblank
    simpa using hblank
  have hcut := fields_word_append hne hwhole hstop
  rwa [List.takeWhile_append_dropWhile] at hcut

/-- Only blanks hold no words. -/
theorem fields_eq_nil_iff : fields text = [] ↔ Blank text := by
  refine ⟨fun hnone ↦ ?_, fields_blank⟩
  induction text with
  | nil => exact List.forall_mem_nil _
  | cons rune text ih =>
      cases hrune : rune.isSpace with
      | false =>
          rw [fields_cons_word hrune] at hnone
          cases hnone
      | true =>
          rw [fields_cons_space hrune] at hnone
          exact List.forall_mem_cons.mpr ⟨hrune, ih hnone⟩

/-- A word is a part of the text and not empty. -/
theorem mem_fields (h : word ∈ fields text) : word ≠ [] ∧ word ⊆ text := by
  fun_induction fields text generalizing word with
  | case1 => cases h
  | case2 => cases h
  | case3 rune =>
      cases List.mem_singleton.mp h
      exact ⟨List.cons_ne_nil _ _, List.Subset.refl _⟩
  | case4 rune next rest _ ih => exact ⟨(ih h).1, List.subset_cons_of_subset _ (ih h).2⟩
  | case5 rune next rest _ _ ih =>
      rcases List.mem_cons.mp h with rfl | hlater
      · exact ⟨List.cons_ne_nil _ _, by simp⟩
      · exact ⟨(ih hlater).1, List.subset_cons_of_subset _ (ih hlater).2⟩
  | case6 rune next rest _ _ first words hwords ih =>
      rw [hwords] at ih
      rcases List.mem_cons.mp h with rfl | hlater
      · exact ⟨List.cons_ne_nil _ _, List.cons_subset_cons _ (ih List.mem_cons_self).2⟩
      · have hword := ih (List.mem_cons_of_mem _ hlater)
        exact ⟨hword.1, List.subset_cons_of_subset _ hword.2⟩
  | case7 rune next rest _ _ _ ih =>
      cases List.mem_singleton.mp h
      exact ⟨List.cons_ne_nil _ _, by simp⟩

end WordLisp.Text
