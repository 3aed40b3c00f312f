/-!
# Rows of texts

A text is cut where a condition fails first (`takeWhile_dropWhile_append`). Texts stand in a row
with a comma and a blank between two of them. If no text is empty and none has a comma, the row can
be cut into them again in one way only (`intercalate_inj`).
-/

namespace WordLisp.Text

/-- What meets a condition, up to where it fails, is the longest beginning that does. -/
theorem takeWhile_dropWhile_append {α : Type} {p : α → Bool} {first rest : List α}
    (all : ∀ x ∈ first, p x) (stop : ∀ x ∈ rest.head?, p x = false) :
    (first ++ rest).takeWhile p = first ∧ (first ++ rest).dropWhile p = rest := by
  rw [List.takeWhile_append_of_pos all, List.dropWhile_append_of_pos all]
  cases rest with
  | nil => simp
  | cons x rest => simp [stop x rfl]

/-- Two texts that are cut at the first character of a kind are cut into the same parts. -/
theorem append_unique {c : Char} {word word' rest rest' : List Char} (free : c ∉ word)
    (free' : c ∉ word') (stop : ∀ first ∈ rest.head?, first = c)
    (stop' : ∀ first ∈ rest'.head?, first = c) (same : word ++ rest = word' ++ rest') :
    word = word' ∧ rest = rest' := by
  have hcut : ∀ {word rest : List Char}, c ∉ word → (∀ first ∈ rest.head?, first = c) →
      (word ++ rest).takeWhile (· ≠ c) = word ∧ (word ++ rest).dropWhile (· ≠ c) = rest := by
    intro word rest hfree hstop
    have hall : ∀ x ∈ word, decide (x ≠ c) = true := fun x hx ↦
      decide_eq_true fun heq ↦ hfree (heq ▸ hx)
    exact takeWhile_dropWhile_append hall fun first hfirst ↦ by simp [hstop first hfirst]
  obtain ⟨hword, hrest⟩ := hcut free stop
  obtain ⟨hword', hrest'⟩ := hcut free' stop'
  rw [same] at hword hrest
  exact ⟨hword.symm.trans hword', hrest.symm.trans hrest'⟩

/-- Texts that follow another one in a row, each behind a comma and a blank. -/
def following : List (List Char) → List Char
  | [] => []
  | text :: rest => ',' :: ' ' :: (text ++ following rest)

/-- A row of texts is the first one and what follows it. -/
theorem intercalate_eq (text : List Char) (rest : List (List Char)) :
    [',', ' '].intercalate (text :: rest) = text ++ following rest := by
  induction rest generalizing text with
  | nil => simp [following]
  | cons next rest ih =>
      rw [List.intercalate_cons_cons, ih, following, List.append_assoc]
      rfl

/-- What follows starts with a comma. -/
theorem head?_following (texts : List (List Char)) :
    ∀ first ∈ (following texts).head?, first = ',' := by
  cases texts with
  | nil => rintro _ ⟨⟩
  | cons text rest =>
      rintro _ ⟨⟩
      rfl

variable {texts others : List (List Char)}

/-- Texts without commas can be told from what follows. -/
theorem following_inj (free : ∀ text ∈ texts, ',' ∉ text) (free' : ∀ text ∈ others, ',' ∉ text)
    (same : following texts = following others) : texts = others := by
  induction texts generalizing others with
  | nil =>
      cases others with
      | nil => rfl
      | cons => cases same
  | cons text rest ih =>
      cases others with
      | nil => cases same
      | cons other others =>
          obtain ⟨htext, hrest⟩ := List.forall_mem_cons.mp free
          obtain ⟨hother, hothers⟩ := List.forall_mem_cons.mp free'
          obtain ⟨rfl, hfollowing⟩ := append_unique htext hother (head?_following rest)
            (head?_following others) (List.cons.inj (List.cons.inj same).2).2
          rw [ih hrest hothers hfollowing]

/-- Texts without commas, none of them empty, can be told from their row. -/
theorem intercalate_inj (free : ∀ text ∈ texts, text ≠ [] ∧ ',' ∉ text)
    (free' : ∀ text ∈ others, text ≠ [] ∧ ',' ∉ text)
    (same : [',', ' '].intercalate texts = [',', ' '].intercalate others) : texts = others := by
  cases texts with
  | nil =>
      cases others with
      | nil => rfl
      | cons other others =>
          rw [intercalate_eq] at same
          exact absurd (List.append_eq_nil_iff.mp same.symm).1 (free' _ List.mem_cons_self).1
  | cons text rest =>
      cases others with
      | nil =>
          rw [intercalate_eq] at same
          exact absurd (List.append_eq_nil_iff.mp same).1 (free _ List.mem_cons_self).1
      | cons other others =>
          rw [intercalate_eq, intercalate_eq] at same
          refine following_inj (fun text hmem ↦ (free text hmem).2)
            (fun text hmem ↦ (free' text hmem).2) ?_
          rw [following, following, same]

end WordLisp.Text
