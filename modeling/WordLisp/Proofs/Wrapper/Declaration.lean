import WordLisp.Proofs.Text.Row
import WordLisp.Wrapper.Method

/-!
# The line of a builder method

A builder method is found on the line that declares it, whatever its parameters are: they reach up
to the last place where the result and the brace of the body can follow
(`Method.ofLine?_declaration`).
-/

namespace WordLisp.Wrapper

open Text (Rune)

/-- An ASCII identifier, or a part of one. -/
def IsIdentifier (word : String) : Prop :=
  word ≠ "" ∧ ∀ rune ∈ Rune.ofString word, isWordRune rune

instance (word : String) : Decidable (IsIdentifier word) :=
  inferInstanceAs (Decidable (_ ∧ _))

/-- The line that declares a builder method of the type `caseType`, up to the brace of its body. -/
def declaration (caseType receiver kind what : String) (parameters : List Rune) : List Rune :=
  Rune.ofString "func (" ++ (Rune.ofString receiver ++ (Rune.ofString (" " ++ caseType ++ ") ") ++
    (Rune.ofString kind ++ (Rune.ofString what ++ (Rune.ofString "(" ++ (parameters ++
      Rune.ofString (") " ++ caseType ++ " \x7b")))))))

variable {rest : List Rune}

/-- What a text starts with can be taken off. -/
theorem after?_append (start : String) (rest : List Rune) :
    after? start (Rune.ofString start ++ rest) = some rest := by
  have hstart : (Rune.ofString start).isPrefixOf (Rune.ofString start ++ rest) :=
    List.isPrefixOf_iff_prefix.mpr (List.prefix_append _ _)
  have hlength : (Rune.ofString start).length = start.length := by
    rw [Rune.ofString, List.length_map, String.length_toList]
  rw [after?, if_pos hstart, List.drop_left' hlength]

/-- An identifier is taken off if what follows does not continue it. -/
theorem word?_append {word : String} (h : IsIdentifier word)
    (stop : ∀ rune ∈ rest.head?, isWordRune rune = false) :
    word? (Rune.ofString word ++ rest) = some (Rune.ofString word, rest) := by
  have hempty : (Rune.ofString word).isEmpty = false := by
    simpa [Rune.ofString] using h.1
  obtain ⟨htake, hdrop⟩ := Text.takeWhile_dropWhile_append h.2 stop
  simp [word?, htake, hdrop, hempty]

/-- So is the kind of a method. -/
theorem kind?_append {kind : String} (h : kind = "expect" ∨ kind = "with") (rest : List Rune) :
    kind? (Rune.ofString kind ++ rest) = some (kind, rest) := by
  rcases h with rfl | rfl
  · rw [kind?, after?_append]
    rfl
  · have hother : after? "expect" (Rune.ofString "with" ++ rest) = none := rfl
    rw [kind?, hother, after?_append]
    rfl

variable {mark : List Rune}

/-- A mark does not occur in a shorter text. -/
theorem beforeLast?_eq_none {text : List Rune} (short : text.length < mark.length) :
    beforeLast? mark text = none := by
  have hstart : ∀ text : List Rune, text.length < mark.length → mark.isPrefixOf text = false := by
    intro text hshort
    rw [← Bool.not_eq_true, List.isPrefixOf_iff_prefix]
    exact fun h ↦ absurd h.length_le (Nat.not_le_of_lt hshort)
  induction text with
  | nil => simpa [beforeLast?] using List.length_pos_iff.mp short
  | cons rune text ih =>
      have hnone : beforeLast? mark text = none := ih (Nat.lt_of_succ_lt short)
      rw [beforeLast?, hnone, hstart _ short]
      rfl

/-- The last occurrence of a mark is the one at the end of the text. -/
theorem beforeLast?_append (ne : mark ≠ []) (text : List Rune) :
    beforeLast? mark (text ++ mark) = some text := by
  induction text with
  | nil =>
      cases mark with
      | nil => exact absurd rfl ne
      | cons rune rest =>
          have hnone : beforeLast? (rune :: rest) rest = none :=
            beforeLast?_eq_none (Nat.lt_succ_self _)
          rw [List.nil_append, beforeLast?, hnone]
          simp
  | cons rune text ih => rw [List.cons_append, beforeLast?, ih]

/-- A builder method is found on the line that declares it, with its parameters as they were
written. -/
theorem Method.ofLine?_declaration (caseType : String) {receiver kind what : String}
    (hreceiver : IsIdentifier receiver) (hkind : kind = "expect" ∨ kind = "with")
    (hwhat : IsIdentifier what) (parameters : List Rune) :
    Method.ofLine? caseType (declaration caseType receiver kind what parameters) =
      some ⟨kind, what, parameters⟩ := by
  have hblank : ∀ rest : List Rune,
      ∀ rune ∈ (Rune.ofString (" " ++ caseType ++ ") ") ++ rest).head?,
        isWordRune rune = false := by
    intro rest rune hrune
    have hfirst : .char ' ' = rune := by simpa [Rune.ofString] using hrune
    subst hfirst
    decide
  have hopening : ∀ rest : List Rune, ∀ rune ∈ (Rune.ofString "(" ++ rest).head?,
      isWordRune rune = false := by
    rintro rest _ ⟨⟩
    decide
  have hmark : Rune.ofString (") " ++ caseType ++ " \x7b") ≠ [] := by
    simp [Rune.ofString]
  simp only [declaration, Method.ofLine?, after?_append, word?_append hreceiver (hblank _),
    kind?_append hkind, word?_append hwhat (hopening _), beforeLast?_append hmark, Option.bind_some,
    Option.bind_eq_bind, Option.pure_def, Rune.toText_ofString]

end WordLisp.Wrapper
