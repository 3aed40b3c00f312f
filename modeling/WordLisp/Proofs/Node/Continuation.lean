import Mathlib.Data.List.Basic
import WordLisp.Proofs.Node.Lines
import WordLisp.Proofs.Node.Printing

/-!
# Which texts can be continued

A text that ends inside a list is incomplete: some more text would mend it. Any other error stays,
whatever follows. So for a text of whole lines, whose lexemes nothing behind it can change, the
reader's verdict is exact: `isIncomplete_iff_continuable`.
-/

namespace WordLisp

open Text (Rune)

/-! ## Lexemes and what follows them -/

section Lexemes

variable {lexemes others : List Lexeme} {nodes all : List Node} {offence : Offence}

/-- Any lexemes are those of some reader. -/
theorem exists_reader (lexemes : List Lexeme) :
    ∃ reader : Reader, reader.tokens.map Token.lexeme = lexemes ∧ reader.failure? = none := by
  have hlexeme : Function.Surjective Token.lexeme := by
    rintro (_ | _ | text)
    · exact ⟨.opening ⟨none, 0, none⟩, rfl⟩
    · exact ⟨.closing ⟨none, 0, none⟩, rfl⟩
    · exact ⟨.atom ⟨none, 0, none⟩ text, rfl⟩
  obtain ⟨tokens, htokens⟩ := List.map_surjective_iff.mpr hlexeme lexemes
  exact ⟨⟨tokens, ⟨none, 0, none⟩, none⟩, htokens, rfl⟩

/-- Lexemes that denote expressions have no offence. -/
theorem Forest.not_offends (h : Forest lexemes all) : ¬Offends nodes lexemes offence := by
  intro hoffends
  obtain ⟨reader, hsame, hreadable⟩ := exists_reader lexemes
  obtain ⟨error, herror, -⟩ := Reader.readAll_offends hoffends hsame hreadable
  have hread := Reader.readAll_complete hsame hreadable h
  rw [herror] at hread
  cases hread

/-- Expressions stay what they are if more of them follow. -/
theorem Forest.of_append (h : Forest lexemes nodes) (h' : Forest (lexemes ++ others) all) :
    ∃ more, all = nodes ++ more ∧ Forest others more := by
  obtain ⟨reader, hsame, hreadable⟩ := exists_reader (lexemes ++ others)
  obtain ⟨tokens, rest, htokens, hfirst, hrest⟩ := List.map_eq_append_iff.mp hsame
  have hread := Reader.readAll_forest h hfirst reader rest
  rw [← htokens, Reader.readAll_complete hsame hreadable h'] at hread
  obtain ⟨hnodes, herror⟩ := Prod.mk.inj hread
  let behind : Reader := { reader with tokens := rest }
  have hsame' : behind.tokens.map Token.lexeme = others := hrest
  have hbehind : behind.readAll = (behind.readAll.1, none) := Prod.ext rfl herror.symm
  exact ⟨_, hnodes, (Reader.readAll_eq_none_iff hsame' hreadable).mp hbehind⟩

/-- Every list that is open can be closed. -/
theorem Pending.exists_forest {depth : Nat} (h : Pending nodes depth lexemes) :
    ∃ all, Forest (lexemes ++ List.replicate depth .closing) all := by
  induction depth generalizing nodes lexemes with
  | zero =>
      rw [List.replicate_zero, List.append_nil]
      exact ⟨nodes, h.forest⟩
  | succ depth ih =>
      obtain ⟨closed, hclosed⟩ := h.close
      rw [List.replicate_succ, List.append_cons]
      exact ih hclosed

end Lexemes

/-! ## Texts and what follows them -/

/-- A text that ends inside a list and has no offence before its end. -/
def LeavesOpen (text : List Rune) : Prop :=
  ∃ lexemes nodes depth, Lexes text lexemes ∧ Pending nodes (depth + 1) lexemes

/-- An offence is mended by more text only if it is the end. -/
theorem ReadError.isIncomplete_iff {error : ReadError} {offence : Offence}
    (reports : error.offence? = some offence) : error.isIncomplete ↔ offence = .unterminated := by
  cases error <;> cases reports <;> simp [isIncomplete]

/-- The reader reports a text as incomplete exactly if it leaves a list open. -/
theorem Reader.isIncomplete_iff (text : List Rune) :
    (ofText text).readAll.2.any ReadError.isIncomplete ↔ LeavesOpen text := by
  obtain ⟨lexemes, hlexes⟩ := exists_lexes text
  have hsame : (ofText text).tokens.map Token.lexeme = lexemes := hlexes.map_tokens_ofSource
  have hreadable : (ofText text).failure? = none := failure?_ofSource rfl
  constructor
  · intro hincomplete
    rcases forest_or_offends lexemes with ⟨nodes, hforest⟩ | ⟨nodes, offence, hoffends⟩
    · rw [readAll_complete hsame hreadable hforest] at hincomplete
      cases hincomplete
    · obtain ⟨error, hread, hreports⟩ := readAll_offends hoffends hsame hreadable
      rw [hread, Option.any_some, ReadError.isIncomplete_iff hreports] at hincomplete
      subst hincomplete
      cases hoffends with
      | unterminated hpending => exact ⟨lexemes, nodes, _, hlexes, hpending⟩
  · rintro ⟨same, nodes, depth, hlexes', hpending⟩
    cases hlexes'.unique hlexes
    obtain ⟨error, hread, hreports⟩ := readAll_offends (.unterminated hpending) hsame hreadable
    rw [hread, Option.any_some, ReadError.isIncomplete_iff hreports]

/-- A text is read without an error exactly if its lexemes denote expressions. -/
theorem Reader.readAll_ofText_iff {text : List Rune} {lexemes : List Lexeme}
    (h : Lexes text lexemes) : (ofText text).readAll.2 = none ↔ ∃ nodes, Forest lexemes nodes := by
  have hread : ∀ nodes, (ofText text).readAll = (nodes, none) ↔ Forest lexemes nodes := fun _ ↦
    readAll_eq_none_iff h.map_tokens_ofSource (failure?_ofSource rfl)
  simp only [← hread, Prod.ext_iff, exists_and_right, exists_eq', true_and]

/-- Some closing parentheses. -/
theorem lexes_closing (n : Nat) :
    Lexes (List.replicate n (.char ')')) (List.replicate n .closing) := by
  induction n with
  | zero => exact .nil
  | succ n ih => exact .closing ih

/-- Text with which an incomplete one is complete. -/
theorem LeavesOpen.exists_continuation {text : List Rune} (h : LeavesOpen text)
    (lines : WholeLines text) :
    ∃ more : String, (Reader.ofText (text ++ Rune.ofString more)).readAll.2 = none := by
  obtain ⟨lexemes, nodes, depth, hlexes, hpending⟩ := h
  refine ⟨String.ofList (List.replicate (depth + 1) ')'), ?_⟩
  rw [Rune.ofString, String.toList_ofList, List.map_replicate,
    Reader.readAll_ofText_iff (hlexes.append_line lines (lexes_closing _))]
  exact hpending.exists_forest

/-- A text with an error that some continuation mends leaves a list open. -/
theorem leavesOpen_of_continuation {text more : List Rune} (lines : WholeLines text)
    (fails : (Reader.ofText text).readAll.2 ≠ none)
    (continued : (Reader.ofText (text ++ more)).readAll.2 = none) : LeavesOpen text := by
  obtain ⟨lexemes, hlexes⟩ := exists_lexes text
  obtain ⟨others, hothers⟩ := exists_lexes more
  rw [ne_eq, Reader.readAll_ofText_iff hlexes] at fails
  obtain ⟨all, hall⟩ := (Reader.readAll_ofText_iff (hlexes.append_line lines hothers)).mp continued
  rcases forest_or_offends lexemes with hforest | ⟨nodes, offence, hoffends⟩
  · exact absurd hforest fails
  · by_cases hend : offence = .unterminated
    · subst hend
      cases hoffends with
      | unterminated hpending => exact ⟨lexemes, nodes, _, hlexes, hpending⟩
    · exact absurd (hoffends.append hend others) hall.not_offends

/-- Read all expressions from the bytes of a text. -/
def Reader.readBytes (bytes : ByteArray) : List Node × Option ReadError :=
  (ofText (Rune.decode bytes)).readAll

/-- Incompleteness is decided exactly. The bytes of a text that ends in a line feed are reported as
incomplete if and only if reading them fails and there are bytes with which, behind them, reading
succeeds. -/
theorem isIncomplete_iff_continuable (body : ByteArray) :
    (Reader.readBytes (body ++ "\n".toUTF8)).2.any ReadError.isIncomplete ↔
      (Reader.readBytes (body ++ "\n".toUTF8)).2 ≠ none ∧
        ∃ more, (Reader.readBytes (body ++ "\n".toUTF8 ++ more)).2 = none := by
  have hwhole : WholeLines (Rune.decode (body ++ "\n".toUTF8)) := by
    rw [Rune.decode_append_line]
    exact wholeLines_append _
  have hmore : ∀ more, Rune.decode (body ++ "\n".toUTF8 ++ more) =
      Rune.decode (body ++ "\n".toUTF8) ++ Rune.decode more := by
    intro more
    rw [Rune.decode_line, Rune.decode_append_line, List.append_assoc]
    rfl
  constructor
  · intro hincomplete
    obtain ⟨more, hcontinued⟩ :=
      ((Reader.isIncomplete_iff _).mp hincomplete).exists_continuation hwhole
    refine ⟨?_, more.toUTF8, ?_⟩
    · intro hclean
      rw [hclean] at hincomplete
      cases hincomplete
    · rwa [Reader.readBytes, hmore, Rune.decode_toUTF8]
  · rintro ⟨hfails, more, hcontinued⟩
    rw [Reader.readBytes, hmore] at hcontinued
    exact (Reader.isIncomplete_iff _).mpr (leavesOpen_of_continuation hwhole hfails hcontinued)

end WordLisp
