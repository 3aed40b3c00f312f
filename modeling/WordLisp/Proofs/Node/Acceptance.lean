import WordLisp.Proofs.Node.Grammar

/-!
# The reader accepts exactly its grammar

A reader goes over the tokens once, with a stack of the lists that are open. On lexemes that denote
expressions it gives these back, whatever follows (`readAll_forest`); at the first offence it stops
with the expressions before it (`readAll_offends`). As every text is of one kind or the other, this
is all that it does: `readAll_follows_grammar`.
-/

namespace WordLisp

open Text (Rune)

/-- The offence that an error reports, if it is one of the text. -/
def ReadError.offence? : ReadError → Option Offence
  | .unexpectedClose _ => some .strayClosing
  | .integerOutOfRange _ text => some (.outOfRange text.toList)
  | .unterminated _ _ => some .unterminated
  | .endOfInput | .noExpression _ | .failed _ _ => none

/-- The kind under which an offence is reported. -/
def Offence.kind : Offence → String
  | .strayClosing | .outOfRange _ => "sexp.syntax"
  | .unterminated => "sexp.syntax.unterminated"

/-- An error has the kind of its offence. -/
theorem ReadError.kind?_eq {error : ReadError} {offence : Offence}
    (reports : error.offence? = some offence) : error.kind? = some offence.kind := by
  cases error <;> cases reports <;> rfl

/-- An error that reports an offence is not the end of the input. -/
theorem ReadError.ne_endOfInput {error : ReadError} {offence : Offence}
    (reports : error.offence? = some offence) : error ≠ .endOfInput := by
  rintro rfl
  cases reports

namespace Reader

/-- An open list with more expressions. -/
def Frame.add (frame : Frame) (nodes : List Node) : Frame :=
  { frame with reversed := nodes.reverse ++ frame.reversed }

variable {final : Position} {failure? : Option String} {tokens : List Token}
  {lexemes : List Lexeme} {nodes : List Node}

/-- A token that opens a list. -/
theorem eq_opening {token : Token} (h : token.lexeme = .opening) :
    ∃ position, token = .opening position := by
  cases token <;> cases h
  exact ⟨_, rfl⟩

/-- A token that closes a list. -/
theorem eq_closing {token : Token} (h : token.lexeme = .closing) :
    ∃ position, token = .closing position := by
  cases token <;> cases h
  exact ⟨_, rfl⟩

/-- A token that is an atom. -/
theorem eq_atom {token : Token} {text : List Char} (h : token.lexeme = .atom text) :
    ∃ position, token = .atom position text := by
  cases token <;> cases h
  exact ⟨_, rfl⟩

/-- An atom goes into the innermost list. -/
theorem parse_atom {position : Position} {text : List Char} {node : Node}
    (denotes : Denotes text node) (frame : Frame) (frames : List Frame) (rest : List Token) :
    parse final failure? (frame :: frames) (.atom position text :: rest) =
      parse final failure? (frame.add [node] :: frames) rest := by
  simp only [parse, denotes.atomNode]
  rfl

/-- Outside of lists an atom is an expression. -/
theorem parse_atom_top {position : Position} {text : List Char} {node : Node}
    (denotes : Denotes text node) (rest : List Token) :
    parse final failure? [] (.atom position text :: rest) = (.ok node, rest) := by
  simp only [parse, denotes.atomNode]

/-- An integer that is no word is an error. -/
theorem parse_atom_outOfRange {position : Position} {text : List Char} (range : OutOfRange text)
    (frames : List Frame) (rest : List Token) :
    parse final failure? frames (.atom position text :: rest) =
      (.error (.integerOutOfRange position (String.ofList text)), rest) := by
  simp only [parse, range.atomNode]

/-- Complete expressions go into the innermost list. -/
theorem parse_forest (h : Forest lexemes nodes) (same : tokens.map Token.lexeme = lexemes)
    (rest : List Token) (frame : Frame) (frames : List Frame) :
    parse final failure? (frame :: frames) (tokens ++ rest) =
      parse final failure? (frame.add nodes :: frames) rest := by
  induction h generalizing tokens rest frame frames with
  | nil =>
      rw [List.map_eq_nil_iff.mp same]
      rfl
  | atom hdenotes _ ih =>
      obtain ⟨token, tokens, rfl, htoken, hrest⟩ := List.map_eq_cons_iff.mp same
      obtain ⟨position, rfl⟩ := eq_atom htoken
      rw [List.cons_append, parse_atom hdenotes, ih hrest]
      simp only [Frame.add, List.reverse_cons, List.append_assoc, List.reverse_nil,
        List.nil_append]
  | list _ _ ihinner ihrest =>
      obtain ⟨token, tokens, rfl, htoken, htokens⟩ := List.map_eq_cons_iff.mp same
      obtain ⟨position, rfl⟩ := eq_opening htoken
      obtain ⟨inner, behind, rfl, hinner, hbehind⟩ := List.map_eq_append_iff.mp htokens
      obtain ⟨closing, others, rfl, hclosing, hothers⟩ := List.map_eq_cons_iff.mp hbehind
      obtain ⟨place, rfl⟩ := eq_closing hclosing
      rw [List.cons_append, parse, List.append_assoc, ihinner hinner, List.cons_append, parse]
      simp only [ihrest hothers, Frame.add, List.append_nil, List.reverse_reverse,
        List.reverse_cons, List.append_assoc, List.cons_append, List.nil_append]

/-- An expression is read as soon as it is complete. -/
theorem parse_list (h : Forest lexemes nodes) (same : tokens.map Token.lexeme = lexemes)
    (position place : Position) (rest : List Token) :
    parse final failure? [] (.opening position :: (tokens ++ .closing place :: rest)) =
      (.ok (.ofList nodes), rest) := by
  rw [parse, parse_forest h same, parse, Frame.add, List.append_nil, List.reverse_reverse]

/-- What reading from some tokens gives. -/
theorem read_eq {reader : Reader} {result : Except ReadError Node} {rest : List Token}
    (parsed : parse reader.final reader.failure? [] tokens = (result, rest)) :
    { reader with tokens }.read = (result, { reader with tokens := rest }) := by
  simp only [read, parsed]

/-- Complete expressions are read, whatever follows them. -/
theorem readAll_forest (h : Forest lexemes nodes) (same : tokens.map Token.lexeme = lexemes)
    (reader : Reader) (rest : List Token) :
    { reader with tokens := tokens ++ rest }.readAll =
      (nodes ++ { reader with tokens := rest }.readAll.1,
        { reader with tokens := rest }.readAll.2) := by
  induction h generalizing tokens with
  | nil =>
      rw [List.map_eq_nil_iff.mp same]
      rfl
  | atom hdenotes _ ih =>
      obtain ⟨token, tokens, rfl, htoken, hrest⟩ := List.map_eq_cons_iff.mp same
      obtain ⟨position, rfl⟩ := eq_atom htoken
      rw [List.cons_append, readAll_eq, read_eq (parse_atom_top hdenotes _)]
      simp only [ih hrest, List.cons_append]
  | list hinner _ _ ih =>
      obtain ⟨token, tokens, rfl, htoken, htokens⟩ := List.map_eq_cons_iff.mp same
      obtain ⟨position, rfl⟩ := eq_opening htoken
      obtain ⟨inner, behind, rfl, hinside, hbehind⟩ := List.map_eq_append_iff.mp htokens
      obtain ⟨closing, others, rfl, hclosing, hothers⟩ := List.map_eq_cons_iff.mp hbehind
      obtain ⟨place, rfl⟩ := eq_closing hclosing
      rw [List.cons_append, List.append_assoc, List.cons_append, readAll_eq,
        read_eq (parse_list hinner hinside position place _)]
      simp only [ih hothers, List.cons_append]

/-- An error behind lexemes without offences ends the reading, which has given the complete
expressions before it. `frames` are the lists that are open there. -/
theorem readAll_pending {depth : Nat} (h : Pending nodes depth lexemes)
    (same : tokens.map Token.lexeme = lexemes) (reader : Reader) (rest : List Token) :
    ∃ frames : List Frame, frames.length = depth ∧ ∀ error left,
      parse reader.final reader.failure? frames rest = (.error error, left) →
      error ≠ .endOfInput →
      { reader with tokens := tokens ++ rest }.readAll = (nodes, some error) := by
  induction h generalizing tokens rest with
  | complete hforest =>
      refine ⟨[], rfl, ?_⟩
      intro error left hparse herror
      have hrest : { reader with tokens := rest }.readAll = ([], some error) := by
        rw [readAll_eq, read_eq hparse]
        cases error <;> first | rfl | exact absurd rfl herror
      rw [readAll_forest hforest same, hrest, List.append_nil]
  | @opened _ _ _ items _ hinner ih =>
      obtain ⟨outer, behind, rfl, houter, hbehind⟩ := List.map_eq_append_iff.mp same
      obtain ⟨token, inside, rfl, htoken, hinside⟩ := List.map_eq_cons_iff.mp hbehind
      obtain ⟨position, rfl⟩ := eq_opening htoken
      obtain ⟨frames, rfl, hframes⟩ := ih houter (.opening position :: (inside ++ rest))
      refine ⟨(⟨position, []⟩ : Frame).add items :: frames, rfl, ?_⟩
      intro error left hparse herror
      rw [List.append_assoc, List.cons_append]
      apply hframes error left _ herror
      rw [parse, parse_forest hinner hinside, hparse]

/-- The first offence ends the reading, which has given the complete expressions before it. -/
theorem readAll_offends {offence : Offence} (h : Offends nodes lexemes offence)
    (same : tokens.map Token.lexeme = lexemes) {reader : Reader}
    (readable : reader.failure? = none) :
    ∃ error, { reader with tokens }.readAll = (nodes, some error) ∧
      error.offence? = some offence := by
  cases h with
  | strayClosing hforest =>
      obtain ⟨before, rest, rfl, hbefore, hrest⟩ := List.map_eq_append_iff.mp same
      obtain ⟨token, rest, rfl, htoken, -⟩ := List.map_eq_cons_iff.mp hrest
      obtain ⟨position, rfl⟩ := eq_closing htoken
      obtain ⟨frames, hframes, hread⟩ :=
        readAll_pending (.complete hforest) hbefore reader (.closing position :: rest)
      rw [List.length_eq_zero_iff.mp hframes] at hread
      exact ⟨_, hread (.unexpectedClose position) _ (by rw [parse]) (ReadError.ne_endOfInput rfl),
        rfl⟩
  | outOfRange hpending hrange =>
      obtain ⟨before, rest, rfl, hbefore, hrest⟩ := List.map_eq_append_iff.mp same
      obtain ⟨token, rest, rfl, htoken, -⟩ := List.map_eq_cons_iff.mp hrest
      obtain ⟨position, rfl⟩ := eq_atom htoken
      obtain ⟨frames, -, hread⟩ :=
        readAll_pending hpending hbefore reader (.atom position _ :: rest)
      refine ⟨_, hread _ _ (parse_atom_outOfRange hrange frames rest)
        (ReadError.ne_endOfInput rfl), ?_⟩
      simp [ReadError.offence?]
  | unterminated hpending =>
      obtain ⟨frames, hframes, hread⟩ := readAll_pending hpending same reader []
      obtain ⟨frame, frames, rfl⟩ := List.exists_cons_of_length_eq_add_one hframes
      rw [List.append_nil] at hread
      refine ⟨_, hread (.unterminated reader.final frame.opened) [] ?_
        (ReadError.ne_endOfInput rfl), rfl⟩
      rw [parse, readable]
      rfl

/-- A reader without tokens is at the end. -/
theorem readAll_nil {reader : Reader} (readable : reader.failure? = none) :
    { reader with tokens := [] }.readAll = ([], none) := by
  have hparse : parse reader.final reader.failure? [] [] = (.error .endOfInput, []) := by
    rw [parse, readable]
    rfl
  rw [readAll_eq, read_eq hparse]

section Whole

variable {reader : Reader} (same : reader.tokens.map Token.lexeme = lexemes)
  (readable : reader.failure? = none)

include same readable

/-- Complete expressions are read without an error. -/
theorem readAll_complete (h : Forest lexemes nodes) : reader.readAll = (nodes, none) := by
  have hread := readAll_forest h same reader []
  rwa [List.append_nil, readAll_nil readable, List.append_nil] at hread

/-- A text is read without an error exactly if it denotes expressions, and then as these. -/
theorem readAll_eq_none_iff : reader.readAll = (nodes, none) ↔ Forest lexemes nodes := by
  refine ⟨fun hread ↦ ?_, readAll_complete same readable⟩
  rcases forest_or_offends lexemes with ⟨others, h⟩ | ⟨others, offence, h⟩
  · rw [readAll_complete same readable h] at hread
    cases hread
    exact h
  · obtain ⟨error, herror, -⟩ := readAll_offends h same readable
    rw [herror] at hread
    cases hread

/-- A text is read with an error exactly if it has the offence that is reported, behind the
expressions that are given. -/
theorem readAll_eq_some_iff {offence : Offence} :
    (∃ error, reader.readAll = (nodes, some error) ∧ error.offence? = some offence) ↔
      Offends nodes lexemes offence := by
  refine ⟨?_, fun h ↦ readAll_offends h same readable⟩
  rintro ⟨error, hread, hreports⟩
  rcases forest_or_offends lexemes with ⟨others, h⟩ | ⟨others, other, h⟩
  · rw [readAll_complete same readable h] at hread
    cases hread
  · obtain ⟨cause, hcause, hother⟩ := readAll_offends h same readable
    obtain ⟨rfl, hsame⟩ := Prod.mk.inj (hread.symm.trans hcause)
    cases hsame
    rw [hreports] at hother
    cases hother
    exact h

end Whole

end Reader

namespace Source

/-- The cells of a source hold what its runes read as. -/
theorem map_char_streamFrom (source : Source) (line column : Nat) (text : List Rune) :
    (source.streamFrom line column text).cells.map Cell.char = text.map Rune.readAs := by
  induction text generalizing line column with
  | nil => rfl
  | cons rune rest ih =>
      rw [streamFrom]
      split
      · exact congrArg _ (ih _ _)
      · exact congrArg _ (ih _ _)

/-- A source fails, if it does, behind its text. -/
theorem failure?_streamFrom (source : Source) (line column : Nat) (text : List Rune) :
    (source.streamFrom line column text).failure? = source.failure? := by
  induction text generalizing line column with
  | nil => rfl
  | cons rune rest ih =>
      rw [streamFrom]
      split
      · exact ih _ _
      · exact ih _ _

end Source

/-- The tokens of a source are the lexemes of its text. -/
theorem Lexes.map_tokens_ofSource {source : Source} {lexemes : List Lexeme}
    (h : Lexes source.text lexemes) :
    (Reader.ofSource source).tokens.map Token.lexeme = lexemes :=
  h.map_scan (source.map_char_streamFrom 1 0 source.text)

/-- A reader fails as its source does. -/
theorem Reader.failure?_ofSource {source : Source} (readable : source.failure? = none) :
    (Reader.ofSource source).failure? = none :=
  (source.failure?_streamFrom 1 0 source.text).trans readable

/-- A source whose text denotes expressions is read as these. -/
theorem Forest.readAll_ofSource {source : Source} {lexemes : List Lexeme} {nodes : List Node}
    (h : Forest lexemes nodes) (lexes : Lexes source.text lexemes)
    (readable : source.failure? = none) : (Reader.ofSource source).readAll = (nodes, none) :=
  Reader.readAll_complete lexes.map_tokens_ofSource (Reader.failure?_ofSource readable) h

/-- The reader accepts exactly its grammar. A text that can be read to its end has one cut into
lexemes. If these denote expressions, reading the text gives them and no error, and if not, the
complete expressions before the first offence and an error that reports it; and in no other case. -/
theorem readAll_follows_grammar {source : Source} (readable : source.failure? = none) :
    ∃ lexemes, Lexes source.text lexemes ∧
      (∀ other, Lexes source.text other → other = lexemes) ∧
      (∀ nodes, (Reader.ofSource source).readAll = (nodes, none) ↔ Forest lexemes nodes) ∧
      (∀ nodes offence, (∃ error, (Reader.ofSource source).readAll = (nodes, some error) ∧
          error.offence? = some offence ∧ error.kind? = some offence.kind) ↔
        Offends nodes lexemes offence) ∧
      ((∃ nodes, Forest lexemes nodes) ∨ ∃ nodes offence, Offends nodes lexemes offence) := by
  obtain ⟨lexemes, hlexes⟩ := exists_lexes source.text
  have htokens := hlexes.map_tokens_ofSource
  have hreadable := Reader.failure?_ofSource readable
  refine ⟨lexemes, hlexes, fun other hother ↦ hother.unique hlexes, ?_, ?_,
    forest_or_offends lexemes⟩
  · intro nodes
    exact Reader.readAll_eq_none_iff htokens hreadable
  · intro nodes offence
    rw [← Reader.readAll_eq_some_iff htokens hreadable]
    constructor
    · rintro ⟨error, hread, hreports, -⟩
      exact ⟨error, hread, hreports⟩
    · rintro ⟨error, hread, hreports⟩
      exact ⟨error, hread, hreports, ReadError.kind?_eq hreports⟩

/-- A comment up to the end of the text hides the parenthesis that would close the list. -/
theorem readAll_follows_grammar_comment :
    let source : Source := { text := Rune.ofString "-0 (+7;)" }
    ∃ error, (Reader.ofSource source).readAll = ([.int 0], some error) ∧
      error.kind? = some "sexp.syntax.unterminated" := by
  intro source
  obtain ⟨lexemes, -, hunique, -, hoffends, -⟩ :=
    readAll_follows_grammar (show source.failure? = none from rfl)
  have hlexes : Lexes source.text [.atom ['-', '0'], .opening, .atom ['+', '7']] := by
    refine @Lexes.atom [.char '-', .char '0'] _ _ nofun (by decide) (by decide) ?_
    refine .separator (by decide) (.opening ?_)
    refine @Lexes.atom [.char '+', .char '7'] _ _ nofun (by decide) (by decide) ?_
    exact @Lexes.comment [.char ')'] [] _ (by decide) nofun .nil
  have hzero : Denotes ['-', '0'] (.int 0) := .integer 0 (.minus ⟨nofun, List.all_eq_true.mp rfl⟩)
  have hseven : Denotes ['+', '7'] (.int 7) := .integer 7 (.plus ⟨nofun, List.all_eq_true.mp rfl⟩)
  rw [← hunique _ hlexes] at hoffends
  obtain ⟨error, hread, -, hkind⟩ := (hoffends _ _).mpr
    (.unterminated (.opened (.complete (.atom hzero .nil)) (.atom hseven .nil)))
  exact ⟨error, hread, hkind⟩

end WordLisp
