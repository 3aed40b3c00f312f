import WordLisp.Proofs.Node.Unterminated
import WordLisp.Proofs.Source.Failing

/-!
# Two ways to read a source

A source can be read on its own or as the only one of a queue. The positions differ in the name of
the source, at line feeds and at the end. An outline leaves these out. Scanning and parsing do not
look at positions, so they go with outlines (`Token.outline_scanFrom`, `Reader.outline_parse`), and
since the two streams of a source have one outline, both ways give the same but for these
differences (`Reader.mapError_outline`).
-/

namespace WordLisp

open Text (Rune)

/-! ## Outlines -/

/-- The position without its source. -/
def Position.outline (position : Position) : Position :=
  { position with source? := none }

/-- No position. -/
def Position.nowhere : Position :=
  ⟨none, 0, none⟩

/-- The cell without its source; a line feed has no position. -/
def Cell.outline (cell : Cell) : Cell :=
  ⟨cell.char, if cell.char = '\n' then .nowhere else cell.position.outline⟩

/-- The stream without the source, and without the position of its end. -/
def Stream.outline (stream : Stream) : Stream :=
  ⟨stream.cells.map Cell.outline, .nowhere, stream.failure?⟩

/-- The token without its source. -/
def Token.outline : Token → Token
  | .opening position => .opening position.outline
  | .closing position => .closing position.outline
  | .atom position text => .atom position.outline text

/-- What has begun, without the source. -/
def Token.Mode.outline : Mode → Mode
  | .between => .between
  | .comment => .comment
  | .atom position reversed => .atom position.outline reversed

/-- The error without the source, and without the position of the end. -/
def ReadError.outline : ReadError → ReadError
  | .endOfInput => .endOfInput
  | .unexpectedClose position => .unexpectedClose position.outline
  | .integerOutOfRange position text => .integerOutOfRange position.outline text
  | .unterminated _ opened => .unterminated .nowhere opened.outline
  | .noExpression text => .noExpression text
  | .failed _ message => .failed .nowhere message

namespace Reader

/-- The open list without the source. -/
def Frame.outline (frame : Frame) : Frame :=
  { frame with opened := frame.opened.outline }

/-- The reader without the source, and without the position of the end. -/
def outline (reader : Reader) : Reader :=
  ⟨reader.tokens.map Token.outline, .nowhere, reader.failure?⟩

end Reader

/-! ## Reading goes with outlines -/

namespace Token

/-- A cell that is no line feed keeps its place. -/
theorem position_outline {cell : Cell} (inside : cell.char ≠ '\n') :
    cell.outline.position = cell.position.outline :=
  if_neg inside

/-- The tokens of an outline are those of the cells. -/
theorem outline_scanFrom (mode : Mode) (cells : List Cell) :
    (scanFrom mode cells).map Token.outline = scanFrom mode.outline (cells.map Cell.outline) := by
  induction cells generalizing mode with
  | nil => cases mode <;> rfl
  | cons cell rest ih =>
      have hchar : cell.outline.char = cell.char := rfl
      have hbetween : (scanFrom .between (cell :: rest)).map Token.outline =
          scanFrom .between ((cell :: rest).map Cell.outline) := by
        rw [List.map_cons, scanFrom_between, scanFrom_between, hchar]
        split
        · next hatom =>
            have hinside : cell.char ≠ '\n' := fun h ↦ by
              rw [h] at hatom
              cases hatom
            rw [ih, position_outline hinside]
            rfl
        · split
          · next hopening =>
              rw [List.map_cons, ih, position_outline (by rw [hopening]; decide)]
              rfl
          · split
            · next hclosing =>
                rw [List.map_cons, ih, position_outline (by rw [hclosing]; decide)]
                rfl
            · split <;> exact ih _
      cases mode with
      | between => exact hbetween
      | comment =>
          rw [List.map_cons, Mode.outline, scanFrom_inComment, scanFrom_inComment, hchar, ih]
          split <;> rfl
      | atom position reversed =>
          rw [List.map_cons, Mode.outline, scanFrom_inAtom, scanFrom_inAtom, hchar]
          split
          · exact ih _
          · exact congrArg (_ :: ·) hbetween

end Token

namespace Reader

/-- What is parsed from an outline is the outline of what is parsed. -/
theorem outline_parse (final : Position) (failure? : Option String) (frames : List Frame)
    (tokens : List Token) :
    parse .nowhere failure? (frames.map Frame.outline) (tokens.map Token.outline) =
      ((parse final failure? frames tokens).1.mapError ReadError.outline,
        (parse final failure? frames tokens).2.map Token.outline) := by
  fun_induction parse final failure? frames tokens with
  | case1 frames =>
      cases failure? with
      | some message => cases frames <;> rfl
      | none => cases frames <;> rfl
  | case2 frames place rest ih =>
      rw [← ih]
      cases frames <;> rfl
  | case3 => rfl
  | case4 => rfl
  | case5 frame outer frames place rest node ih =>
      rw [← ih]
      rfl
  | case6 frames place text rest error hnode =>
      rcases denotes_or_outOfRange text with ⟨node, hdenotes⟩ | hrange
      · rw [hdenotes.atomNode] at hnode
        cases hnode
      · rw [hrange.atomNode] at hnode
        cases hnode
        exact parse_atom_outOfRange hrange _ _
  | case7 place text rest node hnode => exact parse_atom_top (denotes_of_atomNode hnode) _
  | case8 place text rest node frame frames hnode ih =>
      rw [← ih]
      exact parse_atom (denotes_of_atomNode hnode) _ _ _

variable (reader : Reader)

/-- What is read from an outline is the outline of what is read. -/
theorem outline_read :
    reader.outline.read = (reader.read.1.mapError ReadError.outline, reader.read.2.outline) := by
  have hparse := outline_parse reader.final reader.failure? [] reader.tokens
  rw [List.map_nil] at hparse
  simp only [read, outline, hparse]

/-- So it is after some readings. -/
theorem outline_after (count : Nat) :
    (reader.after count).outline = reader.outline.after count := by
  induction count generalizing reader with
  | zero => rfl
  | succ count ih =>
      rw [after, ih, after, outline_read]

/-- The reader of an outline. -/
theorem outline_ofStream (stream : Stream) :
    (ofStream stream).outline = ofStream stream.outline := by
  rw [outline, ofStream, Token.scan, Token.outline_scanFrom]
  rfl

end Reader

/-! ## The two streams of a source -/

/-- On its own a source is read with the positions of its layout. -/
theorem Source.outline_streamFrom (source : Source) (passed rest : List Rune) :
    (source.streamFrom (lineAfter passed) (columnAfter passed) rest).cells.map Cell.outline =
      ((source.reportsFrom passed rest).map Report.cell).map Cell.outline := by
  induction rest generalizing passed with
  | nil => rfl
  | cons rune rest ih =>
      rw [streamFrom]
      by_cases hfeed : rune = .char '\n'
      · obtain ⟨hline, hcolumn⟩ := after_lineFeed passed
        have hrest := ih (passed ++ [.char '\n'])
        rw [hline, hcolumn] at hrest
        subst hfeed
        exact congrArg (_ :: ·) hrest
      · obtain ⟨hline, hcolumn⟩ := after_rune passed hfeed
        have hrest := ih (passed ++ [rune])
        rw [hline, hcolumn] at hrest
        rw [if_neg (mt (toChar_eq_lineFeed rune).mp hfeed)]
        refine List.cons_eq_cons.mpr ⟨?_, hrest⟩
        rw [Report.cell, source.positionAfter_rune passed hfeed]
        rfl

/-- The cells of a queue of one source show all of the source. -/
theorem Queue.cells_ofSources (source : Source) :
    (ofSources [source]).stream.cells = (source.reportsFrom [] source.text).map Report.cell := by
  refine (cells_prefix_layout [source]).eq_of_length ?_
  have hlength := congrArg List.length (ofSources [source]).stream_content.1
  rw [List.length_map, List.length_map] at hlength
  rw [hlength, List.length_map]
  exact (source.length_reportsFrom [] source.text).symm

/-- The two streams of a source have one outline. -/
theorem Source.outline_stream (source : Source) :
    source.stream.outline = (Queue.ofSources [source]).stream.outline := by
  have hfailure : source.stream.failure? = (Queue.ofSources [source]).stream.failure? :=
    (source.failure?_streamFrom 1 0 source.text).trans
      (Queue.ofSources [source]).stream_content.2.symm
  have hcells : source.stream.cells.map Cell.outline =
      ((source.reportsFrom [] source.text).map Report.cell).map Cell.outline :=
    source.outline_streamFrom [] source.text
  rw [Stream.outline, Stream.outline, hfailure, hcells, Queue.cells_ofSources]

namespace Reader

/-- The two readers of a source have one outline. -/
theorem outline_ofSource (source : Source) :
    (ofSource source).outline = (ofSources [source]).outline := by
  rw [ofSource, ofSources, outline_ofStream, outline_ofStream, Source.outline_stream]

/-- Reading by reading, a source gives the same on its own and as the only one of a queue. -/
theorem mapError_outline (source : Source) (count : Nat) :
    ((ofSource source).after count).read.1.mapError ReadError.outline =
      ((ofSources [source]).after count).read.1.mapError ReadError.outline := by
  have hread : ∀ reader : Reader,
      (reader.after count).read.1.mapError ReadError.outline =
        (reader.outline.after count).read.1 := by
    intro reader
    rw [← outline_after, outline_read]
  rw [hread, hread, outline_ofSource]

end Reader

end WordLisp
