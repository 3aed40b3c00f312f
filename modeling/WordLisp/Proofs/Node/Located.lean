import WordLisp.Proofs.Node.Outline

/-!
# Where an offending token is reported

A token stands where its first character does, and which this is, is a matter of the text alone:
what stands before it has the lexemes before it, and from it on the text has the others
(`Token.startsIn_of_scanFrom`, `Source.Located`). Its line and column are those of that character in
its own source. So an error about a token is reported at this token, the first one that offends
among those which are left (`ReadError.Blames`).
-/

namespace WordLisp

open Text (Rune)

/-! ## The character that a token starts with -/

/-- Where a token starts. -/
def Token.position : Token → Position
  | .opening position | .closing position | .atom position _ => position

namespace Token

/-- The token is the atom that has begun. -/
def Mode.Begins (mode : Mode) (token : Token) : Prop :=
  ∃ reversed, mode = .atom token.position reversed

/-- The cell that a token starts at. Before it there are just the tokens before this one, and from
it on this one and those behind. -/
def StartsIn (mode : Mode) (cells : List Cell) (used : List Token) (token : Token)
    (others : List Token) : Prop :=
  ∃ before cell behind, cells = before ++ cell :: behind ∧ cell.position = token.position ∧
    Text.isSpace cell.char = false ∧ cell.char ≠ ';' ∧ scanFrom mode before = used ∧
    scan (cell :: behind) = token :: others

variable {mode next : Mode} {cell : Cell} {cells rest : List Cell} {used others : List Token}
  {token : Token}

/-- Between tokens no atom has begun. -/
theorem not_begins_between : ¬Mode.between.Begins token := by
  rintro ⟨_, ⟨⟩⟩

/-- In a comment no atom has begun. -/
theorem not_begins_comment : ¬Mode.comment.Begins token := by
  rintro ⟨_, ⟨⟩⟩

/-- The first cell is where the token starts. -/
theorem startsIn_first (position : cell.position = token.position)
    (inside : Text.isSpace cell.char = false) (code : cell.char ≠ ';')
    (tokens : scan (cell :: rest) = token :: others) :
    StartsIn .between (cell :: rest) [] token others :=
  ⟨[], cell, rest, rfl, position, inside, code, rfl, tokens⟩

/-- One cell more in front, which makes some tokens complete. -/
theorem StartsIn.cons (h : StartsIn next rest used token others) (emitted : List Token)
    (step : ∀ cells, scanFrom mode (cell :: cells) = emitted ++ scanFrom next cells) :
    StartsIn mode (cell :: rest) (emitted ++ used) token others := by
  obtain ⟨before, first, behind, rfl, hposition, hinside, hcode, rfl, htokens⟩ := h
  exact ⟨cell :: before, first, behind, rfl, hposition, hinside, hcode, step before, htokens⟩

/-- A cell that is a token by itself. -/
theorem startsIn_of_single {single : Token} (position : single.position = cell.position)
    (inside : Text.isSpace cell.char = false) (code : cell.char ≠ ';')
    (step : ∀ cells, scanFrom .between (cell :: cells) = single :: scanFrom .between cells)
    (behind : ∀ used, scanFrom .between rest = used ++ token :: others →
      StartsIn .between rest used token others)
    (h : scanFrom .between (cell :: rest) = used ++ token :: others) :
    StartsIn .between (cell :: rest) used token others := by
  have hsplit := h
  rw [step] at hsplit
  cases used with
  | nil =>
      obtain ⟨rfl, -⟩ := List.cons.inj hsplit
      exact startsIn_first position.symm inside code h
  | cons first used =>
      obtain ⟨rfl, hrest⟩ := List.cons.inj hsplit
      exact (behind used hrest).cons [single] step

/-- Behind an atom that ends here, a token starts where it does between tokens. -/
theorem StartsIn.of_between {position : Position} {reversed : List Char}
    (h : StartsIn .between (cell :: rest) used token others)
    (ends : isAtomChar cell.char = false) :
    StartsIn (.atom position reversed) (cell :: rest)
      (.atom position reversed.reverse :: used) token others := by
  obtain ⟨before, first, behind, hcells, hposition, hinside, hcode, rfl, htokens⟩ := h
  refine ⟨before, first, behind, hcells, hposition, hinside, hcode, scanFrom_run_end ?_, htokens⟩
  intro other hother
  cases before with
  | nil => cases hother
  | cons next before =>
      cases hother
      rwa [← (List.cons.inj hcells).1]

/-- Looked at between tokens, the first cell is a token, starts one or a comment, or is passed. -/
theorem startsIn_of_between
    (behind : ∀ {next used}, scanFrom next rest = used ++ token :: others →
      next.Begins token ∧ used = [] ∨ StartsIn next rest used token others)
    (h : scanFrom .between (cell :: rest) = used ++ token :: others) :
    StartsIn .between (cell :: rest) used token others := by
  have hbetween : ∀ used, scanFrom .between rest = used ++ token :: others →
      StartsIn .between rest used token others :=
    fun _ hscan ↦ (behind hscan).resolve_left fun hatom ↦ not_begins_between hatom.1
  by_cases hatom : isAtomChar cell.char
  · have hchar : Text.isSpace cell.char = false ∧ cell.char ≠ ';' := by
      simp only [isAtomChar, Bool.and_eq_true, bne_iff_ne, Bool.not_eq_true'] at hatom
      exact ⟨hatom.2, hatom.1.2⟩
    have hstart := h
    rw [scanFrom_start rest hatom] at hstart
    rcases behind hstart with ⟨⟨reversed, hbegins⟩, rfl⟩ | hstarts
    · exact startsIn_first (Mode.atom.inj hbegins).1 hchar.1 hchar.2 h
    · exact hstarts.cons [] fun cells ↦ scanFrom_start cells hatom
  by_cases hopening : cell.char = '('
  · exact startsIn_of_single rfl (by rw [hopening]; rfl) (by rw [hopening]; decide)
      (fun cells ↦ scanFrom_opening cells hopening) hbetween h
  by_cases hclosing : cell.char = ')'
  · exact startsIn_of_single rfl (by rw [hclosing]; rfl) (by rw [hclosing]; decide)
      (fun cells ↦ scanFrom_closing cells hclosing) hbetween h
  by_cases hsemicolon : cell.char = ';'
  · rw [scanFrom_semicolon rest hsemicolon] at h
    have hcomment := (behind h).resolve_left fun hatom ↦ not_begins_comment hatom.1
    exact hcomment.cons [] fun cells ↦ scanFrom_semicolon cells hsemicolon
  · have hstep : ∀ cells, scanFrom .between (cell :: cells) = scanFrom .between cells := by
      intro cells
      rw [scanFrom_between, if_neg hatom, if_neg hopening, if_neg hclosing, if_neg hsemicolon]
    rw [hstep] at h
    exact (hbetween used h).cons [] hstep

/-- A token is the atom that has begun, or it starts at one of the cells. -/
theorem startsIn_of_scanFrom (h : scanFrom mode cells = used ++ token :: others) :
    mode.Begins token ∧ used = [] ∨ StartsIn mode cells used token others := by
  induction cells generalizing mode used with
  | nil =>
      -- Only an atom that has begun is a token here.
      cases mode with
      | between => exact absurd h.symm (by simp [scanFrom, Mode.finish])
      | comment => exact absurd h.symm (by simp [scanFrom, Mode.finish])
      | atom position reversed =>
          cases used with
          | nil =>
              obtain ⟨rfl, -⟩ := List.cons.inj h
              exact .inl ⟨⟨reversed, rfl⟩, rfl⟩
          | cons first used => exact absurd (List.cons.inj h).2.symm (by simp)
  | cons cell rest ih =>
      cases mode with
      | between => exact .inr (startsIn_of_between ih h)
      | comment =>
          have hnext : ¬(if cell.char = '\n' then Mode.between else .comment).Begins token := by
            split
            · exact not_begins_between
            · exact not_begins_comment
          rw [scanFrom_inComment] at h
          have hrest := (ih h).resolve_left fun hatom ↦ hnext hatom.1
          exact .inr (hrest.cons [] fun cells ↦ scanFrom_inComment cell cells)
      | atom position reversed =>
          rw [scanFrom_inAtom] at h
          by_cases hatom : isAtomChar cell.char
          · rw [if_pos hatom] at h
            rcases ih h with ⟨⟨others, hbegins⟩, rfl⟩ | hstarts
            · obtain ⟨hposition, -⟩ := Mode.atom.inj hbegins
              exact .inl ⟨⟨reversed, congrArg (Mode.atom · reversed) hposition⟩, rfl⟩
            · refine .inr (hstarts.cons [] fun cells ↦ ?_)
              rw [scanFrom_inAtom, if_pos hatom]
              rfl
          · rw [if_neg hatom] at h
            cases used with
            | nil =>
                obtain ⟨rfl, -⟩ := List.cons.inj h
                exact .inl ⟨⟨reversed, rfl⟩, rfl⟩
            | cons first used =>
                -- The atom has ended in front of this cell.
                obtain ⟨rfl, hbehind⟩ := List.cons.inj h
                have hstarts := startsIn_of_between ih hbehind
                exact .inr (hstarts.of_between (Bool.eq_false_iff.mpr hatom))

/-- The rune of that cell, in a text that the cells show. -/
theorem StartsIn.split {text : List Rune} (h : StartsIn .between cells used token others)
    (same : cells.map Cell.char = text.map Rune.readAs) :
    ∃ before rune rest, text = before ++ rune :: rest ∧ ¬rune.Separates ∧ rune ≠ .char ';' ∧
      cells[before.length]?.map Cell.position = some token.position ∧
      Lexes before (used.map Token.lexeme) ∧
      Lexes (rune :: rest) (token.lexeme :: others.map Token.lexeme) := by
  obtain ⟨front, cell, behind, rfl, hposition, hinside, hcode, rfl, htokens⟩ := h
  rw [List.map_append, List.map_cons] at same
  obtain ⟨before, more, rfl, hfront, hmore⟩ := List.map_eq_append_iff.mp same.symm
  obtain ⟨rune, rest, rfl, hrune, hrest⟩ := List.map_eq_cons_iff.mp hmore
  have hseparates : ¬rune.Separates := by
    rw [← Rune.isSpace_readAs, hrune, hinside]
    exact Bool.false_ne_true
  have hsemicolon : rune ≠ .char ';' := by
    rintro rfl
    exact hcode hrune.symm
  have hlength : before.length = front.length := by
    rw [← List.length_map Rune.readAs, hfront, List.length_map]
  obtain ⟨lexemes, hlexes⟩ := exists_lexes before
  obtain ⟨more, hbehind⟩ := exists_lexes (rune :: rest)
  refine ⟨before, rune, rest, rfl, hseparates, hsemicolon, ?_, ?_, ?_⟩
  · rw [hlength, List.getElem?_append_right (Nat.le_refl _), Nat.sub_self]
    exact congrArg some hposition
  · have hscan := hlexes.map_scan hfront.symm
    rw [Token.scan] at hscan
    rwa [hscan]
  · have hcells : (cell :: behind).map Cell.char = (rune :: rest).map Rune.readAs := by
      rw [List.map_cons, List.map_cons, hrune, hrest]
    have hscan := hbehind.map_scan hcells
    rw [htokens, List.map_cons] at hscan
    rwa [hscan]

end Token

/-! ## Its place in the source -/

/-- A lexeme of queued sources, with those before it and those behind it, and where it starts: at a
rune of `source`, behind `passed`, that neither is a separator nor starts a comment. What is read
before this rune has the lexemes before, and from it on the others follow. -/
def Source.Located (sources : List Source) (used : List Lexeme) (lexeme : Lexeme)
    (others : List Lexeme) (source : Source) (passed : List Rune) : Prop :=
  ∃ before rune rest, (OpenSource.ofSources sources).text = before ++ rune :: rest ∧
    Placed sources before source passed rune ∧ ¬rune.Separates ∧ rune ≠ .char ';' ∧
    Lexes before used ∧ Lexes (rune :: rest) (lexeme :: others) ∧
    Lexes (OpenSource.ofSources sources).text (used ++ lexeme :: others)

/-- A token of queued sources has the position of its first rune in the source of this rune. -/
theorem Reader.located_of_tokens {sources : List Source} {used others : List Token} {token : Token}
    (h : (Reader.ofSources sources).tokens = used ++ token :: others) :
    ∃ source passed,
      Source.Located sources (used.map Token.lexeme) token.lexeme (others.map Token.lexeme) source
        passed ∧
      token.position = ⟨some source.title, Source.lineAfter passed,
        some (Source.columnAfter passed + 1)⟩ := by
  have hstarts := (Token.startsIn_of_scanFrom h).resolve_left fun hatom ↦
    Token.not_begins_between hatom.1
  obtain ⟨before, rune, rest, htext, hseparates, hsemicolon, hcell, hbefore, hbehind⟩ :=
    hstarts.split (Queue.ofSources sources).stream_content.1
  have hfeed : rune ≠ .char '\n' := by
    rintro rfl
    exact hseparates (.inl rfl)
  obtain ⟨source, passed, hplaced⟩ := Source.exists_placed htext fun hnul ↦ hseparates (.inr hnul)
  obtain ⟨lexemes, hlexes⟩ := exists_lexes (OpenSource.ofSources sources).text
  have htokens := hlexes.map_tokens_ofSources
  rw [h, List.map_append, List.map_cons] at htokens
  rw [← htokens] at hlexes
  exact ⟨source, passed,
    ⟨before, rune, rest, htext, hplaced, hseparates, hsemicolon, hbefore, hbehind, hlexes⟩,
    hplaced.position_eq hfeed hcell⟩

/-! ## The token of an error -/

/-- The position of the token that an error is about, if there is one. -/
def ReadError.position? : ReadError → Option Position
  | .unexpectedClose position | .integerOutOfRange position _ => some position
  | .endOfInput | .unterminated _ _ | .noExpression _ | .failed _ _ => none

/-- The line and the column of this token. -/
def ReadError.place? (error : ReadError) : Option (Nat × Option Nat) :=
  error.position?.map fun position ↦ (position.line, position.column?)

/-- An outline has the kind and the place of its error. -/
theorem ReadError.report_outline (error : ReadError) :
    (error.outline.kind?, error.outline.place?) = (error.kind?, error.place?) := by
  cases error <;> rfl

/-- The lexeme that an error is about, and the lexemes of the expression before it: a parenthesis
that closes no list comes first, and an integer that is no word may stand behind lists that are open
and complete expressions in these. -/
inductive ReadError.Blames : ReadError → List Lexeme → Lexeme → Prop where
  | closing (position : Position) : Blames (.unexpectedClose position) [] .closing
  | integer {before : List Lexeme} {depth : Nat} {text : List Char} (position : Position) :
      Pending [] depth before → OutOfRange text →
      Blames (.integerOutOfRange position (String.ofList text)) before (.atom text)

namespace Pending

variable {nodes : List Node} {depth : Nat} {lexemes others : List Lexeme} {more : List Node}

/-- More expressions in the innermost list. -/
theorem add (h : Pending nodes (depth + 1) lexemes) (forest : Forest others more) :
    Pending nodes (depth + 1) (lexemes ++ others) := by
  cases h with
  | opened houter hinner =>
      rw [List.append_assoc, List.cons_append]
      exact .opened houter (hinner.append forest)

/-- The innermost list is closed inside another one. -/
theorem close_inner (h : Pending nodes (depth + 2) lexemes) :
    Pending nodes (depth + 1) (lexemes ++ [.closing]) := by
  cases h with
  | opened houter hinner =>
      rw [List.append_assoc, List.cons_append]
      exact houter.add (.list hinner .nil)

end Pending

namespace Reader

/-- Among the tokens that are left stands one at `position` that the error blames, behind whatever
has opened `depth` lists. -/
def BlamesIn (error : ReadError) (position : Position) (depth : Nat) (tokens : List Token) : Prop :=
  ∃ before token others, tokens = before ++ token :: others ∧ token.position = position ∧
    ∀ seen, Pending [] depth seen → error.Blames (seen ++ before.map Token.lexeme) token.lexeme

variable {error : ReadError} {position : Position}

/-- One token more in front. -/
theorem BlamesIn.cons {depth next : Nat} {token : Token} {rest : List Token}
    (h : BlamesIn error position next rest)
    (step : ∀ seen, Pending [] depth seen → Pending [] next (seen ++ [token.lexeme])) :
    BlamesIn error position depth (token :: rest) := by
  obtain ⟨before, blamed, others, rfl, hposition, hblames⟩ := h
  refine ⟨token :: before, blamed, others, rfl, hposition, fun seen hseen ↦ ?_⟩
  have hresult := hblames _ (step seen hseen)
  rwa [List.append_assoc] at hresult

/-- An error about a token blames one of those that are left. -/
theorem parse_blames {final : Position} {failure? : Option String} {frames : List Frame}
    {tokens : List Token} (failed : (parse final failure? frames tokens).1 = .error error)
    (about : error.position? = some position) :
    BlamesIn error position frames.length tokens := by
  fun_induction parse final failure? frames tokens with
  | case1 frames =>
      cases failed
      cases failure? with
      | some message => cases about
      | none => cases frames <;> cases about
  | case2 frames place rest ih => exact (ih failed).cons fun _ hseen ↦ .opened hseen .nil
  | case3 place rest =>
      cases failed
      cases about
      refine ⟨[], .closing position, rest, rfl, rfl, fun seen hseen ↦ ?_⟩
      cases hseen.forest
      exact .closing position
  | case4 => cases failed
  | case5 frame outer frames place rest node ih =>
      exact (ih failed).cons fun _ hseen ↦ hseen.close_inner
  | case6 frames place text rest other hnode =>
      rcases denotes_or_outOfRange text with ⟨node, hdenotes⟩ | hrange
      · rw [hdenotes.atomNode] at hnode
        cases hnode
      · rw [hrange.atomNode] at hnode
        cases hnode
        cases failed
        cases about
        refine ⟨[], .atom position text, rest, rfl, rfl, fun seen hseen ↦ ?_⟩
        rw [List.map_nil, List.append_nil]
        exact .integer position hseen hrange
  | case7 => cases failed
  | case8 place text rest node frame frames hnode ih =>
      exact (ih failed).cons fun _ hseen ↦ hseen.add (.atom (denotes_of_atomNode hnode) .nil)

/-- The lexemes that are left to read. -/
def unread (reader : Reader) : List Lexeme :=
  reader.tokens.map Token.lexeme

end Reader

/-- The two ways to read a source agree, and offending tokens are located. Reading by reading, a
source on its own and as the only one of a queue gives the same nodes and errors of the same kind,
and reports offending tokens at the same line and column. However many sources are queued, an error
about a token blames one of those that are left to read, and is reported where this one starts: with
the name of its source, at the line that follows the line feeds before it there, and at the column
that follows the runes behind the last of these. -/
theorem offences_located :
    (∀ (source : Source) (count : Nat),
      let alone := ((Reader.ofSource source).after count).read.1
      let queued := ((Reader.ofSources [source]).after count).read.1
      alone.mapError (fun error ↦ (error.kind?, error.place?)) =
        queued.mapError (fun error ↦ (error.kind?, error.place?))) ∧
    ∀ (sources : List Source) (count : Nat) (error : ReadError) (position : Position),
      let reader := (Reader.ofSources sources).after count
      reader.read.1 = .error error → error.position? = some position →
      ∃ used before lexeme others source passed,
        reader.unread = before ++ lexeme :: others ∧ error.Blames before lexeme ∧
        Source.Located sources (used ++ before) lexeme others source passed ∧
        position = ⟨some source.title, Source.lineAfter passed,
          some (Source.columnAfter passed + 1)⟩ := by
  constructor
  · intro source count alone queued
    have hsame : alone.mapError ReadError.outline = queued.mapError ReadError.outline :=
      Reader.mapError_outline source count
    have hreport : ∀ result : Except ReadError Node,
        result.mapError (fun error ↦ (error.kind?, error.place?)) =
          (result.mapError ReadError.outline).mapError
            fun error ↦ (error.kind?, error.place?) := by
      intro result
      cases result with
      | ok node => rfl
      | error error => exact congrArg Except.error error.report_outline.symm
    rw [hreport, hsame, ← hreport]
  · intro sources count error position reader failed about
    obtain ⟨seen, tokens, htokens, hafter⟩ := (Reader.ofSources sources).after_cases count
    have hparse := failed
    rw [show reader = _ from hafter] at hparse
    obtain ⟨before, token, others, rfl, rfl, hblames⟩ := Reader.parse_blames hparse about
    rw [← List.append_assoc] at htokens
    obtain ⟨source, passed, hlocated, hposition⟩ := Reader.located_of_tokens htokens
    rw [List.map_append] at hlocated
    refine ⟨_, before.map Token.lexeme, token.lexeme, _, source, passed, ?_, ?_, hlocated,
      hposition⟩
    · rw [show reader = _ from hafter, Reader.unread, List.map_append, List.map_cons]
    · exact hblames [] (.complete .nil)

/-- The comment of the first source goes on into the second one, which fails in the end. A NUL, a
blank and a letter of two bytes each are one rune of the line on which the integer and then the
parenthesis are reported. -/
theorem offences_located_second :
    let second := Rune.ofString ")\n\x00 é (x 9223372036854775808))"
    let sources : List Source :=
      [.named "a" (Rune.ofString "(f ;)"),
        { name? := some "b", text := second, failure? := some "lost" }]
    let reader := Reader.ofSources sources
    (reader.after 0).read.1 =
        .error (.integerOutOfRange ⟨some "b", 2, some 8⟩ "9223372036854775808") ∧
      (reader.after 1).read.1 = .error (.unexpectedClose ⟨some "b", 2, some 27⟩) ∧
      ∃ used others source passed, Source.Located sources used .closing others source passed ∧
        source.title = "b" ∧ Source.lineAfter passed = 2 ∧ Source.columnAfter passed = 26 := by
  intro second sources reader
  have hclosing : (reader.after 1).read.1 =
      .error (.unexpectedClose ⟨some "b", 2, some 27⟩) := by
    decide +kernel
  obtain ⟨used, before, lexeme, others, source, passed, -, hblames, hlocated, hposition⟩ :=
    offences_located.2 sources 1 _ ⟨some "b", 2, some 27⟩ hclosing rfl
  cases hblames
  obtain ⟨htitle, hline, hcolumn⟩ := Position.mk.inj hposition
  exact ⟨by decide +kernel, hclosing, _, others, source, passed, hlocated,
    (Option.some.inj htitle).symm, hline.symm, (Nat.succ.inj (Option.some.inj hcolumn)).symm⟩

end WordLisp
