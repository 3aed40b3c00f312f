import WordLisp.Node.Token

/-!
# The lexemes of a text

Which tokens a text has, said without a scanner. `Lexes text lexemes` cuts a text into parentheses,
atoms, and what separates them: blank space, NUL runes, and comments from a semicolon to the end of
the line or of the text. An atom is as long as it can be, so every text is cut in exactly one way
(`exists_lexes`, `Lexes.unique`), and the scanner finds it (`Lexes.map_scan`).
-/

namespace WordLisp

open Text (Rune)

/-- A token without its place. -/
inductive Lexeme where
  | opening
  | closing
  | atom (text : List Char)
  deriving DecidableEq, Repr

/-- What a token is, wherever it stands. -/
def Token.lexeme : Token → Lexeme
  | .opening _ => .opening
  | .closing _ => .closing
  | .atom _ text => .atom text

namespace Text.Rune

/-- A rune that may stand between two atoms: blank space, or a NUL. -/
def Separates (rune : Rune) : Prop :=
  rune.isSpace ∨ rune = .char '\x00'

/-- A rune that atoms are made of. -/
def InAtom (rune : Rune) : Prop :=
  ¬rune.Separates ∧ rune ≠ .char '(' ∧ rune ≠ .char ')' ∧ rune ≠ .char ';'

instance (rune : Rune) : Decidable rune.Separates :=
  inferInstanceAs (Decidable (_ ∨ _))

instance (rune : Rune) : Decidable rune.InAtom :=
  inferInstanceAs (Decidable (_ ∧ _))

theorem readAs_char (c : Char) : (char c).readAs = if c = '\x00' then ' ' else c := rfl

theorem readAs_stray (byte : UInt8) : (stray byte).readAs = replacement := rfl

/-- Only the character itself reads as a character that is neither blank nor the replacement. -/
theorem readAs_eq_iff {rune : Rune} {c : Char} (notBlank : c ≠ ' ')
    (notReplacement : c ≠ replacement) (notNul : c ≠ '\x00') :
    rune.readAs = c ↔ rune = .char c := by
  cases rune with
  | stray byte =>
      rw [readAs_stray]
      exact ⟨fun h ↦ absurd h.symm notReplacement, nofun⟩
  | char d =>
      rw [readAs_char, char.injEq]
      by_cases hnul : d = '\x00'
      · subst hnul
        exact ⟨fun h ↦ absurd h.symm notBlank, fun h ↦ absurd h.symm notNul⟩
      · rw [if_neg hnul]

/-- A separator reads as blank space. -/
theorem isSpace_readAs (rune : Rune) : Text.isSpace rune.readAs = true ↔ rune.Separates := by
  cases rune with
  | stray byte => exact ⟨nofun, nofun⟩
  | char c =>
      rw [readAs_char, Separates, isSpace, toChar_char, char.injEq]
      by_cases hnul : c = '\x00'
      · rw [if_pos hnul]
        exact ⟨fun _ ↦ .inr hnul, fun _ ↦ rfl⟩
      · rw [if_neg hnul]
        exact ⟨.inl, fun h ↦ h.resolve_right hnul⟩

/-- The runes of atoms read as characters of atoms. -/
theorem isAtomChar_readAs (rune : Rune) : Token.isAtomChar rune.readAs = true ↔ rune.InAtom := by
  have hopen : rune.readAs = '(' ↔ rune = .char '(' :=
    readAs_eq_iff (by decide) (by decide) (by decide)
  have hclose : rune.readAs = ')' ↔ rune = .char ')' :=
    readAs_eq_iff (by decide) (by decide) (by decide)
  have hcomment : rune.readAs = ';' ↔ rune = .char ';' :=
    readAs_eq_iff (by decide) (by decide) (by decide)
  simp only [Token.isAtomChar, InAtom, ← isSpace_readAs, Bool.and_eq_true, bne_iff_ne, ne_eq,
    Bool.not_eq_true', hopen, hclose, hcomment, Bool.not_eq_true, and_assoc]
  constructor
  · rintro ⟨hopen, hclose, hcomment, hspace⟩
    exact ⟨hspace, hopen, hclose, hcomment⟩
  · rintro ⟨hspace, hopen, hclose, hcomment⟩
    exact ⟨hopen, hclose, hcomment, hspace⟩

/-- A line feed reads as itself. -/
theorem readAs_eq_lineFeed (rune : Rune) : rune.readAs = '\n' ↔ rune = .char '\n' :=
  readAs_eq_iff (by decide) (by decide) (by decide)

end Text.Rune

/-- The cut of a text into lexemes. -/
inductive Lexes : List Rune → List Lexeme → Prop where
  | nil : Lexes [] []
  | separator {rune : Rune} {rest : List Rune} {lexemes : List Lexeme} :
      rune.Separates → Lexes rest lexemes → Lexes (rune :: rest) lexemes
  /-- A comment, up to the line feed that ends it, or to the end of the text. -/
  | comment {body rest : List Rune} {lexemes : List Lexeme} :
      .char '\n' ∉ body → (∀ rune ∈ rest.head?, rune = .char '\n') → Lexes rest lexemes →
      Lexes (.char ';' :: (body ++ rest)) lexemes
  | opening {rest : List Rune} {lexemes : List Lexeme} :
      Lexes rest lexemes → Lexes (.char '(' :: rest) (.opening :: lexemes)
  | closing {rest : List Rune} {lexemes : List Lexeme} :
      Lexes rest lexemes → Lexes (.char ')' :: rest) (.closing :: lexemes)
  /-- An atom, which the rune behind it does not continue. -/
  | atom {runes rest : List Rune} {lexemes : List Lexeme} :
      runes ≠ [] → (∀ rune ∈ runes, rune.InAtom) → (∀ rune ∈ rest.head?, ¬rune.InAtom) →
      Lexes rest lexemes → Lexes (runes ++ rest) (.atom (runes.map Rune.toChar) :: lexemes)

/-! ## Every text has lexemes -/

/-- Every text has a longest beginning with a property. -/
theorem exists_longest (p : Rune → Prop) [DecidablePred p] (text : List Rune) :
    ∃ run behind, text = run ++ behind ∧ (∀ rune ∈ run, p rune) ∧
      ∀ rune ∈ behind.head?, ¬p rune := by
  refine ⟨text.takeWhile (p ·), text.dropWhile (p ·), List.takeWhile_append_dropWhile.symm,
    ?_, ?_⟩
  · intro rune hrune
    exact of_decide_eq_true (List.all_eq_true.mp List.all_takeWhile rune hrune)
  · intro rune hrune
    have hnot := List.head?_dropWhile_not (p ·) text
    rw [Option.mem_def.mp hrune] at hnot
    exact of_decide_eq_false hnot

/-- Every text can be cut into lexemes. -/
theorem exists_lexes (text : List Rune) : ∃ lexemes, Lexes text lexemes := by
  induction hlength : text.length using Nat.strongRecOn generalizing text with
  | ind length ih =>
      cases text with
      | nil => exact ⟨[], .nil⟩
      | cons rune rest =>
          subst hlength
          obtain ⟨lexemes, hlexes⟩ := ih _ (Nat.lt_succ_self _) rest rfl
          by_cases hseparates : rune.Separates
          · exact ⟨lexemes, .separator hseparates hlexes⟩
          by_cases hopening : rune = .char '('
          · subst hopening
            exact ⟨_, .opening hlexes⟩
          by_cases hclosing : rune = .char ')'
          · subst hclosing
            exact ⟨_, .closing hlexes⟩
          by_cases hcomment : rune = .char ';'
          · subst hcomment
            obtain ⟨body, behind, rfl, hbody, hend⟩ := exists_longest (· ≠ .char '\n') rest
            have hshorter : behind.length < (Rune.char ';' :: (body ++ behind)).length := by
              rw [List.length_cons, List.length_append]
              omega
            obtain ⟨others, hothers⟩ := ih _ hshorter behind rfl
            exact ⟨others, .comment (fun hmem ↦ hbody _ hmem rfl)
              (fun rune hrune ↦ Classical.not_not.mp (hend rune hrune)) hothers⟩
          · -- Any other rune starts an atom.
            obtain ⟨run, behind, rfl, hrun, hend⟩ := exists_longest (·.InAtom) rest
            have hshorter : behind.length < (rune :: (run ++ behind)).length := by
              rw [List.length_cons, List.length_append]
              omega
            obtain ⟨others, hothers⟩ := ih _ hshorter behind rfl
            have hatom : ∀ other ∈ rune :: run, other.InAtom :=
              List.forall_mem_cons.mpr ⟨⟨hseparates, hopening, hclosing, hcomment⟩, hrun⟩
            exact ⟨_, .atom (List.cons_ne_nil _ _) hatom hend hothers⟩

/-! ## The scanner finds them -/

namespace Token

variable {cell : Cell} {rest run body : List Cell}

/-- What a character does between tokens. -/
theorem scanFrom_between (cell : Cell) (rest : List Cell) :
    scanFrom .between (cell :: rest) =
      if isAtomChar cell.char then scanFrom (.atom cell.position [cell.char]) rest
      else if cell.char = '(' then .opening cell.position :: scanFrom .between rest
      else if cell.char = ')' then .closing cell.position :: scanFrom .between rest
      else if cell.char = ';' then scanFrom .comment rest
      else scanFrom .between rest := rfl

/-- What a character does in a comment. -/
theorem scanFrom_inComment (cell : Cell) (rest : List Cell) :
    scanFrom .comment (cell :: rest) =
      scanFrom (if cell.char = '\n' then .between else .comment) rest := rfl

/-- What a character does in an atom: it belongs to it, or it ends the atom and is then treated as
between tokens. -/
theorem scanFrom_inAtom (position : Position) (reversed : List Char) (cell : Cell)
    (rest : List Cell) :
    scanFrom (.atom position reversed) (cell :: rest) =
      if isAtomChar cell.char then scanFrom (.atom position (cell.char :: reversed)) rest
      else .atom position reversed.reverse :: scanFrom .between (cell :: rest) := by
  rw [scanFrom_between]
  show (if isAtomChar cell.char then _ else if cell.char = '(' then _ else if cell.char = ')' then _
    else if cell.char = ';' then _ else _) = _
  split
  · rfl
  · split
    · rfl
    · split
      · rfl
      · split <;> rfl

/-- Blank space between tokens is passed. -/
theorem scanFrom_space (rest : List Cell) (space : Text.isSpace cell.char) :
    scanFrom .between (cell :: rest) = scanFrom .between rest := by
  have hne : ∀ c, Text.isSpace c = false → cell.char ≠ c := by
    intro c hc h
    rw [h, hc] at space
    cases space
  simp [scanFrom_between, isAtomChar, space, hne '(' rfl, hne ')' rfl, hne ';' rfl]

/-- A list starts. -/
theorem scanFrom_opening (rest : List Cell) (opening : cell.char = '(') :
    scanFrom .between (cell :: rest) = .opening cell.position :: scanFrom .between rest := by
  simp [scanFrom_between, isAtomChar, opening]

/-- A list ends. -/
theorem scanFrom_closing (rest : List Cell) (closing : cell.char = ')') :
    scanFrom .between (cell :: rest) = .closing cell.position :: scanFrom .between rest := by
  simp [scanFrom_between, isAtomChar, closing]

/-- A comment starts. -/
theorem scanFrom_semicolon (rest : List Cell) (semicolon : cell.char = ';') :
    scanFrom .between (cell :: rest) = scanFrom .comment rest := by
  simp [scanFrom_between, isAtomChar, semicolon]

/-- A comment is passed. -/
theorem scanFrom_comment (inside : ∀ cell ∈ body, cell.char ≠ '\n') :
    scanFrom .comment (body ++ rest) = scanFrom .comment rest := by
  induction body with
  | nil => rfl
  | cons cell body ih =>
      obtain ⟨hcell, hbody⟩ := List.forall_mem_cons.mp inside
      rw [List.cons_append, scanFrom_inComment, if_neg hcell]
      exact ih hbody

/-- A comment ends before the line feed, which is blank space, or with the text. -/
theorem scanFrom_comment_end (ends : ∀ cell ∈ rest.head?, cell.char = '\n') :
    scanFrom .comment rest = scanFrom .between rest := by
  cases rest with
  | nil => rfl
  | cons cell rest =>
      have hcell : cell.char = '\n' := ends cell rfl
      have hspace : Text.isSpace cell.char := by
        rw [hcell]
        rfl
      rw [scanFrom_inComment, if_pos hcell, scanFrom_space rest hspace]

/-- An atom starts. -/
theorem scanFrom_start (rest : List Cell) (inside : isAtomChar cell.char) :
    scanFrom .between (cell :: rest) = scanFrom (.atom cell.position [cell.char]) rest := by
  rw [scanFrom_between, if_pos inside]

/-- An atom goes on. -/
theorem scanFrom_run {position : Position} {reversed : List Char}
    (inside : ∀ cell ∈ run, isAtomChar cell.char) :
    scanFrom (.atom position reversed) (run ++ rest) =
      scanFrom (.atom position ((run.map Cell.char).reverse ++ reversed)) rest := by
  induction run generalizing reversed with
  | nil => rfl
  | cons cell run ih =>
      obtain ⟨hcell, hrun⟩ := List.forall_mem_cons.mp inside
      rw [List.cons_append, scanFrom_inAtom, if_pos hcell]
      simpa using ih hrun

/-- An atom ends before a character that it may not have, or with the text. -/
theorem scanFrom_run_end {position : Position} {reversed : List Char}
    (ends : ∀ cell ∈ rest.head?, isAtomChar cell.char = false) :
    scanFrom (.atom position reversed) rest =
      .atom position reversed.reverse :: scanFrom .between rest := by
  cases rest with
  | nil => rfl
  | cons cell rest =>
      have hcell : isAtomChar cell.char = false := ends cell rfl
      rw [scanFrom_inAtom, hcell, if_neg Bool.false_ne_true]

end Token

section Cells

variable {text : List Rune} {cells : List Cell} (p : Char → Prop)

/-- What all runes of a text read as, all cells hold. -/
theorem forall_char (same : cells.map Cell.char = text.map Rune.readAs)
    (all : ∀ rune ∈ text, p rune.readAs) : ∀ cell ∈ cells, p cell.char := by
  intro cell hcell
  have hmem : cell.char ∈ text.map Rune.readAs := same ▸ List.mem_map_of_mem hcell
  obtain ⟨rune, hrune, hread⟩ := List.mem_map.mp hmem
  exact hread ▸ all rune hrune

/-- What the first rune of a text reads as, the first cell holds. -/
theorem forall_head?_char (same : cells.map Cell.char = text.map Rune.readAs)
    (first : ∀ rune ∈ text.head?, p rune.readAs) : ∀ cell ∈ cells.head?, p cell.char := by
  cases text with
  | nil =>
      rw [List.map_eq_nil_iff.mp same]
      exact nofun
  | cons rune rest =>
      obtain ⟨cell, cells, rfl, hcell, -⟩ := List.map_eq_cons_iff.mp same
      rintro _ ⟨⟩
      exact hcell ▸ first rune rfl

/-- The runes of an atom read as themselves. -/
theorem map_readAs (inside : ∀ rune ∈ text, rune.InAtom) :
    text.map Rune.readAs = text.map Rune.toChar := by
  apply List.map_congr_left
  intro rune hrune
  have hnul : rune.toChar ≠ '\x00' := by
    intro h
    cases rune with
    | char c => exact (inside _ hrune).1 (.inr (congrArg Rune.char h))
    | stray byte => cases h
  exact if_neg hnul

end Cells

/-- The tokens of a stream are the lexemes of its text. -/
theorem Lexes.map_scan {text : List Rune} {lexemes : List Lexeme} (h : Lexes text lexemes)
    {cells : List Cell} (same : cells.map Cell.char = text.map Rune.readAs) :
    (Token.scan cells).map Token.lexeme = lexemes := by
  unfold Token.scan
  induction h generalizing cells with
  | nil =>
      rw [List.map_eq_nil_iff.mp same]
      rfl
  | separator hseparates _ ih =>
      obtain ⟨cell, cells, rfl, hcell, hrest⟩ := List.map_eq_cons_iff.mp same
      rw [Token.scanFrom_space _ (hcell ▸ (Rune.isSpace_readAs _).mpr hseparates)]
      exact ih hrest
  | comment hbody hend _ ih =>
      obtain ⟨cell, cells, rfl, hcell, hcells⟩ := List.map_eq_cons_iff.mp same
      rw [List.map_append] at hcells
      obtain ⟨inside, behind, rfl, hinside, hbehind⟩ := List.map_eq_append_iff.mp hcells
      have hcomment : ∀ cell ∈ inside, cell.char ≠ '\n' := forall_char (· ≠ '\n') hinside
        fun rune hrune h ↦ hbody ((Rune.readAs_eq_lineFeed rune).mp h ▸ hrune)
      have hfeed : ∀ cell ∈ behind.head?, cell.char = '\n' := forall_head?_char (· = '\n') hbehind
        fun rune hrune ↦ (Rune.readAs_eq_lineFeed rune).mpr (hend rune hrune)
      rw [Token.scanFrom_semicolon _ hcell, Token.scanFrom_comment hcomment,
        Token.scanFrom_comment_end hfeed]
      exact ih hbehind
  | opening _ ih =>
      obtain ⟨cell, cells, rfl, hcell, hrest⟩ := List.map_eq_cons_iff.mp same
      rw [Token.scanFrom_opening _ hcell, List.map_cons, ih hrest]
      rfl
  | closing _ ih =>
      obtain ⟨cell, cells, rfl, hcell, hrest⟩ := List.map_eq_cons_iff.mp same
      rw [Token.scanFrom_closing _ hcell, List.map_cons, ih hrest]
      rfl
  | @atom runes _ _ hne hrunes hend _ ih =>
      rw [List.map_append] at same
      obtain ⟨run, behind, rfl, hrun, hbehind⟩ := List.map_eq_append_iff.mp same
      have hatom : ∀ cell ∈ run, Token.isAtomChar cell.char := forall_char (Token.isAtomChar ·) hrun
        fun rune hrune ↦ (Rune.isAtomChar_readAs rune).mpr (hrunes rune hrune)
      have hstop : ∀ cell ∈ behind.head?, Token.isAtomChar cell.char = false :=
        forall_head?_char (Token.isAtomChar · = false) hbehind fun rune hrune ↦
          Bool.eq_false_iff.mpr fun h ↦ hend rune hrune ((Rune.isAtomChar_readAs rune).mp h)
      cases run with
      | nil => exact absurd (List.map_eq_nil_iff.mp hrun.symm) hne
      | cons first run =>
          obtain ⟨hfirst, hothers⟩ := List.forall_mem_cons.mp hatom
          rw [List.cons_append, Token.scanFrom_start _ hfirst, Token.scanFrom_run hothers,
            Token.scanFrom_run_end hstop, List.map_cons, ih hbehind]
          -- The atom is the run of its cells, and these are its runes.
          simp [Token.lexeme, ← map_readAs hrunes, ← hrun]

/-- A text has only one cut into lexemes. -/
theorem Lexes.unique {text : List Rune} {lexemes other : List Lexeme} (h : Lexes text lexemes)
    (h' : Lexes text other) : lexemes = other := by
  let cells : List Cell := text.map fun rune ↦ ⟨rune.readAs, ⟨none, 0, none⟩⟩
  have hcells : cells.map Cell.char = text.map Rune.readAs := by
    simp [cells, Function.comp_def]
  rw [← h.map_scan hcells, h'.map_scan hcells]

end WordLisp
