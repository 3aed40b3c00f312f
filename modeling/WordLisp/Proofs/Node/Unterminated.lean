import WordLisp.Proofs.Node.Boundary
import WordLisp.Proofs.Node.Printing
import WordLisp.Proofs.Source.Layout

/-!
# Where an unterminated list is reported

An input that ends inside a list is reported with two positions: where it ended, and where the list
was opened. The second is that of the innermost parenthesis which nothing closes (`Innermost`). The
first names the last source, but a line that this source does not have: the queue has already gone
on to the line behind its end. `unterminated_located` says both, for every reading of every queue of
sources that do not fail.
-/

namespace WordLisp

open Text (Rune)

/-- The parenthesis at `opened` starts the innermost list that queued sources leave open: it stands
in no comment, and what follows it are complete expressions. -/
def Innermost (sources : List Source) (opened : Position) : Prop :=
  ∃ before behind lexemes nodes,
    (OpenSource.ofSources sources).text = before ++ .char '(' :: behind ∧
      (Source.layout sources)[before.length]?.map Report.position = some opened ∧
      ¬EndsInComment before ∧ Lexes behind lexemes ∧ Forest lexemes nodes

/-! ## The token that opened the list -/

namespace Reader

/-- The reader after some readings. -/
def after (reader : Reader) : Nat → Reader
  | 0 => reader
  | count + 1 => reader.read.2.after count

/-- Reading takes tokens off the front and changes nothing else. -/
theorem after_cases (reader : Reader) (count : Nat) :
    ∃ seen tokens, reader.tokens = seen ++ tokens ∧
      reader.after count = { reader with tokens } := by
  induction count generalizing reader with
  | zero => exact ⟨[], reader.tokens, rfl, rfl⟩
  | succ count ih =>
      obtain ⟨first, hfirst⟩ : reader.read.2.tokens <:+ reader.tokens := parse_suffix [] _
      obtain ⟨seen, tokens, htokens, hafter⟩ := ih reader.read.2
      refine ⟨first ++ seen, tokens, ?_, hafter⟩
      rw [List.append_assoc, ← htokens]
      exact hfirst.symm

/-- The lists that are open behind some tokens, innermost first. Each was opened by a parenthesis,
with complete expressions between it and the next one. -/
inductive OpenLists : List Token → List Frame → Prop where
  | none (seen : List Token) : OpenLists seen []
  | opened {outer inner : List Token} {frames : List Frame} {position : Position}
      {nodes reversed : List Node} :
      OpenLists outer frames → Forest (inner.map Token.lexeme) nodes →
      OpenLists (outer ++ .opening position :: inner) (⟨position, reversed⟩ :: frames)

section OpenLists

variable {final position place opened : Position} {seen tokens : List Token} {frame outer : Frame}
  {frames : List Frame}

/-- More expressions in the innermost list. -/
theorem OpenLists.add {inner : List Token} {nodes reversed : List Node}
    (h : OpenLists seen (frame :: frames)) (forest : Forest (inner.map Token.lexeme) nodes) :
    OpenLists (seen ++ inner) ({ frame with reversed } :: frames) := by
  cases h with
  | opened houter hinner =>
      have hforest := hinner.append forest
      rw [← List.map_append] at hforest
      rw [List.append_assoc, List.cons_append]
      exact .opened houter hforest

/-- The innermost list is closed, and is an expression of the one around it. -/
theorem OpenLists.close {reversed : List Node} (h : OpenLists seen (frame :: outer :: frames)) :
    OpenLists (seen ++ [.closing place]) ({ outer with reversed } :: frames) := by
  cases h with
  | @opened before inner _ start nodes _ houter hinner =>
      have hlist : Forest ((.opening start :: (inner ++ [.closing place])).map Token.lexeme)
          [.ofList nodes] := by
        rw [List.map_cons, List.map_append]
        exact .list hinner .nil
      rw [List.append_assoc, List.cons_append]
      exact houter.add hlist

/-- The list that an unterminated input is reported for is the innermost one that is open at the
end of the tokens. -/
theorem parse_unterminated
    (error : (parse final none frames tokens).1 = .error (.unterminated position opened)) :
    position = final ∧ ∀ seen, OpenLists seen frames → ∃ outer inner nodes,
      seen ++ tokens = outer ++ .opening opened :: inner ∧
        Forest (inner.map Token.lexeme) nodes := by
  fun_induction parse final none frames tokens with
  | case1 frames =>
      cases frames with
      | nil => cases error
      | cons frame frames =>
          cases error
          refine ⟨rfl, fun seen lists ↦ ?_⟩
          cases lists with
          | opened _ hinner => exact ⟨_, _, _, List.append_nil _, hinner⟩
  | case2 frames place rest ih =>
      -- A list starts behind all tokens so far.
      obtain ⟨hposition, hlists⟩ := ih error
      refine ⟨hposition, fun seen lists ↦ ?_⟩
      have hnone : Forest (([] : List Token).map Token.lexeme) [] := .nil
      have hresult := hlists (seen ++ [.opening place]) (.opened lists hnone)
      rwa [List.append_assoc] at hresult
  | case3 => cases error
  | case4 => cases error
  | case5 _ _ _ place _ _ ih =>
      obtain ⟨hposition, hlists⟩ := ih error
      refine ⟨hposition, fun seen lists ↦ ?_⟩
      have hresult := hlists (seen ++ [.closing place]) lists.close
      rwa [List.append_assoc] at hresult
  | case6 _ place text _ _ hnode =>
      rcases atomNode_cases place text with ⟨node, -, hcase⟩ | hcase
      · rw [hcase] at hnode
        cases hnode
      · rw [hcase] at hnode
        cases hnode
        cases error
  | case7 => cases error
  | case8 place text _ node _ _ hnode ih =>
      obtain ⟨hposition, hlists⟩ := ih error
      refine ⟨hposition, fun seen lists ↦ ?_⟩
      have hatom : Forest ([Token.atom place text].map Token.lexeme) [node] :=
        .atom (denotes_of_atomNode hnode) .nil
      have hresult := hlists _ (lists.add hatom)
      rwa [List.append_assoc] at hresult

end OpenLists

end Reader

/-! ## The character of that token -/

namespace Token

/-- Cells behind which a scan that starts in `mode` is in no comment. -/
structure Clear (mode : Mode) (cells : List Cell) : Prop where
  /-- A comment among them has come to its end. -/
  ended : ∀ front semicolon body, cells = front ++ semicolon :: body → semicolon.char = ';' →
    ∃ feed ∈ body, feed.char = '\n'
  /-- So has the one that the scan starts in. -/
  left : mode = .comment → ∃ feed ∈ cells, feed.char = '\n'

/-- There is nothing to be in a comment. -/
theorem clear_nil {mode : Mode} (outside : mode ≠ .comment) : Clear mode [] where
  ended front _ _ split _ := by cases front <;> cases split
  left inside := absurd inside outside

/-- One cell more in front, which takes the scan from `mode` to `next`. -/
theorem Clear.cons {mode next : Mode} {cell : Cell} {cells : List Cell} (h : Clear next cells)
    (starts : cell.char = ';' → next = .comment)
    (stays : mode = .comment → cell.char = '\n' ∨ next = .comment) :
    Clear mode (cell :: cells) where
  ended front semicolon body split hsemicolon := by
    cases front with
    | nil =>
        obtain ⟨rfl, rfl⟩ := List.cons.inj split
        exact h.left (starts hsemicolon)
    | cons first front =>
        obtain ⟨-, hcells⟩ := List.cons.inj split
        exact h.ended front semicolon body hcells hsemicolon
  left inside := by
    rcases stays inside with hfeed | hcomment
    · exact ⟨cell, List.mem_cons_self, hfeed⟩
    · obtain ⟨feed, hmem, hfeed⟩ := h.left hcomment
      exact ⟨feed, List.mem_cons_of_mem _ hmem, hfeed⟩

/-- The cell of a token that opens a list, and what stands around it. -/
def OpenedBy (mode : Mode) (cells : List Cell) (opened : Position) (inner : List Token) : Prop :=
  ∃ before cell behind, cells = before ++ cell :: behind ∧ cell.char = '(' ∧
    cell.position = opened ∧ scan behind = inner ∧ Clear mode before

/-- One cell more in front. -/
theorem OpenedBy.cons {mode next : Mode} {cell : Cell} {cells : List Cell} {opened : Position}
    {inner : List Token} (h : OpenedBy next cells opened inner)
    (starts : cell.char = ';' → next = .comment)
    (stays : mode = .comment → cell.char = '\n' ∨ next = .comment) :
    OpenedBy mode (cell :: cells) opened inner := by
  obtain ⟨before, first, behind, rfl, hchar, hposition, hinner, hclear⟩ := h
  exact ⟨cell :: before, first, behind, rfl, hchar, hposition, hinner, hclear.cons starts stays⟩

/-- A token that opens a list stands at a parenthesis that is in no comment, and the tokens behind
it are those of the text behind this. -/
theorem openedBy_of_scanFrom {mode : Mode} {cells : List Cell} {opened : Position}
    {outer inner : List Token} (h : scanFrom mode cells = outer ++ .opening opened :: inner) :
    OpenedBy mode cells opened inner := by
  induction cells generalizing mode outer with
  | nil =>
      have hmem : Token.opening opened ∈ mode.finish := by
        rw [show mode.finish = _ from h]
        simp
      cases mode <;> simp [Mode.finish] at hmem
  | cons cell rest ih =>
      -- A comment or an atom apart, each character is looked at between tokens.
      have hbetween : ∀ {mode : Mode} {outer : List Token}, mode ≠ .comment →
          scanFrom .between (cell :: rest) = outer ++ .opening opened :: inner →
          OpenedBy mode (cell :: rest) opened inner := by
        intro mode outer hmode hscan
        have hstays : ∀ next, mode = .comment → cell.char = '\n' ∨ next = Mode.comment :=
          fun _ hcomment ↦ absurd hcomment hmode
        rw [scanFrom_between] at hscan
        split at hscan
        · next hatom =>
            refine (ih hscan).cons (fun hsemicolon ↦ ?_) (hstays _)
            rw [hsemicolon] at hatom
            cases hatom
        · split at hscan
          · next hopening =>
              have hstarts : cell.char = ';' → Mode.between = .comment := by
                rw [hopening]
                exact nofun
              cases outer with
              | nil =>
                  obtain ⟨hposition, hinner⟩ := List.cons.inj hscan
                  exact ⟨[], cell, rest, rfl, hopening, opening.inj hposition, hinner,
                    clear_nil hmode⟩
              | cons first outer => exact (ih (List.cons.inj hscan).2).cons hstarts (hstays _)
          · split at hscan
            · next hclosing =>
                have hstarts : cell.char = ';' → Mode.between = .comment := by
                  rw [hclosing]
                  exact nofun
                cases outer with
                | nil => cases hscan
                | cons first outer => exact (ih (List.cons.inj hscan).2).cons hstarts (hstays _)
            · split at hscan
              · exact (ih hscan).cons (fun _ ↦ rfl) (hstays _)
              · next hsemicolon =>
                  exact (ih hscan).cons (fun hchar ↦ absurd hchar hsemicolon) (hstays _)
      cases mode with
      | between => exact hbetween nofun h
      | comment =>
          rw [scanFrom_inComment] at h
          refine (ih h).cons (fun hsemicolon ↦ ?_) fun _ ↦ ?_
          · rw [hsemicolon]
            rfl
          · by_cases hfeed : cell.char = '\n'
            · exact .inl hfeed
            · exact .inr (if_neg hfeed)
      | atom position reversed =>
          rw [scanFrom_inAtom] at h
          split at h
          · next hatom =>
              refine (ih h).cons (fun hsemicolon ↦ ?_) nofun
              rw [hsemicolon] at hatom
              cases hatom
          · cases outer with
            | nil => cases h
            | cons first outer => exact hbetween nofun (List.cons.inj h).2

/-- The rune of that cell, in a text that the cells show. -/
theorem OpenedBy.split {mode : Mode} {cells : List Cell} {text : List Rune} {opened : Position}
    {inner : List Token} {nodes : List Node} (h : OpenedBy mode cells opened inner)
    (same : cells.map Cell.char = text.map Rune.readAs)
    (forest : Forest (inner.map Token.lexeme) nodes) :
    ∃ before behind lexemes, text = before ++ .char '(' :: behind ∧
      cells[before.length]?.map Cell.position = some opened ∧ ¬EndsInComment before ∧
      Lexes behind lexemes ∧ Forest lexemes nodes := by
  obtain ⟨front, cell, rest, rfl, hchar, hposition, rfl, hclear⟩ := h
  rw [List.map_append, List.map_cons] at same
  obtain ⟨before, other, rfl, hbefore, hother⟩ := List.map_eq_append_iff.mp same.symm
  obtain ⟨rune, behind, rfl, hrune, hbehind⟩ := List.map_eq_cons_iff.mp hother
  have hopening : rune = .char '(' :=
    (Rune.readAs_eq_iff (by decide) (by decide) (by decide)).mp (hrune.trans hchar)
  obtain ⟨lexemes, hlexes⟩ := exists_lexes behind
  have hlength : before.length = front.length := by
    rw [← List.length_map Rune.readAs, hbefore, List.length_map]
  refine ⟨before, behind, lexemes, by rw [hopening], ?_, ?_, hlexes, ?_⟩
  · rw [hlength, List.getElem?_append_right (Nat.le_refl _), Nat.sub_self]
    exact congrArg some hposition
  · rintro ⟨first, body, rfl, hbody⟩
    -- The comment would have ended before the parenthesis.
    rw [List.map_append, List.map_cons] at hbefore
    obtain ⟨cells, others, rfl, -, hothers⟩ := List.map_eq_append_iff.mp hbefore.symm
    obtain ⟨semicolon, inside, rfl, hsemicolon, hinside⟩ := List.map_eq_cons_iff.mp hothers
    obtain ⟨feed, hmem, hfeed⟩ := hclear.ended cells semicolon inside rfl hsemicolon
    have hread : feed.char ∈ body.map Rune.readAs := hinside ▸ List.mem_map_of_mem hmem
    obtain ⟨rune, hrune, hline⟩ := List.mem_map.mp hread
    rw [hfeed, Rune.readAs_eq_lineFeed] at hline
    exact hbody (hline ▸ hrune)
  · rwa [← hlexes.map_scan hbehind.symm]

end Token

/-! ## Queued sources -/

/-- A reader of queued sources reads the layout of these. -/
theorem Reader.ofSources_eq {sources : List Source} {last : Source}
    (ends : sources.getLast? = some last)
    (readable : ∀ source ∈ sources, source.failure? = none) :
    Reader.ofSources sources = .ofStream ⟨(Source.layout sources).map Report.cell,
      ⟨some last.title, Source.lineAfter last.text + 1, none⟩, none⟩ := by
  rw [← Queue.stream_ofSources ends readable]
  rfl

/-- Input that ends inside a list is reported at the innermost parenthesis that nothing closes, and
with the name of the last source; but with the line that would follow the last line of that source,
however it ends. -/
theorem unterminated_located {sources : List Source} {last : Source}
    (ends : sources.getLast? = some last)
    (readable : ∀ source ∈ sources, source.failure? = none) (count : Nat)
    {position opened : Position}
    (error : ((Reader.ofSources sources).after count).read.1 =
      .error (.unterminated position opened)) :
    position = ⟨some last.title, Source.lineAfter last.text + 1, none⟩ ∧
      Innermost sources opened := by
  obtain ⟨seen, tokens, htokens, hafter⟩ := (Reader.ofSources sources).after_cases count
  rw [hafter, Reader.ofSources_eq ends readable] at error
  obtain ⟨hposition, hlists⟩ := Reader.parse_unterminated error
  obtain ⟨outer, inner, nodes, hsplit, hforest⟩ := hlists seen (.none seen)
  rw [← htokens] at hsplit
  have hopened := Token.openedBy_of_scanFrom hsplit
  obtain ⟨before, behind, lexemes, htext, hcell, hcomment, hlexes, hforest⟩ :=
    hopened.split (Queue.stream_content (.ofSources sources)).1 hforest
  refine ⟨hposition, before, behind, lexemes, nodes, htext, ?_, hcomment, hlexes, hforest⟩
  rw [Queue.stream_ofSources ends readable, List.getElem?_map, Option.map_map] at hcell
  exact hcell

/-- The list is opened in the first source, behind a comment that has ended, and the input ends in
the second. -/
theorem unterminated_located_earlier :
    let sources : List Source :=
      [.named "a" (Rune.ofString ";(\n(f"), .named "b" (Rune.ofString "(1)\n2")]
    ((Reader.ofSources sources).after 0).read.1 =
        .error (.unterminated ⟨some "b", 3, none⟩ ⟨some "a", 2, some 1⟩) ∧
      Source.lineAfter (Rune.ofString "(1)\n2") = 2 ∧ Innermost sources ⟨some "a", 2, some 1⟩ := by
  intro sources
  have hreadable : ∀ source ∈ sources, source.failure? = none := by
    simp [sources, Source.named]
  have herror : ((Reader.ofSources sources).after 0).read.1 =
      .error (.unterminated ⟨some "b", 3, none⟩ ⟨some "a", 2, some 1⟩) := by
    rw [Reader.ofSources_eq rfl hreadable]
    decide +kernel
  exact ⟨herror, by decide +kernel, (unterminated_located rfl hreadable 0 herror).2⟩

/-- A source of one line: its end is reported on a second one. -/
theorem unterminated_beyond_last_line :
    let source := Source.named "b" (Rune.ofString "(")
    ∃ position opened, (Reader.ofSources [source]).read.1 = .error (.unterminated position opened) ∧
      Source.lineAfter source.text = 1 ∧ position.line = 2 := by
  intro source
  refine ⟨⟨some "b", 2, none⟩, ⟨some "b", 1, some 1⟩, ?_, by decide +kernel, rfl⟩
  have hreadable : ∀ other ∈ [source], other.failure? = none := by
    simp [source, Source.named]
  rw [Reader.ofSources_eq rfl hreadable]
  decide +kernel

end WordLisp
