import WordLisp.Proofs.Node.Acceptance
import WordLisp.Proofs.Source.Queued

/-!
# Queued sources and the boundary between them

The boundary of two sources separates tokens, but it is no line feed, so it does not end a comment.
Sources that read without an error on their own read as one after the other
(`readAll_queued`), unless one of them ends in a comment: this one goes on into the next source
(`readAll_queued_comment`).
-/

namespace WordLisp

open Text (Rune)

/-- A text whose last line has a comment, which nothing has ended. -/
def EndsInComment (text : List Rune) : Prop :=
  ∃ before body, text = before ++ .char ';' :: body ∧ .char '\n' ∉ body

/-- What stands before it does not end a comment. -/
theorem EndsInComment.append {text : List Rune} (h : EndsInComment text) (front : List Rune) :
    EndsInComment (front ++ text) := by
  obtain ⟨before, body, rfl, hbody⟩ := h
  exact ⟨front ++ before, body, (List.append_assoc _ _ _).symm, hbody⟩

/-- A separator behind a text that does not end in a comment ends its lexemes. -/
theorem Lexes.append {text behind : List Rune} {lexemes others : List Lexeme} {rune : Rune}
    (h : Lexes text lexemes) (finished : ¬EndsInComment text) (separates : rune.Separates)
    (h' : Lexes behind others) : Lexes (text ++ rune :: behind) (lexemes ++ others) := by
  induction h with
  | nil => exact .separator separates h'
  | separator hseparates _ ih =>
      exact .separator hseparates (ih fun hends ↦ finished (hends.append [_]))
  | opening _ ih => exact .opening (ih fun hends ↦ finished (hends.append [_]))
  | closing _ ih => exact .closing (ih fun hends ↦ finished (hends.append [_]))
  | @comment body rest _ hbody hend _ ih =>
      cases rest with
      | nil => exact absurd ⟨[], body, by rw [List.append_nil]; rfl, hbody⟩ finished
      | cons feed rest =>
          rw [List.cons_append, List.append_assoc]
          exact .comment hbody hend
            (ih fun hends ↦ finished (hends.append (.char ';' :: body)))
  | @atom runes rest _ hne hrunes hend _ ih =>
      have hstop : ∀ first ∈ (rest ++ rune :: behind).head?, ¬first.InAtom := by
        cases rest with
        | nil =>
            rintro _ ⟨⟩ hatom
            exact hatom.1 separates
        | cons first rest => exact hend
      rw [List.append_assoc, List.cons_append]
      exact .atom hne hrunes hstop (ih fun hends ↦ finished (hends.append runes))

namespace Reader

/-- A reader reports the end only if its stream has not failed. -/
theorem parse_endOfInput {final : Position} {failure? : Option String} {frames : List Frame}
    {tokens : List Token}
    (ended : (parse final failure? frames tokens).1 = .error .endOfInput) : failure? = none := by
  fun_induction parse final failure? frames tokens with
  | case1 =>
      cases failure? with
      | none => rfl
      | some message => cases ended
  | case2 _ _ _ ih => exact ih ended
  | case3 => cases ended
  | case4 => cases ended
  | case5 _ _ _ _ _ _ ih => exact ih ended
  | case6 _ position text _ _ hnode =>
      rcases atomNode_cases position text with ⟨node, -, hcase⟩ | hcase
      · rw [hcase] at hnode
        cases hnode
      · rw [hcase] at hnode
        cases hnode
        cases ended
  | case7 => cases ended
  | case8 _ _ _ _ _ _ _ ih => exact ih ended

/-- Reading does not change how the stream ends. -/
theorem Reads.failure?_eq {reader last : Reader} {nodes : List Node}
    (h : reader.Reads nodes last) : last.failure? = reader.failure? := by
  induction h with
  | nil => rfl
  | cons hread _ ih =>
      have hnext := congrArg (·.2.failure?) hread
      exact ih.trans hnext.symm

/-- A stream that is read without an error has not failed. -/
theorem failure?_eq_none {reader : Reader} (clean : reader.readAll.2 = none) :
    reader.failure? = none := by
  obtain ⟨last, hreads, hlast⟩ := reader.reads_readAll
  rw [clean] at hlast
  rw [← hreads.failure?_eq]
  exact parse_endOfInput hlast

end Reader

/-- A source that is read without an error has lexemes that denote its expressions. -/
theorem Source.forest_of_clean {source : Source}
    (clean : (Reader.ofSource source).readAll.2 = none) :
    source.failure? = none ∧ ∃ lexemes, Lexes source.text lexemes ∧
      Forest lexemes (Reader.ofSource source).readAll.1 := by
  have hreadable := Reader.failure?_eq_none clean
  obtain ⟨lexemes, hlexes⟩ := exists_lexes source.text
  refine ⟨(source.failure?_streamFrom 1 0 source.text).symm.trans hreadable, lexemes, hlexes, ?_⟩
  exact (Reader.readAll_eq_none_iff hlexes.map_tokens_ofSource hreadable).mp (Prod.ext rfl clean)

/-- The lexemes of queued sources denote the expressions of one after the other. -/
theorem OpenSource.forest_ofSources {sources : List Source}
    (clean : ∀ source ∈ sources, (Reader.ofSource source).readAll.2 = none)
    (finished : ∀ source ∈ sources.dropLast, ¬EndsInComment source.text) :
    (ofSources sources).failure? = none ∧ ∃ lexemes, Lexes (ofSources sources).text lexemes ∧
      Forest lexemes (sources.flatMap fun source ↦ (Reader.ofSource source).readAll.1) := by
  induction sources with
  | nil => exact ⟨rfl, [], .nil, .nil⟩
  | cons source rest ih =>
      obtain ⟨hsource, hrest⟩ := List.forall_mem_cons.mp clean
      obtain ⟨hfailure, lexemes, hlexes, hforest⟩ := Source.forest_of_clean hsource
      cases rest with
      | nil =>
          refine ⟨hfailure, lexemes, hlexes, ?_⟩
          rwa [List.flatMap_singleton]
      | cons next rest =>
          rw [List.dropLast_cons_cons] at finished
          obtain ⟨hends, hothers⟩ := List.forall_mem_cons.mp finished
          obtain ⟨hbehind, others, hlexes', hforest'⟩ := ih hrest hothers
          rw [ofSources, hfailure, followedBy]
          refine ⟨hbehind, lexemes ++ others, ?_, hforest.append hforest'⟩
          exact hlexes.append hends (.inr rfl) hlexes'

/-- The tokens of queued sources are the lexemes of their texts. -/
theorem Lexes.map_tokens_ofSources {sources : List Source} {lexemes : List Lexeme}
    (h : Lexes (OpenSource.ofSources sources).text lexemes) :
    (Reader.ofSources sources).tokens.map Token.lexeme = lexemes :=
  h.map_scan (Queue.stream_content (.ofSources sources)).1

/-- A queue fails as one of its sources does. -/
theorem Reader.failure?_ofSources {sources : List Source}
    (readable : (OpenSource.ofSources sources).failure? = none) :
    (Reader.ofSources sources).failure? = none :=
  (Queue.stream_content (.ofSources sources)).2.trans readable

/-- Sources are independent of each other. If each is read without an error on its own, and none but
the last ends in a comment, then queued they are read without an error, as the expressions of one
after the other. -/
theorem readAll_queued {sources : List Source}
    (clean : ∀ source ∈ sources, (Reader.ofSource source).readAll.2 = none)
    (finished : ∀ source ∈ sources.dropLast, ¬EndsInComment source.text) :
    (Reader.ofSources sources).readAll =
      (sources.flatMap fun source ↦ (Reader.ofSource source).readAll.1, none) := by
  obtain ⟨hfailure, lexemes, hlexes, hforest⟩ := OpenSource.forest_ofSources clean finished
  exact Reader.readAll_complete hlexes.map_tokens_ofSources (Reader.failure?_ofSources hfailure)
    hforest

/-- Two numbers in two sources, and a comment at the very end. -/
theorem readAll_queued_numbers :
    (Reader.ofSources [.named "a" (Rune.ofString "12"), .named "b" (Rune.ofString "34;")]).readAll =
      ([.int 12, .int 34], none) := by
  have htwelve : Denotes ['1', '2'] (.int 12) :=
    .integer 12 (.plain ⟨nofun, List.all_eq_true.mp rfl⟩)
  have hthirtyFour : Denotes ['3', '4'] (.int 34) :=
    .integer 34 (.plain ⟨nofun, List.all_eq_true.mp rfl⟩)
  have hfirst : (Reader.ofSource (.named "a" (Rune.ofString "12"))).readAll =
      ([.int 12], none) := by
    refine Forest.readAll_ofSource (.atom htwelve .nil) ?_ rfl
    exact @Lexes.atom [.char '1', .char '2'] [] _ nofun (by decide) nofun .nil
  have hsecond : (Reader.ofSource (.named "b" (Rune.ofString "34;"))).readAll =
      ([.int 34], none) := by
    refine Forest.readAll_ofSource (.atom hthirtyFour .nil) ?_ rfl
    refine @Lexes.atom [.char '3', .char '4'] _ _ nofun (by decide) (by decide) ?_
    exact @Lexes.comment [] [] _ nofun nofun .nil
  rw [readAll_queued, List.flatMap_cons, List.flatMap_singleton, hfirst, hsecond]
  · rfl
  · refine List.forall_mem_cons.mpr ⟨?_, List.forall_mem_singleton.mpr ?_⟩
    · rw [hfirst]
    · rw [hsecond]
  · rintro source (_ | ⟨_, ⟨⟩⟩) ⟨before, body, htext, -⟩
    have hmem : .char ';' ∈ Rune.ofString "12" := by
      rw [show Rune.ofString "12" = _ from htext]
      simp
    revert hmem
    decide

/-- A comment at the end of a source goes on into the next one, whose number is not read. -/
theorem readAll_queued_comment :
    let sources : List Source :=
      [.named "a" (Rune.ofString "1 ; c"), .named "b" (Rune.ofString "2")]
    (∀ source ∈ sources, (Reader.ofSource source).readAll.2 = none) ∧
      (Reader.ofSources sources).readAll = ([.int 1], none) ∧
      sources.flatMap (fun source ↦ (Reader.ofSource source).readAll.1) = [.int 1, .int 2] := by
  intro sources
  have hone : Denotes ['1'] (.int 1) := .integer 1 (.plain ⟨nofun, List.all_eq_true.mp rfl⟩)
  have htwo : Denotes ['2'] (.int 2) := .integer 2 (.plain ⟨nofun, List.all_eq_true.mp rfl⟩)
  have hfirst : (Reader.ofSource (.named "a" (Rune.ofString "1 ; c"))).readAll =
      ([.int 1], none) := by
    refine Forest.readAll_ofSource (.atom hone .nil) ?_ rfl
    refine @Lexes.atom [.char '1'] _ _ nofun (by decide) (by decide) (.separator (by decide) ?_)
    exact @Lexes.comment [.char ' ', .char 'c'] [] _ (by decide) nofun .nil
  have hsecond : (Reader.ofSource (.named "b" (Rune.ofString "2"))).readAll =
      ([.int 2], none) := by
    refine Forest.readAll_ofSource (.atom htwo .nil) ?_ rfl
    exact @Lexes.atom [.char '2'] [] _ nofun (by decide) nofun .nil
  have hlexes : Lexes (OpenSource.ofSources sources).text [.atom ['1']] := by
    refine @Lexes.atom [.char '1'] _ _ nofun (by decide) (by decide) (.separator (by decide) ?_)
    exact @Lexes.comment [.char ' ', .char 'c', .char '\x00', .char '2'] [] _ (by decide) nofun .nil
  refine ⟨?_, ?_, ?_⟩
  · refine List.forall_mem_cons.mpr ⟨?_, List.forall_mem_singleton.mpr ?_⟩
    · rw [hfirst]
    · rw [hsecond]
  · exact Reader.readAll_complete hlexes.map_tokens_ofSources (Reader.failure?_ofSources rfl)
      (.atom hone .nil)
  · rw [List.flatMap_cons, List.flatMap_singleton, hfirst, hsecond]
    rfl

end WordLisp
