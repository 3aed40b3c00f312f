import WordLisp.Proofs.Text.Fields
import WordLisp.Proofs.Text.Row
import WordLisp.Wrapper.Method

/-!
# What is cut out of parameters

The text of some parameters is cut at every comma (`argumentsIn_append`), and each part is passed on
as its first word, or not at all if it is blank (`argument?_of_fields`, `argument?_eq_none_iff`).
Nothing that is passed on is empty or has a comma, so it can be told from the row in which it is
written (`row_inj`, `whole_argumentsIn`).
-/

namespace WordLisp.Wrapper

open Text (Rune Blank)

variable {text : List Rune}

/-! ## Commas -/

/-- The arguments that are cut out of the text of some parameters. -/
def argumentsIn (text : List Rune) : List String :=
  (splitCommas text).filterMap argument?

/-- What stands in front of the first comma of a text. -/
def untilComma (text : List Rune) : List Rune :=
  text.takeWhile (· ≠ .char ',')

/-- The arguments that are cut out of a text behind its first comma. -/
def spilled (text : List Rune) : List String :=
  argumentsIn (text.dropWhile (· ≠ .char ',')).tail

/-- To cut at every comma is to split there. -/
theorem splitCommas_eq (text : List Rune) : splitCommas text = text.splitOn (.char ',') := by
  induction text with
  | nil => rfl
  | cons rune text ih =>
      rw [splitCommas, List.splitOn_cons_eq_if_modifyHead, ← ih]
      by_cases hcomma : rune = .char ','
      · simp [hcomma]
      · rw [if_neg hcomma, if_neg (by simpa using hcomma)]
        cases hparts : splitCommas text with
        | nil => exact absurd (ih.symm.trans hparts) (List.splitOn_ne_nil _ _)
        | cons part parts => rfl

/-- A text is cut at a comma. -/
theorem argumentsIn_append (text rest : List Rune) :
    argumentsIn (text ++ .char ',' :: rest) = argumentsIn text ++ argumentsIn rest := by
  simp only [argumentsIn, splitCommas_eq, List.splitOn_append_cons_self, List.filterMap_append]

/-- A text without commas is not cut. -/
theorem argumentsIn_whole (whole : .char ',' ∉ text) :
    argumentsIn text = (argument? text).toList := by
  rw [argumentsIn, splitCommas_eq, List.splitOn_eq_singleton whole]
  cases h : argument? text <;> simp [h]

/-- No rune of a text without commas is one. -/
theorem forall_ne_comma (free : .char ',' ∉ text) :
    ∀ rune ∈ text, decide (rune ≠ .char ',') = true :=
  fun _ hrune ↦ decide_eq_true fun heq ↦ free (heq ▸ hrune)

/-- All of a text without commas stands in front of the first one. -/
theorem untilComma_append (free : .char ',' ∉ text) (rest : List Rune) :
    untilComma (text ++ rest) = text ++ untilComma rest :=
  List.takeWhile_append_of_pos (forall_ne_comma free)

/-- So it does not change what is cut out behind the first one. -/
theorem spilled_append (free : .char ',' ∉ text) (rest : List Rune) :
    spilled (text ++ rest) = spilled rest := by
  rw [spilled, List.dropWhile_append_of_pos (forall_ne_comma free), spilled]

/-- All of the text behind the first comma is cut. -/
theorem spilled_comma (free : .char ',' ∉ text) (rest : List Rune) :
    spilled (text ++ .char ',' :: rest) = argumentsIn rest := by
  rw [spilled_append free]
  simp [spilled]

/-- Without a comma nothing is cut out behind one. -/
theorem spilled_whole (free : .char ',' ∉ text) : spilled text = [] := by
  rw [← List.append_nil text, spilled_append free]
  rfl

/-- The first argument is cut out of what stands in front of the first comma. -/
theorem argumentsIn_eq (text : List Rune) :
    argumentsIn text = (argument? (untilComma text)).toList ++ spilled text := by
  by_cases hcomma : .char ',' ∈ text
  · obtain ⟨first, more, rfl, hfirst⟩ := List.eq_append_cons_of_mem hcomma
    rw [argumentsIn_append, argumentsIn_whole hfirst, untilComma_append hfirst,
      spilled_comma hfirst]
    simp [untilComma]
  · have huntil := untilComma_append hcomma []
    rw [List.append_nil] at huntil
    rw [argumentsIn_whole hcomma, huntil, spilled_whole hcomma]
    simp [untilComma]

/-- A text has no comma, or it is cut at one. -/
@[elab_as_elim]
theorem cut_induction {motive : List Rune → Prop} (text : List Rune)
    (whole : ∀ text, .char ',' ∉ text → motive text)
    (cut : ∀ first more, motive first → motive more → motive (first ++ .char ',' :: more)) :
    motive text := by
  induction hlength : text.length using Nat.strong_induction_on generalizing text with
  | h length ih =>
      by_cases hcomma : .char ',' ∈ text
      · obtain ⟨first, more, rfl, hfirst⟩ := List.eq_append_cons_of_mem hcomma
        refine cut first more (whole first hfirst) (ih more.length ?_ more rfl)
        rw [← hlength, List.length_append, List.length_cons]
        omega
      · exact whole text hcomma

/-! ## Arguments -/

/-- The mark of a variadic parameter, in front of its type, and of its argument, behind the name. -/
def ellipsis : List Rune :=
  Rune.ofString "..."

/-- The argument that passes on a parameter. -/
def passing (variadic : Bool) (name : String) : String :=
  if variadic then name ++ "..." else name

/-- What a text starts with it starts with up to where a condition fails, if all of it meets
that. -/
theorem isPrefixOf_takeWhile {p : Rune → Bool} {start : List Rune}
    (all : ∀ rune ∈ start, p rune) (text : List Rune) :
    start.isPrefixOf (text.takeWhile p) = start.isPrefixOf text := by
  rw [Bool.eq_iff_iff, List.isPrefixOf_iff_prefix, List.isPrefixOf_iff_prefix]
  constructor
  · exact fun h ↦ h.trans (List.takeWhile_prefix p)
  · rintro ⟨rest, rfl⟩
    rw [List.takeWhile_append_of_pos all]
    exact List.prefix_append _ _

/-- The mark of a variadic parameter has no blank and no comma. -/
theorem ellipsis_whole : ∀ rune ∈ ellipsis, rune.isSpace = false ∧ rune ≠ .char ',' := by
  decide

/-- An argument is the first word, and the second one tells whether it is variadic. -/
theorem argument?_of_fields {name : List Rune} {words : List (List Rune)}
    (h : Text.fields text = name :: words) :
    argument? text = some (passing (ellipsis.isPrefixOf (words.headD [])) (Rune.toText name)) := by
  rw [argument?, h]
  cases words with
  | nil => rfl
  | cons type words =>
      show some (Rune.toText name ++ if ellipsis.isPrefixOf type then "..." else "") =
        some (passing (ellipsis.isPrefixOf type) (Rune.toText name))
      cases ellipsis.isPrefixOf type with
      | false => exact congrArg some String.append_empty
      | true => rfl

/-- Only blanks are no argument. -/
theorem argument?_eq_none_iff : argument? text = none ↔ Blank text := by
  rw [← Text.fields_eq_nil_iff]
  cases hwords : Text.fields text with
  | nil => simp [argument?, hwords]
  | cons name words => simp [argument?_of_fields hwords]

/-- A text with a rune that is neither blank nor a comma has an argument. -/
theorem argumentsIn_ne_nil {rune : Rune} (h : rune ∈ text) (notBlank : rune.isSpace = false)
    (notComma : rune ≠ .char ',') : argumentsIn text ≠ [] := by
  induction text using cut_induction with
  | whole text hfree =>
      rw [argumentsIn_whole hfree]
      intro hnone
      have hblank : Blank text := argument?_eq_none_iff.mp (Option.toList_eq_nil_iff.mp hnone)
      rw [hblank rune h] at notBlank
      cases notBlank
  | cut first more hfirst hmore =>
      rw [argumentsIn_append]
      rcases List.mem_append.mp h with hmem | hmem
      · exact List.append_ne_nil_of_left_ne_nil (hfirst hmem) _
      · rcases List.mem_cons.mp hmem with hcomma | hmem
        · exact absurd hcomma notComma
        · exact List.append_ne_nil_of_right_ne_nil _ (hmore hmem)

/-! ## Rows of arguments -/

/-- Not empty, and without commas. -/
def Whole (text : String) : Prop :=
  text.toList ≠ [] ∧ ',' ∉ text.toList

/-- Such texts can be told from their row. -/
theorem row_inj {texts others : List String} (h : ∀ text ∈ texts, Whole text)
    (h' : ∀ text ∈ others, Whole text)
    (same : ", ".intercalate texts = ", ".intercalate others) : texts = others := by
  have hrow := congrArg String.toList same
  rw [String.toList_intercalate, String.toList_intercalate] at hrow
  have hlists := Text.intercalate_inj (List.forall_mem_map.mpr h) (List.forall_mem_map.mpr h') hrow
  exact (List.map_inj_right fun _ _ ↦ String.toList_inj.mp).mp hlists

/-- Runes other than commas make up a whole text. -/
theorem whole_toText {word : List Rune} (ne : word ≠ []) (free : .char ',' ∉ word) :
    Whole (Rune.toText word) := by
  rw [Whole, Rune.toText, String.toList_ofList]
  refine ⟨by simpa using ne, fun hcomma ↦ ?_⟩
  obtain ⟨rune, hrune, hchar⟩ := List.mem_map.mp hcomma
  cases rune with
  | char c =>
      cases hchar
      exact free hrune
  | stray byte => cases hchar

/-- What passes on a whole name is whole. -/
theorem Whole.passing {name : String} (h : Whole name) (variadic : Bool) :
    Whole (passing variadic name) := by
  cases variadic with
  | false => exact h
  | true =>
      show Whole (name ++ "...")
      rw [Whole, String.toList_append]
      refine ⟨List.append_ne_nil_of_left_ne_nil h.1 _, fun hcomma ↦ ?_⟩
      rcases List.mem_append.mp hcomma with hname | hdots
      · exact h.2 hname
      · exact absurd hdots (by decide)

/-- All arguments are whole. -/
theorem whole_argumentsIn (text : List Rune) : ∀ argument ∈ argumentsIn text, Whole argument := by
  induction text using cut_induction with
  | whole text hfree =>
      rw [argumentsIn_whole hfree]
      intro argument hargument
      cases hwords : Text.fields text with
      | nil => simp [argument?, hwords] at hargument
      | cons name words =>
          obtain ⟨hne, hpart⟩ := Text.mem_fields (hwords ▸ List.mem_cons_self)
          rw [argument?_of_fields hwords] at hargument
          cases List.mem_singleton.mp hargument
          exact (whole_toText hne fun hcomma ↦ hfree (hpart hcomma)).passing _
  | cut first more hfirst hmore =>
      rw [argumentsIn_append]
      exact List.forall_mem_append.mpr ⟨hfirst, hmore⟩

end WordLisp.Wrapper
