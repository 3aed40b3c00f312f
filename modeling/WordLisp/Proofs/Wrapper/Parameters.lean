import Mathlib.Algebra.BigOperators.Group.List.Basic
import WordLisp.Proofs.Wrapper.Arguments
import WordLisp.Proofs.Wrapper.Declaration

/-!
# Parameters are passed on by their names

A parameter list declares names in groups, each with one type behind it (`Declares`). A type may
have commas inside of its brackets, and the text of the list is cut there too: what comes out are
the names of each group and, behind them, what its type spills (`Declares.argumentsIn_eq`). A type
with a comma always spills, since a bracket is closed behind the comma
(`IsType.spilled_eq_nil_iff`). So just the names are passed on exactly if no type has a comma
(`arguments_pass_on`).
-/

namespace WordLisp.Wrapper

open Text (Rune Blank)

variable {text rest : List Rune}

/-! ## Types -/

/-- The bracket that closes what a rune opens. -/
def closing? : Rune → Option Rune
  | .char '(' => some (.char ')')
  | .char '[' => some (.char ']')
  | .char '\x7b' => some (.char '\x7d')
  | _ => none

/-- The brackets that close others. -/
def closings : List Rune :=
  [.char ')', .char ']', .char '\x7d']

/-- Whether all brackets in a text are closed, the innermost first, and then those of `pending`, and
no comma stands outside of brackets. -/
def isBalanced : List Rune → List Rune → Bool
  | pending, [] => pending.isEmpty
  | pending, rune :: rest =>
      match closing? rune, pending with
      | some close, _ => isBalanced (close :: pending) rest
      | none, [] => rune ∉ closings && rune ≠ .char ',' && isBalanced [] rest
      | none, close :: outer =>
          if rune = close then isBalanced outer rest
          else rune ∉ closings && isBalanced pending rest

/-- What closes a bracket is one of those that close. -/
theorem mem_closings {rune close : Rune} (h : closing? rune = some close) : close ∈ closings := by
  unfold closing? at h
  split at h <;> simp_all [closings]

/-- The brackets that are still to be closed are closed in the text. -/
theorem subset_of_isBalanced {pending : List Rune} (h : isBalanced pending text) :
    pending ⊆ text := by
  fun_induction isBalanced pending text with
  | case1 pending =>
      rw [List.isEmpty_iff.mp h]
      exact List.Subset.refl _
  | case2 pending rune rest close _ ih =>
      exact List.subset_cons_of_subset _ (List.Subset.trans (List.subset_cons_self _ _) (ih h))
  | case3 => exact List.nil_subset _
  | case4 rest close outer _ ih => exact List.cons_subset_cons _ (ih h)
  | case5 rune rest close outer _ _ ih =>
      exact List.subset_cons_of_subset _ (ih (Bool.and_eq_true_iff.mp h).2)

/-- Behind a rune other brackets are to be closed, and the rest of the text closes them. -/
theorem isBalanced_cons {pending : List Rune} {rune : Rune} (known : pending ⊆ closings)
    (h : isBalanced pending (rune :: rest)) :
    ∃ later, later ⊆ closings ∧ isBalanced later rest := by
  unfold isBalanced at h
  split at h
  · next close _ hopen => exact ⟨_, List.cons_subset.mpr ⟨mem_closings hopen, known⟩, h⟩
  · exact ⟨_, known, (Bool.and_eq_true_iff.mp h).2⟩
  · split at h
    · exact ⟨_, (List.cons_subset.mp known).2, h⟩
    · exact ⟨_, known, (Bool.and_eq_true_iff.mp h).2⟩

/-- So it is behind any runes. -/
theorem isBalanced_append {pending : List Rune} (known : pending ⊆ closings)
    (h : isBalanced pending (text ++ rest)) :
    ∃ later, later ⊆ closings ∧ isBalanced later rest := by
  induction text generalizing pending with
  | nil => exact ⟨pending, known, h⟩
  | cons rune text ih =>
      obtain ⟨later, hlater, hrest⟩ := isBalanced_cons known h
      exact ih hlater hrest

/-- Behind a comma a bracket is closed. -/
theorem exists_closing (h : isBalanced [] (text ++ .char ',' :: rest)) :
    ∃ close ∈ closings, close ∈ rest := by
  obtain ⟨pending, hknown, hcomma⟩ := isBalanced_append (List.nil_subset _) h
  cases pending with
  | nil => simp [isBalanced, closing?] at hcomma
  | cons close outer =>
      have hclose : close ∈ closings := hknown List.mem_cons_self
      have hne : .char ',' ≠ close := fun heq ↦ absurd (heq ▸ hclose) (by decide)
      have hrest : isBalanced (close :: outer) rest := by
        simpa [isBalanced, closing?, hne, closings] using hcomma
      exact ⟨close, hclose, subset_of_isBalanced hrest List.mem_cons_self⟩

/-- A type of a parameter, with any blanks behind it. All commas in it stand inside of brackets. -/
structure IsType (type : List Rune) : Prop where
  balanced : isBalanced [] type
  starts : ∃ rune ∈ type.head?, rune.isSpace = false
  single : ellipsis.isPrefixOf type = false

instance (type : List Rune) : Decidable (IsType type) :=
  decidable_of_iff (isBalanced [] type ∧ (∃ rune ∈ type.head?, rune.isSpace = false) ∧
      ellipsis.isPrefixOf type = false)
    ⟨fun ⟨h, h', h''⟩ ↦ ⟨h, h', h''⟩, fun h ↦ ⟨h.balanced, h.starts, h.single⟩⟩

/-- A type does not start with a comma. -/
theorem IsType.exists_first {type : List Rune} (h : IsType type) :
    ∃ rune ∈ type.head?, rune.isSpace = false ∧ rune ≠ .char ',' := by
  obtain ⟨rune, hrune, hblank⟩ := h.starts
  refine ⟨rune, hrune, hblank, ?_⟩
  rintro rfl
  obtain ⟨rest, rfl⟩ := List.head?_eq_some_iff.mp hrune
  have hcomma := h.balanced
  simp [isBalanced, closing?] at hcomma

/-- A type with a comma spills: the bracket that is closed behind the comma is in an argument. -/
theorem IsType.spilled_eq_nil_iff {type : List Rune} (h : IsType type) :
    spilled type = [] ↔ .char ',' ∉ type := by
  constructor
  · intro hnone hcomma
    obtain ⟨first, more, rfl, hfirst⟩ := List.eq_append_cons_of_mem hcomma
    obtain ⟨close, hclose, hmem⟩ := exists_closing h.balanced
    have hplain : ∀ close ∈ closings, close.isSpace = false ∧ close ≠ .char ',' := by decide
    obtain ⟨hblank, hne⟩ := hplain close hclose
    rw [spilled_comma hfirst] at hnone
    exact argumentsIn_ne_nil hmem hblank hne hnone
  · exact spilled_whole

/-! ## Parameter lists -/

/-- A name of a parameter: a word without commas, such as an identifier. -/
def IsName (name : String) : Prop :=
  name ≠ "" ∧ ∀ rune ∈ Rune.ofString name, rune.isSpace = false ∧ rune ≠ .char ','

instance (name : String) : Decidable (IsName name) :=
  inferInstanceAs (Decidable (_ ∧ _))

/-- Parameters that share a type. -/
structure Group where
  names : List String
  type : List Rune
  /-- Whether the parameter stands for any number of arguments. -/
  variadic : Bool

/-- The arguments that pass on the parameters of a group. -/
def Group.arguments (group : Group) : List String :=
  group.names.map (passing group.variadic)

/-- The text of a group: names with commas between them, and behind blanks the type of all. A
variadic parameter is the only one of its group. -/
inductive Group.Written : List Rune → Group → Prop where
  | typed {before between type : List Rune} {name : String} :
      Blank before → IsName name → Blank between → between ≠ [] → IsType type →
      Written (before ++ (Rune.ofString name ++ between) ++ type) ⟨[name], type, false⟩
  | variadic {before between gap type : List Rune} {name : String} :
      Blank before → IsName name → Blank between → between ≠ [] → Blank gap → IsType type →
      Written (before ++ (Rune.ofString name ++ between) ++ (ellipsis ++ (gap ++ type)))
        ⟨[name], type, true⟩
  | cons {before after rest type : List Rune} {name : String} {names : List String} :
      Blank before → IsName name → Blank after → Written rest ⟨names, type, false⟩ →
      Written (before ++ (Rune.ofString name ++ after) ++ .char ',' :: rest)
        ⟨name :: names, type, false⟩

/-- The text of a parameter list: groups with commas between them, and maybe a comma behind the last
one. Only the last group may be variadic. -/
inductive Declares : List Rune → List Group → Prop where
  | nil {text : List Rune} : Blank text → Declares text []
  | last {text : List Rune} {group : Group} : group.Written text → Declares text [group]
  | cons {text rest : List Rune} {group : Group} {groups : List Group} :
      group.Written text → (group.variadic → groups = []) → Declares rest groups →
      Declares (text ++ .char ',' :: rest) (group :: groups)

/-! ## What is passed on -/

variable {before between after : List Rune} {name : String}

/-- Blanks have no comma. -/
theorem comma_not_mem_blank (h : Blank text) : .char ',' ∉ text :=
  fun hmem ↦ absurd (h _ hmem) (by decide)

/-- A name between blanks has no comma. -/
theorem IsName.comma_not_mem (h : IsName name) (hbefore : Blank before) (hafter : Blank after) :
    .char ',' ∉ before ++ (Rune.ofString name ++ after) := by
  have hname : .char ',' ∉ Rune.ofString name := fun hmem ↦ (h.2 _ hmem).2 rfl
  simp [comma_not_mem_blank hbefore, hname, comma_not_mem_blank hafter]

/-- The first word of a parameter is its name. -/
theorem IsName.fields_append (h : IsName name) (hbefore : Blank before)
    (stop : ∀ rune ∈ rest.head?, rune.isSpace) :
    Text.fields (before ++ (Rune.ofString name ++ rest)) =
      Rune.ofString name :: Text.fields rest := by
  have hne : Rune.ofString name ≠ [] := by
    simpa [Rune.ofString] using h.1
  rw [Text.fields_blank_append hbefore,
    Text.fields_word_append hne (fun rune hrune ↦ (h.2 rune hrune).1) stop]

/-- A name alone is passed on. -/
theorem argumentsIn_name (hbefore : Blank before) (hname : IsName name) (hafter : Blank after) :
    argumentsIn (before ++ (Rune.ofString name ++ after)) = [name] := by
  have hstop : ∀ rune ∈ after.head?, rune.isSpace :=
    fun rune hrune ↦ hafter rune (List.mem_of_mem_head? hrune)
  have hfields := hname.fields_append hbefore hstop
  rw [argumentsIn_whole (hname.comma_not_mem hbefore hafter), argument?_of_fields hfields,
    Text.fields_blank hafter, Rune.toText_ofString]
  rfl

/-- A name in front of a type is passed on, and then what the type spills. -/
theorem argumentsIn_typed {written : List Rune} (hbefore : Blank before) (hname : IsName name)
    (hbetween : Blank between) (gap : between ≠ [])
    (starts : ∃ rune ∈ written.head?, rune.isSpace = false ∧ rune ≠ .char ',') :
    argumentsIn (before ++ (Rune.ofString name ++ between) ++ written) =
      passing (ellipsis.isPrefixOf written) name :: spilled written := by
  obtain ⟨first, hfirst, hblank, hcomma⟩ := starts
  obtain ⟨more, rfl⟩ := List.head?_eq_some_iff.mp hfirst
  have hfree := hname.comma_not_mem hbefore hbetween
  have huntil : untilComma (first :: more) = first :: untilComma more :=
    List.takeWhile_cons_of_pos (decide_eq_true hcomma)
  have hstop : ∀ rune ∈ (between ++ untilComma (first :: more)).head?, rune.isSpace := by
    obtain ⟨blank, blanks, rfl⟩ := List.exists_cons_of_ne_nil gap
    rintro _ ⟨⟩
    exact hbetween _ List.mem_cons_self
  -- The second word starts the type, and the mark is short enough to be seen in it.
  have hfields := hname.fields_append hbefore hstop
  rw [Text.fields_blank_append hbetween, huntil, Text.fields_cons_word hblank, ← huntil,
    ← List.append_assoc, ← List.append_assoc, List.append_assoc before] at hfields
  have hmark : ellipsis.isPrefixOf ((untilComma (first :: more)).takeWhile (!·.isSpace)) =
      ellipsis.isPrefixOf (first :: more) := by
    rw [isPrefixOf_takeWhile fun rune hrune ↦ by simp [(ellipsis_whole rune hrune).1]]
    exact isPrefixOf_takeWhile (fun rune hrune ↦ decide_eq_true (ellipsis_whole rune hrune).2) _
  rw [argumentsIn_eq, untilComma_append hfree, spilled_append hfree, argument?_of_fields hfields,
    List.headD_cons, hmark, Rune.toText_ofString]
  rfl

/-- A group is passed on, and then what its type spills. -/
theorem Group.Written.argumentsIn_eq {group : Group} (h : group.Written text) :
    argumentsIn text = group.arguments ++ spilled group.type := by
  induction h with
  | typed hbefore hname hbetween gap htype =>
      rw [argumentsIn_typed hbefore hname hbetween gap htype.exists_first, htype.single]
      rfl
  | @variadic before between gap type name hbefore hname hbetween hne hgap htype =>
      have hfree : .char ',' ∉ ellipsis := fun hmem ↦ (ellipsis_whole _ hmem).2 rfl
      have hmark : ellipsis.isPrefixOf (ellipsis ++ (gap ++ type)) = true :=
        List.isPrefixOf_iff_prefix.mpr (List.prefix_append _ _)
      rw [argumentsIn_typed hbefore hname hbetween hne ⟨.char '.', rfl, by decide⟩, hmark,
        spilled_append hfree, spilled_append (comma_not_mem_blank hgap)]
      rfl
  | cons hbefore hname hafter _ ih =>
      rw [argumentsIn_append, argumentsIn_name hbefore hname hafter, ih]
      rfl

/-- The type of a group is one. -/
theorem Group.Written.isType {group : Group} (h : group.Written text) : IsType group.type := by
  induction h with
  | typed _ _ _ _ htype => exact htype
  | variadic _ _ _ _ _ htype => exact htype
  | cons _ _ _ _ ih => exact ih

namespace Declares

variable {groups : List Group}

/-- What is cut out of a parameter list: all names, and behind those of each group what its type
spills. -/
theorem argumentsIn_eq (h : Declares text groups) :
    argumentsIn text = groups.flatMap fun group ↦ group.arguments ++ spilled group.type := by
  induction h with
  | nil hblank =>
      rw [argumentsIn_whole (comma_not_mem_blank hblank), argument?_eq_none_iff.mpr hblank]
      rfl
  | last hwritten => rw [hwritten.argumentsIn_eq, List.flatMap_singleton]
  | cons hwritten _ _ ih => rw [argumentsIn_append, hwritten.argumentsIn_eq, ih, List.flatMap_cons]

/-- The types of all groups are types. -/
theorem isType (h : Declares text groups) : ∀ group ∈ groups, IsType group.type := by
  induction h with
  | nil => exact List.forall_mem_nil _
  | last hwritten => exact List.forall_mem_singleton.mpr hwritten.isType
  | cons hwritten _ _ ih => exact List.forall_mem_cons.mpr ⟨hwritten.isType, ih⟩

/-- Just the names are cut out of a parameter list exactly if no type has a comma. -/
theorem argumentsIn_eq_iff (h : Declares text groups) :
    argumentsIn text = groups.flatMap Group.arguments ↔
      ∀ group ∈ groups, .char ',' ∉ group.type := by
  have hspilled : ∀ group ∈ groups, spilled group.type = [] ↔ .char ',' ∉ group.type :=
    fun group hgroup ↦ (h.isType group hgroup).spilled_eq_nil_iff
  rw [h.argumentsIn_eq]
  constructor
  · intro hsame group hgroup
    have hlength := congrArg List.length hsame
    simp only [List.length_flatMap, List.length_append, List.sum_map_add] at hlength
    have hsum : (groups.map fun group ↦ (spilled group.type).length).sum = 0 :=
      Nat.add_eq_left.mp hlength
    have hnone := List.sum_eq_zero_iff_forall_eq_nat.mp hsum _ (List.mem_map_of_mem hgroup)
    exact (hspilled group hgroup).mp (List.eq_nil_of_length_eq_zero hnone)
  · intro hfree
    refine List.flatMap_congr fun group hgroup ↦ ?_
    rw [(hspilled group hgroup).mpr (hfree group hgroup), List.append_nil]

end Declares

/-- A wrapper passes on exactly the names of its parameters, in order and each variadic one with its
mark, if and only if no comma stands inside of a type. -/
theorem arguments_pass_on {method : Method} {groups : List Group}
    (declared : Declares method.parameters groups) :
    method.arguments = ", ".intercalate (groups.flatMap Group.arguments) ↔
      ∀ group ∈ groups, .char ',' ∉ group.type := by
  rw [← declared.argumentsIn_eq_iff]
  constructor
  · intro hsame
    refine row_inj (whole_argumentsIn _) ?_ hsame
    intro argument hargument
    -- The names are among the arguments that are cut out, and these are whole.
    obtain ⟨group, hgroup, hname⟩ := List.mem_flatMap.mp hargument
    refine whole_argumentsIn method.parameters argument ?_
    rw [declared.argumentsIn_eq]
    exact List.mem_flatMap.mpr ⟨group, hgroup, List.mem_append_left _ hname⟩
  · intro hsame
    exact congrArg (", ".intercalate ·) hsame

/-- Two names that share a type, a function without commas in its type, and a variadic parameter. -/
theorem arguments_pass_on_hooks :
    let parameters := Rune.ofString "a, b int, hook func(int) error, rest ...string"
    let method : Method := ⟨"with", "Hooks", parameters⟩
    let groups : List Group :=
      [⟨["a", "b"], Rune.ofString "int", false⟩,
        ⟨["hook"], Rune.ofString "func(int) error", false⟩,
        ⟨["rest"], Rune.ofString "string", true⟩]
    Method.ofLine? "vmTestCase" (declaration "vmTestCase" "vt" "with" "Hooks" parameters) =
        some method ∧
      Declares parameters groups ∧ method.arguments = "a, b, hook, rest..." := by
  intro parameters method groups
  have hnil : Blank [] := List.forall_mem_nil _
  have hgap : Blank (Rune.ofString " ") := by decide
  have hshared : Group.Written (Rune.ofString "a, b int")
      ⟨["a", "b"], Rune.ofString "int", false⟩ :=
    .cons hnil (show IsName "a" by decide) hnil
      (.typed hgap (show IsName "b" by decide) hgap (by decide) (by decide))
  have hhook : Group.Written (Rune.ofString " hook func(int) error")
      ⟨["hook"], Rune.ofString "func(int) error", false⟩ :=
    .typed hgap (show IsName "hook" by decide) hgap (by decide) (by decide)
  have hrest : Group.Written (Rune.ofString " rest ...string")
      ⟨["rest"], Rune.ofString "string", true⟩ :=
    .variadic hgap (show IsName "rest" by decide) hgap (by decide) hnil (by decide)
  have hdeclared : Declares method.parameters groups :=
    .cons hshared (by decide) (.cons hhook (by decide) (.last hrest))
  have hline := Method.ofLine?_declaration "vmTestCase" (show IsIdentifier "vt" by decide)
    (.inr rfl) (show IsIdentifier "Hooks" by decide) parameters
  have hfree : ∀ group ∈ groups, .char ',' ∉ group.type := by decide
  exact ⟨hline, hdeclared, (arguments_pass_on hdeclared).mpr hfree⟩

/-- The type of a function with two parameters is cut at their comma, and the second piece is taken
for another argument. -/
theorem arguments_pass_on_commas :
    let parameters := Rune.ofString "hook func(int, string) error"
    let method : Method := ⟨"with", "Hook", parameters⟩
    let groups : List Group := [⟨["hook"], Rune.ofString "func(int, string) error", false⟩]
    Method.ofLine? "vmTestCase" (declaration "vmTestCase" "vt" "with" "Hook" parameters) =
        some method ∧
      Declares parameters groups ∧
      ", ".intercalate (groups.flatMap Group.arguments) = "hook" ∧
      method.arguments = "hook, string)" := by
  intro parameters method groups
  have hnil : Blank [] := List.forall_mem_nil _
  have hgap : Blank (Rune.ofString " ") := by decide
  have hdeclared : Declares parameters groups :=
    .last (.typed hnil (show IsName "hook" by decide) hgap (by decide) (by decide))
  have hline := Method.ofLine?_declaration "vmTestCase" (show IsIdentifier "vt" by decide)
    (.inr rfl) (show IsIdentifier "Hook" by decide) parameters
  exact ⟨hline, hdeclared, rfl, by decide⟩

end WordLisp.Wrapper
