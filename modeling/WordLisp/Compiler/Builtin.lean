import WordLisp.Compiler.Error

/-!
# Builtin forms

The forms that the language knows from the start, and how many operands each of them takes.
-/

namespace WordLisp

/-- The forms that the language knows from the start. -/
inductive Builtin where
  /-- An operator that takes exactly two operands. -/
  | binary (operator : Operator)
  /-- An operator that takes exactly one operand. -/
  | unary (operator : Operator)
  /-- An operator that joins any number of operands from the left; without any it is the unit. -/
  | fold (unit : Word) (operator : Operator)
  /-- An operator that joins operands from the left; a single operand is joined to the unit. -/
  | foldFrom (unit : Word) (operator : Operator)
  /-- A choice by a condition. -/
  | conditional
  /-- The definition of a function. -/
  | definition
  deriving DecidableEq, Repr

namespace Builtin

/-- Every builtin under its name, in the order of the names. -/
def all : List (String × Builtin) := [
    ("%", .foldFrom 1 .mod),
    ("*", .fold 1 .mul),
    ("+", .fold 0 .add),
    ("-", .foldFrom 0 .sub),
    ("/", .foldFrom 1 .div),
    ("/=", .binary .ne),
    ("<", .binary .lt),
    ("<=", .binary .le),
    ("=", .binary .eq),
    (">", .binary .gt),
    (">=", .binary .ge),
    ("and", .fold 1 .and),
    ("define", .definition),
    ("if", .conditional),
    ("not", .unary .not),
    ("or", .fold 0 .or)]

/-- The names of the builtins in order. -/
def names : List String :=
  all.map Prod.fst

/-- The builtin of a name. -/
def ofName? (name : String) : Option Builtin :=
  all.lookup name

/-- The builtin of a name is entered under it. -/
theorem mem_all_of_ofName? {name : String} {builtin : Builtin}
    (found : ofName? name = some builtin) : (name, builtin) ∈ all := by
  obtain ⟨before, after, hsplit, -⟩ := List.lookup_eq_some_iff.mp found
  rw [hsplit]
  simp

/-- Only one word stands for a definition. -/
theorem eq_define {word : String} (found : ofName? word = some .definition) :
    word = "define" := by
  have hall : ∀ entry ∈ all, entry.2 = .definition → entry.1 = "define" := by
    simp [all]
  exact hall (word, .definition) (mem_all_of_ofName? found) rfl

/-- The word that stands for a definition. -/
theorem ofName?_eq_definition_iff {word : String} :
    ofName? word = some .definition ↔ word = "define" :=
  ⟨eq_define, fun h ↦ h ▸ rfl⟩

/-- The name of a builtin is one of the names. -/
theorem mem_names_of_ofName? {name : String} {builtin : Builtin}
    (found : ofName? name = some builtin) : name ∈ names :=
  List.mem_map_of_mem (f := Prod.fst) (mem_all_of_ofName? found)

/-- A name has a builtin if it is one of the names. -/
theorem ofName?_eq_none_iff {name : String} : ofName? name = none ↔ name ∉ names := by
  rw [ofName?, List.lookup_eq_none_iff, names, List.mem_map]
  constructor
  · rintro h ⟨entry, hmem, rfl⟩
    exact absurd (h entry hmem) (by simp)
  · intro h entry hmem
    rw [bne_iff_ne]
    rintro rfl
    exact h ⟨entry, hmem, rfl⟩

/-- Why a form inside another one, or alone, may not have these operands, if it may not. A
definition may not stand there at all. -/
def refusal? (builtin : Builtin) (operands : Node) : Option CompileError :=
  match builtin with
  | .binary operator =>
      if operands.length = 2 then none else some (.operandCount operator.name 2 operands)
  | .unary operator =>
      if operands.length = 1 then none else some (.operandCount operator.name 1 operands)
  | .fold _ _ => none
  | .foldFrom _ _ => if operands.length = 0 then some .tooFewOperands else none
  | .conditional =>
      if operands.length = 3 then none else some (.operandCount "if" 3 operands)
  | .definition => some .nestedDefinition

end Builtin

end WordLisp
