import WordLisp.Text.Column

/-!
# Functions and their table

A compiler remembers the functions it has compiled, one under each name, in the order of their
entries.
-/

namespace WordLisp

/-- A function that has been compiled. -/
structure Function where
  name : String
  /-- The address of its first instruction. -/
  entry : Nat
  arity : Nat
  deriving DecidableEq, Repr

/-- A function as `name/arity@entry`. -/
def Function.render (function : Function) : String :=
  function.name ++ "/" ++ Text.decimal function.arity ++ "@" ++ Text.decimal function.entry

/-- The functions that can be called, in the order of their entries. -/
abbrev Table := List Function

namespace Table

/-- The function of a name. -/
def lookup? (table : Table) (name : String) : Option Function :=
  table.find? (·.name = name)

/-- The table without the function of a name. -/
def erase (table : Table) (name : String) : Table :=
  table.filter (·.name ≠ name)

/-- The table with a function put before the first one that has a later entry. -/
def insert (function : Function) : Table → Table
  | [] => [function]
  | other :: rest =>
      if function.entry < other.entry then function :: other :: rest
      else other :: insert function rest

/-- The table with a function under its name, in place of any other of that name. -/
def set (table : Table) (function : Function) : Table :=
  insert function (table.erase function.name)

/-- The table with what stood under a name before: a function, or none. -/
def restore (table : Table) (name : String) : Option Function → Table
  | some prior => table.set prior
  | none => table.erase name

end Table

end WordLisp
