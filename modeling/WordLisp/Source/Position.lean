import WordLisp.Text.Column

/-!
# Positions

A position says where in which source a character stands. Lines count from 1; the column counts the
characters of the line up to and including this one.
-/

namespace WordLisp

/-- A place in a source. The name and the column are shown only where they are given. -/
structure Position where
  source? : Option String
  line : Nat
  column? : Option Nat
  deriving DecidableEq, Repr

/-- A position as `name:line:column`, without the parts that are not given. -/
def Position.render (position : Position) : String :=
  (match position.source? with
    | some name => name ++ ":"
    | none => "") ++
  Text.decimal position.line ++
  (match position.column? with
    | some column => ":" ++ Text.decimal column
    | none => "")

end WordLisp
