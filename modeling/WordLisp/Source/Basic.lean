import WordLisp.Text.Rune

/-!
# Sources

A source is a text to be read, with the name under which positions in it are reported. Reading past
the end of its text is the end of the source, or the failure that the source ends in.
-/

namespace WordLisp

open Text (Rune)

/-- A text to be read. -/
structure Source where
  /-- The name of the source, if it has one. -/
  name? : Option String := none
  /-- What kind of source this is; it stands in for a missing name. -/
  kind : String := "source"
  /-- The text. -/
  text : List Rune
  /-- The failure after the last rune; without one the source just ends. -/
  failure? : Option String := none

namespace Source

/-- The name of a source, or a description of a source that has none. -/
def title (source : Source) : String :=
  match source.name? with
  | some name => name
  | none => "<unnamed " ++ source.kind ++ ">"

/-- A source with a name whose text can be read to its end. -/
def named (name : String) (text : List Rune) : Source :=
  { name? := some name, text }

end Source

end WordLisp
