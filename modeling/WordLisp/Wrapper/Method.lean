import WordLisp.Text.Space

/-!
# Builder methods

A builder is a Go type for test cases whose methods return the changed case, such as
`func (mt machineTestCase) withStart(addr int) machineTestCase {`. `Method.ofLine?` recognises the
line that such a method starts with, if its name starts with `with` or `expect`.
-/

namespace WordLisp.Wrapper

open Text (Rune)

/-- A builder method. -/
structure Method where
  /-- What its name starts with. -/
  kind : String
  /-- The rest of its name. -/
  what : String
  /-- Its parameters as they were written. -/
  parameters : List Rune

/-- Whether a rune may be part of an ASCII identifier. -/
def isWordRune : Rune → Bool
  | .char c => c.isAlphanum || c == '_'
  | .stray _ => false

/-- What follows `start` in a text that starts with it. -/
def after? (start : String) (text : List Rune) : Option (List Rune) :=
  if (Rune.ofString start).isPrefixOf text then some (text.drop start.length) else none

/-- An identifier at the start of a text, and what follows it. -/
def word? (text : List Rune) : Option (List Rune × List Rune) :=
  let word := text.takeWhile isWordRune
  if word.isEmpty then none else some (word, text.dropWhile isWordRune)

/-- What stands before the last occurrence of `mark` in a text. -/
def beforeLast? (mark : List Rune) : List Rune → Option (List Rune)
  | [] => if mark.isEmpty then some [] else none
  | rune :: rest =>
      match beforeLast? mark rest with
      | some before => some (rune :: before)
      | none => if mark.isPrefixOf (rune :: rest) then some [] else none

/-- The kind of a method and what follows it, if a text starts with one. -/
def kind? (text : List Rune) : Option (String × List Rune) :=
  ((after? "expect" text).map ("expect", ·)) <|> ((after? "with" text).map ("with", ·))

/-- The builder method of the type `caseType` that starts on a line, if one does. -/
def Method.ofLine? (caseType : String) (line : List Rune) : Option Method := do
  let receiver ← after? "func (" line
  let (_, afterReceiver) ← word? receiver
  let name ← after? (" " ++ caseType ++ ") ") afterReceiver
  let (kind, afterKind) ← kind? name
  let (what, afterName) ← word? afterKind
  let rest ← after? "(" afterName
  let parameters ← beforeLast? (Rune.ofString (") " ++ caseType ++ " \x7b")) rest
  return ⟨kind, Rune.toText what, parameters⟩

/-- A text cut at every comma. -/
def splitCommas : List Rune → List (List Rune)
  | [] => [[]]
  | rune :: rest =>
      if rune = .char ',' then
        [] :: splitCommas rest
      else
        match splitCommas rest with
        | part :: parts => (rune :: part) :: parts
        | [] => [[rune]]

/-- The argument that passes a parameter on, if there is one. The last parameter of a variadic
function stands for any number of arguments. -/
def argument? (parameter : List Rune) : Option String :=
  match Text.fields parameter with
  | [] => none
  | [name] => some (Rune.toText name)
  | name :: type :: _ =>
      let variadic := (Rune.ofString "...").isPrefixOf type
      some (Rune.toText name ++ if variadic then "..." else "")

/-- The arguments that pass all parameters on. -/
def Method.arguments (method : Method) : String :=
  ", ".intercalate ((splitCommas method.parameters).filterMap argument?)

end WordLisp.Wrapper
