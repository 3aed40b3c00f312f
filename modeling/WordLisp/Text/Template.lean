import WordLisp.Text.Column

/-!
# Message templates

A template is a text with places for arguments: `%v` takes any argument, `%s` a text, `%d` a number,
and `%%` is a percent sign. A template and arguments that do not fit each other are no failure: the
message then says what was wrong at that place.
-/

namespace WordLisp.Text

/-- An argument of a template. -/
inductive Argument where
  | text (value : String)
  | number (value : Int)

namespace Argument

/-- The text of the argument itself. -/
def render : Argument → String
  | .text value => value
  | .number value => integer value

/-- The argument with its type, as complaints show it. -/
def described : Argument → String
  | .text value => "string=" ++ value
  | .number value => "int=" ++ integer value

/-- Whether a place with this letter takes the argument. -/
def suits (letter : Char) : Argument → Bool
  | .text _ => letter == 'v' || letter == 's'
  | .number _ => letter == 'v' || letter == 'd'

end Argument

/-- The end of a message: a complaint about the arguments that found no place. -/
def surplus : List Argument → String
  | [] => ""
  | arguments => "%!(EXTRA " ++ ", ".intercalate (arguments.map Argument.described) ++ ")"

/-- Fill the places of a template in order. -/
def fill : List Char → List Argument → String
  | [], arguments => surplus arguments
  | ['%'], arguments => "%!(NOVERB)" ++ surplus arguments
  | '%' :: '%' :: rest, arguments => "%" ++ fill rest arguments
  | '%' :: letter :: rest, [] => "%!" ++ String.singleton letter ++ "(MISSING)" ++ fill rest []
  | '%' :: letter :: rest, argument :: arguments =>
      let place :=
        if argument.suits letter then argument.render
        else "%!" ++ String.singleton letter ++ "(" ++ argument.described ++ ")"
      place ++ fill rest arguments
  | c :: rest, arguments => String.singleton c ++ fill rest arguments

/-- The message of a template. Without arguments the template is the message, places and all. -/
def format (template : String) (arguments : List Argument) : String :=
  if arguments.isEmpty then template else fill template.toList arguments

end WordLisp.Text
