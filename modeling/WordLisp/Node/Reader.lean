import WordLisp.Node.Basic
import WordLisp.Node.Token
import WordLisp.Text.RuneName

/-!
# Reading expressions

A reader takes expressions one by one off the tokens of a stream. The text must balance its
parentheses and name only integers that fit a word; the first offence is reported with its position.
A stray closing parenthesis stays where it is and is reported again; any other offence is passed, so
that reading may go on behind it. Once the tokens are used up, a reader reports the end of its
input, or the failure that its stream ended in, each time.
-/

namespace WordLisp

/-- Why no expression was read. -/
inductive ReadError where
  /-- There is no further expression. -/
  | endOfInput
  /-- A closing parenthesis without a list to close. -/
  | unexpectedClose (position : Position)
  /-- An integer that does not fit a word. -/
  | integerOutOfRange (position : Position) (text : String)
  /-- The input ended at `position` inside the list opened at `opened`. -/
  | unterminated (position opened : Position)
  /-- The text holds no expression at all. -/
  | noExpression (text : List Text.Rune)
  /-- The stream failed at `position`. -/
  | failed (position : Position) (message : String)
  deriving DecidableEq

namespace ReadError

/-- The kind of an error of the text or of the stream; the end of the input is neither. -/
def kind? : ReadError → Option String
  | .endOfInput => none
  | .unterminated .. => some "sexp.syntax.unterminated"
  | .failed .. => some "sexp.read"
  | .unexpectedClose .. | .integerOutOfRange .. | .noExpression .. => some "sexp.syntax"

/-- What happened, without the kind. -/
def detail : ReadError → String
  | .endOfInput => "EOF"
  | .unexpectedClose position =>
      position.render ++ ": unexpected " ++ Text.charName ')'
  | .integerOutOfRange position text =>
      position.render ++ ": integer " ++ text ++ " out of range"
  | .unterminated position opened =>
      position.render ++ ": ')' expected to close list opened at " ++ opened.render
  | .noExpression text => "no expression in " ++ Text.quoted text
  | .failed position message =>
      position.render ++ if message.isEmpty then "" else ", cause: " ++ message

/-- The message of an error: its kind, then what happened. -/
def message (error : ReadError) : String :=
  match error.kind? with
  | some kind => kind ++ ": " ++ error.detail
  | none => error.detail

/-- Whether the input only ended too soon, so that more of it could mend the error. -/
def isIncomplete : ReadError → Bool
  | .unterminated .. => true
  | _ => false

end ReadError

/-- What is left to read. -/
structure Reader where
  tokens : List Token
  final : Position
  failure? : Option String

namespace Reader

/-- The reader of a stream. -/
def ofStream (stream : Stream) : Reader where
  tokens := Token.scan stream.cells
  final := stream.final
  failure? := stream.failure?

/-- The reader of one source. -/
def ofSource (source : Source) : Reader :=
  ofStream source.stream

/-- The reader of sources queued one after the other. -/
def ofSources (sources : List Source) : Reader :=
  ofStream (Queue.ofSources sources).stream

/-- The reader of a text without a name. -/
def ofText (text : List Text.Rune) : Reader :=
  ofSource { text }

/-- A list that is still open: where it started, and its nodes so far in reverse. -/
structure Frame where
  opened : Position
  reversed : List Node

/-- The node an atom denotes. -/
def atomNode (position : Position) (text : List Char) : Except ReadError Node :=
  match Token.integer? text with
  | none => .ok (.symbol (String.ofList text))
  | some n =>
      match Word.ofInt? n with
      | some word => .ok (.int word)
      | none => .error (.integerOutOfRange position (String.ofList text))

/-- Why the input may not end here, with these lists open. -/
def endError (final : Position) (failure? : Option String) (frames : List Frame) : ReadError :=
  match failure?, frames with
  | some message, _ => .failed final message
  | none, frame :: _ => .unterminated final frame.opened
  | none, [] => .endOfInput

/-- Read one expression from the tokens, inside the lists that are open, innermost first. The tokens
that were not used come back. -/
def parse (final : Position) (failure? : Option String) :
    List Frame → List Token → Except ReadError Node × List Token
  | frames, [] => (.error (endError final failure? frames), [])
  | frames, .opening position :: rest => parse final failure? (⟨position, []⟩ :: frames) rest
  | [], .closing position :: rest =>
      (.error (.unexpectedClose position), .closing position :: rest)
  | [frame], .closing _ :: rest => (.ok (.ofList frame.reversed.reverse), rest)
  | frame :: outer :: frames, .closing _ :: rest =>
      let node := Node.ofList frame.reversed.reverse
      parse final failure? ({ outer with reversed := node :: outer.reversed } :: frames) rest
  | frames, .atom position text :: rest =>
      match atomNode position text, frames with
      | .error error, _ => (.error error, rest)
      | .ok node, [] => (.ok node, rest)
      | .ok node, frame :: frames =>
          parse final failure? ({ frame with reversed := node :: frame.reversed } :: frames) rest

/-- Read the next expression. -/
def read (reader : Reader) : Except ReadError Node × Reader :=
  let (result, tokens) := parse reader.final reader.failure? [] reader.tokens
  (result, { reader with tokens })

/-- An expression that was read used up at least one token. -/
theorem length_parse_lt {final : Position} {failure? : Option String} {node : Node}
    (frames : List Frame) (tokens : List Token)
    (h : (parse final failure? frames tokens).1 = .ok node) :
    (parse final failure? frames tokens).2.length < tokens.length := by
  fun_induction parse final failure? frames tokens <;> simp_all <;> omega

/-- Reading an expression leaves fewer tokens. -/
theorem length_read_lt (reader : Reader) (node : Node) (h : reader.read.1 = .ok node) :
    reader.read.2.tokens.length < reader.tokens.length :=
  length_parse_lt [] reader.tokens h

/-- Read until the first error. The end of the input is none. -/
def readAll (reader : Reader) : List Node × Option ReadError :=
  match reader.read, reader.length_read_lt with
  | (.ok node, rest), progress =>
      have : rest.tokens.length < reader.tokens.length := progress node rfl
      let (nodes, error?) := rest.readAll
      (node :: nodes, error?)
  | (.error .endOfInput, _), _ => ([], none)
  | (.error error, _), _ => ([], some error)
termination_by reader.tokens.length

end Reader

/-- Read the first expression of a text. -/
def Node.parse (text : List Text.Rune) : Except ReadError Node :=
  match (Reader.ofText text).read.1 with
  | .error .endOfInput => .error (.noExpression text)
  | result => result

end WordLisp
