import WordLisp.Source.Stream
import WordLisp.Text.Space
import WordLisp.Word

/-!
# Tokens

The text of expressions is cut into parentheses and atoms. Blank space separates atoms, and so does
a comment, which runs from a semicolon to the end of the line. An atom is any maximal run of other
characters. `Token.scan` gives the tokens of a stream with the position of their first character.
-/

namespace WordLisp

/-- A token and where it starts. -/
inductive Token where
  | opening (position : Position)
  | closing (position : Position)
  | atom (position : Position) (text : List Char)

namespace Token

/-- Whether a character may be part of an atom. -/
def isAtomChar (c : Char) : Bool :=
  c != '(' && c != ')' && c != ';' && !Text.isSpace c

/-- What the characters before this one have begun. -/
inductive Mode where
  /-- Nothing: the next token is yet to start. -/
  | between
  /-- A comment. -/
  | comment
  /-- An atom that started at `position`, with its characters so far in reverse. -/
  | atom (position : Position) (reversed : List Char)

/-- The token that ends with a mode, if one does. -/
def Mode.finish : Mode → List Token
  | .atom position reversed => [.atom position reversed.reverse]
  | .between | .comment => []

/-- The tokens of the cells that follow what `mode` has begun. -/
def scanFrom (mode : Mode) : List Cell → List Token
  | [] => mode.finish
  | cell :: rest =>
      let c := cell.char
      match mode with
      | .comment => scanFrom (if c = '\n' then .between else .comment) rest
      | mode =>
          if isAtomChar c then
            match mode with
            | .atom position reversed => scanFrom (.atom position (c :: reversed)) rest
            | _ => scanFrom (.atom cell.position [c]) rest
          else if c = '(' then
            mode.finish ++ .opening cell.position :: scanFrom .between rest
          else if c = ')' then
            mode.finish ++ .closing cell.position :: scanFrom .between rest
          else if c = ';' then
            mode.finish ++ scanFrom .comment rest
          else
            mode.finish ++ scanFrom .between rest

/-- The tokens of a text. -/
def scan (cells : List Cell) : List Token :=
  scanFrom .between cells

/-- The value of a run of decimal digits. -/
def digitsValue (digits : List Char) : Nat :=
  digits.foldl (fun value c ↦ 10 * value + (c.toNat - '0'.toNat)) 0

/-- The value of a run of digits; the empty run and other characters have none. -/
def digits? (text : List Char) : Option Nat :=
  if !text.isEmpty && text.all Char.isDigit then some (digitsValue text) else none

/-- The integer an atom denotes: decimal digits, maybe after one sign. Other atoms are symbols. -/
def integer? : List Char → Option Int
  | '+' :: digits => (digits? digits).map fun n ↦ (n : Int)
  | '-' :: digits => (digits? digits).map fun n ↦ -(n : Int)
  | digits => (digits? digits).map fun n ↦ (n : Int)

end Token

end WordLisp
