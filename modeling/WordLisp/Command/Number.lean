import WordLisp.Word

/-!
# Numbers on the command line

An integer is written with an optional sign and in base 10, or after `0x`, `0o` or `0`, and `0b` in
base 16, 8 and 2. Single underscores may stand between digits, and between the base and the first
digit. An integer that does not fit a signed word is out of range; that is found at the digit that
makes it so, before anything wrong behind it.
-/

namespace WordLisp.Command

/-- Why a value of an option is refused. -/
inductive ValueError where
  | malformed
  | outOfRange
  deriving DecidableEq

/-- The message of a refused value. -/
def ValueError.message : ValueError → String
  | .malformed => "parse error"
  | .outOfRange => "value out of range"

/-- The value of a digit or letter, up to base 36. -/
def digitValue? (c : Char) : Option Nat :=
  if c.isDigit then some (c.toNat - '0'.toNat)
  else if c.isAlpha then some (c.toLower.toNat - 'a'.toNat + 10)
  else none

/-- The base of a numeral without sign, and its digits. -/
def base : List Char → Nat × List Char
  | '0' :: letter :: digit :: rest =>
      match letter.toLower with
      | 'b' => (2, digit :: rest)
      | 'o' => (8, digit :: rest)
      | 'x' => (16, digit :: rest)
      | _ => (8, letter :: digit :: rest)
  | '0' :: rest => (8, rest)
  | digits => (10, digits)

/-- The largest unsigned word. -/
def maxUnsigned : Nat := UInt64.size - 1

/-- Read digits on, after those that gave `value`. Underscores are passed over. -/
def readDigits (base value : Nat) : List Char → Except ValueError Nat
  | [] => .ok value
  | '_' :: rest => readDigits base value rest
  | c :: rest =>
      match digitValue? c with
      | none => .error .malformed
      | some digit =>
          if base ≤ digit then .error .malformed
          else if maxUnsigned < value * base + digit then .error .outOfRange
          else readDigits base (value * base + digit) rest

/-- What stands before an underscore or after it. -/
inductive Neighbour where
  | digit
  | underscore
  | other
  deriving DecidableEq

/-- Whether every underscore stands between digits, after a character of the given sort. -/
def underscoresFit (hexadecimal : Bool) (previous : Neighbour) : List Char → Bool
  | [] => previous ≠ .underscore
  | c :: rest =>
      if c.isDigit || (hexadecimal && 'a' ≤ c.toLower && c.toLower ≤ 'f') then
        underscoresFit hexadecimal .digit rest
      else if c = '_' then
        previous = .digit && underscoresFit hexadecimal .underscore rest
      else
        previous ≠ .underscore && underscoresFit hexadecimal .other rest

/-- Whether the underscores of a numeral without sign stand where they may. A letter that names the
base counts as a digit. -/
def underscoresAllowed : List Char → Bool
  | '0' :: letter :: rest =>
      if letter.toLower ∈ ['b', 'o', 'x'] then
        underscoresFit (letter.toLower = 'x') .digit rest
      else
        underscoresFit false .other ('0' :: letter :: rest)
  | digits => underscoresFit false .other digits

/-- The value of a numeral without sign. -/
def readUnsigned (numeral : List Char) : Except ValueError Nat := do
  if numeral.isEmpty then throw .malformed
  let (base, digits) := base numeral
  let value ← readDigits base 0 digits
  if digits.contains '_' && !underscoresAllowed numeral then throw .malformed
  return value

/-- The word that a numeral denotes. -/
def readWord (text : String) : Except ValueError Int :=
  let (negative, numeral) := match text.toList with
    | '+' :: rest => (false, rest)
    | '-' :: rest => (true, rest)
    | numeral => (false, numeral)
  match readUnsigned numeral with
  | .error error => .error error
  | .ok value =>
      let number : Int := if negative then -value else value
      if Word.InRange number then .ok number else .error .outOfRange

/-- The truth values that an option may be given. -/
def readBool (text : String) : Except ValueError Bool :=
  if text ∈ ["1", "t", "T", "TRUE", "true", "True"] then .ok true
  else if text ∈ ["0", "f", "F", "FALSE", "false", "False"] then .ok false
  else .error .malformed

end WordLisp.Command
