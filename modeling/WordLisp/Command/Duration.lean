import WordLisp.Command.Binary
import WordLisp.Command.Number

/-!
# Durations on the command line

A duration is an optional sign and a sequence of decimal numbers, each with its unit, such as
`1h30m` or `1.5s`. The number zero needs no unit. Durations count nanoseconds. A fraction of a unit
is computed with 53 binary digits and then cut to whole nanoseconds. The parts are summed up in an
unsigned word, which wraps around, and neither a part nor a sum may exceed half of its range.
-/

namespace WordLisp.Command

/-- The nanoseconds of a unit. -/
def unitNanoseconds? (unit : List Char) : Option Nat :=
  match String.ofList unit with
  | "ns" => some 1
  | "us" | "µs" | "μs" => some 1000
  | "ms" => some 1000000
  | "s" => some 1000000000
  | "m" => some 60000000000
  | "h" => some 3600000000000
  | _ => none

/-- The largest number of nanoseconds, without sign. -/
def maxNanoseconds : Nat := UInt64.size / 2

/-- The value of a run of digits. -/
def decimalValue (digits : List Char) : Nat :=
  digits.foldl (fun value c ↦ 10 * value + (c.toNat - '0'.toNat)) 0

/-- The fraction that digits behind a point denote, as digits that count and their number. Digits
beyond the precision of a word count no more. -/
def fraction : Nat → Nat → List Char → Nat × Nat
  | value, places, [] => (value, places)
  | value, places, c :: rest =>
      let next := 10 * value + (c.toNat - '0'.toNat)
      if (maxNanoseconds - 1) / 10 < value ∨ maxNanoseconds < next then (value, places)
      else fraction next (places + 1) rest

/-- The nanoseconds of a fraction of a unit. -/
def fractionNanoseconds (digits : List Char) (unit : Nat) : Nat :=
  let (value, places) := fraction 0 0 digits
  if value = 0 then 0
  else
    ((Binary.ofNat value).mul ((Binary.ofNat unit).div (Binary.powerOfTen places))).floor

/-- Whether a character belongs to a number rather than to a unit. -/
def isNumberChar (c : Char) : Bool :=
  c = '.' || c.isDigit

/-- A number with its unit at the start of a text, in nanoseconds, and what follows. -/
def readPart (text : List Char) : Option (Nat × List Char) := do
  let whole := text.takeWhile Char.isDigit
  let afterWhole := text.dropWhile Char.isDigit
  let (digits, afterNumber) := match afterWhole with
    | '.' :: rest => (rest.takeWhile Char.isDigit, rest.dropWhile Char.isDigit)
    | rest => ([], rest)
  guard (!(whole.isEmpty && digits.isEmpty))
  guard (decimalValue whole ≤ maxNanoseconds)
  let unit ← unitNanoseconds? (afterNumber.takeWhile (!isNumberChar ·))
  guard (decimalValue whole ≤ maxNanoseconds / unit)
  let total := decimalValue whole * unit + fractionNanoseconds digits unit
  guard (total ≤ maxNanoseconds)
  return (total, afterNumber.dropWhile (!isNumberChar ·))

/-- The sum of the parts of a text; `bound` bounds their number. -/
def readParts (sum : Nat) : Nat → List Char → Option Nat
  | _, [] => some sum
  | 0, _ => none
  | bound + 1, text => do
      let (part, rest) ← readPart text
      let sum := (sum + part) % UInt64.size
      guard (sum ≤ maxNanoseconds)
      readParts sum bound rest

/-- The nanoseconds that a text denotes. -/
def readDuration (text : String) : Except ValueError Int :=
  let (negative, rest) := match text.toList with
    | '+' :: rest => (false, rest)
    | '-' :: rest => (true, rest)
    | rest => (false, rest)
  if rest = ['0'] then
    .ok 0
  else if rest.isEmpty then
    .error .malformed
  else
    match readParts 0 rest.length rest with
    | none => .error .malformed
    | some total =>
        if negative then .ok (-(total : Int))
        else if maxNanoseconds ≤ total then .error .malformed
        else .ok total

end WordLisp.Command
