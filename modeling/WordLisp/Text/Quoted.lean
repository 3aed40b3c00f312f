import WordLisp.Text.Column
import WordLisp.Text.Printable
import WordLisp.Text.Rune

/-!
# Quoted text

A quoted text stands between quotation marks on one line and shows only printable characters. The
mark and the backslash are preceded by a backslash, the usual control characters have a letter each
(`\n`, `\t`, ...), the other ASCII control characters and stray bytes are written as `\x` and two
hexadecimal digits, and all other characters that are not printable as `\u` and four digits or `\U`
and eight.
-/

namespace WordLisp.Text

/-- A number in hexadecimal with at least `width` digits. -/
def hexadecimal (width n : Nat) : String :=
  padLeft '0' width (String.ofList (Nat.toDigits 16 n))

/-- The letter that stands for a control character after a backslash, if it has one. -/
def controlLetter? (c : Char) : Option Char :=
  match c.toNat with
  | 0x07 => some 'a'
  | 0x08 => some 'b'
  | 0x0c => some 'f'
  | 0x0a => some 'n'
  | 0x0d => some 'r'
  | 0x09 => some 't'
  | 0x0b => some 'v'
  | _ => none

/-- How a character stands between two `mark`s. -/
def escapedChar (mark c : Char) : String :=
  if c == mark || c == '\\' then
    String.ofList ['\\', c]
  else if isPrintable c then
    String.singleton c
  else if let some letter := controlLetter? c then
    String.ofList ['\\', letter]
  else if c.toNat < 0x20 || c.toNat == 0x7f then
    "\\x" ++ hexadecimal 2 c.toNat
  else if c.toNat < 0x10000 then
    "\\u" ++ hexadecimal 4 c.toNat
  else
    "\\U" ++ hexadecimal 8 c.toNat

/-- How a rune stands between two `mark`s. -/
def escapedRune (mark : Char) : Rune → String
  | .char c => escapedChar mark c
  | .stray byte => "\\x" ++ hexadecimal 2 byte.toNat

/-- The text between double quotation marks. -/
def quoted (text : List Rune) : String :=
  "\"" ++ String.join (text.map (escapedRune '"')) ++ "\""

/-- The character between single quotation marks. -/
def quotedChar (c : Char) : String :=
  "'" ++ escapedChar '\'' c ++ "'"

end WordLisp.Text
