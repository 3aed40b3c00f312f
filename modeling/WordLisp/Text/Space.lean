import WordLisp.Text.Rune

/-!
# Blank space

The characters that separate words: the ASCII blanks, NEL, the no-break space, and the Unicode
space, line and paragraph separators. Core's `Char.isWhitespace` knows four of them only.
-/

namespace WordLisp.Text

/-- Whether a character is blank space. -/
def isSpace (c : Char) : Bool :=
  let code := c.toNat
  (0x09 ≤ code && code ≤ 0x0d) || code == 0x20 || code == 0x85 || code == 0xa0 ||
    code == 0x1680 || (0x2000 ≤ code && code ≤ 0x200a) || code == 0x2028 || code == 0x2029 ||
    code == 0x202f || code == 0x205f || code == 0x3000

/-- Whether a rune is blank space; a stray byte never is. -/
def Rune.isSpace (rune : Rune) : Bool :=
  Text.isSpace rune.toChar

/-- The text without the blank space around it. -/
def trim (text : List Rune) : List Rune :=
  ((text.dropWhile Rune.isSpace).reverse.dropWhile Rune.isSpace).reverse

/-- The maximal runs of a text without blank space, in order. -/
def fields : List Rune → List (List Rune)
  | [] => []
  | [rune] => if rune.isSpace then [] else [[rune]]
  | rune :: next :: rest =>
      if rune.isSpace then
        fields (next :: rest)
      else if next.isSpace then
        [rune] :: fields (next :: rest)
      else
        match fields (next :: rest) with
        | word :: words => (rune :: word) :: words
        | [] => [[rune]]

end WordLisp.Text
