import WordLisp.Session.Basic
import WordLisp.Text.Space

/-!
# Completion

A line is completed at its last word, which starts after the first byte of the last parenthesis or
blank. Every builtin or defined function whose name starts with that word is offered, in the order
of the names. Behind a blank of several bytes the word starts with the other bytes of the blank, and
no name does: nothing is offered there.
-/

namespace WordLisp

open Text (Rune)

/-- Whether a rune separates the words of a line. -/
def Text.Rune.separates (rune : Rune) : Bool :=
  rune = .char '(' || rune = .char ')' || rune.isSpace

/-- The bytes of a rune. -/
def Text.Rune.bytes : Rune → List UInt8
  | .char c => String.utf8EncodeChar c
  | .stray byte => [byte]

/-- The bytes of a text. -/
def Text.Rune.encode (text : List Rune) : List UInt8 :=
  text.flatMap Rune.bytes

/-- A line cut into the bytes before its last word and those of the word. -/
def lastWord (line : List Rune) : List UInt8 × List UInt8 :=
  let reversed := line.reverse
  let word := Rune.encode (reversed.takeWhile (!·.separates)).reverse
  match reversed.dropWhile (!·.separates) with
  | [] => ([], word)
  | separator :: before =>
      (Rune.encode before.reverse ++ separator.bytes.take 1, separator.bytes.drop 1 ++ word)

namespace Session

/-- The names that may be completed, in order and each once. -/
def names (session : Session) : List String :=
  (Builtin.names ++ session.compiler.functions.map (·.name)).mergeSort (· ≤ ·) |>.eraseDups

/-- The completions of a line. -/
def completions (session : Session) (line : List Rune) : List String :=
  let (head, word) := lastWord line
  if word.isEmpty then
    []
  else
    let matching := session.names.filter fun name ↦
      word.isPrefixOf (Rune.encode (Rune.ofString name))
    matching.map (Text.shown ⟨head.toArray⟩ ++ ·)

end Session

end WordLisp
