/-!
# Runes

Source text is a sequence of bytes that is meant to be UTF-8 but need not be. `Rune.decode` cuts it
into runes: each well-formed sequence is the character it encodes, and each byte that belongs to
none is a stray byte. No byte is lost, so a text can also be quoted as it was written. To everything
that reads characters a stray byte is the replacement character U+FFFD.
-/

namespace WordLisp.Text

/-- One unit of decoded text. -/
inductive Rune where
  /-- A well-formed character. -/
  | char (c : Char)
  /-- A byte that is no part of a well-formed character. -/
  | stray (byte : UInt8)
  deriving DecidableEq, Repr

namespace Rune

/-- The character that stands for a stray byte. -/
def replacement : Char := '\ufffd'

/-- The character a reader sees. -/
def toChar : Rune → Char
  | .char c => c
  | .stray _ => replacement

/-- The number of bytes the rune was decoded from. -/
def size : Rune → Nat
  | .char c => c.utf8Size
  | .stray _ => 1

/-- The runes of the bytes from position `start` on. -/
def decodeFrom (bytes : ByteArray) (start : Nat) : List Rune :=
  if h : start < bytes.size then
    match bytes.utf8DecodeChar? start with
    | some c => .char c :: decodeFrom bytes (start + c.utf8Size)
    | none => .stray bytes[start] :: decodeFrom bytes (start + 1)
  else
    []
termination_by bytes.size - start
decreasing_by
  · have := c.utf8Size_pos
    omega
  · omega

/-- Cut a text into its runes. Overlong forms, surrogates and values above U+10FFFF are not
well-formed, so their bytes are stray. -/
def decode (bytes : ByteArray) : List Rune :=
  decodeFrom bytes 0

/-- The runes of a string: all of them are characters. -/
def ofString (text : String) : List Rune :=
  text.toList.map .char

/-- The text as a reader sees it, with U+FFFD for each stray byte. -/
def toText (runes : List Rune) : String :=
  String.ofList (runes.map toChar)

@[simp] theorem toChar_char (c : Char) : (Rune.char c).toChar = c := rfl

@[simp] theorem toText_ofString (text : String) : toText (ofString text) = text := by
  simp [toText, ofString, Function.comp_def]

end Rune

/-- The text of some bytes, with U+FFFD for each byte that is not UTF-8. -/
def shown (bytes : ByteArray) : String :=
  Rune.toText (Rune.decode bytes)

end WordLisp.Text
