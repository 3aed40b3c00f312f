import WordLisp.Text.Quoted

/-!
# Names of code points

Diagnostics name a code point: control characters by their mnemonic, such as `<ESC>`, the space as
`<SP>`, anything negative as `<EOF>`, and every other character in single quotation marks.
-/

namespace WordLisp.Text

/-- The mnemonics of the ASCII control characters U+0000 to U+001F. -/
def asciiControlNames : Array String := #[
    "NUL", "SOH", "STX", "ETX", "EOT", "ENQ", "ACK", "BEL",
    "BS", "HT", "NL", "VT", "NP", "CR", "SO", "SI",
    "DLE", "DC1", "DC2", "DC3", "DC4", "NAK", "SYN", "ETB",
    "CAN", "EM", "SUB", "ESC", "FS", "GS", "RS", "US"]

/-- The mnemonics of the control characters U+0080 to U+009F. -/
def latinControlNames : Array String := #[
    "PAD", "HOP", "BPH", "NBH", "IND", "NEL", "SSA", "ESA",
    "HTS", "HTJ", "VTS", "PLD", "PLU", "RI", "SS2", "SS3",
    "DCS", "PU1", "PU2", "STS", "CCH", "MW", "SPA", "EPA",
    "SOS", "SGCI", "SCI", "CSI", "ST", "OSC", "PM", "APC"]

/-- The mnemonic of a control character or of the space, if the code point is one. -/
def mnemonic? (code : Nat) : Option String :=
  if code < 0x20 then
    asciiControlNames[code]?
  else if code == 0x20 then
    some "SP"
  else if code == 0x7f then
    some "DEL"
  else if 0x80 ≤ code then
    latinControlNames[code - 0x80]?
  else
    none

/-- The character with this code, or U+FFFD if there is none. -/
def charOfCode (code : Nat) : Char :=
  if code.isValidChar then Char.ofNat code else Rune.replacement

/-- The name of a code point. -/
def codeName (code : Int) : String :=
  if code < 0 then
    "<EOF>"
  else
    match mnemonic? code.toNat with
    | some name => "<" ++ name ++ ">"
    | none => quotedChar (charOfCode code.toNat)

/-- The name of a character. -/
def charName (c : Char) : String :=
  codeName c.toNat

end WordLisp.Text
