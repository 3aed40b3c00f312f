/-!
# Numbers and columns

Numbers are written in decimal. Columns of a listing are aligned by spaces, counted in
characters.
-/

namespace WordLisp.Text

/-- The text preceded by `fill` until it has at least `width` characters. -/
def padLeft (fill : Char) (width : Nat) (text : String) : String :=
  String.ofList (List.replicate (width - text.length) fill) ++ text

/-- The text followed by spaces until it has at least `width` characters. -/
def padRight (width : Nat) (text : String) : String :=
  text ++ String.ofList (List.replicate (width - text.length) ' ')

/-- The decimal digits of a number. -/
def decimal (n : Nat) : String :=
  Nat.repr n

/-- A whole number in decimal, with a minus sign if it is negative. -/
def integer (n : Int) : String :=
  if n < 0 then "-" ++ decimal n.natAbs else decimal n.natAbs

/-- The number of decimal digits of a number. -/
def decimalWidth (n : Nat) : Nat :=
  (decimal n).length

end WordLisp.Text
