/-!
# Numbers of 53 binary digits

A number `mantissa * 2 ^ exponent` stands for the results of products and quotients that are not
kept exactly: each is rounded to the nearest number of 53 binary digits, and one that lies halfway
to the one whose last digit is zero. The exponent has no bounds.
-/

namespace WordLisp.Command

/-- The nonnegative number `mantissa * 2 ^ exponent`. -/
structure Binary where
  mantissa : Nat
  exponent : Int

namespace Binary

/-- The number of binary digits that are kept. -/
def precision : Nat := 53

/-- The integer nearest to a quotient, and of two nearest the even one. -/
def divNearest (dividend divisor : Nat) : Nat :=
  let quotient := dividend / divisor
  let twice := 2 * (dividend % divisor)
  if twice < divisor ∨ (twice = divisor ∧ quotient % 2 = 0) then quotient else quotient + 1

/-- The quotient `dividend / divisor * 2 ^ exponent` rounded. The dividend, or else the divisor, is
shifted until the integer quotient has as many digits as are kept. -/
def ofQuotient (dividend divisor : Nat) (exponent : Int) : Binary :=
  let shifted (shift : Int) : Nat × Nat :=
    (dividend <<< shift.toNat, divisor <<< (-shift).toNat)
  let shift : Int := precision - 1 - (dividend.log2 - divisor.log2 : Int)
  let (left, right) := shifted shift
  let shift := if left < right <<< (precision - 1) then shift + 1 else shift
  let (left, right) := shifted shift
  ⟨divNearest left right, exponent - shift⟩

/-- An integer rounded. -/
def ofNat (n : Nat) : Binary :=
  ofQuotient n 1 0

/-- The product of two numbers rounded. -/
def mul (left right : Binary) : Binary :=
  ofQuotient (left.mantissa * right.mantissa) 1 (left.exponent + right.exponent)

/-- The quotient of two numbers rounded. -/
def div (left right : Binary) : Binary :=
  ofQuotient left.mantissa right.mantissa (left.exponent - right.exponent)

/-- The integer part of a number. -/
def floor (number : Binary) : Nat :=
  number.mantissa <<< number.exponent.toNat >>> (-number.exponent).toNat

/-- The power of ten that comes out of multiplying by ten, time after time. -/
def powerOfTen : Nat → Binary
  | 0 => ofNat 1
  | n + 1 => (powerOfTen n).mul (ofNat 10)

end Binary

end WordLisp.Command
