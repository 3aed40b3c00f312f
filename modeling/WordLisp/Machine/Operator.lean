import WordLisp.Word

/-!
# Operators

The integer operations of the machine. Comparisons and `not` give one for true and zero for false.
Quotients are rounded toward zero, and a remainder has the sign of the dividend.
-/

namespace WordLisp

/-- An operation on words. -/
inductive Operator where
  | eq
  | ne
  | lt
  | le
  | gt
  | ge
  | add
  | sub
  | mul
  | div
  | mod
  | and
  | or
  | not
  /-- A code that names no operation. -/
  | unknown (code : UInt8)
  deriving DecidableEq, Repr

namespace Operator

/-- The operators that have a meaning, in the order of their codes, which count from 1. -/
def all : Array Operator :=
  #[.eq, .ne, .lt, .le, .gt, .ge, .add, .sub, .mul, .div, .mod, .and, .or, .not]

/-- The operator with this code. -/
def ofCode (code : UInt8) : Operator :=
  if code = 0 then .unknown 0 else all[code.toNat - 1]?.getD (.unknown code)

/-- The name of an operator in source text and listings. -/
def name : Operator → String
  | .eq => "="
  | .ne => "/="
  | .lt => "<"
  | .le => "<="
  | .gt => ">"
  | .ge => ">="
  | .add => "+"
  | .sub => "-"
  | .mul => "*"
  | .div => "/"
  | .mod => "%"
  | .and => "and"
  | .or => "or"
  | .not => "not"
  | .unknown code => "Operator(" ++ Text.decimal code.toNat ++ ")"

/-- The operator of a name. A name of none gives the code zero, which has no meaning. -/
def ofName (name : String) : Operator :=
  (all.find? (·.name = name)).getD (.unknown 0)

/-- Whether an operator takes a single operand. -/
def isUnary : Operator → Bool
  | .not => true
  | _ => false

end Operator

end WordLisp
