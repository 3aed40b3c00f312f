import WordLisp.Text.Column

/-!
# Abnormal endings

A computation may return, with an error or without one; it may be broken off by a value that is
thrown; or it may just exit. `Ending.isolate` turns every ending into a returned one: what was
thrown, or that the computation exited, becomes an error that carries the name of the computation.
`Ending.rescue` does so for thrown values only.
-/

namespace WordLisp

mutual

/-- An error that a computation may return. -/
inductive Mishap where
  /-- An error with this text. -/
  | plain (text : String)
  /-- The computation of this name exited. -/
  | exited (name : String)
  /-- The computation of this name was broken off. -/
  | broken (name : String) (thrown : Thrown)

/-- A value that breaks a computation off. -/
inductive Thrown where
  | mishap (cause : Mishap)
  | text (value : String)
  | number (value : Nat)

end

/-- How a computation ended. -/
inductive Ending where
  | returned (error? : Option Mishap)
  | thrown (value : Thrown)
  | exited

mutual

/-- The message of an error. -/
def Mishap.message : Mishap → String
  | .plain text => text
  | .exited name =>
      if name.isEmpty then "runtime.Goexit called" else name ++ " called runtime.Goexit"
  | .broken name thrown =>
      (if name.isEmpty then "" else name ++ " ") ++ "paniced: " ++ thrown.message

/-- The message of a value that was thrown. -/
def Thrown.message : Thrown → String
  | .mishap cause => cause.message
  | .text value => value
  | .number value => Text.decimal value

end

namespace Mishap

/-- The error that was thrown to cause this one, if it was one. -/
def cause? : Mishap → Option Mishap
  | .broken _ (.mishap cause) => some cause
  | _ => none

mutual

/-- The error and those that caused it, down to the first. -/
def causes : Mishap → List Mishap
  | .broken name thrown => .broken name thrown :: thrownCauses thrown
  | mishap => [mishap]

/-- The errors in a value that was thrown. -/
def thrownCauses : Thrown → List Mishap
  | .mishap cause => causes cause
  | .text _ | .number _ => []

end

/-- Whether the error is that a computation exited. -/
def isExit : Mishap → Bool
  | .exited _ => true
  | _ => false

/-- Whether the error is that a computation was broken off. -/
def isBreak : Mishap → Bool
  | .broken .. => true
  | _ => false

/-- Whether the error has this text as its own. -/
def isPlain (text : String) : Mishap → Bool
  | .plain own => own == text
  | _ => false

end Mishap

namespace Ending

/-- Every ending as a returned one. -/
def isolate (name : String) : Ending → Option Mishap
  | .returned error? => error?
  | .thrown value => some (.broken name value)
  | .exited => some (.exited name)

/-- A thrown value as a returned error; an exit stays one. -/
def rescue (name : String) : Ending → Ending
  | .returned error? => .returned error?
  | .thrown value => .returned (some (.broken name value))
  | .exited => .exited

/-- A returned error as a thrown value. -/
def rethrow : Ending → Ending
  | .returned (some error) => .thrown (.mishap error)
  | ending => ending

end Ending

end WordLisp
