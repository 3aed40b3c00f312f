import WordLisp.Machine.Inst
import WordLisp.Memory.Basic

/-!
# Faults

A fault ends a run of the machine. Its kind says what went wrong, its detail where.
-/

namespace WordLisp

/-- Why a run ended without a value. -/
inductive Fault where
  /-- The stack refused a push. -/
  | push (cause : MemoryError)
  /-- A pop from the empty stack. -/
  | emptyPop
  /-- The stack refused to give a word back. -/
  | read (what : String) (cause : MemoryError)
  /-- An argument that is not on the live stack. -/
  | argument (index bp sp : Word)
  /-- A frame that would reach below the bottom of the stack. -/
  | enter (count : Word) (address : Nat) (sp : Word)
  /-- A frame that lies above the top of the stack. -/
  | exit (address : Nat) (frame sp : Word)
  /-- A division by zero. -/
  | divideByZero (dividend : Word)
  /-- A remainder by zero. -/
  | remainderByZero (dividend : Word)
  /-- A start outside the program. -/
  | start (address : Word) (length : Nat)
  /-- A jump outside the program. -/
  | jump (address : Word) (length : Nat)
  /-- An operator that has no meaning. -/
  | operator (unknown : Operator)
  /-- A hole that was never patched. -/
  | unpatched (address : Nat)
  /-- An instruction that has no meaning. -/
  | instruction (inst : Inst) (address : Nat)
  /-- The run left no value. -/
  | emptyResult
  deriving DecidableEq

namespace Fault

/-- The kind of a fault. -/
def kind : Fault → String
  | .push .. => "vm.stack_overflow"
  | .emptyPop | .read .. | .argument .. | .enter .. | .exit .. => "vm.stack_underflow"
  | .divideByZero .. | .remainderByZero .. => "vm.divide_by_zero"
  | .start .. | .jump .. => "vm.bad_address"
  | .operator .. | .unpatched .. | .instruction .. => "vm.bad_instruction"
  | .emptyResult => "vm.empty_result"

/-- What happened, without the kind. -/
def detail : Fault → String
  | .push cause => "push, cause: " ++ cause.message
  | .emptyPop => "pop from empty stack"
  | .read what cause => what ++ ", cause: " ++ cause.message
  | .argument index bp sp =>
      "arg " ++ Word.render index ++ " outside live stack (bp:" ++ Word.render bp ++
        " sp:" ++ Word.render sp ++ ")"
  | .enter count address sp =>
      "enter " ++ Word.render count ++ " @" ++ Text.decimal address ++ " with only " ++
        Word.render sp ++ " stack slots"
  | .exit address frame sp =>
      "exit @" ++ Text.decimal address ++ " to frame " ++ Word.render frame ++ " above sp " ++
        Word.render sp
  | .divideByZero dividend => Word.render dividend ++ " / 0"
  | .remainderByZero dividend => Word.render dividend ++ " % 0"
  | .start address length =>
      "start address " ++ Word.render address ++ " outside program of length " ++
        Text.decimal length
  | .jump address length =>
      "jump to " ++ Word.render address ++ " outside program of length " ++ Text.decimal length
  | .operator unknown => "invalid operator " ++ unknown.name
  | .unpatched address => "unpatched instruction @" ++ Text.decimal address
  | .instruction inst address =>
      "invalid instruction " ++ inst.render ++ " @" ++ Text.decimal address
  | .emptyResult => "program left no value on the stack"

/-- The message of a fault: its kind, then what happened. -/
def message (fault : Fault) : String :=
  fault.kind ++ ": " ++ fault.detail

end Fault

end WordLisp
