import WordLisp.Compiler.Basic
import WordLisp.Machine.Run

/-!
# Failures

Everything that can end an action of a session: the text cannot be read or compiled, the program
faults or is interrupted, or something outside fails. A failure may be passed on under the name of
the source it belongs to.
-/

namespace WordLisp

/-- Why an action failed. -/
inductive Failure where
  | read (cause : ReadError)
  | compile (cause : CompileError)
  | fault (cause : Fault)
  | interrupted (reason : Interrupt)
  /-- Something outside failed with this message. -/
  | other (text : String)
  /-- The failure of a source, under its name. -/
  | named (name : String) (cause : Failure)

namespace Failure

/-- The failure of a source that was not compiled to its end. -/
def ofSourceError : Compiler.SourceError → Failure
  | .read cause => .read cause
  | .compile cause => .compile cause

/-- The failure of a run that gave no value. -/
def ofStop : Stop → Failure
  | .fault cause => .fault cause
  | .interrupted reason => .interrupted reason

/-- The message of a failure. -/
def message : Failure → String
  | .read cause => cause.message
  | .compile cause => cause.message
  | .fault cause => cause.message
  | .interrupted reason => reason.message
  | .other text => text
  | .named name cause => name ++ ": " ++ cause.message

/-- The failure without the names of sources. -/
def root : Failure → Failure
  | .named _ cause => cause.root
  | failure => failure

/-- Whether the failure itself is one of reading or compiling. -/
def isCompileError : Failure → Bool
  | .read .endOfInput | .compile (.patch _) => false
  | .read _ | .compile _ => true
  | _ => false

/-- Whether the failure itself is a fault of the machine. -/
def isFault : Failure → Bool
  | .fault _ => true
  | _ => false

/-- Whether the input only ended too soon. -/
def isIncomplete (failure : Failure) : Bool :=
  match failure.root with
  | .read cause => cause.isIncomplete
  | _ => false

/-- Whether the program or its text is to blame, or the run was interrupted. Anything else is a
failure of the surroundings. -/
def isExpected (failure : Failure) : Bool :=
  match failure.root with
  | .interrupted _ => true
  | cause => cause.isCompileError || cause.isFault

end Failure

end WordLisp
