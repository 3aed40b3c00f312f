import WordLisp.Machine.Program
import WordLisp.Node.Basic

/-!
# Compile errors

Why a node has no code. Each error names the first violation of the static rules, in the order in
which code would have been made.
-/

namespace WordLisp

/-- Why a node cannot be compiled. -/
inductive CompileError where
  /-- The head of a form names neither a function nor a builtin. -/
  | unknownFunction (head : Node)
  /-- A symbol that is not a parameter of the definition around it. -/
  | undefinedArgument (name : String)
  /-- A call with the wrong number of arguments. -/
  | arity (name : String) (given expected : Nat)
  /-- A builtin form with the wrong number of operands. -/
  | operandCount (form : String) (expected : Nat) (operands : Node)
  /-- A builtin form that needs at least one operand and has none. -/
  | tooFewOperands
  /-- A definition inside another form. -/
  | nestedDefinition
  /-- A definition that does not start with a name and its parameters. -/
  | signature (node : Node)
  /-- A parameter that is not a symbol. -/
  | parameter (node : Node)
  /-- A parameter that is there twice. -/
  | duplicateParameter (name function : String)
  /-- A hole in the tree. -/
  | invalid (node : Node)
  /-- A hole of the program that could not be filled. -/
  | patch (cause : PatchError)
  deriving DecidableEq

namespace CompileError

/-- The kind of an error. -/
def kind : CompileError → String
  | .unknownFunction .. => "compile.unknown_function"
  | .undefinedArgument .. => "compile.undefined_argument"
  | .arity .. => "compile.arity"
  | .operandCount .. | .tooFewOperands | .nestedDefinition | .signature .. | .parameter ..
  | .duplicateParameter .. => "compile.malformed"
  | .invalid .. => "compile.invalid"
  | .patch .. => PatchError.kind

/-- What is wrong, without the kind. -/
def detail : CompileError → String
  | .unknownFunction head => "unknown function '" ++ head.display ++ "'"
  | .undefinedArgument name => "undefined argument '" ++ name ++ "'"
  | .arity name given expected =>
      "invalid argument count for '" ++ name ++ "': " ++ Text.decimal given ++ " expected: " ++
        Text.decimal expected
  | .operandCount form expected operands =>
      "'" ++ form ++ "' requires " ++ Text.decimal expected ++
        (if expected = 1 then " argument" else " arguments") ++ " but: " ++ operands.display
  | .tooFewOperands => "insufficient arguments"
  | .nestedDefinition => "'define' is only allowed at top level"
  | .signature node => "'(func args)' expected after 'define' but: " ++ node.display
  | .parameter node => "symbol expected but: " ++ node.display
  | .duplicateParameter name function =>
      "duplicate parameter '" ++ name ++ "' of '" ++ function ++ "'"
  | .invalid node => "can't compile " ++ node.display
  | .patch cause => cause.detail

/-- The message of an error: its kind, then what is wrong. -/
def message (error : CompileError) : String :=
  error.kind ++ ": " ++ error.detail

end CompileError

end WordLisp
