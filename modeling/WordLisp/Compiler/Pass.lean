import WordLisp.Compiler.Builtin
import WordLisp.Compiler.Table

/-!
# The pass over a node

The code of a top-level node is laid down in a single pass. Instructions are added at the end of the
program; a jump whose target is not known yet leaves a hole, which is filled once the pass gets
there. A definition enters its function into the table before its body is compiled, so that the
function may call itself, and its parameters for as long as the body is compiled.

A pass that fails stops where it is. A definition then puts the table back as it was, while the
code that was laid down is left for `Compiler.compile` to cut off.
-/

namespace WordLisp

/-- What a compiler keeps from one top-level node to the next. -/
structure Compiler where
  program : Program := #[]
  /-- The functions that later code may call. -/
  functions : Table := []
  /-- The parameters of the definition that is being compiled, by position. -/
  parameters : List String := []
  deriving DecidableEq

/-- One act of a pass, as a trace shows it. -/
inductive Edit where
  /-- Add an instruction at the end. -/
  | emit (address : Nat) (inst : Inst)
  /-- Leave a hole at the end. -/
  | hole (address : Nat)
  /-- Fill a hole. -/
  | patch (address : Nat) (inst : Inst)
  /-- Complete a definition. -/
  | define (function : Function)

/-- An edit as a line of a trace. -/
def Edit.render : Edit → String
  | .emit address inst => "> @" ++ Text.decimal address ++ " " ++ inst.render
  | .hole address => "> @" ++ Text.decimal address ++ " _"
  | .patch address inst => "> @" ++ Text.decimal address ++ " <- " ++ inst.render
  | .define function => "define " ++ function.render

/-- A compiler at work on a node, with the edits it has made. -/
structure Draft extends Compiler where
  edits : Array Edit := #[]

namespace Draft

/-- The draft with what stood in the table under a name before. -/
def restoreFunction (draft : Draft) (name : String) (prior : Option Function) : Draft :=
  { draft with functions := draft.functions.restore name prior }

/-- The draft without parameters. -/
def clearParameters (draft : Draft) : Draft :=
  { draft with parameters := [] }

end Draft

/-- A piece of work on a draft, which may fail. -/
abbrev Pass := EStateM CompileError Draft

namespace Pass

/-- Record an edit. -/
def note (edit : Edit) : Pass Unit := fun draft ↦
  .ok () { draft with edits := draft.edits.push edit }

/-- The address of the next instruction. -/
def address : Pass Nat := fun draft ↦
  .ok draft.program.size draft

/-- Add an instruction. -/
def append (inst : Inst) : Pass Unit := fun draft ↦
  .ok () { draft with program := draft.program.push inst }

/-- Lay an instruction down. -/
def emit (inst : Inst) : Pass Unit := do
  note (.emit (← address) inst)
  append inst

/-- Leave a hole, and give its address. -/
def hole : Pass Nat := do
  let address ← address
  note (.hole address)
  append .hole
  return address

/-- Fill the hole at an address. -/
def fill (address : Nat) (inst : Inst) : Pass Unit := fun draft ↦
  match draft.program.fill address inst with
  | .ok program => .ok () { draft with program }
  | .error cause => .error (.patch cause) draft

/-- Fill the hole at an address, and record it. -/
def patch (address : Nat) (inst : Inst) : Pass Unit := do
  fill address inst
  note (.patch address inst)

/-- The function of a name. -/
def function? (name : String) : Pass (Option Function) := fun draft ↦
  .ok (draft.functions.lookup? name) draft

/-- The position of a parameter. -/
def parameter? (name : String) : Pass (Option Nat) := fun draft ↦
  .ok (draft.parameters.idxOf? name) draft

/-- Enter a function into the table. -/
def setFunction (function : Function) : Pass Unit := fun draft ↦
  .ok () { draft with functions := draft.functions.set function }

/-- Enter one more parameter. -/
def addParameter (name : String) : Pass Unit := fun draft ↦
  .ok () { draft with parameters := draft.parameters ++ [name] }

/-- Change the draft by `cleanUp` if a pass fails. -/
def onFailure (cleanUp : Draft → Draft) (pass : Pass Unit) : Pass Unit := fun draft ↦
  match pass draft with
  | .ok () done => .ok () done
  | .error error failed => .error error (cleanUp failed)

/-- Change the draft by `cleanUp` after a pass, whether it fails or not. -/
def afterwards (cleanUp : Draft → Draft) (pass : Pass Unit) : Pass Unit := fun draft ↦
  match pass draft with
  | .ok () done => .ok () (cleanUp done)
  | .error error failed => .error error (cleanUp failed)

/-- Lay down a choice between two pieces of code, by the value that a third one leaves. -/
def choice (condition consequent alternative : Pass Unit) : Pass Unit := do
  condition
  let branch ← hole
  consequent
  let leave ← hole
  patch branch (.jumpZ (Int64.ofNat (← address)))
  alternative
  patch leave (.jump (Int64.ofNat (← address)))

mutual

/-- Lay down the code of a node that is not a definition: it leaves the value on the stack. -/
def lower : Node → Pass Unit
  | .int value => emit (.constant value)
  | .symbol name => do
      match ← parameter? name with
      | some index => emit (.arg (Int64.ofNat index))
      | none => throw (.undefinedArgument name)
  | .pair (.symbol name) operands => do
      match ← function? name with
      | some function =>
          if operands.length = function.arity then
            lowerAll operands
            emit (.call (Int64.ofNat function.entry))
          else
            throw (.arity name operands.length function.arity)
      | none =>
          match Builtin.ofName? name with
          | some builtin =>
              match builtin.refusal? operands with
              | some error => throw error
              | none => lowerForm builtin operands
          | none => throw (.unknownFunction (.symbol name))
  | .pair head _ => throw (.unknownFunction head)
  | .missing => throw (.invalid .missing)

/-- Lay down the code of the nodes of a list, one after the other. -/
def lowerAll : Node → Pass Unit
  | .pair head tail => do
      lower head
      lowerAll tail
  | _ => pure ()

/-- Lay down the code of the nodes of a list, each joined by an operator to what is before it. -/
def lowerJoined (operator : Operator) : Node → Pass Unit
  | .pair head tail => do
      lower head
      emit (.binary operator)
      lowerJoined operator tail
  | _ => pure ()

/-- Lay down the code of a builtin form whose operands are not refused. -/
def lowerForm : Builtin → Node → Pass Unit
  | .unary operator, .pair operand _ => do
      lower operand
      emit (.unary operator)
  | .foldFrom _ operator, .pair first (.pair second rest) => do
      lower first
      lowerJoined operator (.pair second rest)
  | .foldFrom unit operator, .pair operand _ => do
      emit (.constant unit)
      lower operand
      emit (.binary operator)
  | .binary operator, .pair first rest | .fold _ operator, .pair first rest => do
      lower first
      lowerJoined operator rest
  | .conditional, .pair condition (.pair consequent (.pair alternative _)) =>
      choice (lower condition) (lower consequent) (lower alternative)
  | .fold unit _, _ => emit (.constant unit)
  | _, _ => pure ()

end

/-- Enter the parameters of a function, which must be symbols and distinct. -/
def enterParameters (function : String) : List Node → Pass Unit
  | [] => pure ()
  | .symbol name :: rest => do
      if (← parameter? name).isSome then
        throw (.duplicateParameter name function)
      addParameter name
      enterParameters function rest
  | node :: _ => throw (.parameter node)

/-- Lay down the code of a function whose jump over it is the hole at `start`. -/
def lowerFunction (start : Nat) (function : Function) (parameters : List Node) (body : Node) :
    Pass Unit := do
  enterParameters function.name parameters
  emit (.enter (Int64.ofNat function.arity))
  lower body
  emit .exit
  patch start (.jump (Int64.ofNat (← address)))
  note (.define function)

/-- Lay down a definition, from what follows the word `define`. -/
def lowerDefinition (written : Node) : Pass Unit :=
  match written.items with
  | [.pair (.symbol name) parameters, body] => do
      let start ← hole
      let function : Function := ⟨name, ← address, parameters.length⟩
      let prior ← function? name
      setFunction function
      afterwards Draft.clearParameters <|
        onFailure (·.restoreFunction name prior) <|
          lowerFunction start function parameters.items body
  | [signature, _] => throw (.signature signature)
  | _ => throw (.operandCount "define" 2 written)

/-- Lay down the code of a top-level node. Only here a definition may stand. -/
def lowerTop (node : Node) : Pass Unit := do
  match node with
  | .pair (.symbol name) tail =>
      if (← function? name) = none ∧ Builtin.ofName? name = some .definition then
        lowerDefinition tail
      else
        lower node
  | node => lower node

end Pass

end WordLisp
