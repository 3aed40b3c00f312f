import WordLisp.Failure
import WordLisp.Machine.Dump
import WordLisp.Machine.Trace
import WordLisp.Output.Writer
import WordLisp.Session.Listing

/-!
# Sessions

A session compiles sources into one growing program and runs it on one machine. Functions defined by
earlier sources stay callable from later ones. Sources are loaded as a whole, which runs the program
from its start; a single expression is entered, which runs only its own code. What a session prints
goes to its writer; a trace, if it keeps one, to its log.
-/

namespace WordLisp

/-- A compiler and a machine at work together. -/
structure Session where
  compiler : Compiler := {}
  machine : Machine
  writer : Writer
  /-- Whether loading prints the listing before it runs the program. -/
  listsCode : Bool := false
  /-- Whether compilation and execution are traced. -/
  traces : Bool := false
  /-- The lines of the trace so far. -/
  log : Array String := #[]

/-- What entering an expression gave. -/
inductive Entry where
  | value (word : Word)
  | defined (function : Function)

/-- The function name of a node that has the shape of a definition. -/
def Node.definedName? : Node → Option String
  | .pair (.symbol head) (.pair (.pair (.symbol name) _) _) =>
      if head = "define" then some name else none
  | _ => none

namespace Session

/-- A session with a stack of this size that prints to `writer`. -/
def new (stackSize : Word) (writer : Writer) : Session where
  machine := Machine.new stackSize
  writer

/-- Add lines to the trace. They are only made if there is one. -/
def note (session : Session) (lines : Unit → List String) : Session :=
  if session.traces then { session with log := session.log ++ lines () } else session

/-- Print texts one by one. -/
def printAll (session : Session) (texts : List String) : Session :=
  { session with writer := session.writer.printAll texts }

/-- Print a text. -/
def print (session : Session) (text : String) : Session :=
  { session with writer := session.writer.print text }

/-- Flush the output. -/
def flush (session : Session) : Session × Option Failure :=
  let (writer, error?) := session.writer.flush
  ({ session with writer }, error?.map .other)

/-- Print the listing of the program. The lines go through a buffer. -/
def dump (session : Session) : Session :=
  let titled := session.print Compiler.listingTitle
  { titled with writer := titled.writer.printThrough .empty session.compiler.texts }

/-- Print the list of the functions. -/
def dumpFunctions (session : Session) : Session :=
  session.printAll session.compiler.functionListing

/-- Print the state of the machine after the last run. -/
def dumpMachine (session : Session) : Session :=
  session.printAll ((session.machine.dump? session.compiler.program).getD [])

/-- Compile every expression of the sources, in order, up to the first error. -/
def compile (session : Session) (sources : List Source) : Session × Option Failure :=
  let reader := Reader.ofSources sources
  let session := session.note fun _ ↦
    (session.compiler.traceReader reader).map ("compile " ++ ·)
  let (compiler, error?) := session.compiler.compileReader reader
  let session := { session with compiler }
  match error? with
  | some error => (session, some (.ofSourceError error))
  | none => (if session.listsCode then session.dump else session, none)

/-- Run the program from an address. -/
def runAt (session : Session) (watch : Watch) (start : Word) : Session × Except Failure Word :=
  let program := session.compiler.program
  let session := session.note fun _ ↦
    (session.machine.traceAt program watch start).map ("vm " ++ ·)
  let (machine, result) := session.machine.runAt program watch start
  ({ session with machine }, result.mapError .ofStop)

/-- Run the whole program, then flush the output. A failure of the run is reported rather than one
of the flush. -/
def run (session : Session) (watch : Watch) : Session × Except Failure Word :=
  let (session, result) := session.runAt watch 0
  let (session, failure?) := session.flush
  match result, failure? with
  | .ok _, some failure => (session, .error failure)
  | result, _ => (session, result)

/-- Compile sources as one program, then run it. -/
def load (session : Session) (watch : Watch) (sources : List Source) :
    Session × Except Failure Word :=
  match session.compile sources with
  | (session, some failure) => (session, .error failure)
  | (session, none) => session.run watch

/-- The function that a node has just defined, if its code starts at `start`. -/
def definedSince? (session : Session) (start : Nat) (node : Node) : Option Function := do
  let name ← node.definedName?
  (session.compiler.function? name).filter (start < ·.entry)

/-- Compile one expression, then run just its code. A definition is only compiled. -/
def enter (session : Session) (watch : Watch) (node : Node) : Session × Except Failure Entry :=
  let start := session.compiler.program.size
  let session := session.note fun _ ↦ (session.compiler.trace node).map ("compile " ++ ·)
  match session.compiler.compile node with
  | (compiler, some error) => ({ session with compiler }, .error (.compile error))
  | (compiler, none) =>
      let session := { session with compiler }
      match session.definedSince? start node with
      | some function => (session, .ok (.defined function))
      | none =>
          let session := session.note fun _ ↦
            ["entry @" ++ Text.decimal start ++ " " ++ node.display]
          let (session, result) := session.runAt watch (Int64.ofNat start)
          (session, result.map .value)

end Session

end WordLisp
