import WordLisp.Compiler.Pass
import WordLisp.Node.Reader

/-!
# The compiler

A compiler holds a program and the functions defined in it, and adds the code of one top-level node
after the other. A definition `(define (name parameter ...) body)` is allowed only as a whole
top-level node; its code is jumped over, and the function may call itself. A later definition of the
same name replaces the earlier one for the nodes after it, while code compiled before keeps calling
the earlier one.

A node that cannot be compiled changes nothing: its code is cut off again.
-/

namespace WordLisp.Compiler

/-- The function defined under a name. -/
def function? (compiler : Compiler) (name : String) : Option Function :=
  compiler.functions.lookup? name

/-- The compiler after a failed pass: it keeps `length` instructions and no parameters. -/
def rollBack (compiler : Compiler) (length : Nat) : Compiler :=
  { compiler with program := compiler.program.take length, parameters := [] }

/-- Add the code of a top-level node. -/
def compile (compiler : Compiler) (node : Node) : Compiler × Option CompileError :=
  match Pass.lowerTop node { compiler with } with
  | .ok () draft => (draft.toCompiler, none)
  | .error error draft => (draft.toCompiler.rollBack compiler.program.size, some error)

/-- The trace of compiling a top-level node. -/
def trace (compiler : Compiler) (node : Node) : List String :=
  match Pass.lowerTop node { compiler with } with
  | .ok () draft => draft.edits.toList.map Edit.render
  | .error error draft => draft.edits.toList.map Edit.render ++ ["! " ++ error.message]

/-- Add the code of top-level nodes up to the first that has none. -/
def compileNodes (compiler : Compiler) : List Node → Compiler × Option CompileError
  | [] => (compiler, none)
  | node :: rest =>
      match compiler.compile node with
      | (compiler, none) => compiler.compileNodes rest
      | (compiler, some error) => (compiler, some error)

/-- The trace of compiling top-level nodes. -/
def traceNodes (compiler : Compiler) : List Node → List String
  | [] => []
  | node :: rest =>
      compiler.trace node ++
        match compiler.compile node with
        | (compiler, none) => compiler.traceNodes rest
        | (_, some _) => []

/-- Why a source was not compiled to its end. -/
inductive SourceError where
  | read (cause : ReadError)
  | compile (cause : CompileError)

/-- Add the code of all nodes of a reader, up to the first error of either. -/
def compileReader (compiler : Compiler) (reader : Reader) : Compiler × Option SourceError :=
  let (nodes, error?) := reader.readAll
  match compiler.compileNodes nodes with
  | (compiler, some error) => (compiler, some (.compile error))
  | (compiler, none) => (compiler, error?.map .read)

/-- The trace of compiling all nodes of a reader. -/
def traceReader (compiler : Compiler) (reader : Reader) : List String :=
  compiler.traceNodes reader.readAll.1

end WordLisp.Compiler
