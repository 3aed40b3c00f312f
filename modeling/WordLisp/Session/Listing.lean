import WordLisp.Compiler.Basic
import WordLisp.Search

/-!
# Annotated listings

The listing of a compiled program has a heading with name and arity before the code of each
function, and a call of a function is followed by its name. The instructions and the functions, both
in the order of their addresses, are gone through side by side.
-/

namespace WordLisp

/-- A line of a listing. -/
inductive ListingLine where
  /-- The heading of a function. -/
  | heading (function : Function)
  /-- An instruction, and the function that it calls. -/
  | instruction (address : Nat) (inst : Inst) (callee? : Option Function)
  deriving DecidableEq

/-- What a line says, with its address in a column of this width. -/
def ListingLine.render (width : Nat) : ListingLine → String
  | .heading function => ": " ++ function.name ++ "/" ++ Text.decimal function.arity
  | .instruction address inst callee? =>
      "  @" ++ Text.padLeft ' ' width (Text.decimal address) ++ " " ++ inst.render ++
        callee?.elim "" (" ; " ++ ·.name)

/-- A line as it is written. A line feed ends it, unless the name at its end does so already. -/
def ListingLine.text (width : Nat) (line : ListingLine) : String :=
  let text := line.render width
  if text.toList.getLast? = some '\n' then text else text ++ "\n"

namespace Compiler

/-- The function whose code starts at an address, if there is one. -/
def functionAt? (compiler : Compiler) (address : Word) : Option Function :=
  let functions := compiler.functions
  let index := search (fun i ↦ functions[i]?.any (address.toInt ≤ ·.entry)) 0 functions.length
  functions[index]?.filter (·.entry = address.toInt)

/-- The function that an instruction calls, if that is known. -/
def callee? (compiler : Compiler) (inst : Inst) : Option Function :=
  if inst.op = .call then compiler.functionAt? inst.n else none

/-- The lines of the instructions from an address on, under the headings of those functions that
are still to come. Functions whose code would have started before are passed over. -/
def linesFrom (compiler : Compiler) (address : Nat) (functions : List Function) :
    List Inst → List ListingLine
  | [] => []
  | inst :: rest =>
      let passed := functions.takeWhile (·.entry ≤ address)
      let later := functions.dropWhile (·.entry ≤ address)
      (passed.filter (·.entry = address)).map .heading ++
        .instruction address inst (compiler.callee? inst) ::
          compiler.linesFrom (address + 1) later rest

/-- The lines of the program. -/
def lines (compiler : Compiler) : List ListingLine :=
  compiler.linesFrom 0 compiler.functions compiler.program.toList

/-- The lines of the program as they are written. -/
def texts (compiler : Compiler) : List String :=
  compiler.lines.map (·.text (Text.decimalWidth compiler.program.size))

/-- What stands above the lines of the program. -/
def listingTitle : String := "# Program\n"

/-- The listing of the program. -/
def listing (compiler : Compiler) : List String :=
  listingTitle :: compiler.texts

/-- The list of the functions. -/
def functionListing (compiler : Compiler) : List String :=
  "# Functions\n" :: compiler.functions.map fun function ↦ "  " ++ function.render ++ "\n"

end Compiler

end WordLisp
