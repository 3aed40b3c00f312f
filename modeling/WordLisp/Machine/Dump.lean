import WordLisp.Machine.Basic

/-!
# Dumps of the machine

A dump shows the registers, the stack with the slots that `bp` and `sp` point at, and, once the
machine has been given a program, the listing of the program with the instruction that `pc` points
at. It is a sequence of pieces, each written at once.
-/

namespace WordLisp.Machine

/-- An address of a dump, in a column of this width. -/
def dumpAddress (width address : Nat) : String :=
  "  @" ++ Text.padLeft ' ' width (Text.decimal address)

/-- The part of a dump that shows the stack. -/
def dumpStack (machine : Machine) (words : List Word) : List String :=
  let width := Text.decimalWidth words.length
  let line (slot : Nat) (word : Word) : String :=
    dumpAddress width slot ++ " " ++ Word.render word ++
      (if Int64.ofNat slot = machine.bp then " <- bp" else "") ++ "\n"
  "# Stack\n" :: words.mapIdx line ++ [dumpAddress width words.length ++ " <- sp\n"]

/-- The part of a dump that shows the program. -/
def dumpProgram (machine : Machine) (program : Program) : List String :=
  let width := Text.decimalWidth program.size
  let pieces (address : Nat) (inst : Inst) : List String :=
    (dumpAddress width address ++ " " ++ inst.render) ::
      (if address = machine.pc then [" <- pc", "\n"] else ["\n"])
  "# Program\n" :: (program.toList.mapIdx pieces).flatten

/-- The pieces of a dump. If `sp` is negative there is no stack to show and no dump. -/
def dump? (machine : Machine) (program : Program) : Option (List String) := do
  let words ← machine.live?
  let registers := [
    "# Machine Dump\n",
    "  pc: " ++ Text.decimal machine.pc ++ "\n",
    "  bp: " ++ Word.render machine.bp ++ "\n",
    "  sp: " ++ Word.render machine.sp ++ "\n"]
  let code := if machine.started then machine.dumpProgram program else []
  return registers ++ machine.dumpStack words ++ code

end WordLisp.Machine
