import WordLisp.Machine.Inst

/-!
# Programs

A program is a sequence of instructions; the address of an instruction is its index. Code is added
at the end. An instruction that is not known yet leaves a hole, which is patched exactly once.
-/

namespace WordLisp

/-- A sequence of instructions. -/
abbrev Program := Array Inst

/-- Why a program refuses a patch. -/
inductive PatchError where
  | outside (address : Word) (length : Nat)
  | overwrite (address : Nat) (inst : Inst)
  | withHole (address : Nat)
  deriving DecidableEq

namespace PatchError

/-- The kind of every refused patch. -/
def kind : String := "vm.patch"

/-- Why a patch was refused, without the kind. -/
def detail : PatchError → String
  | .outside address length =>
      "patch address " ++ Word.render address ++ " outside program of length " ++
        Text.decimal length
  | .overwrite address inst =>
      "patch @" ++ Text.decimal address ++ " would overwrite " ++ inst.render
  | .withHole address => "patch @" ++ Text.decimal address ++ " with a hole"

/-- The message of a refused patch. -/
def message (error : PatchError) : String :=
  kind ++ ": " ++ error.detail

end PatchError

namespace Program

/-- The index of an address, if it is one of a sequence of this length. -/
def index? (length : Nat) (address : Word) : Option Nat :=
  if 0 ≤ address ∧ address.toNatClampNeg < length then some address.toNatClampNeg else none

/-- The instruction at an address, if there is one. -/
def at? (program : Program) (address : Word) : Option Inst :=
  (index? program.size address).bind (program[·]?)

/-- Fill the hole with this index. -/
def fill (program : Program) (index : Nat) (inst : Inst) : Except PatchError Program :=
  match program[index]? with
  | none => .error (.outside (Int64.ofNat index) program.size)
  | some old =>
      if old.op ≠ .hole then
        .error (.overwrite index old)
      else if inst.op = .hole then
        .error (.withHole index)
      else
        .ok (program.setIfInBounds index inst)

/-- Fill the hole at an address. -/
def patch (program : Program) (address : Word) (inst : Inst) : Except PatchError Program :=
  match index? program.size address with
  | none => .error (.outside address program.size)
  | some index => program.fill index inst

/-- Drop every instruction from an address on. There is no program that ends before address 0. -/
def truncate? (program : Program) (address : Word) : Option Program :=
  if address < 0 then none else some (program.take address.toNatClampNeg)

/-- The program on one line, in brackets. -/
def render (program : Program) : String :=
  "[" ++ ", ".intercalate (program.toList.map Inst.render) ++ "]"

/-- One line of a listing. -/
def listingLine (width : Nat) (inst : Inst) (address : Nat) : String :=
  "@" ++ Text.padLeft ' ' width (Text.decimal address) ++ " " ++ inst.render ++ "\n"

/-- The listing of a program, line by line. -/
def listing (program : Program) : List String :=
  program.toList.mapIdx fun address inst ↦
    listingLine (Text.decimalWidth program.size) inst address

end Program

end WordLisp
