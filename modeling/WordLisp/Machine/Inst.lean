import WordLisp.Machine.Operator

/-!
# Instructions

An instruction is an operation code with its operand: a value, an argument index, an address or a
count of arguments, and the operator of a binary or unary instruction.
-/

namespace WordLisp

/-- What an instruction does. -/
inductive Op where
  /-- A placeholder that awaits its instruction; it faults when it is run. -/
  | hole
  /-- Push the operand. -/
  | constant
  /-- Push an argument of the current frame. -/
  | arg
  /-- Pop the right operand, then the left one, and push the result. -/
  | binary
  /-- Pop the operand and push the result. -/
  | unary
  /-- Go on at an address. -/
  | jump
  /-- Pop a word, and go on at an address if it is zero. -/
  | jumpZ
  /-- Push the address of the next instruction and go on at a function. -/
  | call
  /-- Open a frame over the arguments that were pushed. -/
  | enter
  /-- Close the current frame and leave its result in its place. -/
  | exit
  /-- A code that names no operation. -/
  | unknown (code : UInt8)
  deriving DecidableEq, Repr

namespace Op

/-- The operations that have a meaning, in the order of their codes, which count from 0. -/
def all : Array Op :=
  #[.hole, .constant, .arg, .binary, .unary, .jump, .jumpZ, .call, .enter, .exit]

/-- The operation with this code. -/
def ofCode (code : UInt8) : Op :=
  all[code.toNat]?.getD (.unknown code)

/-- The name of an operation in listings. -/
def name : Op → String
  | .hole => "_"
  | .constant => "constant"
  | .arg => "arg"
  | .binary => "binary"
  | .unary => "unary"
  | .jump => "jump"
  | .jumpZ => "jumpZ"
  | .call => "call"
  | .enter => "enter"
  | .exit => "exit"
  | .unknown code => "Op(" ++ Text.decimal code.toNat ++ ")"

end Op

/-- One instruction. Parts that its operation does not use have no effect. -/
structure Inst where
  op : Op
  n : Word := 0
  operator : Operator := .unknown 0
  deriving DecidableEq, Repr

namespace Inst

/-- Push `value`. -/
def constant (value : Word) : Inst := { op := .constant, n := value }

/-- Push the argument with this index. -/
def arg (index : Word) : Inst := { op := .arg, n := index }

/-- Apply an operator to two operands. -/
def binary (operator : Operator) : Inst := { op := .binary, operator }

/-- Apply an operator to one operand. -/
def unary (operator : Operator) : Inst := { op := .unary, operator }

/-- Go on at `address`. -/
def jump (address : Word) : Inst := { op := .jump, n := address }

/-- Pop a word, and go on at `address` if it is zero. -/
def jumpZ (address : Word) : Inst := { op := .jumpZ, n := address }

/-- Call the function at `address`. -/
def call (address : Word) : Inst := { op := .call, n := address }

/-- Open a frame over `count` arguments. -/
def enter (count : Word) : Inst := { op := .enter, n := count }

/-- Close the current frame. -/
def exit : Inst := { op := .exit }

/-- A placeholder. -/
def hole : Inst := { op := .hole }

/-- An instruction as listings show it, such as `3`, `arg 0`, `+`, `jumpZ 6` or `exit`. -/
def render (inst : Inst) : String :=
  match inst.op with
  | .constant => Word.render inst.n
  | .binary | .unary => inst.operator.name
  | .arg | .jump | .jumpZ | .call | .enter => inst.op.name ++ " " ++ Word.render inst.n
  | .exit | .hole => inst.op.name
  | .unknown _ => inst.op.name ++ "(" ++ Word.render inst.n ++ ")"

end Inst

end WordLisp
