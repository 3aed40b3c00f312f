import WordLisp.Machine.Fault
import WordLisp.Machine.Program

/-!
# The stack machine

A machine has one stack, which holds temporaries and call frames alike, and three registers: `sp` is
the next free slot, `bp` the base of the current frame, and `pc` the address of the next
instruction.

A call site pushes the arguments, and `call` pushes the return address. The `enter` of the callee
pushes the `bp` of the caller and points `bp` at the first argument, so that a frame holds, from
`bp` on, the arguments, the return address, the `bp` of the caller, temporaries, and at last the
result. `exit` restores `pc` and `bp` and leaves the result in place of the whole frame.

A step that faults keeps what it did to the registers and the stack before the fault.
-/

namespace WordLisp

/-- A machine between two steps. -/
structure Machine where
  stack : Memory
  sp : Word := 0
  bp : Word := 0
  pc : Nat := 0
  /-- The number of steps begun since the machine was made. -/
  steps : Nat := 0
  /-- Whether the machine has been given a program to run. -/
  started : Bool := false

/-- Compute `left op right`. A unary operator looks at the left operand only. -/
def Operator.apply (operator : Operator) (left right : Word) : Except Fault Word :=
  match operator with
  | .eq => .ok (Word.ofBool (left == right))
  | .ne => .ok (Word.ofBool (left != right))
  | .lt => .ok (Word.ofBool (left < right))
  | .le => .ok (Word.ofBool (left ≤ right))
  | .gt => .ok (Word.ofBool (left > right))
  | .ge => .ok (Word.ofBool (left ≥ right))
  | .add => .ok (left + right)
  | .sub => .ok (left - right)
  | .mul => .ok (left * right)
  | .div => if right = 0 then .error (.divideByZero left) else .ok (left / right)
  | .mod => if right = 0 then .error (.remainderByZero left) else .ok (left % right)
  | .and => .ok (if left = 0 then 0 else right)
  | .or => .ok (if left = 0 then right else left)
  | .not => .ok (Word.ofBool (left == 0))
  | .unknown code => .error (.operator (.unknown code))

namespace Machine

/-- The number of stack slots of a machine that was given none. -/
def defaultStackSize : Word := 1024

/-- A machine with an empty stack of `size` slots. A size that is not positive selects the
default. -/
def new (size : Word) : Machine where
  stack := Memory.empty 0 (if size ≤ 0 then defaultStackSize else size)

/-- The number of stack slots. -/
def stackSize (machine : Machine) : Word :=
  machine.stack.limit

/-- The words on the stack, from the bottom up. If `sp` is negative there is no such stack. -/
def live? (machine : Machine) : Option (List Word) :=
  if machine.sp < 0 then
    none
  else
    match machine.stack.loadRange 0 machine.sp.toNatClampNeg with
    | .ok words => some words
    | .error _ => some []

/-- A change of the machine, which may fault. -/
abbrev Exec := EStateM Fault Machine

namespace Exec

/-- Put a word on the stack. -/
def push (value : Word) : Exec Unit := fun machine ↦
  match machine with
  | { stack, sp, bp, pc, steps, started } =>
    match stack.store sp [value] with
    | (stack, none) => .ok () { stack, sp := sp + 1, bp, pc, steps, started }
    | (stack, some cause) => .error (.push cause) { stack, sp, bp, pc, steps, started }

/-- Take the top word off the stack. -/
def pop : Exec Word := fun machine ↦
  if machine.sp ≤ 0 then
    .error .emptyPop machine
  else
    let machine := { machine with sp := machine.sp - 1 }
    match machine.stack.load machine.sp with
    | .ok value => .ok value machine
    | .error cause => .error (.read "pop" cause) machine

/-- The argument of the current frame with this index. -/
def argument (index : Word) : Exec Word := fun machine ↦
  let address := machine.bp + index
  if index < 0 ∨ machine.sp ≤ address then
    .error (.argument index machine.bp machine.sp) machine
  else
    match machine.stack.load address with
    | .ok value => .ok value machine
    | .error cause => .error (.read ("arg " ++ Word.render index) cause) machine

/-- Go on at an address of a program with `length` instructions, or at its end. -/
def jump (length : Nat) (address : Word) : Exec Unit := fun machine ↦
  if address < 0 ∨ length < address.toNatClampNeg then
    .error (.jump address length) machine
  else
    .ok () { machine with pc := address.toNatClampNeg }

/-- The result of an operator, or its fault. -/
def ofResult : Except Fault Word → Exec Word
  | .ok value => pure value
  | .error fault => throw fault

end Exec

open Exec

/-- Run the instruction at `address`, with `pc` already behind it, in a program of `length`
instructions. -/
def perform (length address : Nat) (inst : Inst) : Exec Unit := do
  match inst.op with
  | .constant => push inst.n
  | .arg => push (← argument inst.n)
  | .binary =>
      let right ← pop
      let left ← pop
      push (← ofResult (inst.operator.apply left right))
  | .unary =>
      let operand ← pop
      push (← ofResult (inst.operator.apply operand 0))
  | .jump => jump length inst.n
  | .jumpZ =>
      let condition ← pop
      if condition = 0 then jump length inst.n
  | .call =>
      push (Int64.ofNat (← get).pc)
      jump length inst.n
  | .enter =>
      push (← get).bp
      let sp := (← get).sp
      let frame := sp - 2 - inst.n
      if frame < 0 then throw (.enter inst.n address sp)
      modify ({ · with bp := frame })
  | .exit =>
      let frame := (← get).bp
      let result ← pop
      let caller ← pop
      modify ({ · with bp := caller })
      jump length (← pop)
      let sp := (← get).sp
      if sp < frame then throw (.exit address frame sp)
      modify ({ · with sp := frame })
      push result
  | .hole => throw (.unpatched address)
  | .unknown _ => throw (.instruction inst address)

end Machine

end WordLisp
