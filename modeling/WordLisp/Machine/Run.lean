import WordLisp.Machine.Basic

/-!
# Running programs

A run starts with an empty stack at a given address and ends when `pc` reaches the end of the
program; its value is then the word on top of the stack. It may also end in a fault, or be
interrupted: before every 4096th step, counted over all runs of the machine, it looks at a `Watch`,
which lets the run go on a number of times and then ends it.
-/

namespace WordLisp

/-- Why a watch ends a run. -/
inductive Interrupt where
  | canceled
  | deadline
  deriving DecidableEq, Repr

/-- The message of an interrupted run. -/
def Interrupt.message : Interrupt → String
  | .canceled => "context canceled"
  | .deadline => "context deadline exceeded"

/-- How long a run may go on: it passes `checks` checks, and the next one ends it. -/
structure Watch where
  checks : Nat
  reason : Interrupt := .canceled

namespace Watch

/-- A watch that no run outlasts. -/
def never : Watch where
  checks := 1 <<< 49

/-- A watch that ends the run at its first check. -/
def canceled : Watch where
  checks := 0

/-- The number of steps from one check to the next. -/
def interval : Nat := 4096

/-- How many steps a run may take before the check that ends it, if `steps` were begun before. -/
def allowance (watch : Watch) (steps : Nat) : Nat :=
  (watch.checks + 1) * interval - steps % interval - 1

end Watch

/-- Why a run gave no value. -/
inductive Stop where
  | fault (cause : Fault)
  | interrupted (reason : Interrupt)
  deriving DecidableEq

instance : DecidableEq (Except Stop Word)
  | .ok value, .ok value' => decidable_of_iff (value = value') ⟨congrArg _, Except.ok.inj⟩
  | .error stop, .error stop' => decidable_of_iff (stop = stop') ⟨congrArg _, Except.error.inj⟩
  | .ok _, .error _ => isFalse nofun
  | .error _, .ok _ => isFalse nofun

/-- The message of a run that gave no value. -/
def Stop.message : Stop → String
  | .fault cause => cause.message
  | .interrupted reason => reason.message

namespace Machine

/-- Whether the machine has reached the end of the program. -/
def atEnd (machine : Machine) (program : Program) : Bool :=
  program.size ≤ machine.pc

/-- The machine with one more step counted. -/
def tick (machine : Machine) : Machine :=
  { machine with steps := machine.steps + 1 }

/-- Run the instruction at `pc`. -/
def step (program : Program) : Exec Unit := fun machine ↦
  match program[machine.pc]? with
  | none => .ok () machine
  | some inst =>
      perform program.size machine.pc inst { machine with pc := machine.pc + 1 }

/-- How far a number of steps has brought a run. -/
inductive Progress where
  /-- The end of the program has been reached. -/
  | ended
  /-- The last step faulted. -/
  | faulted (cause : Fault)
  /-- The steps are used up. -/
  | paused
  deriving DecidableEq

/-- Take at most `allowance` steps. A machine that has paused can go on from where it is. -/
def loop (program : Program) : Nat → Machine → Machine × Progress
  | 0, machine => (machine, if machine.atEnd program then .ended else .paused)
  | allowance + 1, machine =>
      if machine.atEnd program then
        (machine, .ended)
      else
        match step program machine.tick with
        | .ok () next => loop program allowance next
        | .error fault failed => (failed, .faulted fault)

/-- To take `m + n` steps is to take `m` steps, and `n` more if the machine has paused. -/
theorem loop_add (program : Program) (m n : Nat) (machine : Machine) :
    machine.loop program (m + n) =
      match machine.loop program m with
      | (paused, .paused) => paused.loop program n
      | stopped => stopped := by
  induction m generalizing machine with
  | zero =>
      by_cases h : machine.atEnd program
      · cases n <;> simp [loop, h]
      · simp [loop, h]
  | succ m ih =>
      rw [Nat.succ_add]
      by_cases h : machine.atEnd program
      · simp [loop, h]
      · simp only [loop, h]
        cases step program machine.tick with
        | ok _ next => exact ih next
        | error fault failed => rfl

/-- The machine at the start of a run. -/
def begin (machine : Machine) (pc : Nat) : Machine :=
  { machine with sp := 0, bp := 0, pc, started := true }

/-- The address at which a run may start: one of the program, or its end. -/
def startAddress? (program : Program) (start : Word) : Option Nat :=
  Program.index? (program.size + 1) start

/-- The value that a finished run left. -/
def result (machine : Machine) : Except Fault Word :=
  if machine.sp ≤ 0 then
    .error .emptyResult
  else
    match machine.stack.load (machine.sp - 1) with
    | .ok value => .ok value
    | .error cause => .error (.read "result" cause)

/-- What a run came to. One that has paused before its end is interrupted at the next check, for
which one more step is counted. -/
def conclude (reason : Interrupt) : Machine × Progress → Machine × Except Stop Word
  | (machine, .faulted fault) => (machine, .error (.fault fault))
  | (machine, .paused) => (machine.tick, .error (.interrupted reason))
  | (machine, .ended) =>
      match machine.result with
      | .ok value => (machine, .ok value)
      | .error fault => (machine, .error (.fault fault))

/-- Run a program from an address until it ends. -/
def runAt (program : Program) (watch : Watch) (start : Word) (machine : Machine) :
    Machine × Except Stop Word :=
  match startAddress? program start with
  | none => (machine.begin 0, .error (.fault (.start start program.size)))
  | some pc =>
      conclude watch.reason ((machine.begin pc).loop program (watch.allowance machine.steps))

/-- Run a program from its first instruction. -/
def run (program : Program) (watch : Watch) (machine : Machine) : Machine × Except Stop Word :=
  machine.runAt program watch 0

end Machine

end WordLisp
