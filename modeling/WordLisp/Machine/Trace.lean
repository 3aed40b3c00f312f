import WordLisp.Machine.Run

/-!
# Traces of runs

A trace has one line for every instruction a run executes, with the registers and the stack before
it, and a last line with the value or with the fault that ended the run.
-/

namespace WordLisp.Machine

/-- The words of a stack in brackets. -/
def renderWords (words : List Word) : String :=
  "[" ++ " ".intercalate (words.map Word.render) ++ "]"

/-- The line of the instruction that the machine is about to execute. -/
def stepLine (program : Program) (machine : Machine) : String :=
  let inst := program[machine.pc]?.getD .hole
  "@ " ++ Text.padLeft ' ' 4 (Text.decimal machine.pc) ++ " " ++
    Text.padRight 10 inst.render ++
    " sp:" ++ Word.render machine.sp ++ " bp:" ++ Word.render machine.bp ++ " " ++
    renderWords (machine.live?.getD [])

/-- The lines of at most `allowance` steps, after those of the steps before. -/
def stepLines (program : Program) : Nat → Machine → Array String → Array String
  | 0, _, lines => lines
  | allowance + 1, machine, lines =>
      if machine.atEnd program then
        lines
      else
        let lines := lines.push (machine.stepLine program)
        match step program machine.tick with
        | .ok () next => stepLines program allowance next lines
        | .error _ _ => lines

/-- The line of a run that was broken off. -/
def faultLine (machine : Machine) (message : String) : String :=
  "# fault @" ++ Text.decimal machine.pc ++ ": " ++ message

/-- The last line of a run that came so far, if it has one. -/
def lastLine (reason : Interrupt) : Machine × Progress → List String
  | (machine, .faulted fault) => [machine.faultLine fault.message]
  | (machine, .paused) => [machine.faultLine reason.message]
  | (machine, .ended) =>
      match machine.result with
      | .ok value => ["# result " ++ Word.render value]
      | .error _ => []

/-- The trace of the run that `runAt` makes. -/
def traceAt (program : Program) (watch : Watch) (start : Word) (machine : Machine) :
    List String :=
  match startAddress? program start with
  | none => []
  | some pc =>
      let allowance := watch.allowance machine.steps
      let begun := machine.begin pc
      (stepLines program allowance begun #[]).toList ++
        lastLine watch.reason (begun.loop program allowance)

end WordLisp.Machine
