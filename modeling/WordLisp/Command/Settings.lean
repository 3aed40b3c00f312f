import WordLisp.Command.Duration
import WordLisp.Command.Flag
import WordLisp.Machine.Run

/-!
# Settings of the command

The options of the command and what they set.
-/

namespace WordLisp.Command

/-- What the options of the command have set. -/
structure Settings where
  /-- The time limit of each run in nanoseconds; none if it is not positive. -/
  timeout : Int := 0
  trace : Bool := false
  stackSize : Word := Machine.defaultStackSize
  dump : Bool := false
  each : Bool := false
  interactive : Bool := false
  /-- An expression to evaluate after the files; none if it is empty. -/
  expression : String := ""

namespace Settings

/-- Give an option a value. -/
def set (name value : String) (settings : Settings) : Except ValueError Settings :=
  match name with
  | "timeout" => do return { settings with timeout := ← readDuration value }
  | "trace" => do return { settings with trace := ← readBool value }
  | "stack-size" => do return { settings with stackSize := Int64.ofInt (← readWord value) }
  | "dump" => do return { settings with dump := ← readBool value }
  | "each" => do return { settings with each := ← readBool value }
  | "i" => do return { settings with interactive := ← readBool value }
  | "e" => .ok { settings with expression := value }
  | _ => .error .malformed

/-- The options of the command. -/
def flags : Flags Settings where
  kind?
    | "trace" | "dump" | "each" | "i" => some .switch
    | "timeout" | "stack-size" | "e" => some .valued
    | _ => none
  set name value settings := (settings.set name value).mapError ValueError.message

/-- The explanation of the options. -/
def usage : String :=
  "Usage of intlisp:\n" ++
  "  -dump\n    \tprint the program listing before running it\n" ++
  "  -e string\n    \tevaluate an expression, after any files\n" ++
  "  -each\n    \trun each file as an independent program\n" ++
  "  -i\tstart an interactive session, after loading any files\n" ++
  "  -stack-size int\n    \toperand stack size (default 1024)\n" ++
  "  -timeout duration\n" ++
  "    \tlimit the run time of each program, or of each interactive entry\n" ++
  "  -trace\n    \tenable trace logging of compiled code and each machine step\n"

/-- The time that a machine is taken to need from one check of its watch to the next, in
nanoseconds. -/
def checkTime : Nat := 250000

/-- The watch of each run. A time limit lets as many checks pass as fit into it. -/
def watch (settings : Settings) : Watch :=
  if settings.timeout ≤ 0 then .never
  else { checks := settings.timeout.toNat / checkTime, reason := .deadline }

end Settings

end WordLisp.Command
