import WordLisp.Command.Files
import WordLisp.Command.Settings
import WordLisp.Log.Logger
import WordLisp.Session.Each
import WordLisp.Session.Repl

/-!
# The command

The command compiles and runs files, an expression, or its standard input, as one program or each on
its own, and may then go on interactively. `start` does all that comes before the first prompt; a
`Shell` is the interactive part, which takes line after line; `run` is the whole command as a
function of its arguments, the files and the standard input.

Values and listings are buffered and flushed after each run, while a prompt goes straight to the
standard output.
-/

namespace WordLisp.Command

open Text (Rune)

/-- What the command finds around it. -/
structure Surroundings where
  /-- What a path name stands for. -/
  file : String → Except OpenError File
  /-- The standard input. -/
  input : ByteArray

/-- The command between two lines of input. -/
structure Shell where
  repl : Repl
  logger : Logger
  watch : Watch
  /-- What is left of the standard input. -/
  input : ByteArray

/-- What the command has written when it ends, and its exit code. -/
structure Outcome where
  exitCode : Nat
  output : ByteArray
  errors : ByteArray

/-- Where the command stands after it has done its work on the sources. -/
inductive Stage where
  | ended (outcome : Outcome)
  | interactive (shell : Shell)

namespace Shell

/-- What has arrived at the standard output. -/
def output (shell : Shell) : ByteArray :=
  (shell.repl.session.writer.leaves.head?.bind Leaf.taken?).getD .empty

/-- What has been written to the log. -/
def errors (shell : Shell) : ByteArray :=
  (shell.logger.output?.map (·.taken)).getD .empty

/-- Write the trace to the log. -/
def logTrace (shell : Shell) : Shell :=
  let session := shell.repl.session
  { shell with
    logger := session.log.foldl (fun logger line ↦ logger.log "TRACE" line) shell.logger
    repl := { shell.repl with session := { session with log := #[] } } }

/-- The shell with another session, whose trace goes to the log. -/
def withSession (shell : Shell) (session : Session) : Shell :=
  { shell with repl := { shell.repl with session } }.logTrace

/-- Log a failure, if there is one. -/
def report (shell : Shell) (failure? : Option Failure) : Shell :=
  match failure? with
  | some failure => { shell with logger := shell.logger.report failure }
  | none => shell

/-- End the command: flush the output. -/
def close (shell : Shell) : Outcome :=
  let (session, failure?) := shell.repl.session.flush
  let shell := shell.withSession session
  let logger := shell.logger.unexpectedIf (failure?.map Failure.message)
  { exitCode := logger.exitCode
    output := shell.output
    errors := { shell with logger }.errors }

/-- Write the prompt. -/
def prompt (shell : Shell) : Shell :=
  let session := shell.repl.session
  let leaves := session.writer.leaves.map (·.writeThrough shell.repl.prompt.toUTF8)
  { shell with repl := { shell.repl with session := { session with writer := ⟨leaves⟩ } } }

/-- Take the answer to a prompt. If the session ends, the command does. -/
def feed (shell : Shell) (input : ReplInput) : Stage :=
  let (repl, ended?) := shell.repl.feed shell.watch input
  let shell := { shell with repl }.logTrace
  match ended? with
  | some failure? => .ended (shell.report failure?).close
  | none => .interactive shell

end Shell

/-- The most bytes of the input that are taken for one line. -/
def lineCapacity : Nat := 4096

/-- The first line of some input that is not empty, without its end, and how many bytes it takes up.
A line ends with a line feed, maybe after a carriage return. A longer line is cut, but not between a
carriage return and what follows it. -/
def firstLine (input : ByteArray) : ByteArray × Nat :=
  let window := input.extract 0 lineCapacity
  match window.toList.idxOf? 10 with
  | some 0 => (.empty, 1)
  | some index =>
      let stop := if window.toList[index - 1]? = some 13 then index - 1 else index
      (window.extract 0 stop, index + 1)
  | none =>
      if window.size = lineCapacity ∧ window.toList[lineCapacity - 1]? = some 13 then
        (window.extract 0 (lineCapacity - 1), lineCapacity - 1)
      else
        (window, window.size)

/-- Answer prompts with the lines of the standard input until the command ends; `bound` bounds the
number of lines. -/
def interact : Nat → Shell → Outcome
  | bound, shell =>
      let shell := shell.prompt
      if shell.input.isEmpty then
        match shell.feed .ended with
        | .ended outcome => outcome
        | .interactive shell => shell.close
      else
        let (line, size) := firstLine shell.input
        let shell := { shell with input := shell.input.extract size shell.input.size }
        match shell.feed (.line (Rune.decode line)), bound with
        | .ended outcome, _ => outcome
        | .interactive shell, 0 => shell.close
        | .interactive shell, bound + 1 => interact bound shell

/-- The sources of the names, up to the first that cannot be opened, and what is left of the
standard input. The name `-` stands for the standard input, which can be read once. -/
def openSources (surroundings : Surroundings) :
    List String → Except String (List Source) × ByteArray
  | [] => (.ok [], surroundings.input)
  | "-" :: names =>
      let source := Source.named "<stdin>" (Rune.decode surroundings.input)
      let (sources, input) := openSources { surroundings with input := .empty } names
      (sources.map (source :: ·), input)
  | name :: names =>
      match surroundings.file name with
      | .error error => (.error ("open " ++ name ++ ": " ++ error.message), surroundings.input)
      | .ok file =>
          let source := match file with
            | .text bytes => Source.named name (Rune.decode bytes)
            | .directory =>
                { name? := some name, text := [],
                  failure? := some ("read " ++ name ++ ": is a directory") }
          let (sources, input) := openSources surroundings names
          (sources.map (source :: ·), input)

/-- The names of the sources: without any, and with nothing else to do, the standard input. -/
def sourceNames (settings : Settings) (names : List String) : List String :=
  if !settings.interactive && names.isEmpty && settings.expression.isEmpty then ["-"] else names

/-- The session that the settings ask for. -/
def newSession (settings : Settings) : Session :=
  { Session.new settings.stackSize ⟨[.buffered { device := .unlimited }]⟩ with
    listsCode := settings.dump
    traces := settings.trace }

/-- Do the work on the sources. -/
def work (settings : Settings) (shell : Shell) (sources : List Source) : Stage :=
  let session := shell.repl.session
  if settings.each then
    let (session, failure?) := session.runEach shell.watch sources
    .ended ((shell.withSession session).report failure?).close
  else if sources.isEmpty then
    .interactive shell
  else
    let (session, result) := session.load shell.watch sources
    match result with
    | .error failure => .ended ((shell.withSession session).report (some failure)).close
    | .ok value =>
        let shell := shell.withSession (session.print (Word.render value ++ "\n"))
        if settings.interactive then .interactive shell else .ended shell.close

/-- The command up to the first prompt. -/
def start (surroundings : Surroundings) (arguments : List String) : Stage :=
  match Settings.flags.parse {} arguments with
  | .error .help => .ended ⟨0, .empty, Settings.usage.toUTF8⟩
  | .error (.wrong message) => .ended ⟨2, .empty, (message ++ "\n" ++ Settings.usage).toUTF8⟩
  | .ok (settings, names) =>
      let (sources, input) := openSources surroundings (sourceNames settings names)
      let shell : Shell := {
        repl := { session := newSession settings }
        logger := { output? := some .unlimited }
        watch := settings.watch
        input }
      match sources with
      | .error message => .ended { shell with logger := shell.logger.error message }.close
      | .ok sources =>
          let expression := Source.named "-e" (Rune.ofString settings.expression)
          work settings shell
            (if settings.expression.isEmpty then sources else sources ++ [expression])

/-- The whole command. -/
def run (surroundings : Surroundings) (arguments : List String) : Outcome :=
  match start surroundings arguments with
  | .ended outcome => outcome
  | .interactive shell => interact shell.input.size shell

end WordLisp.Command
