import WordLisp.Session.Basic
import WordLisp.Text.Space

/-!
# Interactive sessions

Lines are collected into an entry until no list is left open. Then each expression of the entry is
entered and its value, the function it defined, or its error is printed. A line that starts with a
colon is a command, if no entry is pending. Every complete entry and every command goes into the
history, and the output is flushed after it.

`Repl` is the state between two lines: `prompt` is what the next line is asked for with, and
`Repl.feed` takes it.
-/

namespace WordLisp

open Text (Rune)

/-- What came in answer to a prompt. -/
inductive ReplInput where
  | line (text : List Rune)
  /-- The pending entry is given up. -/
  | abort
  /-- The lines have come to their end. -/
  | ended
  /-- The lines cannot be read any more. -/
  | failed (message : String)

/-- An interactive session between two lines. -/
structure Repl where
  session : Session
  /-- The lines of the pending entry, each with its line feed. -/
  entry : List Rune := []
  /-- The entries and commands so far. -/
  history : Array (List Rune) := #[]

namespace Repl

/-- The prompt for a line. -/
def prompt (repl : Repl) : String :=
  if repl.entry.isEmpty then "intlisp> " else "     ... "

/-- Enter an expression and print what it gave. -/
def enter (watch : Watch) (session : Session) (node : Node) : Session :=
  let (session, result) := session.enter watch node
  match result with
  | .ok (.defined function) => session.print (function.render ++ "\n")
  | .ok (.value word) => session.print (Word.render word ++ "\n")
  | .error failure => session.print ("! " ++ failure.message ++ "\n")

/-- Carry a command out. -/
def command (session : Session) (text : List Rune) : Session :=
  match Rune.toText text with
  | ":dump" => session.dump
  | ":funcs" => session.dumpFunctions
  | ":stack" => session.dumpMachine
  | _ => session.print
      ("! unknown command " ++ Text.quoted text ++ ", try :dump :funcs or :stack\n")

/-- Flush the output after an entry; a failure ends the session. -/
def flushed (repl : Repl) : Repl × Option (Option Failure) :=
  let (session, failure?) := repl.session.flush
  ({ repl with session }, failure?.map some)

/-- Take a complete entry: its expressions, and the error that followed them. -/
def complete (repl : Repl) (watch : Watch) (text : List Rune) (nodes : List Node)
    (error? : Option ReadError) : Repl × Option (Option Failure) :=
  let session := nodes.foldl (enter watch) repl.session
  let session := match error? with
    | some error => session.print ("! " ++ error.message ++ "\n")
    | none => session
  let trimmed := Text.trim text
  let history := if trimmed.isEmpty then repl.history else repl.history.push trimmed
  flushed { session, entry := [], history }

/-- Take the line that answers the prompt. -/
def feedLine (repl : Repl) (watch : Watch) (line : List Rune) :
    Repl × Option (Option Failure) :=
  let trimmed := Text.trim line
  if repl.entry.isEmpty ∧ trimmed.head? = some (.char ':') then
    flushed { repl with
      session := command repl.session trimmed
      history := repl.history.push trimmed }
  else
    let text := repl.entry ++ line ++ [.char '\n']
    let (nodes, error?) := (Reader.ofText text).readAll
    if error?.any ReadError.isIncomplete then
      ({ repl with entry := text }, none)
    else
      repl.complete watch text nodes error?

/-- Take what came in answer to the prompt. If the session ends, also say with which failure, if
any. -/
def feed (repl : Repl) (watch : Watch) : ReplInput → Repl × Option (Option Failure)
  | .line text => repl.feedLine watch text
  | .abort => ({ repl with entry := [] }, none)
  | .failed message => (repl, some (some (.other message)))
  | .ended =>
      let (session, failure?) := repl.session.flush
      ({ repl with session }, some failure?)

end Repl

end WordLisp
