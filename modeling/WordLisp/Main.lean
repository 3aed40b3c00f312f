import WordLisp.Command.Run

/-!
# The command line

The command with its real files, standard input and standard output.
-/

namespace WordLisp

open Text (Rune)

/-- Look a path name up among the real files. What can be opened but not read is a directory. -/
def readFile (name : String) : IO (Except Command.OpenError Command.File) := do
  try
    return .ok (.text (← IO.FS.readBinFile name))
  catch
    | .noFileOrDirectory .. => return .error .missing
    | .inappropriateType (some _) .. => return .error .notDirectory
    | .invalidArgument (some _) .. => return .error .nameTooLong
    | _ => return .ok .directory

/-- Read a stream to its end, after what has been read before. -/
partial def readToEnd (stream : IO.FS.Stream) (before : ByteArray) : IO ByteArray := do
  let piece ← stream.read 65536
  if piece.isEmpty then return before else readToEnd stream (before ++ piece)

/-- Write what the command has written since it had written `written` bytes. -/
def showSince (stream : IO.FS.Stream) (bytes : ByteArray) (written : Nat) : IO Nat := do
  stream.write (bytes.extract written bytes.size)
  stream.flush
  return bytes.size

/-- End the command. -/
def finish (outcome : Command.Outcome) (shownOutput shownErrors : Nat) : IO UInt32 := do
  let _ ← showSince (← IO.getStdout) outcome.output shownOutput
  let _ ← showSince (← IO.getStderr) outcome.errors shownErrors
  return UInt32.ofNat outcome.exitCode

/-- Answer prompts with lines of the standard input until the command ends. -/
partial def converse (shell : Command.Shell) (shownOutput shownErrors : Nat) : IO UInt32 := do
  let shell := shell.prompt
  let shownOutput ← showSince (← IO.getStdout) shell.output shownOutput
  let shownErrors ← showSince (← IO.getStderr) shell.errors shownErrors
  let line ← (← IO.getStdin).getLine
  let input : ReplInput :=
    if line.isEmpty then .ended
    else .line (Rune.decode (Command.firstLine line.toUTF8).1)
  match shell.feed input with
  | .ended outcome => finish outcome shownOutput shownErrors
  | .interactive shell => converse shell shownOutput shownErrors

end WordLisp

open WordLisp

/-- The command line of the language. -/
def main (arguments : List String) : IO UInt32 := do
  let names := match Command.Settings.flags.parse {} arguments with
    | .ok (settings, names) => Command.sourceNames settings names
    | .error _ => []
  let files ← names.mapM fun name ↦ return (name, ← readFile name)
  let input ← if names.contains "-" then readToEnd (← IO.getStdin) .empty else pure .empty
  let surroundings : Command.Surroundings :=
    { file := fun name ↦ (files.lookup name).getD (.error .missing), input }
  match Command.start surroundings arguments with
  | .ended outcome => finish outcome 0 0
  | .interactive shell => converse shell 0 0
