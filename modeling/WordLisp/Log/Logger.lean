import WordLisp.Failure
import WordLisp.Log.Lines
import WordLisp.Output.Leaf
import WordLisp.Text.Template

/-!
# The diagnostic log

A logger writes lines `level: message` and remembers how the process should exit: with 0 if nothing
went wrong, with 1 if only expected errors were logged, and with 2 once an unexpected error was
logged or a line could not be written.

A line is put together in a buffer and written at once. What the output does not take of it stays in
the buffer until the buffer is cleared for the next line.
-/

namespace WordLisp

/-- A log. Without an output, lines are dropped. -/
structure Logger where
  output? : Option Device := none
  /-- The line that is being put together, or what is left of it. -/
  buffer : ByteArray := .empty
  exitCode : Nat := 0

namespace Logger

/-- What stands between a level and its message. -/
def separator : ByteArray := ": ".toUTF8

/-- The level of errors. -/
def errorLevel : ByteArray := "ERROR".toUTF8

/-- Write to another output from now on, or to none. -/
def setOutput (logger : Logger) (output? : Option Device) : Logger :=
  { logger with output? }

/-- Put bytes behind those in the buffer. -/
def put (logger : Logger) (bytes : ByteArray) : Logger :=
  { logger with buffer := logger.buffer ++ bytes }

/-- Put the level of a line into the buffer. The empty level is none. -/
def putLevel (logger : Logger) (level : ByteArray) : Logger :=
  if level.isEmpty then logger else (logger.put level).put separator

/-- End the line in the buffer, if there is one that has not been ended. -/
def endLine (logger : Logger) : Logger :=
  match logger.buffer.data.back? with
  | some last => if last = LineLog.lineFeed then logger else logger.put ⟨#[LineLog.lineFeed]⟩
  | none => logger

/-- Why a write did not take all bytes, if it did not. -/
def failure? (result : WriteResult) (bytes : ByteArray) : Option String :=
  result.error? <|> if result.count ≠ bytes.size then some shortWrite else none

/-- Offer what is in the buffer to the output. What it does not take stays in the buffer. An empty
buffer is not offered, and without an output nothing happens. -/
def flush (logger : Logger) : Logger × Option String :=
  match logger.output? with
  | none => (logger, none)
  | some device =>
      if logger.buffer.isEmpty then
        (logger, none)
      else
        let (device, result) := device.write logger.buffer
        ({ logger with
            output? := some device
            buffer := logger.buffer.extract result.count logger.buffer.size },
          failure? result logger.buffer)

/-- Clear the buffer. -/
def clear (logger : Logger) : Logger :=
  { logger with buffer := .empty }

/-- Write a line at once, and say why it did not arrive as a whole. -/
def write (logger : Logger) (level message : ByteArray) : Logger × Option String :=
  let (logger, error?) := ((logger.putLevel level).put message).endLine.flush
  (logger.clear, error?)

/-- Log a message at a level. -/
def print (logger : Logger) (level message : ByteArray) : Logger :=
  match logger.write level message with
  | (logger, none) => logger
  | (logger, some _) => { logger with exitCode := 2 }

/-- How messages are logged at a level. -/
def leveled (level : ByteArray) : Logger → ByteArray → Logger :=
  fun logger message ↦ logger.print level message

/-- Log an expected error. -/
def printError (logger : Logger) (message : ByteArray) : Logger :=
  match logger.write errorLevel message with
  | (logger, none) => if logger.exitCode = 0 then { logger with exitCode := 1 } else logger
  | (logger, some _) => { logger with exitCode := 2 }

/-- Log an unexpected error, whether or not the line arrives. -/
def printUnexpected (logger : Logger) (message : ByteArray) : Logger :=
  { (logger.write errorLevel message).1 with exitCode := 2 }

/-- Log an unexpected error, if there is one. -/
def printUnexpectedIf (logger : Logger) (message? : Option ByteArray) : Logger :=
  match message? with
  | some message => logger.printUnexpected message
  | none => logger

/-- Log a text at a level. -/
def log (logger : Logger) (level message : String) : Logger :=
  leveled level.toUTF8 logger message.toUTF8

/-- Log the text of an expected error. -/
def error (logger : Logger) (message : String) : Logger :=
  logger.printError message.toUTF8

/-- Log the text of an unexpected error, if there is one. -/
def unexpectedIf (logger : Logger) (message? : Option String) : Logger :=
  logger.printUnexpectedIf (message?.map String.toUTF8)

/-- Log the failure of an action by what it is. -/
def report (logger : Logger) (failure : Failure) : Logger :=
  if failure.isExpected then logger.error failure.message
  else logger.unexpectedIf (some failure.message)

end Logger

end WordLisp
