/-!
# Cutting output into lines

Bytes that arrive in pieces are logged line by line, each line behind a label. However they are cut
into pieces, each line is logged once, as soon as its line feed has arrived; the bytes of an
unfinished line are kept until then, or until the end.
-/

namespace WordLisp

/-- A log that is written in pieces. -/
structure LineLog where
  /-- What stands before every line. -/
  label : List UInt8 := []
  /-- What has been written so far without a line feed after it. -/
  pending : List UInt8 := []
  deriving DecidableEq

namespace LineLog

/-- The byte that ends a line. -/
def lineFeed : UInt8 := 10

/-- Take the complete lines off the front of a buffer, one after the other and without their line
feeds. What is left of the buffer comes back. -/
def drain (buffer : List UInt8) : List (List UInt8) × List UInt8 :=
  match h : buffer.idxOf? lineFeed with
  | none => ([], buffer)
  | some i =>
      have : i < buffer.length := (List.idxOf?_eq_some_iff.mp h).1
      let (lines, left) := drain (buffer.drop (i + 1))
      (buffer.take i :: lines, left)
termination_by buffer.length

/-- Write some bytes: the lines they complete are logged. -/
def write (log : LineLog) (bytes : List UInt8) : LineLog × List (List UInt8) :=
  let (lines, pending) := drain (log.pending ++ bytes)
  ({ log with pending }, lines.map (log.label ++ ·))

/-- Log what is left, if anything is. -/
def finish (log : LineLog) : LineLog × List (List UInt8) :=
  ({ log with pending := [] }, if log.pending.isEmpty then [] else [log.label ++ log.pending])

end LineLog

end WordLisp
