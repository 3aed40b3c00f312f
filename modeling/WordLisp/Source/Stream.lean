import WordLisp.Source.Queue

/-!
# Streams of located characters

A reader of expressions sees a stream: characters with their positions, the position at which the
stream ends, and the failure it ends in, if any. `Source.stream` makes one of a single source,
`Queue.stream` of a queue. A NUL and the boundary between two sources are a blank to the reader.

The two count differently. In a single source a line feed belongs to the line it ends, and the end
stands after the last character. In a queue a position is taken after the character was read, so a
line feed is already on the next line, and so is the end.
-/

namespace WordLisp

open Text (Rune)

/-- A character and where it stands. -/
structure Cell where
  char : Char
  position : Position

/-- The characters a reader sees, in order, and how they end. -/
structure Stream where
  cells : List Cell
  final : Position
  failure? : Option String

namespace Stream

/-- The stream with one more character in front. -/
def cons (cell : Cell) (stream : Stream) : Stream :=
  { stream with cells := cell :: stream.cells }

end Stream

/-- A NUL reads as a blank. -/
def Text.Rune.readAs (rune : Rune) : Char :=
  if rune.toChar = '\x00' then ' ' else rune.toChar

namespace Source

/-- The name that positions in a single source carry; an empty name is none. -/
def positionName? (source : Source) : Option String :=
  source.name?.filter (· ≠ "")

/-- The stream of a text whose reader has passed `column` characters of line `line`. -/
def streamFrom (source : Source) (line column : Nat) : List Rune → Stream
  | [] => ⟨[], ⟨source.positionName?, line, some column⟩, source.failure?⟩
  | rune :: rest =>
      let following :=
        if rune.toChar = '\n' then source.streamFrom (line + 1) 0 rest
        else source.streamFrom line (column + 1) rest
      following.cons ⟨rune.readAs, source.positionName?, line, some (column + 1)⟩

/-- The stream of a source read on its own. -/
def stream (source : Source) : Stream :=
  source.streamFrom 1 0 source.text

end Source

namespace Queue

/-- The stream of what is left in a queue. It ends at the first failure. -/
def stream (queue : Queue) : Stream :=
  match queue.next, queue.remaining_next_lt with
  | (.rune rune, rest), progress =>
      have : rest.remaining < queue.remaining := progress rfl
      rest.stream.cons ⟨rune.readAs, rest.position⟩
  | (.boundary, rest), progress =>
      have : rest.remaining < queue.remaining := progress rfl
      rest.stream.cons ⟨' ', rest.position⟩
  | (.ended, rest), _ => ⟨[], rest.position, none⟩
  | (.failed message, rest), _ => ⟨[], rest.position, some message⟩
termination_by queue.remaining

end Queue

end WordLisp
