import WordLisp.Source.Basic
import WordLisp.Source.Position
import WordLisp.Text.Quoted

/-!
# Queued sources

`Queue` reads several sources one after the other, rune by rune, and keeps the line it is on and
the line before it for diagnostics. Between two sources it reports one boundary, so that no token
spans two of them. After the last source it reports the end each time it is asked.
-/

namespace WordLisp

open Text (Rune)

/-- A line of a source as far as it has been read. -/
structure Line where
  source : String
  number : Nat
  text : Array Char

namespace Line

/-- The position of the last character read on the line. Before the first one there is no column. -/
def position (line : Line) : Position where
  source? := some line.source
  line := line.number
  column? := if line.text.isEmpty then none else some line.text.size

/-- The line as a diagnostic shows it: its number, and the quoted text. -/
def render (line : Line) : String :=
  line.source ++ ":" ++ Text.decimal line.number ++ " " ++
    Text.quoted (line.text.toList.map Rune.char)

/-- The line with one more character. -/
def push (line : Line) (c : Char) : Line :=
  { line with text := line.text.push c }

/-- The empty line that follows. -/
def next (line : Line) : Line :=
  { line with number := line.number + 1, text := #[] }

end Line

/-- What is left of the source being read. -/
structure OpenSource where
  text : List Rune
  failure? : Option String

/-- A queue of sources, partly read. -/
structure Queue where
  /-- The source being read; there is none before the first source and after the last. -/
  current? : Option OpenSource
  /-- The sources that come after it. -/
  pending : List Source
  /-- The line being read. -/
  scan : Line
  /-- The line before it. -/
  last : Line

/-- What one reading of a queue gives. -/
inductive Reading where
  /-- The next rune of the source. -/
  | rune (rune : Rune)
  /-- The end of a source that another one follows. -/
  | boundary
  /-- The end of the last source. -/
  | ended
  /-- The failure of the source. -/
  | failed (message : String)

/-- The character that a reading gives and the number of bytes it stands for, if it gives one. A
boundary is a NUL of no bytes. -/
def Reading.unit? : Reading → Option (Char × Nat)
  | .rune next => some (next.toChar, next.size)
  | .boundary => some ('\x00', 0)
  | .ended | .failed _ => none

namespace Queue

/-- The queue of these sources before anything is read. -/
def ofSources (sources : List Source) : Queue where
  current? := none
  pending := sources
  scan := ⟨"", 0, #[]⟩
  last := ⟨"", 0, #[]⟩

/-- The position of the last rune read. -/
def position (queue : Queue) : Position :=
  queue.scan.position

/-- End the line being read. -/
def endLine (queue : Queue) : Queue :=
  { queue with last := queue.scan, scan := queue.scan.next }

/-- Take note of a character that was read. -/
def pass (queue : Queue) (c : Char) : Queue :=
  if c = '\n' then queue.endLine else { queue with scan := queue.scan.push c }

@[simp] theorem current?_pass (queue : Queue) (c : Char) :
    (queue.pass c).current? = queue.current? := by
  unfold pass endLine
  split <;> rfl

@[simp] theorem pending_pass (queue : Queue) (c : Char) :
    (queue.pass c).pending = queue.pending := by
  unfold pass endLine
  split <;> rfl

/-- Leave the source being read and open the next one, if there is one. -/
def advance (queue : Queue) : Queue :=
  match queue.pending with
  | [] => { queue.endLine with current? := none }
  | source :: pending =>
      { current? := some ⟨source.text, source.failure?⟩
        pending
        scan := ⟨source.title, 1, #[]⟩
        last := queue.scan }

/-- Read from the source that is open. -/
def readOpen (queue : Queue) (source : OpenSource) : Reading × Queue :=
  match source.text with
  | rune :: text =>
      (.rune rune, { queue with current? := some { source with text } }.pass rune.toChar)
  | [] =>
      match source.failure? with
      | some message => (.failed message, queue)
      | none =>
          let advanced := queue.advance
          (if advanced.current?.isSome then .boundary else .ended, advanced)

/-- Read once from a queue. -/
def next (queue : Queue) : Reading × Queue :=
  match queue.current? with
  | some source => queue.readOpen source
  | none =>
      let advanced := queue.advance
      match advanced.current? with
      | some source => advanced.readOpen source
      | none => (.ended, advanced)

/-- What is left to read in the open source: its runes, and its end. -/
def openCost : Option OpenSource → Nat
  | some source => source.text.length + 1
  | none => 0

/-- What is left to read in the sources to come. -/
def pendingCost : List Source → Nat
  | [] => 0
  | source :: pending => source.text.length + 2 + pendingCost pending

/-- A bound on the readings that give a rune or a boundary. -/
def remaining (queue : Queue) : Nat :=
  openCost queue.current? + pendingCost queue.pending

/-- Advancing never adds to what is left beyond the source that was left. -/
theorem remaining_advance_le (queue : Queue) :
    queue.advance.remaining ≤ pendingCost queue.pending := by
  cases h : queue.pending with
  | nil => simp [advance, h, remaining, openCost, pendingCost, endLine]
  | cons source pending =>
      simp [advance, h, remaining, openCost, pendingCost]

/-- If a source follows, advancing to it makes progress. -/
theorem remaining_advance_lt (queue : Queue) (h : queue.advance.current?.isSome) :
    queue.advance.remaining < pendingCost queue.pending := by
  cases hp : queue.pending with
  | nil => simp [advance, hp, endLine] at h
  | cons source pending =>
      simp [advance, hp, remaining, openCost, pendingCost]

/-- Whether a reading goes on to another one. -/
def Reading.continues : Reading → Bool
  | .rune _ | .boundary => true
  | .ended | .failed _ => false

/-- A rune or a boundary read from the open source leaves less to read. -/
theorem remaining_readOpen_lt (queue : Queue) (source : OpenSource)
    (hcurrent : queue.current? = some source)
    (h : Reading.continues (queue.readOpen source).1) :
    (queue.readOpen source).2.remaining < queue.remaining := by
  unfold readOpen at h ⊢
  cases ht : source.text with
  | cons rune text =>
      simp [remaining, hcurrent, openCost, ht]
  | nil =>
      cases hf : source.failure? with
      | some message => simp [ht, hf, Reading.continues] at h
      | none =>
          simp only [ht, hf] at h ⊢
          by_cases hs : queue.advance.current?.isSome
          · have := queue.remaining_advance_lt hs
            simp only [remaining, hcurrent, openCost] at this ⊢
            omega
          · simp [hs, Reading.continues] at h

/-- A rune or a boundary leaves less to read. -/
theorem remaining_next_lt (queue : Queue) (h : Reading.continues queue.next.1) :
    queue.next.2.remaining < queue.remaining := by
  unfold next at h ⊢
  cases hc : queue.current? with
  | some source =>
      simp only [hc] at h ⊢
      exact queue.remaining_readOpen_lt source hc h
  | none =>
      simp only [hc] at h ⊢
      cases ha : queue.advance.current? with
      | none => simp [ha, Reading.continues] at h
      | some source =>
          simp only [ha] at h ⊢
          have hread := queue.advance.remaining_readOpen_lt source ha h
          have hadvance := queue.remaining_advance_le
          simp only [remaining, hc, openCost] at hread hadvance ⊢
          omega

end Queue

end WordLisp
