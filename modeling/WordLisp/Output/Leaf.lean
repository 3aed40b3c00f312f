import WordLisp.Output.Device

/-!
# Leaf writers

A leaf writer takes bytes and can be flushed. Memory and the writer that discards everything have
nothing to flush. A device that knows how to flush is used as it is; any other device is put behind
a buffer of 4096 bytes.

A buffered write that does not fit into the free space goes to the device directly if the buffer is
empty; otherwise it fills the buffer, which is then flushed, and the rest is tried again. The first
error sticks: every later write and flush reports it, and nothing reaches the device any more.
-/

namespace WordLisp

/-- The error of a write that was cut without a reason. -/
def shortWrite : String := "short write"

/-- A device behind a buffer. -/
structure Buffer where
  device : Device
  pending : ByteArray := .empty
  error? : Option String := none

namespace Buffer

/-- The size of a buffer. -/
def capacity : Nat := 4096

/-- How many bytes the buffer has room for. -/
def available (buffer : Buffer) : Nat :=
  capacity - buffer.pending.size

/-- Put bytes that fit behind those in the buffer. -/
def append (buffer : Buffer) (bytes : ByteArray) : Buffer :=
  { buffer with pending := buffer.pending ++ bytes }

/-- Give what is in the buffer to the device. -/
def flush (buffer : Buffer) : Buffer :=
  if buffer.error?.isSome ∨ buffer.pending.isEmpty then
    buffer
  else
    let (device, result) := buffer.device.write buffer.pending
    let cut := result.count < buffer.pending.size
    { device
      pending := buffer.pending.extract result.count buffer.pending.size
      error? := result.error? <|> if cut then some shortWrite else none }

/-- Write bytes, of which `written` are done; `rounds` bounds the number of flushes and direct
writes. A device that takes nothing and says nothing would never be done: that is a short write. -/
def writeFrom (buffer : Buffer) (bytes : ByteArray) (written : Nat) : Nat → Buffer × WriteResult
  | 0 => ({ buffer with error? := some shortWrite }, ⟨written, some shortWrite⟩)
  | rounds + 1 =>
      if buffer.error?.isSome then
        (buffer, ⟨written, buffer.error?⟩)
      else
        let rest := bytes.extract written bytes.size
        if rest.size ≤ buffer.available then
          (buffer.append rest, ⟨bytes.size, none⟩)
        else if buffer.pending.isEmpty then
          let (device, result) := buffer.device.write rest
          { buffer with device, error? := result.error? }.writeFrom bytes
            (written + result.count) rounds
        else
          let fitting := rest.extract 0 buffer.available
          (buffer.append fitting).flush.writeFrom bytes (written + fitting.size) rounds

/-- Write bytes. Each two rounds make progress, unless the device stalls. -/
def write (buffer : Buffer) (bytes : ByteArray) : Buffer × WriteResult :=
  buffer.writeFrom bytes 0 (2 * bytes.size + 2)

end Buffer

/-- A writer that is not a combination of others. -/
inductive Leaf where
  /-- A memory, with what it holds. -/
  | memory (taken : ByteArray)
  /-- Everything is dropped. -/
  | discard
  /-- A device behind a buffer. -/
  | buffered (buffer : Buffer)
  /-- A device that can be flushed, with the number of flushes so far and the error of each flush by
  its number. -/
  | flushing (device : Device) (flushes : Nat) (flushError? : Nat → Option String)

namespace Leaf

/-- Write bytes. -/
def write (leaf : Leaf) (bytes : ByteArray) : Leaf × WriteResult :=
  match leaf with
  | .memory taken => (.memory (taken ++ bytes), ⟨bytes.size, none⟩)
  | .discard => (.discard, ⟨bytes.size, none⟩)
  | .buffered buffer =>
      let (buffer, result) := buffer.write bytes
      (.buffered buffer, result)
  | .flushing device flushes flushError? =>
      let (device, result) := device.write bytes
      (.flushing device flushes flushError?, result)

/-- Flush, and report the error if there is one. -/
def flush : Leaf → Leaf × Option String
  | .memory taken => (.memory taken, none)
  | .discard => (.discard, none)
  | .buffered buffer =>
      let buffer := buffer.flush
      (.buffered buffer, buffer.error?)
  | .flushing device flushes flushError? =>
      (.flushing device (flushes + 1) flushError?, flushError? flushes)

/-- What has arrived behind the leaf, if it keeps it. -/
def taken? : Leaf → Option ByteArray
  | .memory taken => some taken
  | .discard => none
  | .buffered buffer => some buffer.device.taken
  | .flushing device .. => some device.taken

/-- Write bytes past the buffer, if there is one. -/
def writeThrough (leaf : Leaf) (bytes : ByteArray) : Leaf :=
  match leaf with
  | .buffered buffer => .buffered { buffer with device := (buffer.device.write bytes).1 }
  | leaf => (leaf.write bytes).1

end Leaf

end WordLisp
