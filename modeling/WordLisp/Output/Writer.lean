import WordLisp.Output.Leaf

/-!
# Combined writers

Writers are combined into one that writes into all of them and flushes all of them, in order. What
is combined may be absent, or a combination itself: the leaves are taken out of it. No leaf is no
writer, a single leaf is that leaf, and of several leaves a write reaches them from left to right up
to the first that fails or takes too little.

What a writer does may depend on anything, and on what other writers do. So it is an action on a
world (`Outlet`), and a `Writer` is a world of its own: the list of its leaves.
-/

namespace WordLisp

/-- Writers put together in any way, out of leaves of some kind. -/
inductive Combination (α : Type) where
  | absent
  | leaf (single : α)
  | combine (parts : List (Combination α))

/-- What a combination comes to: a leaf itself, or several leaves side by side. -/
inductive Combined (α : Type) where
  | single (leaf : α)
  | several (leaves : List α)

namespace Combined

variable {α : Type}

/-- The leaves that are combined. -/
def leaves : Combined α → List α
  | .single leaf => [leaf]
  | .several leaves => leaves

/-- What some leaves come to. -/
def ofLeaves? : List α → Option (Combined α)
  | [] => none
  | [leaf] => some (.single leaf)
  | leaves => some (.several leaves)

/-- Combine writers. Absent ones are left out, and combined ones are taken apart. -/
def combine? (parts : List (Option (Combined α))) : Option (Combined α) :=
  ofLeaves? (parts.flatMap (·.elim [] leaves))

mutual

/-- Combine writers from the inside out. -/
def ofTree? : Combination α → Option (Combined α)
  | .absent => none
  | .leaf writer => some (.single writer)
  | .combine parts => combine? (ofTrees parts)

/-- What several combinations come to, one by one. -/
def ofTrees : List (Combination α) → List (Option (Combined α))
  | [] => []
  | tree :: rest => ofTree? tree :: ofTrees rest

end

end Combined

/-- A writer as its users see it: what it does in a world when it is written to and flushed. -/
structure Outlet (σ : Type) where
  write : ByteArray → σ → σ × WriteResult
  flush : σ → σ × Option String

namespace Outlet

variable {σ : Type}

/-- Write bytes into several writers, up to the first that does not take all of them. -/
def writeAll (bytes : ByteArray) : List (Outlet σ) → σ → σ × WriteResult
  | [], world => (world, ⟨bytes.size, none⟩)
  | outlet :: rest, world =>
      let (world, result) := outlet.write bytes world
      match result.error? <|> if result.count ≠ bytes.size then some shortWrite else none with
      | some error => (world, ⟨result.count, some error⟩)
      | none => writeAll bytes rest world

/-- Flush several writers and report the first error. -/
def flushAll : List (Outlet σ) → σ → σ × Option String
  | [], world => (world, none)
  | outlet :: rest, world =>
      let (world, first?) := outlet.flush world
      let (world, second?) := flushAll rest world
      (world, first? <|> second?)

end Outlet

/-- What combined writers do: a single one what it does itself. -/
def Combined.outlet {σ : Type} : Combined (Outlet σ) → Outlet σ
  | .single outlet => outlet
  | .several outlets => ⟨fun bytes ↦ Outlet.writeAll bytes outlets, Outlet.flushAll outlets⟩

/-- Leaf writers combined in any way. -/
abbrev WriterTree := Combination Leaf

/-- A writer: the list of its leaves. -/
structure Writer where
  leaves : List Leaf

namespace Writer

/-- The writer of a combination; there is none without a leaf. -/
def ofTree? (tree : WriterTree) : Option Writer :=
  (Combined.ofTree? tree).map fun combined ↦ ⟨combined.leaves⟩

/-- The leaf at a place of a writer. -/
def place (i : Nat) : Outlet Writer where
  write bytes writer :=
    match writer.leaves[i]? with
    | some leaf =>
        let (leaf, result) := leaf.write bytes
        (⟨writer.leaves.set i leaf⟩, result)
    | none => (writer, ⟨bytes.size, none⟩)
  flush writer :=
    match writer.leaves[i]? with
    | some leaf =>
        let (leaf, error?) := leaf.flush
        (⟨writer.leaves.set i leaf⟩, error?)
    | none => (writer, none)

/-- The places of a writer, combined. -/
def combined? (writer : Writer) : Option (Combined (Outlet Writer)) :=
  Combined.ofLeaves? ((List.range writer.leaves.length).map place)

/-- Write bytes. -/
def write (writer : Writer) (bytes : ByteArray) : Writer × WriteResult :=
  match writer.combined? with
  | some combined => combined.outlet.write bytes writer
  | none => (writer, ⟨bytes.size, none⟩)

/-- Flush every leaf and report the first error. -/
def flush (writer : Writer) : Writer × Option String :=
  match writer.combined? with
  | some combined => combined.outlet.flush writer
  | none => (writer, none)

/-- Write a text, whatever becomes of it. -/
def print (writer : Writer) (text : String) : Writer :=
  (writer.write text.toUTF8).1

/-- Write texts one by one, whatever becomes of them. -/
def printAll (writer : Writer) (texts : List String) : Writer :=
  texts.foldl print writer

/-- Write texts one by one through a buffer that holds what is still to be taken: this is offered
again in front of the next text. -/
def printThrough (writer : Writer) (pending : ByteArray) : List String → Writer
  | [] => writer
  | text :: rest =>
      let offered := pending ++ text.toUTF8
      let (writer, result) := writer.write offered
      writer.printThrough (offered.extract result.count offered.size) rest

end Writer

end WordLisp
