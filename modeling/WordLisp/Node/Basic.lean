import WordLisp.Word

/-!
# Expressions as data

A node is an integer, a symbol or a pair. Pairs chained by their tails form a list, which ends in
the symbol `nil`; a chain that ends in anything else is an improper list, whose last tail is shown
after a dot. A node may also be missing: no text denotes that, but a caller may hand over a tree
with a hole in it, which can then not be written.
-/

namespace WordLisp

/-- An expression as it was read. -/
inductive Node where
  | int (value : Word)
  | symbol (name : String)
  | pair (head tail : Node)
  | missing
  deriving DecidableEq, Repr

namespace Node

/-- The end of every list. -/
def nil : Node := .symbol "nil"

/-- The list of these nodes. -/
def ofList : List Node → Node
  | [] => nil
  | node :: rest => .pair node (ofList rest)

/-- The nodes of a list, whatever it ends in. Anything but a pair has none. -/
def items : Node → List Node
  | .pair head tail => head :: tail.items
  | _ => []

/-- The number of nodes of a list. -/
def length (node : Node) : Nat :=
  node.items.length

@[simp] theorem items_ofList (nodes : List Node) : (ofList nodes).items = nodes := by
  induction nodes with
  | nil => rfl
  | cons node rest ih => simp [ofList, items, ih]

mutual

/-- The text of a node, if there is no hole in it. -/
def render? : Node → Option String
  | .int value => some (Word.render value)
  | .symbol name => some name
  | .pair head tail => do
      let first ← render? head
      let rest ← renderTail? tail
      some ("(" ++ first ++ rest)
  | .missing => none

/-- The text of what follows the first node of a list, with the closing parenthesis. -/
def renderTail? : Node → Option String
  | .pair head tail => do
      let first ← render? head
      let rest ← renderTail? tail
      some (" " ++ first ++ rest)
  | .symbol name => some (if name = "nil" then ")" else " . " ++ name ++ ")")
  | .int value => some (" . " ++ Word.render value ++ ")")
  | .missing => none

end

/-- A node as messages show it. One that cannot be written is shown as such. -/
def display (node : Node) : String :=
  match node, node.render? with
  | .missing, _ => "<nil>"
  | _, some text => text
  | _, none =>
      "%!v(PANIC=String method: runtime error: " ++
        "invalid memory address or nil pointer dereference)"

end Node

end WordLisp
