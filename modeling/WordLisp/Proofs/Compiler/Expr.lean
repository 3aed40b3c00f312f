import WordLisp.Compiler.Pass
import WordLisp.Proofs.Outcome

/-!
# Resolved expressions and their code

An `Expr` is what a node means once its names are resolved: literals, parameters by position,
operators with their operands, conditionals, and calls of functions by the address of their first
instruction. `Scope.resolve` finds the expression of a node, or the first rule that the node
breaks, and `Expr.code` gives the code of an expression at a place, as a function of both.

The pass of the compiler works on nodes, and fills holes as it goes on;
`WordLisp.Proofs.Compiler.Pass` shows that it lays down exactly this code.
-/

namespace WordLisp

/-- A resolved expression. -/
inductive Expr where
  /-- A literal. -/
  | literal (value : Word)
  /-- The parameter with this position. -/
  | parameter (index : Nat)
  /-- An operator with one operand. -/
  | unary (operator : Operator) (operand : Expr)
  /-- An operator with two operands. -/
  | binary (operator : Operator) (left right : Expr)
  /-- The second part if the first is not zero, and the third otherwise. -/
  | conditional (condition consequent alternative : Expr)
  /-- A call of the function at this address. -/
  | call (entry : Nat) (arguments : List Expr)

namespace Expr

mutual

/-- The number of instructions of an expression. -/
def size : Expr → Nat
  | .literal _ | .parameter _ => 1
  | .unary _ operand => operand.size + 1
  | .binary _ left right => left.size + right.size + 1
  | .conditional condition consequent alternative =>
      condition.size + 1 + consequent.size + 1 + alternative.size
  | .call _ arguments => sizes arguments + 1

/-- The number of instructions of several expressions. -/
def sizes : List Expr → Nat
  | [] => 0
  | expr :: rest => expr.size + sizes rest

end

mutual

/-- The code of an expression at address `start`: it leaves the value on the stack. -/
def code (start : Nat) : Expr → List Inst
  | .literal value => [.constant value]
  | .parameter index => [.arg (Int64.ofNat index)]
  | .unary operator operand => operand.code start ++ [.unary operator]
  | .binary operator left right =>
      left.code start ++ right.code (start + left.size) ++ [.binary operator]
  | .conditional condition consequent alternative =>
      let yes := start + condition.size + 1
      let no := yes + consequent.size + 1
      condition.code start ++ .jumpZ (Int64.ofNat no) :: consequent.code yes ++
        .jump (Int64.ofNat (no + alternative.size)) :: alternative.code no
  | .call entry arguments => codes start arguments ++ [.call (Int64.ofNat entry)]

/-- The code of several expressions, one after the other. -/
def codes (start : Nat) : List Expr → List Inst
  | [] => []
  | expr :: rest => expr.code start ++ codes (start + expr.size) rest

end

mutual

/-- The size of an expression is the length of its code, wherever the code stands. -/
@[simp] theorem length_code (start : Nat) : (expr : Expr) → (expr.code start).length = expr.size
  | .literal _ | .parameter _ => by simp [code, size]
  | .unary _ operand => by simp [code, size, length_code start operand]
  | .binary _ left right => by
      simp [code, size, length_code start left, length_code _ right, Nat.add_assoc]
  | .conditional condition consequent alternative => by
      simp [code, size, length_code start condition, length_code _ consequent,
        length_code _ alternative]
      omega
  | .call _ arguments => by simp [code, size, length_codes start arguments]

/-- The sizes of several expressions add up to the length of their code. -/
@[simp] theorem length_codes (start : Nat) :
    (exprs : List Expr) → (codes start exprs).length = sizes exprs
  | [] => by simp [codes, sizes]
  | expr :: rest => by simp [codes, sizes, length_code start expr, length_codes _ rest]

end

/-- The code that joins several expressions, by an operator, to a value that is there before. -/
def joinedCode (operator : Operator) (start : Nat) : List Expr → List Inst
  | [] => []
  | expr :: rest =>
      expr.code start ++ .binary operator :: joinedCode operator (start + expr.size + 1) rest

/-- Expressions joined from the left have the code of the first and then the code that joins the
others to it. -/
theorem code_foldl_binary (operator : Operator) (start : Nat) (first : Expr) (rest : List Expr) :
    (rest.foldl (.binary operator) first).code start =
      first.code start ++ joinedCode operator (start + first.size) rest := by
  induction rest generalizing first with
  | nil => simp [joinedCode]
  | cons expr rest ih =>
      rw [List.foldl_cons, ih]
      simp [code, size, joinedCode, Nat.add_assoc]

end Expr

/-! ## Code in a program -/

/-- An instruction stays when the program grows. -/
theorem getElem?_extend {program : Program} {address : Nat} {inst : Inst}
    (found : program[address]? = some inst) (added : Array Inst) :
    (program ++ added)[address]? = some inst := by
  obtain ⟨hlt, -⟩ := Array.getElem?_eq_some_iff.mp found
  rw [Array.getElem?_append_left hlt, found]

/-- This code stands in a program from `start` on. -/
def CodeAt (program : Program) (start : Nat) (code : List Inst) : Prop :=
  ∀ i, i < code.length → program[start + i]? = code[i]?

namespace CodeAt

variable {program : Program} {start : Nat} {code more : List Inst} {inst : Inst}

/-- The first part of the code. -/
theorem left (h : CodeAt program start (code ++ more)) : CodeAt program start code := by
  intro i hi
  rw [h i (by simp; omega), List.getElem?_append_left hi]

/-- The second part of the code. -/
theorem right (h : CodeAt program start (code ++ more)) :
    CodeAt program (start + code.length) more := by
  intro i hi
  rw [Nat.add_assoc, h (code.length + i) (by simp; omega),
    List.getElem?_append_right (Nat.le_add_right _ _), Nat.add_sub_cancel_left]

/-- The first instruction. -/
theorem head (h : CodeAt program start (inst :: code)) : program[start]? = some inst := by
  simpa using h 0 (by simp)

/-- The code behind the first instruction. -/
theorem tail (h : CodeAt program start (inst :: code)) : CodeAt program (start + 1) code := by
  have hsplit : CodeAt program start ([inst] ++ code) := h
  exact hsplit.right

/-- Code that stands in a program stays there when the program grows. -/
theorem extend (h : CodeAt program start code) (added : Array Inst) :
    CodeAt (program ++ added) start code := by
  intro i hi
  have hfound := h i hi
  rw [List.getElem?_eq_getElem hi] at hfound ⊢
  exact getElem?_extend hfound added

/-- Code that starts in a program ends in it. -/
theorem end_le (h : CodeAt program start code) (le : start ≤ program.size) :
    start + code.length ≤ program.size := by
  cases hlength : code.length with
  | zero => exact le
  | succ last =>
      have hfound := h last (by omega)
      rw [List.getElem?_eq_getElem (by omega)] at hfound
      have hlt := (Array.getElem?_eq_some_iff.mp hfound).1
      omega

/-- The parts of an operator with one operand. -/
theorem unary {operator : Operator} {operand : Expr}
    (h : CodeAt program start ((Expr.unary operator operand).code start)) :
    CodeAt program start (operand.code start) ∧
      program[start + operand.size]? = some (.unary operator) := by
  rw [Expr.code] at h
  have hlast := h.right.head
  rw [Expr.length_code] at hlast
  exact ⟨h.left, hlast⟩

/-- The parts of an operator with two operands. -/
theorem binary {operator : Operator} {left right : Expr}
    (h : CodeAt program start ((Expr.binary operator left right).code start)) :
    CodeAt program start (left.code start) ∧
      CodeAt program (start + left.size) (right.code (start + left.size)) ∧
      program[start + left.size + right.size]? = some (.binary operator) := by
  rw [Expr.code] at h
  have hright := h.left.right
  have hlast := h.right.head
  rw [Expr.length_code] at hright
  rw [List.length_append, Expr.length_code, Expr.length_code, ← Nat.add_assoc] at hlast
  exact ⟨h.left.left, hright, hlast⟩

/-- The parts of a choice: its second part begins at `yes`, its third part at `no`. -/
theorem conditional {condition consequent alternative : Expr} {yes no : Nat}
    (h : CodeAt program start ((Expr.conditional condition consequent alternative).code start))
    (hyes : yes = start + condition.size + 1) (hno : no = yes + consequent.size + 1) :
    CodeAt program start (condition.code start) ∧
      program[start + condition.size]? = some (.jumpZ (Int64.ofNat no)) ∧
      CodeAt program yes (consequent.code yes) ∧
      program[yes + consequent.size]? = some (.jump (Int64.ofNat (no + alternative.size))) ∧
      CodeAt program no (alternative.code no) := by
  rw [Expr.code] at h
  simp only [← hyes, ← hno] at h
  have hbranch := h.left.right.head
  have hconsequent := h.left.right.tail
  have hleave := h.right.head
  have halternative := h.right.tail
  have hsize : start + (condition.size + (consequent.size + 1)) = yes + consequent.size := by
    omega
  simp only [List.length_append, List.length_cons, Expr.length_code, ← hyes, hsize, ← hno]
    at hbranch hconsequent hleave halternative
  exact ⟨h.left.left, hbranch, hconsequent, hleave, halternative⟩

/-- The parts of a call. -/
theorem call {entry : Nat} {arguments : List Expr}
    (h : CodeAt program start ((Expr.call entry arguments).code start)) :
    CodeAt program start (Expr.codes start arguments) ∧
      program[start + Expr.sizes arguments]? = some (.call (Int64.ofNat entry)) := by
  rw [Expr.code] at h
  have hlast := h.right.head
  rw [Expr.length_codes] at hlast
  exact ⟨h.left, hlast⟩

/-- The parts of the code of several expressions. -/
theorem cons {expr : Expr} {rest : List Expr}
    (h : CodeAt program start (Expr.codes start (expr :: rest))) :
    CodeAt program start (expr.code start) ∧
      CodeAt program (start + expr.size) (Expr.codes (start + expr.size) rest) := by
  rw [Expr.codes] at h
  have hrest := h.right
  rw [Expr.length_code] at hrest
  exact ⟨h.left, hrest⟩

/-- The parts of code that joins several expressions. -/
theorem joined {operator : Operator} {expr : Expr} {rest : List Expr}
    (h : CodeAt program start (Expr.joinedCode operator start (expr :: rest))) :
    CodeAt program start (expr.code start) ∧
      program[start + expr.size]? = some (.binary operator) ∧
      CodeAt program (start + expr.size + 1)
        (Expr.joinedCode operator (start + expr.size + 1) rest) := by
  rw [Expr.joinedCode] at h
  have hrest := h.right
  rw [Expr.length_code] at hrest
  exact ⟨h.left, hrest.head, hrest.tail⟩

end CodeAt

/-- Code that is added to a program stands at its end. -/
theorem codeAt_append (program : Program) (code : List Inst) :
    CodeAt (program ++ code.toArray) program.size code := by
  intro i _
  rw [Array.getElem?_append_right (Nat.le_add_right _ _), Nat.add_sub_cancel_left]
  simp

/-! ## From nodes to expressions -/

/-- The expression of a builtin form whose operands are not refused. The literal at the end stands
for the forms that are. -/
def Builtin.apply : Builtin → List Expr → Expr
  | .unary operator, operand :: _ => .unary operator operand
  | .foldFrom unit operator, [operand] => .binary operator (.literal unit) operand
  | .binary operator, first :: rest | .fold _ operator, first :: rest
  | .foldFrom _ operator, first :: rest => rest.foldl (.binary operator) first
  | .conditional, condition :: consequent :: alternative :: _ =>
      .conditional condition consequent alternative
  | .fold unit _, [] => .literal unit
  | _, _ => .literal 0

/-- What names mean at a place in a program. -/
structure Scope where
  /-- The functions that may be called. -/
  functions : Table
  /-- The parameters of the definition around the place. -/
  parameters : List String

namespace Scope

mutual

/-- The expression that a node means, or the first rule that it breaks. -/
def resolve (scope : Scope) : Node → Except CompileError Expr
  | .int value => .ok (.literal value)
  | .symbol name =>
      match scope.parameters.idxOf? name with
      | some index => .ok (.parameter index)
      | none => .error (.undefinedArgument name)
  | .pair (.symbol name) operands =>
      match scope.functions.lookup? name with
      | some function =>
          if operands.length = function.arity then
            (resolveAll scope operands).map (.call function.entry)
          else
            .error (.arity name operands.length function.arity)
      | none =>
          match Builtin.ofName? name with
          | some builtin =>
              match builtin.refusal? operands with
              | some error => .error error
              | none => (resolveAll scope operands).map builtin.apply
          | none => .error (.unknownFunction (.symbol name))
  | .pair head _ => .error (.unknownFunction head)
  | .missing => .error (.invalid .missing)

/-- The expressions that the nodes of a list mean. -/
def resolveAll (scope : Scope) : Node → Except CompileError (List Expr)
  | .pair head tail => do
      let expr ← resolve scope head
      let rest ← resolveAll scope tail
      return expr :: rest
  | _ => .ok []

end

variable {scope : Scope} {head tail node : Node} {exprs : List Expr}

/-- A list has expressions if its first node and the rest have. -/
theorem resolveAll_pair_eq_ok :
    scope.resolveAll (.pair head tail) = .ok exprs ↔
      ∃ expr rest, scope.resolve head = .ok expr ∧ scope.resolveAll tail = .ok rest ∧
        expr :: rest = exprs := by
  simp only [resolveAll, bind_eq_ok, pure, Except.pure, Except.ok.injEq]
  constructor
  · rintro ⟨expr, hhead, rest, htail, h⟩
    exact ⟨expr, rest, hhead, htail, h⟩
  · rintro ⟨expr, rest, hhead, htail, h⟩
    exact ⟨expr, hhead, rest, htail, h⟩

/-- A list without nodes has no expressions. -/
theorem resolveAll_of_items_eq_nil (empty : node.items = []) : scope.resolveAll node = .ok [] := by
  cases node with
  | pair head tail => cases empty
  | int value => simp [resolveAll]
  | symbol name => simp [resolveAll]
  | missing => simp [resolveAll]

end Scope

end WordLisp
