import WordLisp.Proofs.Compiler.Item

/-!
# Compilers that can be reached

A compiler starts on some program and compiles one node after the other, with or without success.
Beside it an `Environment` keeps what has been defined, as it was written: the definitions that were
compiled, the latest first. `Reached` joins the two.

The invariant of all these compilers is `Settled`: between two nodes no parameters are entered, the
table is in order, and every definition of the environment has its code in the program, compiled in
the table of its own time (`Laid`).
-/

namespace WordLisp

/-! ## Definitions as they are written -/

/-- A function as it was defined. -/
structure Definition where
  name : String
  parameters : List String
  body : Node

/-- The definitions that are in force, the latest first. -/
abbrev Environment := List Definition

namespace Environment

/-- The definition of a name that is in force, and what was in force for its body: itself and the
definitions before it. -/
def find? (environment : Environment) (name : String) : Option (Definition × Environment) :=
  match environment with
  | [] => none
  | definition :: older =>
      if definition.name = name then some (definition, definition :: older)
      else find? older name

end Environment

namespace Node

/-- The name that a symbol has. -/
def symbol? : Node → Option String
  | .symbol name => some name
  | _ => none

/-- The definition that a top-level node is, if it is one: its head is the word for a definition,
and that has not been defined to mean something else. -/
def definition? (environment : Environment) : Node → Option Definition
  | .pair (.symbol word) tail =>
      if environment.find? word = none ∧ word = "define" then
        match tail.items with
        | [.pair (.symbol name) parameters, body] =>
            (parameters.items.mapM symbol?).map (⟨name, ·, body⟩)
        | _ => none
      else none
  | _ => none

end Node

/-- The environment after a node has been compiled, with or without an error. -/
def Environment.after (environment : Environment) (node : Node) (error? : Option CompileError) :
    Environment :=
  match error?, node.definition? environment with
  | none, some definition => definition :: environment
  | _, _ => environment

namespace Compiler

/-- A compiler that started on `initial` and has compiled any nodes, with the environment that
these have made. -/
inductive Reached (initial : Program) : Compiler → Environment → Prop where
  | start : Reached initial { program := initial } []
  | compile {compiler : Compiler} {environment : Environment} (node : Node) :
      Reached initial compiler environment →
        Reached initial (compiler.compile node).1
          (environment.after node (compiler.compile node).2)

/-- The compiler after one more node can be reached. -/
theorem Reached.next {initial : Program} {compiler compiled : Compiler}
    {environment : Environment} {node : Node} {error? : Option CompileError}
    (reached : Reached initial compiler environment)
    (compile : compiler.compile node = (compiled, error?)) :
    Reached initial compiled (environment.after node error?) := by
  have hreached := Reached.compile node reached
  rwa [compile] at hreached

end Compiler

/-! ## Where definitions are -/

/-- The function of a definition whose code starts at `start`, with the jump over it. -/
def Definition.function (definition : Definition) (start : Nat) : Function :=
  ⟨definition.name, start + 1, definition.parameters.length⟩

@[simp] theorem Definition.name_function (definition : Definition) (start : Nat) :
    (definition.function start).name = definition.name := rfl

@[simp] theorem Definition.entry_function (definition : Definition) (start : Nat) :
    (definition.function start).entry = start + 1 := rfl

@[simp] theorem Definition.arity_function (definition : Definition) (start : Nat) :
    (definition.function start).arity = definition.parameters.length := rfl

/-- A definition has its code in a program at `start`, compiled with the functions of `table`. -/
structure Definition.PlacedAt (definition : Definition) (program : Program) (start : Nat)
    (table : Table) (body : Expr) : Prop where
  resolved : Scope.resolve ⟨table, definition.parameters⟩ definition.body = .ok body
  code : CodeAt program start (Item.functionCode start definition.parameters.length body)

/-- The definitions of an environment have their code in a program, each compiled with the functions
of its own time, and the last of each name is in the table. -/
inductive Laid (program : Program) : Environment → Table → Prop where
  | nil : Laid program [] []
  | cons {environment : Environment} {table : Table} {definition : Definition} {start : Nat}
      {body : Expr} : Laid program environment table → table.Valid start →
      definition.PlacedAt program start (table.set (definition.function start)) body →
      Laid program (definition :: environment) (table.set (definition.function start))

namespace Laid

variable {program : Program} {environment : Environment} {table : Table}

/-- Definitions stay where they are when the program grows. -/
theorem extend (h : Laid program environment table) (added : Array Inst) :
    Laid (program ++ added) environment table := by
  induction h with
  | nil => exact .nil
  | cons _ hvalid hplaced ih =>
      exact .cons ih hvalid ⟨hplaced.resolved, hplaced.code.extend added⟩

/-- A name is in the table if it is in the environment. -/
theorem lookup?_eq_none_iff (h : Laid program environment table) (name : String) :
    table.lookup? name = none ↔ environment.find? name = none := by
  induction h with
  | nil => exact ⟨fun _ ↦ rfl, fun _ ↦ rfl⟩
  | cons _ hvalid _ ih =>
      rw [hvalid.lookup?_set (Nat.le_succ _), Environment.find?, Definition.name_function]
      split <;> simp [ih]

/-- A function of the table is the definition of its name that is in force. -/
theorem of_lookup? (h : Laid program environment table) {name : String} {function : Function}
    (found : table.lookup? name = some function) :
    ∃ definition older start inner body,
      environment.find? name = some (definition, definition :: older) ∧
      function = definition.function start ∧ Laid program (definition :: older) inner ∧
      definition.PlacedAt program start inner body := by
  induction h with
  | nil => cases found
  | cons hlaid hvalid hplaced ih =>
      -- The latest definition hides earlier ones of its name, in the table as in the environment.
      rw [hvalid.lookup?_set (Nat.le_succ _), Definition.name_function] at found
      rw [Environment.find?]
      split at found
      · next hname =>
          cases found
          rw [if_pos hname]
          exact ⟨_, _, _, _, _, rfl, rfl, .cons hlaid hvalid hplaced, hplaced⟩
      · next hname =>
          rw [if_neg hname]
          exact ih found

end Laid

/-! ## Items and definitions -/

/-- Parameters that can be entered are distinct symbols. -/
theorem Item.of_parameterNames {function : String} {seen names : List String} {nodes : List Node}
    (distinct : seen.Nodup) (entered : Item.parameterNames function seen nodes = .ok names) :
    ∃ new, nodes = new.map .symbol ∧ names = seen ++ new ∧ names.Nodup := by
  induction nodes generalizing seen with
  | nil =>
      cases entered
      exact ⟨[], rfl, by simp, distinct⟩
  | cons node rest ih =>
      cases node with
      | symbol name =>
          rw [Item.parameterNames] at entered
          split at entered
          · cases entered
          · next hnew =>
              have hdistinct : (seen ++ [name]).Nodup := by
                rw [List.nodup_append]
                refine ⟨distinct, by simp, fun other hother last hlast ↦ ?_⟩
                rw [List.mem_singleton.mp hlast]
                exact fun heq ↦ hnew (heq ▸ hother)
              obtain ⟨new, rfl, rfl, hnames⟩ := ih hdistinct entered
              exact ⟨name :: new, rfl, by simp, hnames⟩
      | int value | pair head tail | missing => cases entered

/-- The names of symbols. -/
theorem mapM_symbol?_symbols (names : List String) :
    (names.map Node.symbol).mapM Node.symbol? = some names := by
  induction names with
  | nil => rfl
  | cons name rest ih => simp [Node.symbol?, ih]

section Items

variable {program : Program} {environment : Environment} {table : Table} {start : Nat}
  {node : Node}

/-- The item of a definition is a function. -/
theorem of_ofDefinition {written : Node} {item : Item}
    (found : Item.ofDefinition table start written = .ok item) :
    ∃ name parameters body names expr,
      written.items = [.pair (.symbol name) parameters, body] ∧
      parameters.items.mapM Node.symbol? = some names ∧
      Scope.resolve ⟨table.set ⟨name, start + 1, names.length⟩, names⟩ body = .ok expr ∧
      item = .definition ⟨name, start + 1, names.length⟩ expr := by
  unfold Item.ofDefinition at found
  split at found
  · next name parameters body hitems =>
      simp only [bind_eq_ok, pure, Except.pure, Except.ok.injEq] at found
      obtain ⟨names, hnames, expr, hresolved, hitem⟩ := found
      obtain ⟨new, hnew, hseen, -⟩ := Item.of_parameterNames .nil hnames
      rw [List.nil_append] at hseen
      subst hseen
      have hcount : parameters.length = names.length := by
        show parameters.items.length = names.length
        rw [hnew, List.length_map]
      rw [hcount] at hresolved hitem
      refine ⟨name, parameters, body, names, expr, hitems, ?_, hresolved, hitem.symm⟩
      rw [hnew, mapM_symbol?_symbols]
  · cases found
  · cases found

/-- A node whose item is an expression is none of the definitions. -/
theorem Laid.of_ofNode_expression (h : Laid program environment table) {expr : Expr}
    (found : Item.ofNode table start node = .ok (.expression expr)) :
    node.definition? environment = none ∧ Scope.resolve ⟨table, []⟩ node = .ok expr := by
  unfold Item.ofNode at found
  split at found
  · next name tail =>
      split at found
      · obtain ⟨_, _, _, _, _, _, _, _, hitem⟩ := of_ofDefinition found
        cases hitem
      · next hdefine =>
          obtain ⟨_, hresolved, ⟨⟩⟩ := map_eq_ok.mp found
          rw [h.lookup?_eq_none_iff, Builtin.ofName?_eq_definition_iff] at hdefine
          exact ⟨by rw [Node.definition?, if_neg hdefine], hresolved⟩
  · next hshape =>
      obtain ⟨_, hresolved, ⟨⟩⟩ := map_eq_ok.mp found
      refine ⟨?_, hresolved⟩
      unfold Node.definition?
      split
      · exact absurd rfl (hshape _ _)
      · rfl

/-- A node whose item is a function is the definition of it. -/
theorem Laid.of_ofNode_definition (h : Laid program environment table) {function : Function}
    {body : Expr} (found : Item.ofNode table start node = .ok (.definition function body)) :
    ∃ definition, node.definition? environment = some definition ∧
      function = definition.function start ∧
      Scope.resolve ⟨table.set function, definition.parameters⟩ definition.body = .ok body := by
  unfold Item.ofNode at found
  split at found
  · next word tail =>
      split at found
      · next hdefine =>
          obtain ⟨name, parameters, written, names, expr, hitems, hnames, hresolved, hitem⟩ :=
            of_ofDefinition found
          cases hitem
          rw [h.lookup?_eq_none_iff, Builtin.ofName?_eq_definition_iff] at hdefine
          refine ⟨⟨name, names, written⟩, ?_, rfl, hresolved⟩
          simp only [Node.definition?, if_pos hdefine, hitems, hnames, Option.map_some]
      · obtain ⟨_, _, ⟨⟩⟩ := map_eq_ok.mp found
  · obtain ⟨_, _, ⟨⟩⟩ := map_eq_ok.mp found

end Items

namespace Compiler

/-- The invariant between two nodes. -/
structure Settled (compiler : Compiler) (environment : Environment) : Prop where
  parameters_eq : compiler.parameters = []
  valid : compiler.functions.Valid compiler.program.size
  laid : Laid compiler.program environment compiler.functions

variable {compiler : Compiler} {environment : Environment} {node : Node}

/-- A compiler without functions is settled. -/
theorem settled_start (initial : Program) : Settled { program := initial } [] :=
  ⟨rfl, Table.valid_nil _, .nil⟩

/-- A settled compiler that cannot compile a node does not change. -/
theorem Settled.compile_error (settled : compiler.Settled environment) {error : CompileError}
    (found : Item.ofNode compiler.functions compiler.program.size node = .error error) :
    compiler.compile node = (compiler, some error) := by
  rw [compile_eq settled.valid settled.parameters_eq, found]

/-- A settled compiler that compiles a node adds the code and the function of its item. -/
theorem Settled.compile_ok (settled : compiler.Settled environment) {item : Item}
    (found : Item.ofNode compiler.functions compiler.program.size node = .ok item) :
    compiler.compile node = ({ compiler with
      program := compiler.program ++ (item.code compiler.program.size).toArray
      functions := item.functions compiler.functions }, none) := by
  rw [compile_eq settled.valid settled.parameters_eq, found]

/-- What a settled compiler makes of a node: it refuses the node and does not change, or it adds the
code of an expression, or that of a function and the function itself. -/
theorem Settled.compile_cases (settled : compiler.Settled environment) (node : Node) :
    (∃ error, compiler.compile node = (compiler, some error)) ∨
    (∃ expr, node.definition? environment = none ∧
      Scope.resolve ⟨compiler.functions, []⟩ node = .ok expr ∧
      compiler.compile node = ({ compiler with
        program := compiler.program ++ (expr.code compiler.program.size).toArray }, none)) ∨
    (∃ definition body, node.definition? environment = some definition ∧
      Scope.resolve ⟨compiler.functions.set (definition.function compiler.program.size),
        definition.parameters⟩ definition.body = .ok body ∧
      compiler.compile node = ({ compiler with
        program := compiler.program ++
          (Item.functionCode compiler.program.size definition.parameters.length body).toArray
        functions := compiler.functions.set (definition.function compiler.program.size) },
        none)) := by
  cases hitem : Item.ofNode compiler.functions compiler.program.size node with
  | error error => exact .inl ⟨error, settled.compile_error hitem⟩
  | ok item =>
      have hcompile := settled.compile_ok hitem
      cases item with
      | expression expr =>
          obtain ⟨hnone, hresolved⟩ := settled.laid.of_ofNode_expression hitem
          exact .inr (.inl ⟨expr, hnone, hresolved, hcompile⟩)
      | definition function body =>
          obtain ⟨definition, hsome, rfl, hresolved⟩ := settled.laid.of_ofNode_definition hitem
          exact .inr (.inr ⟨definition, body, hsome, hresolved, hcompile⟩)

/-- A settled compiler only adds to its program. -/
theorem Settled.program_compile (settled : compiler.Settled environment) (node : Node) :
    ∃ added, (compiler.compile node).1.program = compiler.program ++ added := by
  obtain ⟨error, hcompile⟩ | ⟨expr, -, -, hcompile⟩ | ⟨definition, body, -, -, hcompile⟩ :=
    settled.compile_cases node
  · exact ⟨#[], by rw [hcompile, Array.append_empty]⟩
  · exact ⟨_, by rw [hcompile]⟩
  · exact ⟨_, by rw [hcompile]⟩

/-- A settled compiler stays settled. -/
theorem Settled.compile (settled : compiler.Settled environment) (node : Node) :
    (compiler.compile node).1.Settled (environment.after node (compiler.compile node).2) := by
  obtain ⟨error, hcompile⟩ | ⟨expr, hnone, -, hcompile⟩ |
    ⟨definition, body, hsome, hresolved, hcompile⟩ := settled.compile_cases node
  · rw [hcompile]
    exact settled
  · rw [hcompile]
    have hafter : environment.after node none = environment := by
      simp only [Environment.after, hnone]
    rw [hafter]
    exact ⟨settled.parameters_eq, settled.valid.mono (by simp), settled.laid.extend _⟩
  · rw [hcompile]
    have hafter : environment.after node none = definition :: environment := by
      simp only [Environment.after, hsome]
    rw [hafter]
    refine ⟨settled.parameters_eq, ?_, ?_⟩
    · refine (settled.valid.set (Nat.le_succ _)).mono ?_
      simp only [Definition.entry_function, Array.size_append, List.size_toArray,
        Item.length_functionCode]
      omega
    · exact .cons (settled.laid.extend _) settled.valid
        ⟨hresolved, codeAt_append compiler.program _⟩

/-- Every compiler that can be reached is settled. -/
theorem Reached.settled {initial : Program} (reached : Reached initial compiler environment) :
    compiler.Settled environment := by
  induction reached with
  | start => exact settled_start initial
  | compile node _ ih => exact ih.compile node

/-! ## Several nodes -/

/-- The compiler and the environment after some nodes, whether they can be compiled or not. -/
def compileEach (compiler : Compiler) (environment : Environment) :
    List Node → Compiler × Environment
  | [] => (compiler, environment)
  | node :: rest =>
      compileEach (compiler.compile node).1
        (environment.after node (compiler.compile node).2) rest

/-- To compile nodes after others. -/
theorem compileEach_append (compiler : Compiler) (environment : Environment)
    (nodes more : List Node) :
    compiler.compileEach environment (nodes ++ more) =
      (compiler.compileEach environment nodes).1.compileEach
        (compiler.compileEach environment nodes).2 more := by
  induction nodes generalizing compiler environment with
  | nil => rfl
  | cons node rest ih => exact ih _ _

/-- A compiler that can be reached is reached by compiling some nodes. -/
theorem Reached.exists_compileEach {initial : Program}
    (reached : Reached initial compiler environment) :
    ∃ nodes, compileEach { program := initial } [] nodes = (compiler, environment) := by
  induction reached with
  | start => exact ⟨[], rfl⟩
  | compile node _ ih =>
      obtain ⟨nodes, hnodes⟩ := ih
      refine ⟨nodes ++ [node], ?_⟩
      rw [compileEach_append, hnodes]
      rfl

/-- A settled compiler stays settled over several nodes, in the environment that they make. -/
theorem Settled.compileEach (settled : compiler.Settled environment) (nodes : List Node) :
    (compiler.compileEach environment nodes).1.Settled
      (compiler.compileEach environment nodes).2 := by
  induction nodes generalizing compiler environment with
  | nil => exact settled
  | cons node rest ih => exact ih (settled.compile node)

/-- A settled compiler only adds to its program. -/
theorem Settled.program_compileEach (settled : compiler.Settled environment)
    (nodes : List Node) :
    ∃ added, (compiler.compileEach environment nodes).1.program = compiler.program ++ added := by
  induction nodes generalizing compiler environment with
  | nil => exact ⟨#[], (Array.append_empty).symm⟩
  | cons node rest ih =>
      obtain ⟨first, hfirst⟩ := settled.program_compile node
      obtain ⟨others, hothers⟩ := ih (settled.compile node)
      refine ⟨first ++ others, ?_⟩
      rw [Compiler.compileEach, hothers, hfirst, Array.append_assoc]

end Compiler

end WordLisp
