import WordLisp.Proofs.Compiler.Reached

/-!
# The static rules

Which nodes can be compiled, said without compiling them. `Node.WellFormed` and `Node.Breaks` are
the rules for a node inside others, `Node.Compiles` and `Node.Refused` those for a whole top-level
node. A node that breaks a rule is told by its first violation: the shape of a form comes before its
operands, and an operand before those to its right.

The main statement is `Compiler.compile_follows_rules`: a compiler that can be reached compiles
exactly the nodes that keep the rules, and gives an error of the kind of the first violation for all
others.
-/

namespace WordLisp

/-- The rules that a node may break. -/
inductive Violation where
  /-- The head of a form names neither a function nor a builtin. -/
  | unknownFunction
  /-- A symbol is not a parameter of the definition around it. -/
  | undefinedArgument
  /-- A function is called with another number of arguments than it takes. -/
  | arity
  /-- A builtin form, or a definition, has the wrong shape. -/
  | malformed
  /-- There is no node. -/
  | invalid

/-- The kind of error that a violation is reported as. -/
def Violation.kind : Violation → String
  | .unknownFunction => "compile.unknown_function"
  | .undefinedArgument => "compile.undefined_argument"
  | .arity => "compile.arity"
  | .malformed => "compile.malformed"
  | .invalid => "compile.invalid"

/-- How many arguments a function takes, by its name. -/
abbrev Arities := String → Option Nat

/-- The arities with one more function, which hides any other of its name. -/
def Arities.bind (arities : Arities) (name : String) (count : Nat) : Arities := fun other ↦
  if other = name then some count else arities other

/-- The arities of the functions of a table. -/
def Table.arities (table : Table) : Arities := fun name ↦
  (table.lookup? name).map Function.arity

/-- A builtin form of this name may have this number of operands. -/
def Builtin.Takes (name : String) (count : Nat) : Prop :=
  name ∈ ["=", "/=", "<", "<=", ">", ">="] ∧ count = 2 ∨
  name = "not" ∧ count = 1 ∨
  name = "if" ∧ count = 3 ∨
  name ∈ ["-", "/", "%"] ∧ 1 ≤ count ∨
  name ∈ ["+", "*", "and", "or"]

/-- A form of this name may have this number of operands: the name is that of a function, or else
that of a builtin. -/
inductive Arities.Admits (arities : Arities) (name : String) (count : Nat) : Prop where
  | function (arity : arities name = some count)
  | builtin (undefined : arities name = none) (takes : Builtin.Takes name count)

namespace Node

/-- A node that is not a definition keeps the rules. -/
inductive WellFormed (arities : Arities) (parameters : List String) : Node → Prop where
  | int (value : Word) : WellFormed arities parameters (.int value)
  | symbol {name : String} (bound : name ∈ parameters) :
      WellFormed arities parameters (.symbol name)
  | form {name : String} {operands : Node} (admits : arities.Admits name operands.length)
      (each : ∀ operand ∈ operands.items, WellFormed arities parameters operand) :
      WellFormed arities parameters (.pair (.symbol name) operands)

/-- A node that is not a definition breaks a rule, and this is the first violation. -/
inductive Breaks (arities : Arities) (parameters : List String) : Node → Violation → Prop where
  | missing : Breaks arities parameters .missing .invalid
  | symbol {name : String} (unbound : name ∉ parameters) :
      Breaks arities parameters (.symbol name) .undefinedArgument
  | head {head operands : Node} (unnamed : ∀ name, head ≠ .symbol name) :
      Breaks arities parameters (.pair head operands) .unknownFunction
  | unknown {name : String} {operands : Node} (undefined : arities name = none)
      (unknown : name ∉ Builtin.names) :
      Breaks arities parameters (.pair (.symbol name) operands) .unknownFunction
  | arity {name : String} {operands : Node} {count : Nat} (defined : arities name = some count)
      (differs : operands.length ≠ count) :
      Breaks arities parameters (.pair (.symbol name) operands) .arity
  | malformed {name : String} {operands : Node} (undefined : arities name = none)
      (known : name ∈ Builtin.names) (refused : ¬Builtin.Takes name operands.length) :
      Breaks arities parameters (.pair (.symbol name) operands) .malformed
  | operand {name : String} {operands operand : Node} {before after : List Node}
      {violation : Violation} (admits : arities.Admits name operands.length)
      (split : operands.items = before ++ operand :: after)
      (earlier : ∀ node ∈ before, WellFormed arities parameters node)
      (breaks : Breaks arities parameters operand violation) :
      Breaks arities parameters (.pair (.symbol name) operands) violation

/-- What follows the word `define` is a name with distinct parameters, and a body. -/
def Defines (written : Node) (name : String) (parameters : List String) (body : Node) : Prop :=
  ∃ nodes, written.items = [.pair (.symbol name) nodes, body] ∧
    nodes.items = parameters.map .symbol ∧ parameters.Nodup

/-- A top-level node keeps the rules. Only here a definition may stand, as long as no function is
called `define`; the function that it defines may be called in its body. -/
inductive Compiles (arities : Arities) : Node → Prop where
  | expression {node : Node} (wellFormed : node.WellFormed arities []) : Compiles arities node
  | definition {written body : Node} {name : String} {parameters : List String}
      (undefined : arities "define" = none) (defines : written.Defines name parameters body)
      (wellFormed : body.WellFormed (arities.bind name parameters.length) parameters) :
      Compiles arities (.pair (.symbol "define") written)

/-- A top-level node breaks a rule, and this is the first violation. -/
inductive Refused (arities : Arities) : Node → Violation → Prop where
  | expression {node : Node} {violation : Violation}
      (plain : ∀ written, node = .pair (.symbol "define") written → arities "define" ≠ none)
      (breaks : node.Breaks arities [] violation) : Refused arities node violation
  | shape {written : Node} (undefined : arities "define" = none)
      (differs : ∀ name parameters body, ¬written.Defines name parameters body) :
      Refused arities (.pair (.symbol "define") written) .malformed
  | body {written body : Node} {name : String} {parameters : List String} {violation : Violation}
      (undefined : arities "define" = none) (defines : written.Defines name parameters body)
      (breaks : body.Breaks (arities.bind name parameters.length) parameters violation) :
      Refused arities (.pair (.symbol "define") written) violation

end Node

/-! ## Builtin forms -/

namespace Builtin

/-- Every form that takes operands is a builtin. -/
theorem mem_names_of_takes {name : String} {count : Nat} (takes : Takes name count) :
    name ∈ names := by
  simp only [Takes, List.mem_cons, List.not_mem_nil, or_false] at takes
  simp only [names, all, List.map_cons, List.map_nil, List.mem_cons, List.not_mem_nil, or_false]
  rcases takes with ⟨h, -⟩ | ⟨h, -⟩ | ⟨h, -⟩ | ⟨h, -⟩ | h <;> grind

/-- The operands of a builtin form are not refused if it takes so many. -/
theorem refusal?_eq_none_iff {name : String} {builtin : Builtin} {operands : Node}
    (found : ofName? name = some builtin) :
    builtin.refusal? operands = none ↔ Takes name operands.length := by
  have hmem := mem_all_of_ofName? found
  simp only [all, List.mem_cons, Prod.mk.injEq, List.not_mem_nil, or_false] at hmem
  rcases hmem with ⟨rfl, rfl⟩ | ⟨rfl, rfl⟩ | ⟨rfl, rfl⟩ | ⟨rfl, rfl⟩ | ⟨rfl, rfl⟩ | ⟨rfl, rfl⟩ |
    ⟨rfl, rfl⟩ | ⟨rfl, rfl⟩ | ⟨rfl, rfl⟩ | ⟨rfl, rfl⟩ | ⟨rfl, rfl⟩ | ⟨rfl, rfl⟩ | ⟨rfl, rfl⟩ |
    ⟨rfl, rfl⟩ | ⟨rfl, rfl⟩ | ⟨rfl, rfl⟩ <;>
    simp [refusal?, Takes, Nat.one_le_iff_ne_zero]

/-- A refused form is malformed. -/
theorem kind_of_refusal? {builtin : Builtin} {operands : Node} {error : CompileError}
    (refused : builtin.refusal? operands = some error) :
    error.kind = Violation.malformed.kind := by
  cases builtin <;> simp only [refusal?] at refused
  case definition => cases refused; rfl
  case fold => cases refused
  case foldFrom =>
    split at refused <;> cases refused
    rfl
  all_goals
    split at refused <;> cases refused
    rfl

end Builtin

/-! ## Nodes inside others -/

namespace Scope

/-- The arities of the functions that may be called. -/
abbrev arities (scope : Scope) : Arities := scope.functions.arities

variable {scope : Scope} {name : String} {operands : Node} {error : CompileError}

/-- A form whose name admits so many operands is resolved by its operands. -/
theorem resolve_of_admits (admits : scope.arities.Admits name operands.length) :
    ∃ build, scope.resolve (.pair (.symbol name) operands) =
      (scope.resolveAll operands).map build := by
  cases admits with
  | function harity =>
      obtain ⟨function, hfound, hcount⟩ := Option.map_eq_some_iff.mp harity
      exact ⟨.call function.entry, by simp [resolve, hfound, hcount]⟩
  | builtin hundefined htakes =>
      have hfound := Option.map_eq_none_iff.mp hundefined
      cases hbuiltin : Builtin.ofName? name with
      | none =>
          exact absurd (Builtin.mem_names_of_takes htakes)
            (Builtin.ofName?_eq_none_iff.mp hbuiltin)
      | some builtin =>
          have hrefusal := (Builtin.refusal?_eq_none_iff hbuiltin).mpr htakes
          exact ⟨builtin.apply, by simp [resolve, hfound, hbuiltin, hrefusal]⟩

/-- Either the name of a form admits so many operands, or the form is refused for its shape. -/
theorem admits_or_breaks (scope : Scope) (name : String) (operands : Node) :
    scope.arities.Admits name operands.length ∨
      ∃ violation error, scope.resolve (.pair (.symbol name) operands) = .error error ∧
        error.kind = violation.kind ∧
        (Node.pair (.symbol name) operands).Breaks scope.arities scope.parameters violation := by
  cases hfound : scope.functions.lookup? name with
  | some function =>
      have harity : scope.arities name = some function.arity := by simp [Table.arities, hfound]
      by_cases hcount : operands.length = function.arity
      · exact .inl (.function (hcount ▸ harity))
      · refine .inr ⟨.arity, .arity name operands.length function.arity, ?_, rfl,
          .arity harity hcount⟩
        simp [resolve, hfound, hcount]
  | none =>
      have harity : scope.arities name = none := by simp [Table.arities, hfound]
      cases hbuiltin : Builtin.ofName? name with
      | none =>
          refine .inr ⟨.unknownFunction, .unknownFunction (.symbol name), ?_, rfl,
            .unknown harity (Builtin.ofName?_eq_none_iff.mp hbuiltin)⟩
          simp [resolve, hfound, hbuiltin]
      | some builtin =>
          have htakes : builtin.refusal? operands = none ↔ Builtin.Takes name operands.length :=
            Builtin.refusal?_eq_none_iff hbuiltin
          cases hrefusal : builtin.refusal? operands with
          | none => exact .inl (.builtin harity (htakes.mp hrefusal))
          | some error =>
              refine .inr ⟨.malformed, error, ?_, Builtin.kind_of_refusal? hrefusal,
                .malformed harity (Builtin.mem_names_of_ofName? hbuiltin) ?_⟩
              · simp [resolve, hfound, hbuiltin, hrefusal]
              · rw [← htakes, hrefusal]
                exact nofun

/-- What the rules say of a node is what became of resolving it. -/
def Judges (scope : Scope) (node : Node) : Except CompileError Expr → Prop
  | .ok _ => node.WellFormed scope.arities scope.parameters
  | .error error => ∃ violation, error.kind = violation.kind ∧
      node.Breaks scope.arities scope.parameters violation

/-- What the rules say of the nodes of a list is what became of resolving them: all keep the rules,
or those before the first that does not. -/
def JudgesAll (scope : Scope) (nodes : List Node) : Except CompileError (List Expr) → Prop
  | .ok _ => ∀ node ∈ nodes, node.WellFormed scope.arities scope.parameters
  | .error error => ∃ before node after violation, nodes = before ++ node :: after ∧
      (∀ earlier ∈ before, earlier.WellFormed scope.arities scope.parameters) ∧
      error.kind = violation.kind ∧ node.Breaks scope.arities scope.parameters violation

mutual

/-- A node is resolved if it keeps the rules, and fails by its first violation. -/
theorem judges_resolve (scope : Scope) : (node : Node) → scope.Judges node (scope.resolve node)
  | .int value => by
      rw [resolve]
      exact .int value
  | .symbol name => by
      rw [resolve]
      split
      · next hindex =>
          obtain ⟨hlt, rfl, -⟩ := List.idxOf?_eq_some_iff.mp hindex
          exact .symbol (List.getElem_mem hlt)
      · next hindex =>
          exact ⟨.undefinedArgument, rfl, .symbol (List.idxOf?_eq_none_iff.mp hindex)⟩
  | .pair (.symbol name) operands => by
      rcases scope.admits_or_breaks name operands with
        hadmits | ⟨violation, error, hfailed, hkind, hbreaks⟩
      · obtain ⟨build, hresolve⟩ := resolve_of_admits hadmits
        have hall := judgesAll_resolveAll scope operands
        rw [hresolve]
        cases h : scope.resolveAll operands with
        | ok exprs =>
            rw [h] at hall
            exact .form hadmits hall
        | error error =>
            rw [h] at hall
            obtain ⟨before, node, after, violation, hsplit, hearlier, hkind, hbreaks⟩ := hall
            exact ⟨violation, hkind, .operand hadmits hsplit hearlier hbreaks⟩
      · rw [hfailed]
        exact ⟨violation, hkind, hbreaks⟩
  | .pair (.int _) operands => by
      simp only [resolve]
      exact ⟨.unknownFunction, rfl, .head fun name ↦ nofun⟩
  | .pair (.pair _ _) operands => by
      simp only [resolve]
      exact ⟨.unknownFunction, rfl, .head fun name ↦ nofun⟩
  | .pair .missing operands => by
      simp only [resolve]
      exact ⟨.unknownFunction, rfl, .head fun name ↦ nofun⟩
  | .missing => by
      rw [resolve]
      exact ⟨.invalid, rfl, .missing⟩

/-- The nodes of a list are resolved from the left, up to the first that breaks a rule. -/
theorem judgesAll_resolveAll (scope : Scope) :
    (nodes : Node) → scope.JudgesAll nodes.items (scope.resolveAll nodes)
  | .pair head tail => by
      have hhead := judges_resolve scope head
      have htail := judgesAll_resolveAll scope tail
      rw [resolveAll]
      cases h : scope.resolve head with
      | error error =>
          rw [h] at hhead
          obtain ⟨violation, hkind, hbreaks⟩ := hhead
          exact ⟨[], head, tail.items, violation, rfl, by simp, hkind, hbreaks⟩
      | ok expr =>
          rw [h] at hhead
          cases hrest : scope.resolveAll tail with
          | error error =>
              rw [hrest] at htail
              obtain ⟨before, node, after, violation, hsplit, hearlier, hkind, hbreaks⟩ := htail
              refine ⟨head :: before, node, after, violation, ?_, ?_, hkind, hbreaks⟩
              · rw [Node.items, hsplit, List.cons_append]
              · exact List.forall_mem_cons.mpr ⟨hhead, hearlier⟩
          | ok exprs =>
              rw [hrest] at htail
              exact List.forall_mem_cons.mpr ⟨hhead, htail⟩
  | .int _ | .symbol _ | .missing => by
      rw [resolveAll_of_items_eq_nil rfl]
      exact List.forall_mem_nil _

end

/-- A list of nodes that can all be resolved can be resolved. -/
theorem exists_resolveAll {nodes : Node}
    (each : ∀ node ∈ nodes.items, ∃ expr, scope.resolve node = .ok expr) :
    ∃ exprs, scope.resolveAll nodes = .ok exprs := by
  induction nodes with
  | pair head tail _ ih =>
      obtain ⟨hhead, htail⟩ := List.forall_mem_cons.mp each
      obtain ⟨expr, hexpr⟩ := hhead
      obtain ⟨exprs, hexprs⟩ := ih htail
      exact ⟨expr :: exprs, resolveAll_pair_eq_ok.mpr ⟨expr, exprs, hexpr, hexprs, rfl⟩⟩
  | int _ | symbol _ | missing => exact ⟨[], resolveAll_of_items_eq_nil rfl⟩

/-- A list of nodes fails as the first of them does that cannot be resolved. -/
theorem resolveAll_eq_error {nodes node : Node} {before after : List Node}
    (split : nodes.items = before ++ node :: after)
    (earlier : ∀ other ∈ before, ∃ expr, scope.resolve other = .ok expr)
    (failed : scope.resolve node = .error error) : scope.resolveAll nodes = .error error := by
  induction before generalizing nodes with
  | nil =>
      cases nodes with
      | pair head tail =>
          obtain ⟨rfl, -⟩ := List.cons.inj split
          rw [resolveAll, failed]
          rfl
      | int _ | symbol _ | missing => cases split
  | cons first others ih =>
      cases nodes with
      | pair head tail =>
          obtain ⟨rfl, htail⟩ := List.cons.inj split
          obtain ⟨⟨expr, hexpr⟩, hothers⟩ := List.forall_mem_cons.mp earlier
          rw [resolveAll, hexpr, ih htail hothers]
          rfl
      | int _ | symbol _ | missing => cases split

end Scope

namespace Node

variable {node : Node} {violation : Violation}

/-- A node that keeps the rules is resolved. -/
theorem WellFormed.resolve (scope : Scope)
    (wellFormed : node.WellFormed scope.arities scope.parameters) :
    ∃ expr, scope.resolve node = .ok expr := by
  induction wellFormed with
  | int value => exact ⟨.literal value, by rw [Scope.resolve]⟩
  | symbol hbound =>
      have hindex := List.isSome_idxOf?.mpr hbound
      obtain ⟨index, hindex⟩ := Option.isSome_iff_exists.mp hindex
      exact ⟨.parameter index, by rw [Scope.resolve, hindex]⟩
  | form hadmits _ ih =>
      obtain ⟨build, hresolve⟩ := Scope.resolve_of_admits hadmits
      obtain ⟨exprs, hexprs⟩ := Scope.exists_resolveAll ih
      exact ⟨build exprs, by rw [hresolve, hexprs]; rfl⟩

/-- A node that breaks a rule fails by its first violation. -/
theorem Breaks.resolve (scope : Scope)
    (breaks : node.Breaks scope.arities scope.parameters violation) :
    ∃ error, scope.resolve node = .error error ∧ error.kind = violation.kind := by
  induction breaks with
  | missing => exact ⟨.invalid .missing, by rw [Scope.resolve], rfl⟩
  | @symbol name hunbound =>
      refine ⟨.undefinedArgument name, ?_, rfl⟩
      rw [Scope.resolve, List.idxOf?_eq_none_iff.mpr hunbound]
  | @head head operands hunnamed =>
      refine ⟨.unknownFunction head, ?_, rfl⟩
      cases head with
      | symbol name => exact absurd rfl (hunnamed name)
      | int _ | pair _ _ | missing => simp only [Scope.resolve]
  | @unknown name operands hundefined hunknown =>
      refine ⟨.unknownFunction (.symbol name), ?_, rfl⟩
      simp [Scope.resolve, Option.map_eq_none_iff.mp hundefined,
        Builtin.ofName?_eq_none_iff.mpr hunknown]
  | @arity name operands count hdefined hdiffers =>
      obtain ⟨function, hfound, rfl⟩ := Option.map_eq_some_iff.mp hdefined
      refine ⟨.arity name operands.length function.arity, ?_, rfl⟩
      simp [Scope.resolve, hfound, hdiffers]
  | @malformed name operands hundefined hknown hrefused =>
      cases hbuiltin : Builtin.ofName? name with
      | none => exact absurd hknown (Builtin.ofName?_eq_none_iff.mp hbuiltin)
      | some builtin =>
          cases hrefusal : builtin.refusal? operands with
          | none => exact absurd ((Builtin.refusal?_eq_none_iff hbuiltin).mp hrefusal) hrefused
          | some error =>
              refine ⟨error, ?_, Builtin.kind_of_refusal? hrefusal⟩
              simp [Scope.resolve, Option.map_eq_none_iff.mp hundefined, hbuiltin, hrefusal]
  | operand hadmits hsplit hearlier _ ih =>
      obtain ⟨error, hfailed, hkind⟩ := ih
      obtain ⟨build, hresolve⟩ := Scope.resolve_of_admits hadmits
      refine ⟨error, ?_, hkind⟩
      rw [hresolve, Scope.resolveAll_eq_error hsplit (fun other hother ↦
        (hearlier other hother).resolve scope) hfailed]
      rfl

end Node

/-! ## Top-level nodes -/

namespace Item

/-- Distinct symbols can be entered as parameters. -/
theorem parameterNames_symbols (function : String) {seen new : List String}
    (distinct : (seen ++ new).Nodup) :
    parameterNames function seen (new.map .symbol) = .ok (seen ++ new) := by
  induction new generalizing seen with
  | nil => simp [parameterNames]
  | cons name rest ih =>
      have hnew : name ∉ seen := by
        intro hmem
        exact (List.nodup_append.mp distinct).2.2 name hmem name List.mem_cons_self rfl
      have hsplit : seen ++ name :: rest = seen ++ [name] ++ rest := by simp
      rw [hsplit] at distinct ⊢
      rw [List.map_cons, parameterNames, if_neg hnew]
      exact ih distinct

/-- Parameters that cannot be entered make a definition malformed. -/
theorem kind_of_parameterNames {function : String} {seen : List String} {nodes : List Node}
    {error : CompileError} (failed : parameterNames function seen nodes = .error error) :
    error.kind = Violation.malformed.kind := by
  induction nodes generalizing seen with
  | nil => cases failed
  | cons node rest ih =>
      cases node with
      | symbol name =>
          rw [parameterNames] at failed
          split at failed
          · cases failed
            rfl
          · exact ih failed
      | int value | pair head tail | missing =>
          cases failed
          rfl

variable {table : Table} {start : Nat} {node written body : Node} {name : String}
  {parameters : List String}

/-- A definition of the right shape is what its body is, where the function itself may be called. -/
theorem ofDefinition_eq (table : Table) (start : Nat)
    (defines : written.Defines name parameters body) :
    ofDefinition table start written =
      (Scope.resolve ⟨table.set ⟨name, start + 1, parameters.length⟩, parameters⟩ body).map
        (.definition ⟨name, start + 1, parameters.length⟩) := by
  obtain ⟨nodes, hitems, hnodes, hdistinct⟩ := defines
  have hnames : parameterNames name [] nodes.items = .ok parameters := by
    rw [hnodes]
    exact parameterNames_symbols name hdistinct
  have hlength : nodes.length = parameters.length := by simp [Node.length, hnodes]
  simp only [ofDefinition, hitems, hnames, hlength]
  show (do
    let expr ← Scope.resolve ⟨table.set ⟨name, start + 1, parameters.length⟩, parameters⟩ body
    return Item.definition ⟨name, start + 1, parameters.length⟩ expr) = _
  generalize Scope.resolve _ body = resolved
  cases resolved <;> rfl

/-- A definition of another shape is malformed. -/
theorem ofDefinition_malformed (table : Table) (start : Nat)
    (differs : ∀ name parameters body, ¬written.Defines name parameters body) :
    ∃ error, ofDefinition table start written = .error error ∧
      error.kind = Violation.malformed.kind := by
  unfold ofDefinition
  split
  · next name nodes body hitems =>
      cases hnames : parameterNames name [] nodes.items with
      | error error => exact ⟨error, rfl, kind_of_parameterNames hnames⟩
      | ok names =>
          obtain ⟨new, hnodes, hseen, hdistinct⟩ := of_parameterNames .nil hnames
          rw [List.nil_append] at hseen
          subst hseen
          exact absurd ⟨nodes, hitems, hnodes, hdistinct⟩ (differs name names body)
  · exact ⟨_, rfl, rfl⟩
  · exact ⟨_, rfl, rfl⟩

/-- The word `define` begins a definition if no function has this name. -/
theorem ofNode_define (undefined : table.arities "define" = none) (written : Node) :
    ofNode table start (.pair (.symbol "define") written) = ofDefinition table start written := by
  have hbuiltin : Builtin.ofName? "define" = some .definition := by decide
  rw [ofNode, if_pos ⟨Option.map_eq_none_iff.mp undefined, hbuiltin⟩]

/-- Every other node is an expression. -/
theorem ofNode_plain
    (plain : ∀ written, node = .pair (.symbol "define") written → table.arities "define" ≠ none) :
    ofNode table start node = (Scope.resolve ⟨table, []⟩ node).map .expression := by
  unfold ofNode
  split
  · next name tail =>
      rw [if_neg]
      rintro ⟨hundefined, hbuiltin⟩
      obtain rfl := Builtin.eq_define hbuiltin
      exact plain tail rfl (Option.map_eq_none_iff.mpr hundefined)
  · rfl

end Item

/-- A function with a later entry is the one of its name. -/
theorem Table.Valid.arities_set {table : Table} {bound entry : Nat} (valid : table.Valid bound)
    (le : bound ≤ entry) (name : String) (count : Nat) :
    (table.set ⟨name, entry, count⟩).arities = table.arities.bind name count := by
  funext other
  rw [Table.arities, valid.lookup?_set le, Arities.bind]
  by_cases h : name = other
  · rw [if_pos h, if_pos h.symm]
    rfl
  · rw [if_neg h, if_neg (Ne.symm h)]
    rfl

namespace Node

variable {table : Table} {start : Nat} {node : Node} {violation : Violation}

/-- A node that keeps the rules inside others is not a definition. -/
theorem WellFormed.plain {parameters : List String}
    (wellFormed : node.WellFormed table.arities parameters) :
    ∀ written, node = .pair (.symbol "define") written → table.arities "define" ≠ none := by
  rintro written rfl hundefined
  cases wellFormed with
  | form hadmits _ =>
      cases hadmits with
      | function harity =>
          rw [hundefined] at harity
          cases harity
      | builtin _ htakes => simp [Builtin.Takes] at htakes

/-- A top-level node that keeps the rules has an item. -/
theorem Compiles.ofNode (compiles : node.Compiles table.arities) (valid : table.Valid start) :
    ∃ item, Item.ofNode table start node = .ok item := by
  cases compiles with
  | expression hwellFormed =>
      obtain ⟨expr, hexpr⟩ := hwellFormed.resolve ⟨table, []⟩
      exact ⟨.expression expr, by rw [Item.ofNode_plain hwellFormed.plain, hexpr]; rfl⟩
  | @definition written body name parameters hundefined hdefines hwellFormed =>
      rw [← valid.arities_set (Nat.le_succ start)] at hwellFormed
      obtain ⟨expr, hexpr⟩ := hwellFormed.resolve
        ⟨table.set ⟨name, start + 1, parameters.length⟩, parameters⟩
      refine ⟨.definition ⟨name, start + 1, parameters.length⟩ expr, ?_⟩
      rw [Item.ofNode_define hundefined, Item.ofDefinition_eq table start hdefines, hexpr]
      rfl

/-- A top-level node that breaks a rule fails by its first violation. -/
theorem Refused.ofNode (refused : node.Refused table.arities violation)
    (valid : table.Valid start) :
    ∃ error, Item.ofNode table start node = .error error ∧ error.kind = violation.kind := by
  cases refused with
  | expression hplain hbreaks =>
      obtain ⟨error, hfailed, hkind⟩ := hbreaks.resolve ⟨table, []⟩
      exact ⟨error, by rw [Item.ofNode_plain hplain, hfailed]; rfl, hkind⟩
  | shape hundefined hdiffers =>
      rw [Item.ofNode_define hundefined]
      exact Item.ofDefinition_malformed table start hdiffers
  | @body written body name parameters _ hundefined hdefines hbreaks =>
      rw [← valid.arities_set (Nat.le_succ start)] at hbreaks
      obtain ⟨error, hfailed, hkind⟩ := hbreaks.resolve
        ⟨table.set ⟨name, start + 1, parameters.length⟩, parameters⟩
      refine ⟨error, ?_, hkind⟩
      rw [Item.ofNode_define hundefined, Item.ofDefinition_eq table start hdefines, hfailed]
      rfl

/-- What the rules say of a top-level node is what became of it. -/
def Judged (table : Table) (node : Node) : Except CompileError Item → Prop
  | .ok _ => node.Compiles table.arities
  | .error error => ∃ violation, error.kind = violation.kind ∧
      node.Refused table.arities violation

/-- A definition has an item if it keeps the rules, and fails by its first violation. -/
theorem judged_ofDefinition (valid : table.Valid start)
    (undefined : table.arities "define" = none) (written : Node) :
    (Node.pair (.symbol "define") written).Judged table
      (Item.ofDefinition table start written) := by
  by_cases hshape : ∃ name parameters body, written.Defines name parameters body
  · obtain ⟨name, parameters, body, hdefines⟩ := hshape
    have hbody := Scope.judges_resolve
      ⟨table.set ⟨name, start + 1, parameters.length⟩, parameters⟩ body
    rw [Item.ofDefinition_eq table start hdefines]
    cases h : Scope.resolve ⟨table.set ⟨name, start + 1, parameters.length⟩, parameters⟩ body with
    | ok expr =>
        rw [h, Scope.Judges, Scope.arities, valid.arities_set (Nat.le_succ start)] at hbody
        exact .definition undefined hdefines hbody
    | error error =>
        rw [h] at hbody
        obtain ⟨violation, hkind, hbreaks⟩ := hbody
        rw [Scope.arities, valid.arities_set (Nat.le_succ start)] at hbreaks
        exact ⟨violation, hkind, .body undefined hdefines hbreaks⟩
  · have hdiffers : ∀ name parameters body, ¬written.Defines name parameters body :=
      fun name parameters body hdefines ↦ hshape ⟨name, parameters, body, hdefines⟩
    obtain ⟨error, hfailed, hkind⟩ := Item.ofDefinition_malformed table start hdiffers
    rw [hfailed]
    exact ⟨.malformed, hkind, .shape undefined hdiffers⟩

/-- A top-level node has an item if it keeps the rules, and fails by its first violation. -/
theorem judged_ofNode (valid : table.Valid start) (node : Node) :
    node.Judged table (Item.ofNode table start node) := by
  by_cases hdefine : ∃ written, node = .pair (.symbol "define") written ∧
      table.arities "define" = none
  · obtain ⟨written, rfl, hundefined⟩ := hdefine
    rw [Item.ofNode_define hundefined]
    exact judged_ofDefinition valid hundefined written
  · have hplain : ∀ written, node = .pair (.symbol "define") written →
        table.arities "define" ≠ none :=
      fun written hnode hundefined ↦ hdefine ⟨written, hnode, hundefined⟩
    have hnode := Scope.judges_resolve ⟨table, []⟩ node
    rw [Item.ofNode_plain hplain]
    cases h : Scope.resolve ⟨table, []⟩ node with
    | ok expr =>
        rw [h] at hnode
        exact .expression hnode
    | error error =>
        rw [h] at hnode
        obtain ⟨violation, hkind, hbreaks⟩ := hnode
        exact ⟨violation, hkind, .expression hplain hbreaks⟩

end Node

namespace Compiler

variable {compiler : Compiler} {environment : Environment}

/-- What a settled compiler says of a node is whether the node has an item. -/
theorem Settled.snd_compile (settled : compiler.Settled environment) (node : Node) :
    (compiler.compile node).2 =
      match Item.ofNode compiler.functions compiler.program.size node with
      | .ok _ => none
      | .error error => some error := by
  rw [compile_eq settled.valid settled.parameters_eq]
  cases Item.ofNode compiler.functions compiler.program.size node <;> rfl

/-- The static rules are exactly these: a compiler that can be reached compiles a node if and only
if the node keeps the rules, with the functions that are defined so far. If it does not, the error
has the kind of the first violation. -/
theorem compile_follows_rules {initial : Program} (reached : Reached initial compiler environment)
    (node : Node) :
    ((compiler.compile node).2 = none ↔ node.Compiles compiler.functions.arities) ∧
    ∀ kind, (compiler.compile node).2.map CompileError.kind = some kind ↔
      ∃ violation : Violation, violation.kind = kind ∧
        node.Refused compiler.functions.arities violation := by
  have hvalid := reached.settled.valid
  have hjudged := node.judged_ofNode hvalid
  rw [reached.settled.snd_compile]
  refine ⟨⟨fun hnone ↦ ?_, fun hcompiles ↦ ?_⟩, fun kind ↦ ⟨fun hsome ↦ ?_, ?_⟩⟩
  · cases h : Item.ofNode compiler.functions compiler.program.size node with
    | ok item =>
        rw [h] at hjudged
        exact hjudged
    | error error =>
        rw [h] at hnone
        cases hnone
  · obtain ⟨item, hitem⟩ := hcompiles.ofNode hvalid
    rw [hitem]
  · cases h : Item.ofNode compiler.functions compiler.program.size node with
    | ok item =>
        rw [h] at hsome
        cases hsome
    | error error =>
        rw [h] at hsome hjudged
        obtain ⟨violation, hkind, hrefused⟩ := hjudged
        cases hsome
        exact ⟨violation, hkind.symm, hrefused⟩
  · rintro ⟨violation, rfl, hrefused⟩
    obtain ⟨error, hfailed, hkind⟩ := hrefused.ofNode hvalid
    rw [hfailed]
    exact congrArg some hkind

/-- A function called `if` hides the builtin: with one parameter it takes one argument and not
three, which is found before the missing operand of the quotient to its right. -/
theorem compile_follows_rules_shadowed :
    let shadowing := (({} : Compiler).compile (.ofList [.symbol "define",
      .ofList [.symbol "if", .symbol "x"], .symbol "x"])).1
    let refused := Node.ofList [.symbol "+", .ofList [.symbol "if", .int 1, .int 2, .int 3],
      .ofList [.symbol "/"]]
    (Node.ofList [.symbol "if", .int 1]).Compiles shadowing.functions.arities ∧
      ∃ violation : Violation, violation.kind = "compile.arity" ∧
        refused.Refused shadowing.functions.arities violation :=
  ⟨(compile_follows_rules (.compile _ .start) _).1.mp (by decide +kernel),
    ((compile_follows_rules (.compile _ .start) _).2 "compile.arity").mp (by decide +kernel)⟩

end Compiler

end WordLisp
