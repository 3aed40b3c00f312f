import WordLisp.Proofs.Compiler.Reached
import WordLisp.Proofs.Evaluation.Forms

/-!
# Direct evaluation

The meaning of expressions, without any machine: literals denote themselves, parameters what they
are bound to, operands and arguments are evaluated once each from the left to the right, and of a
choice only the part that is chosen. A name means the definition that was in force where it stands,
and only if there is none the builtin form (`Form.ofName?`).

`Evaluates environment bindings node outcome depth` says that a node evaluates to an outcome, a
value or a fault, and that `depth` is the deepest stack this needs: a slot for each pending operand
and argument, and two more for each call that has not returned.
-/

namespace WordLisp

/-- What the parameters of a function are bound to. -/
abbrev Bindings := List (String × Word)

mutual

/-- A node evaluates to an outcome, with a stack of this depth. -/
inductive Evaluates : Environment → Bindings → Node → Except Fault Word → Nat → Prop where
  /-- A literal. -/
  | int (environment : Environment) (bindings : Bindings) (value : Word) :
      Evaluates environment bindings (.int value) (.ok value) 1
  /-- A parameter. -/
  | parameter {environment : Environment} {bindings : Bindings} {name : String} {value : Word} :
      bindings.lookup name = some value →
      Evaluates environment bindings (.symbol name) (.ok value) 1
  /-- A call of a defined function, whose body sees the definitions of its own time. The arguments
  stay on the stack, with two more slots, while the body is evaluated. -/
  | call {environment scope : Environment} {bindings : Bindings} {name : String}
      {definition : Definition} {operands : Node} {arguments : List Word}
      {outcome : Except Fault Word} {before inside : Nat} :
      environment.find? name = some (definition, scope) →
      operands.length = definition.parameters.length →
      EvaluatesAll environment bindings operands.items (.ok arguments) before →
      Evaluates scope (definition.parameters.zip arguments) definition.body outcome inside →
      Evaluates environment bindings (.pair (.symbol name) operands) outcome
        (max before (arguments.length + 2 + inside))
  /-- A call with an argument that faults. -/
  | callFaults {environment scope : Environment} {bindings : Bindings} {name : String}
      {definition : Definition} {operands : Node} {fault : Fault} {depth : Nat} :
      environment.find? name = some (definition, scope) →
      operands.length = definition.parameters.length →
      EvaluatesAll environment bindings operands.items (.error fault) depth →
      Evaluates environment bindings (.pair (.symbol name) operands) (.error fault) depth
  /-- A builtin form whose name has not been defined. -/
  | form {environment : Environment} {bindings : Bindings} {name : String} {form : Form}
      {operands : Node} {outcome : Except Fault Word} {depth : Nat} :
      environment.find? name = none → Form.ofName? name = some form →
      Applies environment bindings form operands.items outcome depth →
      Evaluates environment bindings (.pair (.symbol name) operands) outcome depth

/-- Nodes evaluate, one after the other, to a list of values, or to the first fault. -/
inductive EvaluatesAll :
    Environment → Bindings → List Node → Except Fault (List Word) → Nat → Prop where
  /-- No node. -/
  | nil (environment : Environment) (bindings : Bindings) :
      EvaluatesAll environment bindings [] (.ok []) 0
  /-- The value of the first node stays on the stack while the others are evaluated. -/
  | cons {environment : Environment} {bindings : Bindings} {node : Node} {rest : List Node}
      {value : Word} {outcome : Except Fault (List Word)} {first others : Nat} :
      Evaluates environment bindings node (.ok value) first →
      EvaluatesAll environment bindings rest outcome others →
      EvaluatesAll environment bindings (node :: rest) (outcome.map (value :: ·))
        (max first (1 + others))
  /-- The first node faults. -/
  | faults {environment : Environment} {bindings : Bindings} {node : Node} {rest : List Node}
      {fault : Fault} {depth : Nat} :
      Evaluates environment bindings node (.error fault) depth →
      EvaluatesAll environment bindings (node :: rest) (.error fault) depth

/-- Nodes are joined from the left to a value that is on the stack. -/
inductive Joins :
    Environment → Bindings → Join → Word → List Node → Except Fault Word → Nat → Prop where
  /-- Nothing is left to join. -/
  | nil (environment : Environment) (bindings : Bindings) (join : Join) (value : Word) :
      Joins environment bindings join value [] (.ok value) 1
  /-- The next node is joined, and the others to the result. -/
  | cons {environment : Environment} {bindings : Bindings} {join : Join} {left right value : Word}
      {node : Node} {rest : List Node} {outcome : Except Fault Word} {next others : Nat} :
      Evaluates environment bindings node (.ok right) next →
      join left right = .ok value →
      Joins environment bindings join value rest outcome others →
      Joins environment bindings join left (node :: rest) outcome (max (1 + next) others)
  /-- The two values cannot be joined. -/
  | joinFaults {environment : Environment} {bindings : Bindings} {join : Join}
      {left right : Word} {node : Node} {rest : List Node} {fault : Fault} {next : Nat} :
      Evaluates environment bindings node (.ok right) next →
      join left right = .error fault →
      Joins environment bindings join left (node :: rest) (.error fault) (1 + next)
  /-- The next node faults. -/
  | faults {environment : Environment} {bindings : Bindings} {join : Join} {left : Word}
      {node : Node} {rest : List Node} {fault : Fault} {next : Nat} :
      Evaluates environment bindings node (.error fault) next →
      Joins environment bindings join left (node :: rest) (.error fault) (1 + next)

/-- Operands are combined: their values are joined from the left. -/
inductive Combines :
    Environment → Bindings → Join → List Node → Except Fault Word → Nat → Prop where
  /-- The first operand, and then the others. -/
  | cons {environment : Environment} {bindings : Bindings} {join : Join} {value : Word}
      {node : Node} {rest : List Node} {outcome : Except Fault Word} {first others : Nat} :
      Evaluates environment bindings node (.ok value) first →
      Joins environment bindings join value rest outcome others →
      Combines environment bindings join (node :: rest) outcome (max first others)
  /-- The first operand faults. -/
  | faults {environment : Environment} {bindings : Bindings} {join : Join} {node : Node}
      {rest : List Node} {fault : Fault} {depth : Nat} :
      Evaluates environment bindings node (.error fault) depth →
      Combines environment bindings join (node :: rest) (.error fault) depth

/-- A builtin form applied to its operands. -/
inductive Applies :
    Environment → Bindings → Form → List Node → Except Fault Word → Nat → Prop where
  /-- A form that takes one operand. -/
  | one {environment : Environment} {bindings : Bindings} {change : Word → Except Fault Word}
      {node : Node} {outcome : Except Fault Word} {depth : Nat} :
      Evaluates environment bindings node outcome depth →
      Applies environment bindings (.one change) [node] (outcome >>= change) depth
  /-- A form that takes two operands. -/
  | two {environment : Environment} {bindings : Bindings} {join : Join} {left right : Node}
      {outcome : Except Fault Word} {depth : Nat} :
      Combines environment bindings join [left, right] outcome depth →
      Applies environment bindings (.two join) [left, right] outcome depth
  /-- Without operands a form is its unit. -/
  | unit (environment : Environment) (bindings : Bindings) (unit : Word) (join : Join) :
      Applies environment bindings (.any unit join) [] (.ok unit) 1
  /-- A form that takes any number of operands, with at least one. -/
  | any {environment : Environment} {bindings : Bindings} {unit : Word} {join : Join}
      {node : Node} {rest : List Node} {outcome : Except Fault Word} {depth : Nat} :
      Combines environment bindings join (node :: rest) outcome depth →
      Applies environment bindings (.any unit join) (node :: rest) outcome depth
  /-- A single operand is joined to the unit. -/
  | single {environment : Environment} {bindings : Bindings} {unit : Word} {join : Join}
      {node : Node} {outcome : Except Fault Word} {depth : Nat} :
      Joins environment bindings join unit [node] outcome depth →
      Applies environment bindings (.several unit join) [node] outcome depth
  /-- A form that takes several operands, with at least two. -/
  | several {environment : Environment} {bindings : Bindings} {unit : Word} {join : Join}
      {first second : Node} {rest : List Node} {outcome : Except Fault Word} {depth : Nat} :
      Combines environment bindings join (first :: second :: rest) outcome depth →
      Applies environment bindings (.several unit join) (first :: second :: rest) outcome depth
  /-- Only the part that the condition chooses is evaluated. -/
  | choice {environment : Environment} {bindings : Bindings}
      {condition consequent alternative : Node} {value : Word} {outcome : Except Fault Word}
      {test chosen : Nat} :
      Evaluates environment bindings condition (.ok value) test →
      Evaluates environment bindings (if value = 0 then alternative else consequent) outcome
        chosen →
      Applies environment bindings .choice [condition, consequent, alternative] outcome
        (max test chosen)
  /-- The condition faults. -/
  | conditionFaults {environment : Environment} {bindings : Bindings}
      {condition consequent alternative : Node} {fault : Fault} {depth : Nat} :
      Evaluates environment bindings condition (.error fault) depth →
      Applies environment bindings .choice [condition, consequent, alternative] (.error fault)
        depth

end

mutual

/-- Every evaluation takes a slot. -/
theorem Evaluates.depth_pos {environment : Environment} {bindings : Bindings} {node : Node}
    {outcome : Except Fault Word} {depth : Nat}
    (h : Evaluates environment bindings node outcome depth) : 0 < depth := by
  match h with
  | .int _ _ _ | .parameter _ => exact Nat.one_pos
  | .call _ _ _ hbody =>
      have := Evaluates.depth_pos hbody
      omega
  | .callFaults _ _ harguments => exact EvaluatesAll.depth_pos harguments nofun
  | .form _ _ happlies => exact Applies.depth_pos happlies

/-- A fault among several nodes takes a slot. -/
theorem EvaluatesAll.depth_pos {environment : Environment} {bindings : Bindings}
    {nodes : List Node} {result : Except Fault (List Word)} {depth : Nat}
    (h : EvaluatesAll environment bindings nodes result depth)
    (fault : ∀ values, result ≠ .ok values) : 0 < depth := by
  match h with
  | .nil _ _ => exact absurd rfl (fault [])
  | .cons hfirst _ =>
      have := Evaluates.depth_pos hfirst
      omega
  | .faults hfirst => exact Evaluates.depth_pos hfirst

/-- A value that others are joined to takes a slot. -/
theorem Joins.depth_pos {environment : Environment} {bindings : Bindings} {join : Join}
    {value : Word} {nodes : List Node} {outcome : Except Fault Word} {depth : Nat}
    (h : Joins environment bindings join value nodes outcome depth) : 0 < depth := by
  match h with
  | .nil _ _ _ _ => exact Nat.one_pos
  | .cons _ _ _ | .joinFaults _ _ | .faults _ => omega

/-- Operands that are combined take a slot. -/
theorem Combines.depth_pos {environment : Environment} {bindings : Bindings} {join : Join}
    {nodes : List Node} {outcome : Except Fault Word} {depth : Nat}
    (h : Combines environment bindings join nodes outcome depth) : 0 < depth := by
  match h with
  | .cons hfirst _ =>
      have := Evaluates.depth_pos hfirst
      omega
  | .faults hfirst => exact Evaluates.depth_pos hfirst

/-- A builtin form takes a slot. -/
theorem Applies.depth_pos {environment : Environment} {bindings : Bindings} {form : Form}
    {nodes : List Node} {outcome : Except Fault Word} {depth : Nat}
    (h : Applies environment bindings form nodes outcome depth) : 0 < depth := by
  match h with
  | .one hnode => exact Evaluates.depth_pos hnode
  | .unit _ _ _ _ => exact Nat.one_pos
  | .two hcombines | .any hcombines | .several hcombines => exact Combines.depth_pos hcombines
  | .single hjoins => exact Joins.depth_pos hjoins
  | .choice htest _ =>
      have := Evaluates.depth_pos htest
      omega
  | .conditionFaults htest => exact Evaluates.depth_pos htest

end

/-! ## Faults -/

mutual

/-- Evaluation faults only in a division. -/
theorem Evaluates.isDivision {environment : Environment} {bindings : Bindings} {node : Node}
    {outcome : Except Fault Word} {depth : Nat}
    (h : Evaluates environment bindings node outcome depth) :
    ∀ fault, outcome = .error fault → fault.IsDivision := by
  match h with
  | .int _ _ _ | .parameter _ => exact nofun
  | .call _ _ _ hbody => exact Evaluates.isDivision hbody
  | .callFaults _ _ harguments =>
      rintro _ ⟨⟩
      exact EvaluatesAll.isDivision harguments _ rfl
  | .form _ hform happlies =>
      exact Applies.isDivision happlies (Form.onlyDivides_of_ofName? hform)

/-- Evaluation of several nodes faults only in a division. -/
theorem EvaluatesAll.isDivision {environment : Environment} {bindings : Bindings}
    {nodes : List Node} {result : Except Fault (List Word)} {depth : Nat}
    (h : EvaluatesAll environment bindings nodes result depth) :
    ∀ fault, result = .error fault → fault.IsDivision := by
  match h with
  | .nil _ _ => exact nofun
  | .cons _ hrest =>
      intro fault hfailed
      exact EvaluatesAll.isDivision hrest fault (map_eq_error.mp hfailed)
  | .faults hfirst =>
      rintro _ ⟨⟩
      exact Evaluates.isDivision hfirst _ rfl

/-- Joining faults only in a division. -/
theorem Joins.isDivision {environment : Environment} {bindings : Bindings} {join : Join}
    {value : Word} {nodes : List Node} {outcome : Except Fault Word} {depth : Nat}
    (h : Joins environment bindings join value nodes outcome depth) (divides : join.OnlyDivides) :
    ∀ fault, outcome = .error fault → fault.IsDivision := by
  match h with
  | .nil _ _ _ _ => exact nofun
  | .cons _ _ hrest => exact Joins.isDivision hrest divides
  | .joinFaults _ hfault =>
      rintro _ ⟨⟩
      exact divides _ _ _ hfault
  | .faults hnode =>
      rintro _ ⟨⟩
      exact Evaluates.isDivision hnode _ rfl

/-- Combining faults only in a division. -/
theorem Combines.isDivision {environment : Environment} {bindings : Bindings} {join : Join}
    {nodes : List Node} {outcome : Except Fault Word} {depth : Nat}
    (h : Combines environment bindings join nodes outcome depth) (divides : join.OnlyDivides) :
    ∀ fault, outcome = .error fault → fault.IsDivision := by
  match h with
  | .cons _ hrest => exact Joins.isDivision hrest divides
  | .faults hfirst =>
      rintro _ ⟨⟩
      exact Evaluates.isDivision hfirst _ rfl

/-- A builtin form faults only in a division. -/
theorem Applies.isDivision {environment : Environment} {bindings : Bindings} {form : Form}
    {nodes : List Node} {outcome : Except Fault Word} {depth : Nat}
    (h : Applies environment bindings form nodes outcome depth) (divides : form.OnlyDivides) :
    ∀ fault, outcome = .error fault → fault.IsDivision := by
  match h with
  | .one hnode =>
      intro fault hfailed
      rcases bind_eq_error.mp hfailed with hfault | ⟨value, -, hchange⟩
      · exact Evaluates.isDivision hnode fault hfault
      · exact absurd hchange (divides value fault)
  | .unit _ _ _ _ => exact nofun
  | .two hcombines | .any hcombines | .several hcombines =>
      exact Combines.isDivision hcombines divides
  | .single hjoins => exact Joins.isDivision hjoins divides
  | .choice _ hchosen => exact Evaluates.isDivision hchosen
  | .conditionFaults htest =>
      rintro _ ⟨⟩
      exact Evaluates.isDivision htest _ rfl

end

end WordLisp
