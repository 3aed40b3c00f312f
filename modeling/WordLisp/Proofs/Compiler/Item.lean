import WordLisp.Compiler.Basic
import WordLisp.Proofs.Compiler.Pass

/-!
# What a top-level node means

An `Item` is what a top-level node means: an expression, or a function with its body. The main fact
is `Compiler.compile_eq`: between two nodes, when the table is in order and no parameters are
entered, to compile a node is to add the code of its item and its function, or to change nothing
and give the first rule that the node breaks.
-/

namespace WordLisp

/-- What a top-level node means. -/
inductive Item where
  /-- An expression to be evaluated. -/
  | expression (expr : Expr)
  /-- A function with its body. -/
  | definition (function : Function) (body : Expr)

namespace Item

/-- The names of the parameters of a definition, which must be symbols and distinct, after those
that were seen before. -/
def parameterNames (function : String) (seen : List String) :
    List Node → Except CompileError (List String)
  | [] => .ok seen
  | .symbol name :: rest =>
      if name ∈ seen then .error (.duplicateParameter name function)
      else parameterNames function (seen ++ [name]) rest
  | node :: _ => .error (.parameter node)

/-- The item of a definition at address `start`, from what follows the word `define`. -/
def ofDefinition (functions : Table) (start : Nat) (written : Node) : Except CompileError Item :=
  match written.items with
  | [.pair (.symbol name) parameters, body] => do
      let function : Function := ⟨name, start + 1, parameters.length⟩
      let names ← parameterNames name [] parameters.items
      let expr ← Scope.resolve ⟨functions.set function, names⟩ body
      return .definition function expr
  | [signature, _] => .error (.signature signature)
  | _ => .error (.operandCount "define" 2 written)

/-- The item of a top-level node whose code starts at address `start`. -/
def ofNode (functions : Table) (start : Nat) (node : Node) : Except CompileError Item :=
  match node with
  | .pair (.symbol name) tail =>
      if functions.lookup? name = none ∧ Builtin.ofName? name = some .definition then
        ofDefinition functions start tail
      else
        (Scope.resolve ⟨functions, []⟩ node).map .expression
  | node => (Scope.resolve ⟨functions, []⟩ node).map .expression

/-- The code of a function at address `start`, with the jump over it. -/
def functionCode (start arity : Nat) (body : Expr) : List Inst :=
  .jump (Int64.ofNat (start + 2 + body.size + 1)) :: .enter (Int64.ofNat arity) ::
    body.code (start + 2) ++ [.exit]

/-- The code of an item at address `start`. -/
def code (start : Nat) : Item → List Inst
  | .expression expr => expr.code start
  | .definition function body => functionCode start function.arity body

@[simp] theorem length_functionCode (start arity : Nat) (body : Expr) :
    (functionCode start arity body).length = body.size + 3 := by
  simp [functionCode]

/-- The functions that may be called after an item. -/
def functions (before : Table) : Item → Table
  | .expression _ => before
  | .definition function _ => before.set function

end Item

/-- The parts of a function. -/
theorem CodeAt.function {program : Program} {start arity : Nat} {body : Expr}
    (h : CodeAt program start (Item.functionCode start arity body)) :
    program[start]? = some (.jump (Int64.ofNat (start + 2 + body.size + 1))) ∧
      program[start + 1]? = some (.enter (Int64.ofNat arity)) ∧
      CodeAt program (start + 2) (body.code (start + 2)) ∧
      program[start + 2 + body.size]? = some .exit := by
  have hbody := h.tail.tail
  have hexit := hbody.right.head
  rw [Expr.length_code] at hexit
  exact ⟨h.head, h.tail.head, hbody.left, hexit⟩

namespace Draft

/-- The draft with other parameters. -/
def withParameters (draft : Draft) (names : List String) : Draft :=
  { draft with parameters := names }

/-- The draft with another function table. -/
def withFunctions (draft : Draft) (functions : Table) : Draft :=
  { draft with functions }

end Draft

namespace Pass

/-- Parameters are entered as long as they are symbols and new. -/
theorem enterParameters_eq (function : String) (nodes : List Node) (draft : Draft) :
    match Item.parameterNames function draft.parameters nodes with
    | .ok names => enterParameters function nodes draft = .ok () (draft.withParameters names)
    | .error error => ∃ names, enterParameters function nodes draft =
        .error error (draft.withParameters names) := by
  induction nodes generalizing draft with
  | nil => rfl
  | cons node rest ih =>
      cases node with
      | symbol name =>
          by_cases hmem : name ∈ draft.parameters
          · simp only [Item.parameterNames, if_pos hmem]
            refine ⟨draft.parameters, ?_⟩
            simp [enterParameters, parameter?, bind, EStateM.bind, hmem, throw_eq,
              Draft.withParameters]
          · simp only [Item.parameterNames, if_neg hmem]
            have hrest := ih (draft.withParameters (draft.parameters ++ [name]))
            have hstep : enterParameters function (.symbol name :: rest) draft =
                enterParameters function rest
                  (draft.withParameters (draft.parameters ++ [name])) := by
              simp [enterParameters, parameter?, addParameter, bind, EStateM.bind, hmem,
                Draft.withParameters]
            rw [hstep]
            exact hrest
      | int value | pair head tail | missing => exact ⟨draft.parameters, rfl⟩

/-- A function is laid down behind the hole of its jump, which is filled in at the end. -/
theorem lays_function (function : Function) (body : Node) (base : Draft) (edits : Array Edit) :
    Lays (fun draft ↦
        (do
          emit (.enter (Int64.ofNat function.arity))
          lower body
          emit .exit
          patch base.program.size (.jump (Int64.ofNat (← address)))
          note (.define function) : Pass Unit) (draft.extend [.hole] edits))
      base ((base.scope.resolve body).map
        (Item.functionCode base.program.size function.arity)) := by
  -- The body is compiled behind two instructions, the hole of the jump and `enter`.
  generalize henter : Inst.enter (Int64.ofNat function.arity) = enter
  obtain ⟨edits, hentered⟩ := lays_emit enter (base.extend [.hole] edits)
  have hbody := (follows base.scope body).extend rfl [.hole, enter] edits
  cases hresolved : base.scope.resolve body with
  | error error =>
      rw [hresolved] at hbody
      obtain ⟨code, later, hbody⟩ := hbody
      refine ⟨[.hole, enter] ++ code, later, ?_⟩
      simp only [bind, EStateM.bind, hentered, Draft.extend_extend, List.singleton_append, hbody]
  | ok expr =>
      rw [hresolved] at hbody
      obtain ⟨edits, hbody⟩ := hbody
      rw [Draft.extend_extend] at hbody
      generalize hlaid : [.hole, enter] ++ expr.code _ = laid at hbody
      have hlength : (laid ++ [Inst.exit]).length = 2 + expr.size + 1 := by
        rw [← hlaid]
        simp only [List.length_append, Expr.length_code]
        rfl
      obtain ⟨edits, hexit⟩ := lays_emit .exit (base.extend laid edits)
      -- The hole is the first of what was laid down, so nothing stands before it.
      have hsplit : laid ++ [Inst.exit] = [] ++ Inst.hole ::
          (enter :: expr.code (base.program.size + 2) ++ [Inst.exit]) := by
        rw [← hlaid]
        rfl
      obtain ⟨edits, hpatch⟩ := patch_eq base []
        (enter :: expr.code (base.program.size + 2) ++ [Inst.exit]) edits
        (.jump (Int64.ofNat (base.program.size + (2 + expr.size + 1)))) (by simp [Inst.jump])
      rw [← hsplit] at hpatch
      refine ⟨edits.push (.define function), ?_⟩
      simp only [bind, EStateM.bind, hentered, Draft.extend_extend, List.singleton_append, hbody,
        hexit, address_eq, Draft.size_extend, hlength, List.length_nil, Nat.add_zero] at hpatch ⊢
      rw [hpatch]
      simp [note, Item.functionCode, henter, Draft.extend, Nat.add_assoc]

/-- A pass over a top-level node ends with the code and the function of its item, or with an error
and nothing changed but what stands behind the program. -/
def Lands (pass : Pass Unit) (draft : Draft) (item : Except CompileError Item) : Prop :=
  match item with
  | .ok item => ∃ edits, pass draft = .ok ()
      ((draft.withFunctions (item.functions draft.functions)).extend
        (item.code draft.program.size) edits)
  | .error error => ∃ code edits, pass draft = .error error (draft.extend code edits)

/-- Where a pass lands is a matter of where it leads. -/
theorem Lands.congr {pass other : Pass Unit} {draft : Draft} {item : Except CompileError Item}
    (h : Lands other draft item) (same : pass draft = other draft) : Lands pass draft item := by
  unfold Lands at h ⊢
  rwa [same]

/-- An error changes nothing. -/
theorem lands_throw (error : CompileError) (draft : Draft) :
    Lands (throw error) draft (.error error) :=
  lays_throw error draft

/-- An expression changes neither table. -/
theorem Lays.lands {pass : Pass Unit} {draft : Draft} {expr : Except CompileError Expr}
    (h : Lays pass draft (expr.map (Expr.code draft.program.size))) :
    Lands pass draft (expr.map .expression) := by
  cases expr <;> exact h

section Definitions

variable {draft : Draft} (valid : draft.functions.Valid draft.program.size)
  (between : draft.parameters = [])

include valid between

/-- What a failed definition did to the tables is undone. -/
theorem undo_definition (function : Function) (later : draft.program.size ≤ function.entry)
    (names : List String) (code : List Inst) (edits : Array Edit) :
    ((((draft.withFunctions (draft.functions.set function)).withParameters names).extend code
        edits).restoreFunction function.name
          (draft.functions.lookup? function.name)).clearParameters =
      draft.extend code edits := by
  simp [Draft.restoreFunction, Draft.clearParameters, Draft.withFunctions, Draft.withParameters,
    Draft.extend, valid.restore_set later, between]

/-- A definition with a name, parameters and a body. -/
theorem lands_function (name : String) (parameters : List Node) (count : Nat) (body : Node)
    (edits : Array Edit) :
    let function : Function := ⟨name, draft.program.size + 1, count⟩
    Lands
      (fun draft ↦
        afterwards Draft.clearParameters
          (onFailure (·.restoreFunction name (draft.functions.lookup? name))
            (lowerFunction draft.program.size function parameters body))
          ((draft.extend [.hole] edits).withFunctions (draft.functions.set function)))
      draft
      (do
        let names ← Item.parameterNames name [] parameters
        let expr ← Scope.resolve ⟨draft.functions.set function, names⟩ body
        return .definition function expr) := by
  intro function
  have hundo := undo_definition valid between function (Nat.le_succ _)
  have hparameters := enterParameters_eq name parameters
    ((draft.extend [.hole] edits).withFunctions (draft.functions.set function))
  have hnone : ((draft.extend [.hole] edits).withFunctions
      (draft.functions.set function)).parameters = [] := between
  rw [hnone] at hparameters
  cases hnames : Item.parameterNames name [] parameters with
  | error error =>
      rw [hnames] at hparameters
      obtain ⟨names, hparameters⟩ := hparameters
      refine ⟨[.hole], edits, ?_⟩
      rw [← hundo names]
      simp only [afterwards, onFailure, lowerFunction, bind, EStateM.bind, function, hparameters]
      rfl
  | ok names =>
      rw [hnames] at hparameters
      -- The scope of the body: the function itself may be called there.
      let base := (draft.withFunctions (draft.functions.set function)).withParameters names
      have hlays : Lays (fun _ ↦ lowerFunction draft.program.size function parameters body
            ((draft.extend [.hole] edits).withFunctions (draft.functions.set function)))
          base ((Scope.resolve ⟨draft.functions.set function, names⟩ body).map
            (Item.functionCode draft.program.size function.arity)) := by
        refine Lays.congr ?_ (lays_function function body base edits)
        simp only [lowerFunction, bind, EStateM.bind, function, hparameters]
        rfl
      show Lands _ _ (do
        let expr ← Scope.resolve ⟨draft.functions.set function, names⟩ body
        return .definition function expr)
      cases hresolved : Scope.resolve ⟨draft.functions.set function, names⟩ body with
      | error error =>
          rw [hresolved] at hlays
          obtain ⟨code, later, hlays⟩ := hlays
          refine ⟨code, later, ?_⟩
          rw [← hundo names]
          simp only [afterwards, onFailure, hlays, base]
          rfl
      | ok expr =>
          rw [hresolved] at hlays
          obtain ⟨later, hlays⟩ := hlays
          refine ⟨later, ?_⟩
          simp only [afterwards, onFailure, hlays, base]
          simp [Draft.clearParameters, Draft.withFunctions, Draft.withParameters, Draft.extend,
            between, Item.functions, Item.code]

/-- A definition ends with its function, or changes nothing. -/
theorem lands_lowerDefinition (written : Node) :
    Lands (lowerDefinition written) draft
      (Item.ofDefinition draft.functions draft.program.size written) := by
  unfold lowerDefinition
  split
  · next name parameters body hitems =>
      obtain ⟨edits, hhole⟩ := hole_eq draft
      have hlands := lands_function valid between name parameters.items parameters.length body edits
      simp only [Item.ofDefinition, hitems]
      refine hlands.congr ?_
      simp only [bind, EStateM.bind, hhole, address_eq, Draft.size_extend, function?, setFunction,
        List.length_singleton]
      rfl
  · next hitems =>
      simp only [Item.ofDefinition, hitems]
      exact lands_throw _ draft
  · next hshape hcount =>
      unfold Item.ofDefinition
      split
      · next heq => exact absurd heq (hshape _ _ _)
      · next heq => exact absurd heq (hcount _ _)
      · exact lands_throw _ draft

/-- A pass over a top-level node ends with its item, or changes nothing. -/
theorem lands_lowerTop (node : Node) :
    Lands (lowerTop node) draft (Item.ofNode draft.functions draft.program.size node) := by
  have hlower : Lands (lower node) draft
      ((Scope.resolve ⟨draft.functions, []⟩ node).map .expression) := by
    have hscope : draft.scope = ⟨draft.functions, []⟩ := by rw [Draft.scope, between]
    exact (follows _ node draft hscope).lands
  unfold lowerTop
  split
  · next name tail =>
      have hfunction : function? name draft = .ok (draft.functions.lookup? name) draft := rfl
      by_cases hdefine : draft.functions.lookup? name = none ∧
          Builtin.ofName? name = some .definition
      · simp only [Item.ofNode, if_pos hdefine]
        refine (lands_lowerDefinition valid between tail).congr ?_
        simp only [bind, EStateM.bind, hfunction, if_pos hdefine]
      · simp only [Item.ofNode, if_neg hdefine]
        refine hlower.congr ?_
        simp only [bind, EStateM.bind, hfunction, if_neg hdefine]
  · next hshape =>
      unfold Item.ofNode
      split
      · exact absurd rfl (hshape _ _)
      · exact hlower

end Definitions

end Pass

/-- Between two nodes, to compile a node is to add the code and the function of its item, or to
change nothing. -/
theorem Compiler.compile_eq {compiler : Compiler}
    (valid : compiler.functions.Valid compiler.program.size) (between : compiler.parameters = [])
    (node : Node) :
    compiler.compile node =
      match Item.ofNode compiler.functions compiler.program.size node with
      | .ok item => ({ compiler with
          program := compiler.program ++ (item.code compiler.program.size).toArray
          functions := item.functions compiler.functions }, none)
      | .error error => (compiler, some error) := by
  have hlands : Pass.Lands (Pass.lowerTop node) { compiler with }
      (Item.ofNode compiler.functions compiler.program.size node) :=
    Pass.lands_lowerTop valid between node
  cases hitem : Item.ofNode compiler.functions compiler.program.size node with
  | ok item =>
      rw [hitem] at hlands
      obtain ⟨edits, hlands⟩ := hlands
      simp only [compile, hlands]
      rfl
  | error error =>
      rw [hitem] at hlands
      obtain ⟨code, edits, hlands⟩ := hlands
      simp [compile, hlands, rollBack, Draft.extend, ← between]

end WordLisp
