import WordLisp.Proofs.Compiler.Expr
import WordLisp.Proofs.Compiler.Table

/-!
# What a pass lays down

A pass over a node that has an expression ends with the code of that expression behind the program
it began with; a pass over a node that breaks a rule ends with the first such rule, and with nothing
changed but what stands behind that program (`follows`). Every hole is filled on the way, and no
fill is refused.
-/

namespace WordLisp

namespace Draft

/-- The draft with more code at the end, and other edits. -/
def extend (draft : Draft) (code : List Inst) (edits : Array Edit) : Draft :=
  { draft with program := draft.program ++ code.toArray, edits }

/-- What names mean at this point of a pass. -/
def scope (draft : Draft) : Scope :=
  ⟨draft.functions, draft.parameters⟩

variable (draft : Draft) (code : List Inst) (edits : Array Edit)

@[simp] theorem scope_extend : (draft.extend code edits).scope = draft.scope := rfl

@[simp] theorem functions_extend : (draft.extend code edits).functions = draft.functions := rfl

@[simp] theorem parameters_extend : (draft.extend code edits).parameters = draft.parameters := rfl

@[simp] theorem size_extend :
    (draft.extend code edits).program.size = draft.program.size + code.length := by
  simp [extend]

@[simp] theorem extend_extend (more : List Inst) (later : Array Edit) :
    (draft.extend code edits).extend more later = draft.extend (code ++ more) later := by
  simp [extend, Array.append_assoc]

end Draft

namespace Pass

open Scope

/-- A pass ends with this code laid down, or with this error and some code. -/
def Lays (pass : Pass Unit) (draft : Draft) (code : Except CompileError (List Inst)) : Prop :=
  match code with
  | .ok code => ∃ edits, pass draft = .ok () (draft.extend code edits)
  | .error error => ∃ code edits, pass draft = .error error (draft.extend code edits)

section Steps

variable {pass after : Pass Unit} {draft : Draft} {code : List Inst} {error : CompileError}
  {rest : Except CompileError (List Inst)}

/-- Work after work that has laid code down. -/
theorem Lays.next (first : Lays pass draft (.ok code))
    (second : ∀ edits, Lays after (draft.extend code edits) rest) :
    Lays (do pass; after) draft (rest.map (code ++ ·)) := by
  obtain ⟨edits, hfirst⟩ := first
  have hsecond := second edits
  cases rest with
  | ok more =>
      obtain ⟨later, hsecond⟩ := hsecond
      exact ⟨later, by simp only [bind, EStateM.bind, hfirst, hsecond, Draft.extend_extend]⟩
  | error error =>
      obtain ⟨more, later, hsecond⟩ := hsecond
      exact ⟨code ++ more, later,
        by simp only [bind, EStateM.bind, hfirst, hsecond, Draft.extend_extend]⟩

/-- Work that fails is not gone on with. -/
theorem Lays.stop (first : Lays pass draft (.error error)) :
    Lays (do pass; after) draft (.error error) := by
  obtain ⟨code, edits, hfirst⟩ := first
  exact ⟨code, edits, by simp only [bind, EStateM.bind, hfirst]⟩

/-- What a pass lays down is a matter of where it leads. -/
theorem Lays.congr {other : Pass Unit} {code : Except CompileError (List Inst)}
    (same : pass draft = other draft) (h : Lays other draft code) : Lays pass draft code := by
  unfold Lays at h ⊢
  rwa [same]

/-- To do nothing lays nothing down. -/
theorem lays_pure (draft : Draft) : Lays (pure ()) draft (.ok []) :=
  ⟨draft.edits, by simp [Draft.extend, pure, EStateM.pure]⟩

/-- An error leaves the draft alone. -/
theorem throw_eq {α : Type} (error : CompileError) (draft : Draft) :
    (throw error : Pass α) draft = .error error draft := rfl

/-- An error lays nothing down. -/
theorem lays_throw (error : CompileError) (draft : Draft) :
    Lays (throw error) draft (.error error) :=
  ⟨[], draft.edits, by simp [Draft.extend, throw_eq]⟩

/-- To emit an instruction lays it down. -/
theorem lays_emit (inst : Inst) (draft : Draft) : Lays (emit inst) draft (.ok [inst]) :=
  ⟨draft.edits.push (.emit draft.program.size inst), by
    simp [emit, note, address, append, bind, EStateM.bind, Draft.extend]⟩

/-- The address of the next instruction is the length of the program. -/
theorem address_eq (draft : Draft) : address draft = .ok draft.program.size draft := rfl

/-- A hole is an instruction that is laid down, and its address is known. -/
theorem hole_eq (draft : Draft) :
    ∃ edits, hole draft = .ok draft.program.size (draft.extend [.hole] edits) :=
  ⟨draft.edits.push (.hole draft.program.size), by
    simp [hole, note, address, append, bind, EStateM.bind, pure, EStateM.pure, Draft.extend]⟩

/-- A hole among the code that was laid down can be filled. -/
theorem patch_eq (draft : Draft) (before after : List Inst) (edits : Array Edit) (inst : Inst)
    (filled : inst.op ≠ .hole) :
    ∃ later, patch (draft.program.size + before.length) inst
        (draft.extend (before ++ .hole :: after) edits) =
      .ok () (draft.extend (before ++ inst :: after) later) := by
  have hfound : (draft.program ++ (before ++ .hole :: after).toArray)[draft.program.size +
      before.length]? = some .hole := by
    rw [Array.getElem?_append_right (Nat.le_add_right _ _)]
    simp
  -- Only the instruction at that address changes, so what is around the hole stays.
  have hset : (draft.program ++ (before ++ .hole :: after).toArray).setIfInBounds
      (draft.program.size + before.length) inst =
        draft.program ++ (before ++ inst :: after).toArray := by
    rw [Array.setIfInBounds_append_right (Nat.le_add_right _ _)]
    simp
  refine ⟨edits.push (.patch (draft.program.size + before.length) inst), ?_⟩
  simp only [patch, fill, note, bind, EStateM.bind, Draft.extend, Program.fill, hfound, hset]
  simp [Inst.hole, filled]

/-- A choice whose condition fails. -/
theorem Lays.choice_stop {consequent alternative : Pass Unit}
    (first : Lays pass draft (.error error)) :
    Lays (choice pass consequent alternative) draft (.error error) :=
  first.stop

/-- A choice whose first part fails. -/
theorem Lays.choice_stop_consequent {consequent alternative : Pass Unit}
    (first : Lays pass draft (.ok code))
    (second : ∀ edits, Lays consequent (draft.extend (code ++ [.hole]) edits) (.error error)) :
    Lays (choice pass consequent alternative) draft (.error error) := by
  obtain ⟨edits, hfirst⟩ := first
  obtain ⟨edits, hbranch⟩ := hole_eq (draft.extend code edits)
  rw [Draft.extend_extend] at hbranch
  obtain ⟨more, later, hsecond⟩ := second edits
  rw [Draft.extend_extend] at hsecond
  refine ⟨code ++ [.hole] ++ more, later, ?_⟩
  simp only [Pass.choice, bind, EStateM.bind, hfirst, hbranch, hsecond]

/-- A choice whose condition and first part have been laid down: the first jump is filled in, and
the hole of the second one is `leave`. -/
theorem choice_eq {consequent : Pass Unit} (alternative : Pass Unit) {yes : List Inst}
    {leave : Nat} (first : Lays pass draft (.ok code))
    (second : ∀ edits, Lays consequent (draft.extend (code ++ [.hole]) edits) (.ok yes))
    (sum : draft.program.size + code.length + 1 + yes.length = leave) :
    ∃ edits, choice pass consequent alternative draft =
      (do
        alternative
        patch leave (.jump (Int64.ofNat (← address)))) (draft.extend
          (code ++ Inst.jumpZ (Int64.ofNat (leave + 1)) :: (yes ++ [Inst.hole])) edits) := by
  obtain ⟨edits, hfirst⟩ := first
  obtain ⟨edits, hbranch⟩ := hole_eq (draft.extend code edits)
  rw [Draft.extend_extend, Draft.size_extend] at hbranch
  obtain ⟨edits, hsecond⟩ := second edits
  rw [Draft.extend_extend] at hsecond
  obtain ⟨edits, hleave⟩ := hole_eq (draft.extend (code ++ [.hole] ++ yes) edits)
  have hlaid : code ++ [Inst.hole] ++ yes ++ [Inst.hole] =
      code ++ Inst.hole :: (yes ++ [Inst.hole]) := by
    simp
  have hsize : draft.program.size + (code ++ [Inst.hole] ++ yes).length = leave := by
    simp only [List.length_append, List.length_singleton]
    omega
  rw [Draft.extend_extend, Draft.size_extend, hlaid, hsize] at hleave
  -- The first hole is filled when the second one is there already: its jump goes behind both.
  have haddress : draft.program.size + (code ++ Inst.hole :: (yes ++ [Inst.hole])).length =
      leave + 1 := by
    rw [← hlaid, List.length_append, ← Nat.add_assoc, hsize]
    rfl
  obtain ⟨edits, hpatch⟩ := patch_eq draft code (yes ++ [.hole]) edits
    (.jumpZ (Int64.ofNat (leave + 1))) (by simp [Inst.jumpZ])
  refine ⟨edits, ?_⟩
  simp only [choice, bind, EStateM.bind, hfirst, hbranch, hsecond, hleave, address_eq,
    Draft.size_extend, haddress, hpatch]

/-- A choice whose condition and first part are laid down has its two jumps filled in. -/
theorem Lays.choice {consequent alternative : Pass Unit} {yes : List Inst} {leave : Nat}
    (first : Lays pass draft (.ok code))
    (second : ∀ edits, Lays consequent (draft.extend (code ++ [.hole]) edits) (.ok yes))
    (third : ∀ laid edits, laid.length = code.length + 1 + yes.length + 1 →
      Lays alternative (draft.extend laid edits) rest)
    (sum : draft.program.size + code.length + 1 + yes.length = leave) :
    Lays (Pass.choice pass consequent alternative) draft (rest.map fun no ↦
      code ++ .jumpZ (Int64.ofNat (leave + 1)) :: yes ++
        .jump (Int64.ofNat (leave + 1 + no.length)) :: no) := by
  obtain ⟨edits, hchoice⟩ := choice_eq alternative first second sum
  generalize hlaid : code ++ Inst.jumpZ (Int64.ofNat (leave + 1)) :: (yes ++ [Inst.hole]) = laid
    at hchoice
  have hlength : laid.length = code.length + 1 + yes.length + 1 := by
    rw [← hlaid]
    simp only [List.length_append, List.length_cons, List.length_nil]
    omega
  have hthird := third laid edits hlength
  cases rest with
  | error error =>
      obtain ⟨more, later, hthird⟩ := hthird
      refine ⟨laid ++ more, later, ?_⟩
      rw [hchoice]
      simp only [bind, EStateM.bind, hthird, Draft.extend_extend]
  | ok no =>
      obtain ⟨edits, hthird⟩ := hthird
      -- By now the second hole is the only one left, with the first part before it.
      have hsplit : laid ++ no =
          (code ++ Inst.jumpZ (Int64.ofNat (leave + 1)) :: yes) ++ Inst.hole :: no := by
        simp [← hlaid]
      have hsize : draft.program.size + (laid ++ no).length = leave + 1 + no.length := by
        rw [List.length_append, hlength]
        omega
      have hleave : leave = draft.program.size +
          (code ++ Inst.jumpZ (Int64.ofNat (leave + 1)) :: yes).length := by
        simp only [List.length_append, List.length_cons]
        omega
      obtain ⟨later, hpatch⟩ := patch_eq draft
        (code ++ Inst.jumpZ (Int64.ofNat (leave + 1)) :: yes) no edits
        (.jump (Int64.ofNat (leave + 1 + no.length))) (by simp [Inst.jump])
      rw [← hsplit, ← hleave] at hpatch
      refine ⟨later, ?_⟩
      rw [hchoice]
      simp only [bind, EStateM.bind, hthird, Draft.extend_extend, address_eq, Draft.size_extend,
        hsize, hpatch]

end Steps

/-! ## Nodes -/

/-- A pass over a node lays down the code of its expression, wherever it begins. -/
def Follows (scope : Scope) (node : Node) : Prop :=
  ∀ draft : Draft, draft.scope = scope →
    Lays (lower node) draft ((scope.resolve node).map (Expr.code draft.program.size))

/-- A pass over a list lays down code that is made of the expressions of its nodes. -/
def FollowsAll (scope : Scope) (pass : Pass Unit) (nodes : Node)
    (code : Nat → List Expr → List Inst) : Prop :=
  ∀ draft : Draft, draft.scope = scope →
    Lays pass draft ((scope.resolveAll nodes).map (code draft.program.size))

section Nodes

variable {scope : Scope} {first second third rest nodes : Node} {operator : Operator}
  {pass after : Pass Unit} {code whole : Nat → List Expr → List Inst}

/-- A node behind code that has been laid down. -/
theorem Follows.extend (h : Follows scope first) {draft : Draft} (same : draft.scope = scope)
    (laid : List Inst) (edits : Array Edit) :
    Lays (lower first) (draft.extend laid edits)
      ((scope.resolve first).map (Expr.code (draft.program.size + laid.length))) := by
  simpa using h (draft.extend laid edits) same

/-- A list behind code that has been laid down. -/
theorem FollowsAll.extend (h : FollowsAll scope pass nodes code) {draft : Draft}
    (same : draft.scope = scope) (laid : List Inst) (edits : Array Edit) :
    Lays pass (draft.extend laid edits)
      ((scope.resolveAll nodes).map (code (draft.program.size + laid.length))) := by
  simpa using h (draft.extend laid edits) same

/-- An instruction before the code of a list. -/
theorem FollowsAll.emit (inst : Inst) (h : FollowsAll scope pass nodes code) :
    FollowsAll scope (do Pass.emit inst; pass) nodes
      fun start exprs ↦ inst :: code (start + 1) exprs := by
  intro draft same
  have hnext := (lays_emit inst draft).next fun edits ↦ h.extend same [inst] edits
  cases hresolved : scope.resolveAll nodes <;> rw [hresolved] at hnext <;> exact hnext

/-- A node before the rest of a list. -/
theorem Follows.cons (hfirst : Follows scope first) (hrest : FollowsAll scope after rest code)
    (split : ∀ start expr exprs, scope.resolveAll rest = .ok exprs →
      whole start (expr :: exprs) = expr.code start ++ code (start + expr.size) exprs) :
    FollowsAll scope (do lower first; after) (.pair first rest) whole := by
  intro draft same
  have hlays := hfirst draft same
  rw [resolveAll]
  cases hresolved : scope.resolve first with
  | error error =>
      rw [hresolved] at hlays
      exact hlays.stop
  | ok expr =>
      rw [hresolved] at hlays
      have hnext := hlays.next fun edits ↦ hrest.extend same _ edits
      rw [Expr.length_code] at hnext
      cases hresolved : scope.resolveAll rest with
      | error error =>
          rw [hresolved] at hnext
          exact hnext
      | ok exprs =>
          rw [hresolved] at hnext
          show Lays _ _ (.ok (whole draft.program.size (expr :: exprs)))
          rw [split _ _ _ hresolved]
          exact hnext

/-- A call behind the code of its arguments. -/
theorem FollowsAll.call (h : FollowsAll scope pass nodes Expr.codes) (entry : Nat) :
    FollowsAll scope (do pass; Pass.emit (.call (Int64.ofNat entry))) nodes
      fun start exprs ↦ (Expr.call entry exprs).code start := by
  intro draft same
  have hlays := h draft same
  cases hresolved : scope.resolveAll nodes with
  | error error =>
      rw [hresolved] at hlays
      exact hlays.stop
  | ok exprs =>
      rw [hresolved] at hlays
      exact hlays.next fun edits ↦ lays_emit _ _

/-- The end of a list. -/
theorem followsAll_of_items_eq_nil (empty : nodes.items = []) {inst : List Inst}
    (done : ∀ draft, Lays pass draft (.ok inst)) :
    FollowsAll scope pass nodes fun _ _ ↦ inst := by
  intro draft _
  rw [resolveAll_of_items_eq_nil empty]
  exact done draft

/-- A choice among the nodes of a list. -/
theorem followsAll_conditional (hfirst : Follows scope first) (hsecond : Follows scope second)
    (hthird : Follows scope third) (empty : rest.items = []) :
    FollowsAll scope (choice (lower first) (lower second) (lower third))
      (.pair first (.pair second (.pair third rest)))
      fun start exprs ↦ (Builtin.conditional.apply exprs).code start := by
  intro draft same
  have hlays := hfirst draft same
  simp only [resolveAll, resolveAll_of_items_eq_nil empty]
  cases hresolved : scope.resolve first with
  | error error =>
      rw [hresolved] at hlays
      exact hlays.choice_stop
  | ok condition =>
      rw [hresolved] at hlays
      have hyes := hsecond.extend same (condition.code draft.program.size ++ [.hole])
      cases hresolved : scope.resolve second with
      | error error =>
          rw [hresolved] at hyes
          exact hlays.choice_stop_consequent hyes
      | ok consequent =>
          rw [hresolved] at hyes
          simp only [List.length_append, List.length_singleton, Expr.length_code] at hyes
          have hchoice := hlays.choice hyes (fun laid edits hlength ↦ by
            have hno := hthird.extend same laid edits
            rwa [hlength] at hno) rfl
          cases hresolved : scope.resolve third with
          | error error =>
              rw [hresolved] at hchoice
              exact hchoice
          | ok alternative =>
              rw [hresolved] at hchoice
              show Lays _ _ (.ok (Expr.code _ (.conditional condition consequent alternative)))
              simpa [Expr.code, Except.map, Nat.add_assoc] using hchoice

/-- A single operand that is joined to a unit. -/
theorem followsAll_single (unit : Word) (hfirst : Follows scope first) (empty : rest.items = []) :
    FollowsAll scope
      (do Pass.emit (.constant unit); lower first; Pass.emit (.binary operator)) (.pair first rest)
      fun start exprs ↦ ((Builtin.foldFrom unit operator).apply exprs).code start := by
  intro draft same
  have hlays := hfirst.extend same [.constant unit]
  simp only [resolveAll, resolveAll_of_items_eq_nil empty]
  cases hresolved : scope.resolve first with
  | error error =>
      rw [hresolved] at hlays
      exact (lays_emit _ draft).next fun edits ↦ (hlays edits).stop
  | ok expr =>
      rw [hresolved] at hlays
      exact (lays_emit _ draft).next fun edits ↦ (hlays edits).next fun later ↦ lays_emit _ _

/-- A form that joins its operands from the left, or a single one to a unit. -/
theorem followsAll_foldFrom (unit : Word) (hfirst : Follows scope first)
    (hrest : FollowsAll scope (lowerJoined operator rest) rest (Expr.joinedCode operator)) :
    FollowsAll scope (lowerForm (.foldFrom unit operator) (.pair first rest)) (.pair first rest)
      fun start exprs ↦ ((Builtin.foldFrom unit operator).apply exprs).code start := by
  -- Whether there is a second operand decides if the unit is used.
  cases rest with
  | pair second others =>
      rw [lowerForm]
      refine hfirst.cons hrest fun start expr exprs resolved ↦ ?_
      obtain ⟨next, more, -, -, rfl⟩ := resolveAll_pair_eq_ok.mp resolved
      rw [Builtin.apply, Expr.code_foldl_binary]
      simp
  | int value | symbol name | missing =>
      rw [lowerForm]
      · exact followsAll_single unit hfirst rfl
      · simp

/-- A form without operands is its unit, or it is refused. -/
theorem followsAll_lowerForm_of_items_eq_nil (builtin : Builtin) (empty : nodes.items = [])
    (accepted : builtin.refusal? nodes = none) :
    FollowsAll scope (lowerForm builtin nodes) nodes
      fun start exprs ↦ (builtin.apply exprs).code start := by
  intro draft _
  rw [resolveAll_of_items_eq_nil empty]
  cases builtin with
  | fold unit operator =>
      rw [lowerForm]
      · exact lays_emit _ draft
      · rintro first rest rfl
        cases empty
  | _ => simp [Builtin.refusal?, Node.length, empty] at accepted

mutual

/-- A pass over a node lays down the code of its expression. -/
theorem follows (scope : Scope) : (node : Node) → Follows scope node
  | .int value => fun draft _ ↦ by
      rw [lower, resolve]
      exact lays_emit _ draft
  | .symbol name => fun draft same ↦ by
      have hparameter : parameter? name draft = .ok (scope.parameters.idxOf? name) draft := by
        rw [← same]
        rfl
      rw [lower, resolve]
      cases hindex : scope.parameters.idxOf? name with
      | some index =>
          rw [hindex] at hparameter
          refine Lays.congr ?_ (lays_emit (.arg (Int64.ofNat index)) draft)
          simp only [bind, EStateM.bind, hparameter]
      | none =>
          rw [hindex] at hparameter
          refine Lays.congr ?_ (lays_throw (.undefinedArgument name) draft)
          simp only [bind, EStateM.bind, hparameter]
  | .pair (.symbol name) operands => fun draft same ↦ by
      have hfunction : function? name draft = .ok (scope.functions.lookup? name) draft := by
        rw [← same]
        rfl
      rw [lower, resolve]
      cases hlookup : scope.functions.lookup? name with
      | some function =>
          rw [hlookup] at hfunction
          by_cases hcount : operands.length = function.arity
          · have hcall := (followsAll scope operands).call function.entry draft same
            simp only [if_pos hcount, map_map]
            refine Lays.congr ?_ hcall
            simp only [bind, EStateM.bind, hfunction, if_pos hcount]
          · simp only [if_neg hcount]
            refine Lays.congr ?_ (lays_throw _ draft)
            simp only [bind, EStateM.bind, hfunction, if_neg hcount]
      | none =>
          rw [hlookup] at hfunction
          cases hbuiltin : Builtin.ofName? name with
          | none =>
              refine Lays.congr ?_ (lays_throw _ draft)
              simp only [bind, EStateM.bind, hfunction]
          | some builtin =>
              cases hrefusal : builtin.refusal? operands with
              | some error =>
                  simp only [hrefusal]
                  refine Lays.congr ?_ (lays_throw _ draft)
                  simp only [bind, EStateM.bind, hfunction]
              | none =>
                  have hform := followsAll_lowerForm scope builtin operands hrefusal draft same
                  simp only [hrefusal, map_map]
                  refine Lays.congr ?_ hform
                  simp only [bind, EStateM.bind, hfunction]
  | .pair (.int value) operands => fun draft _ ↦ by
      rw [lower, resolve] <;> first | exact lays_throw _ draft | simp
  | .pair (.pair head tail) operands => fun draft _ ↦ by
      rw [lower, resolve] <;> first | exact lays_throw _ draft | simp
  | .pair .missing operands => fun draft _ ↦ by
      rw [lower, resolve] <;> first | exact lays_throw _ draft | simp
  | .missing => fun draft _ ↦ by
      rw [lower, resolve]
      exact lays_throw _ draft

/-- A pass over a list lays down the codes of its expressions. -/
theorem followsAll (scope : Scope) :
    (nodes : Node) → FollowsAll scope (lowerAll nodes) nodes Expr.codes
  | .pair first rest => by
      rw [lowerAll]
      exact (follows scope first).cons (followsAll scope rest) fun _ _ _ _ ↦ by rw [Expr.codes]
  | .int _ | .symbol _ | .missing => fun draft _ ↦ by
      rw [lowerAll, resolveAll] <;> first | exact lays_pure draft | simp

/-- A pass over a list that joins its nodes to what is before. -/
theorem followsAll_lowerJoined (scope : Scope) (operator : Operator) :
    (nodes : Node) →
      FollowsAll scope (lowerJoined operator nodes) nodes (Expr.joinedCode operator)
  | .pair first rest => by
      rw [lowerJoined]
      exact (follows scope first).cons ((followsAll_lowerJoined scope operator rest).emit _)
        fun _ _ _ _ ↦ by rw [Expr.joinedCode]
  | .int _ | .symbol _ | .missing => fun draft _ ↦ by
      rw [lowerJoined, resolveAll] <;> first | exact lays_pure draft | simp

/-- A pass over a builtin form whose operands are not refused. -/
theorem followsAll_lowerForm (scope : Scope) : (builtin : Builtin) → (nodes : Node) →
    builtin.refusal? nodes = none →
      FollowsAll scope (lowerForm builtin nodes) nodes
        fun start exprs ↦ (builtin.apply exprs).code start
  | .unary operator, .pair operand rest => fun accepted ↦ by
      have hempty : rest.items = [] := by
        simpa [Builtin.refusal?, Node.length, Node.items] using accepted
      rw [lowerForm]
      exact (follows scope operand).cons (followsAll_of_items_eq_nil hempty (lays_emit _))
        fun _ _ _ _ ↦ by rw [Builtin.apply, Expr.code]
  | .foldFrom unit operator, .pair first rest => fun _ ↦
      followsAll_foldFrom unit (follows scope first) (followsAll_lowerJoined scope operator rest)
  | .binary operator, .pair first rest => fun _ ↦ by
      rw [lowerForm]
      exact (follows scope first).cons (followsAll_lowerJoined scope operator rest)
        fun _ _ _ _ ↦ by rw [Builtin.apply, Expr.code_foldl_binary]
  | .fold unit operator, .pair first rest => fun _ ↦ by
      rw [lowerForm]
      exact (follows scope first).cons (followsAll_lowerJoined scope operator rest)
        fun _ _ _ _ ↦ by rw [Builtin.apply, Expr.code_foldl_binary]
  | .conditional, .pair condition (.pair consequent (.pair alternative rest)) => fun accepted ↦ by
      have hempty : rest.items = [] := by
        simpa [Builtin.refusal?, Node.length, Node.items] using accepted
      rw [lowerForm]
      exact followsAll_conditional (follows scope condition) (follows scope consequent)
        (follows scope alternative) hempty
  | .definition, .pair _ _ => fun accepted ↦ by cases accepted
  | .conditional, .pair _ (.int _) | .conditional, .pair _ (.symbol _)
  | .conditional, .pair _ .missing | .conditional, .pair _ (.pair _ (.int _))
  | .conditional, .pair _ (.pair _ (.symbol _))
  | .conditional, .pair _ (.pair _ .missing) => fun accepted ↦ by cases accepted
  | builtin, .int _ | builtin, .symbol _ | builtin, .missing =>
      followsAll_lowerForm_of_items_eq_nil builtin rfl

end

end Nodes

end Pass

end WordLisp
