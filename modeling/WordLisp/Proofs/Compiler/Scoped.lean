import WordLisp.Proofs.Compiler.Item

/-!
# What resolving guarantees

An expression that a node was resolved to has its parameters from the scope
(`Scope.scoped_of_resolve`), and a node that has none breaks a rule of the language, whatever the
rule is (`Item.isRule_ofNode`).
-/

namespace WordLisp

/-! ## What was resolved -/

namespace Expr

mutual

/-- Every parameter of an expression is one of a scope. -/
def Scoped (scope : Scope) : Expr → Prop
  | .literal _ => True
  | .parameter index => index < scope.parameters.length
  | .unary _ operand => operand.Scoped scope
  | .binary _ left right => left.Scoped scope ∧ right.Scoped scope
  | .conditional condition consequent alternative =>
      condition.Scoped scope ∧ consequent.Scoped scope ∧ alternative.Scoped scope
  | .call _ arguments => AllScoped scope arguments

/-- Every parameter of several expressions is one of a scope. -/
def AllScoped (scope : Scope) : List Expr → Prop
  | [] => True
  | expr :: rest => expr.Scoped scope ∧ AllScoped scope rest

end

variable {scope : Scope}

/-- Expressions that are joined. -/
theorem scoped_foldl_binary {operator : Operator} {first : Expr} {rest : List Expr}
    (hfirst : first.Scoped scope) (hrest : AllScoped scope rest) :
    (rest.foldl (.binary operator) first).Scoped scope := by
  induction rest generalizing first with
  | nil => exact hfirst
  | cons expr rest ih =>
      rw [AllScoped] at hrest
      exact ih (by rw [Scoped]; exact ⟨hfirst, hrest.1⟩) hrest.2

/-- A builtin form brings no parameters of its own. -/
theorem scoped_apply {exprs : List Expr} (h : AllScoped scope exprs) (builtin : Builtin) :
    (builtin.apply exprs).Scoped scope := by
  unfold Builtin.apply
  split
  · rw [AllScoped] at h
    rw [Scoped]
    exact h.1
  · rw [AllScoped] at h
    rw [Scoped]
    exact ⟨by rw [Scoped]; trivial, h.1⟩
  · rw [AllScoped] at h
    exact scoped_foldl_binary h.1 h.2
  · rw [AllScoped] at h
    exact scoped_foldl_binary h.1 h.2
  · rw [AllScoped] at h
    exact scoped_foldl_binary h.1 h.2
  · simp only [AllScoped] at h
    rw [Scoped]
    exact ⟨h.1, h.2.1, h.2.2.1⟩
  · rw [Scoped]
    trivial
  · rw [Scoped]
    trivial

end Expr

namespace Scope

/-- There are as many expressions as nodes. -/
theorem length_resolveAll {scope : Scope} {nodes : Node} {exprs : List Expr}
    (resolved : scope.resolveAll nodes = .ok exprs) : exprs.length = nodes.length := by
  induction nodes generalizing exprs with
  | pair head tail _ ih =>
      obtain ⟨expr, rest, -, htail, rfl⟩ := resolveAll_pair_eq_ok.mp resolved
      simpa [Node.length, Node.items] using ih htail
  | int value | symbol name | missing =>
      rw [resolveAll_of_items_eq_nil rfl] at resolved
      cases resolved
      rfl

mutual

/-- The expression of a node has its parameters from the scope. -/
theorem scoped_of_resolve (scope : Scope) : (node : Node) → {expr : Expr} →
    scope.resolve node = .ok expr → expr.Scoped scope
  | .int value, expr, resolved => by
      rw [resolve] at resolved
      cases resolved
      simp [Expr.Scoped]
  | .symbol name, expr, resolved => by
      rw [resolve] at resolved
      split at resolved
      · next index hindex =>
          cases resolved
          obtain ⟨hlt, -⟩ := List.idxOf?_eq_some_iff.mp hindex
          rwa [Expr.Scoped]
      · cases resolved
  | .pair (.symbol name) operands, expr, resolved => by
      rw [resolve] at resolved
      split at resolved
      · split at resolved
        · obtain ⟨arguments, harguments, rfl⟩ := map_eq_ok.mp resolved
          rw [Expr.Scoped]
          exact allScoped_of_resolveAll scope operands harguments
        · cases resolved
      · split at resolved
        · split at resolved
          · cases resolved
          · obtain ⟨exprs, hexprs, rfl⟩ := map_eq_ok.mp resolved
            exact Expr.scoped_apply (allScoped_of_resolveAll scope operands hexprs) _
        · cases resolved
  | .pair (.int _) _, expr, resolved => by
      simp [resolve] at resolved
  | .pair (.pair _ _) _, expr, resolved => by
      simp [resolve] at resolved
  | .pair .missing _, expr, resolved => by
      simp [resolve] at resolved
  | .missing, expr, resolved => by
      rw [resolve] at resolved
      cases resolved

/-- The expressions of a list have their parameters from the scope. -/
theorem allScoped_of_resolveAll (scope : Scope) : (nodes : Node) → {exprs : List Expr} →
    scope.resolveAll nodes = .ok exprs → Expr.AllScoped scope exprs
  | .pair head tail, exprs, resolved => by
      obtain ⟨expr, rest, hhead, htail, rfl⟩ := resolveAll_pair_eq_ok.mp resolved
      rw [Expr.AllScoped]
      exact ⟨scoped_of_resolve scope head hhead, allScoped_of_resolveAll scope tail htail⟩
  | .int _, exprs, resolved | .symbol _, exprs, resolved | .missing, exprs, resolved => by
      rw [resolveAll_of_items_eq_nil rfl] at resolved
      cases resolved
      rw [Expr.AllScoped]
      trivial

end

end Scope

/-! ## Errors of the rules -/

/-- The error is one of the rules that a node may break, and not that of a refused fill. -/
def CompileError.IsRule (error : CompileError) : Prop :=
  ∀ cause, error ≠ .patch cause

/-- A refused form breaks a rule. -/
theorem Builtin.isRule_refusal? {builtin : Builtin} {operands : Node} {error : CompileError}
    (refused : builtin.refusal? operands = some error) : error.IsRule := by
  rintro cause rfl
  cases builtin <;> simp [refusal?] at refused

mutual

/-- A node that has no expression breaks a rule. -/
theorem Scope.isRule_resolve (scope : Scope) : (node : Node) → {error : CompileError} →
    scope.resolve node = .error error → error.IsRule
  | .int value, error, failed => by simp [resolve] at failed
  | .symbol name, error, failed => by
      rw [resolve] at failed
      split at failed <;> cases failed
      exact fun cause ↦ nofun
  | .pair (.symbol name) operands, error, failed => by
      rw [resolve] at failed
      split at failed
      · split at failed
        · exact isRule_resolveAll scope operands (map_eq_error.mp failed)
        · cases failed
          exact fun cause ↦ nofun
      · split at failed
        · split at failed
          · next hrefused =>
              cases failed
              exact Builtin.isRule_refusal? hrefused
          · exact isRule_resolveAll scope operands (map_eq_error.mp failed)
        · cases failed
          exact fun cause ↦ nofun
  | .pair (.int _) _, error, failed => by
      simp only [resolve, Except.error.injEq] at failed
      exact failed ▸ fun cause ↦ nofun
  | .pair (.pair _ _) _, error, failed => by
      simp only [resolve, Except.error.injEq] at failed
      exact failed ▸ fun cause ↦ nofun
  | .pair .missing _, error, failed => by
      simp only [resolve, Except.error.injEq] at failed
      exact failed ▸ fun cause ↦ nofun
  | .missing, error, failed => by
      simp only [resolve, Except.error.injEq] at failed
      exact failed ▸ fun cause ↦ nofun

/-- A list that has no expressions breaks a rule. -/
theorem Scope.isRule_resolveAll (scope : Scope) : (nodes : Node) → {error : CompileError} →
    scope.resolveAll nodes = .error error → error.IsRule
  | .pair head tail, error, failed => by
      rw [resolveAll, bind_eq_error] at failed
      rcases failed with hhead | ⟨expr, -, hrest⟩
      · exact isRule_resolve scope head hhead
      · rcases bind_eq_error.mp hrest with htail | ⟨rest, -, ⟨⟩⟩
        exact isRule_resolveAll scope tail htail
  | .int _, error, failed | .symbol _, error, failed | .missing, error, failed => by
      rw [resolveAll_of_items_eq_nil rfl] at failed
      cases failed

end

/-- Parameters that cannot be entered break a rule. -/
theorem Item.isRule_parameterNames {function : String} {seen : List String} {nodes : List Node}
    {error : CompileError} (failed : parameterNames function seen nodes = .error error) :
    error.IsRule := by
  induction nodes generalizing seen with
  | nil => cases failed
  | cons node rest ih =>
      cases node with
      | symbol name =>
          rw [parameterNames] at failed
          split at failed
          · cases failed
            intro cause hpatch
            cases hpatch
          · exact ih failed
      | int value | pair head tail | missing =>
          cases failed
          intro cause hpatch
          cases hpatch

/-- A node that has no item breaks a rule. -/
theorem Item.isRule_ofNode {table : Table} {start : Nat} {node : Node} {error : CompileError}
    (failed : ofNode table start node = .error error) : error.IsRule := by
  unfold ofNode at failed
  split at failed
  · split at failed
    · unfold ofDefinition at failed
      split at failed
      · rcases bind_eq_error.mp failed with hnames | ⟨names, -, hbody⟩
        · exact isRule_parameterNames hnames
        · rcases bind_eq_error.mp hbody with hbody | ⟨expr, -, ⟨⟩⟩
          exact Scope.isRule_resolve _ _ hbody
      · cases failed
        exact fun cause ↦ nofun
      · cases failed
        exact fun cause ↦ nofun
    · exact Scope.isRule_resolve _ _ (map_eq_error.mp failed)
  · exact Scope.isRule_resolve _ _ (map_eq_error.mp failed)

end WordLisp
