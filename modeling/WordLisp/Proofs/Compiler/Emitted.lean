import WordLisp.Proofs.Compiler.Reached
import WordLisp.Proofs.Machine.Rendering

/-!
# Compiled programs are determined by their text

The code of every expression, and so every program that is compiled, has only instructions of the
forms in `Inst.Emitted` (`Compiler.Reached.emitted`). Of such programs no two are written alike:
`Compiler.determined_by_text`.
-/

namespace WordLisp

/-! ## The code of an expression -/

/-- All code of an expression, wherever it stands, has the forms of compiled code. -/
def Expr.Regular (expr : Expr) : Prop :=
  ∀ start, ∀ inst ∈ expr.code start, inst.Emitted

namespace Expr.Regular

variable {operand left right condition consequent alternative : Expr} {operator : Operator}

theorem literal (value : Word) : (Expr.literal value).Regular := by
  intro start
  rw [code]
  exact List.forall_mem_singleton.mpr (.constant value)

theorem parameter (index : Nat) : (Expr.parameter index).Regular := by
  intro start
  rw [code]
  exact List.forall_mem_singleton.mpr (.arg _)

theorem unary (h : operand.Regular) : (Expr.unary .not operand).Regular := by
  intro start
  rw [code]
  exact List.forall_mem_append.mpr ⟨h start, List.forall_mem_singleton.mpr .not⟩

theorem binary (known : operator ≠ .not) (hleft : left.Regular) (hright : right.Regular) :
    (Expr.binary operator left right).Regular := by
  intro start
  rw [code]
  exact List.forall_mem_append.mpr ⟨List.forall_mem_append.mpr ⟨hleft _, hright _⟩,
    List.forall_mem_singleton.mpr (.binary known)⟩

theorem conditional (hcondition : condition.Regular) (hconsequent : consequent.Regular)
    (halternative : alternative.Regular) :
    (Expr.conditional condition consequent alternative).Regular := by
  intro start
  rw [code]
  refine List.forall_mem_append.mpr ⟨List.forall_mem_append.mpr ⟨hcondition _, ?_⟩, ?_⟩
  · exact List.forall_mem_cons.mpr ⟨.jumpZ _, hconsequent _⟩
  · exact List.forall_mem_cons.mpr ⟨.jump _, halternative _⟩

theorem codes {exprs : List Expr} (h : ∀ expr ∈ exprs, expr.Regular) (start : Nat) :
    ∀ inst ∈ Expr.codes start exprs, inst.Emitted := by
  induction exprs generalizing start with
  | nil =>
      rw [Expr.codes]
      exact List.forall_mem_nil _
  | cons expr rest ih =>
      obtain ⟨hexpr, hrest⟩ := List.forall_mem_cons.mp h
      rw [Expr.codes]
      exact List.forall_mem_append.mpr ⟨hexpr start, ih hrest _⟩

theorem call {arguments : List Expr} (h : ∀ expr ∈ arguments, expr.Regular) (entry : Nat) :
    (Expr.call entry arguments).Regular := by
  intro start
  rw [code]
  exact List.forall_mem_append.mpr ⟨codes h start, List.forall_mem_singleton.mpr (.call _)⟩

theorem foldl_binary (known : operator ≠ .not) {first : Expr} (hfirst : first.Regular)
    {rest : List Expr} (hrest : ∀ expr ∈ rest, expr.Regular) :
    (rest.foldl (Expr.binary operator) first).Regular := by
  induction rest generalizing first with
  | nil => exact hfirst
  | cons expr rest ih =>
      obtain ⟨hexpr, hothers⟩ := List.forall_mem_cons.mp hrest
      exact ih (binary known hfirst hexpr) hothers

end Expr.Regular

/-! ## The forms of the language -/

/-- The operator of a builtin stands where compiled code has it: `not` has one operand, and every
other operator two. -/
def Builtin.Regular : Builtin → Prop
  | .unary operator => operator = .not
  | .binary operator | .fold _ operator | .foldFrom _ operator => operator ≠ .not
  | .conditional | .definition => True

/-- The operators of the language are regular. -/
theorem Builtin.regular_of_ofName? {name : String} {builtin : Builtin}
    (found : ofName? name = some builtin) : builtin.Regular := by
  have hall : ∀ entry ∈ all, entry.2.Regular := by
    simp [all, Regular]
  exact hall (name, builtin) (mem_all_of_ofName? found)

/-- A builtin form of regular operands is regular. -/
theorem Builtin.Regular.apply {builtin : Builtin} (h : builtin.Regular) {exprs : List Expr}
    (hexprs : ∀ expr ∈ exprs, expr.Regular) : (builtin.apply exprs).Regular := by
  unfold Builtin.apply
  split
  · cases h
    exact .unary (hexprs _ List.mem_cons_self)
  · exact .binary h (.literal _) (hexprs _ List.mem_cons_self)
  · obtain ⟨hfirst, hrest⟩ := List.forall_mem_cons.mp hexprs
    exact .foldl_binary h hfirst hrest
  · obtain ⟨hfirst, hrest⟩ := List.forall_mem_cons.mp hexprs
    exact .foldl_binary h hfirst hrest
  · obtain ⟨hfirst, hrest⟩ := List.forall_mem_cons.mp hexprs
    exact .foldl_binary h hfirst hrest
  · obtain ⟨hcondition, hrest⟩ := List.forall_mem_cons.mp hexprs
    obtain ⟨hconsequent, hothers⟩ := List.forall_mem_cons.mp hrest
    exact .conditional hcondition hconsequent (hothers _ List.mem_cons_self)
  · exact .literal _
  · exact .literal _

namespace Scope

mutual

/-- The expression of a node is regular. -/
theorem regular_of_resolve (scope : Scope) : (node : Node) → {expr : Expr} →
    scope.resolve node = .ok expr → expr.Regular
  | .int value, expr, resolved => by
      rw [resolve] at resolved
      cases resolved
      exact .literal value
  | .symbol name, expr, resolved => by
      rw [resolve] at resolved
      split at resolved
      · cases resolved
        exact .parameter _
      · cases resolved
  | .pair (.symbol name) operands, expr, resolved => by
      rw [resolve] at resolved
      split at resolved
      · split at resolved
        · obtain ⟨arguments, harguments, rfl⟩ := map_eq_ok.mp resolved
          exact .call (regular_of_resolveAll scope operands harguments) _
        · cases resolved
      · split at resolved
        · next builtin hbuiltin =>
            split at resolved
            · cases resolved
            · obtain ⟨exprs, hexprs, rfl⟩ := map_eq_ok.mp resolved
              exact (Builtin.regular_of_ofName? hbuiltin).apply
                (regular_of_resolveAll scope operands hexprs)
        · cases resolved
  | .pair (.int _) _, expr, resolved | .pair (.pair _ _) _, expr, resolved
  | .pair .missing _, expr, resolved => by
      simp [resolve] at resolved
  | .missing, expr, resolved => by
      rw [resolve] at resolved
      cases resolved

/-- The expressions of a list are regular. -/
theorem regular_of_resolveAll (scope : Scope) : (nodes : Node) → {exprs : List Expr} →
    scope.resolveAll nodes = .ok exprs → ∀ expr ∈ exprs, expr.Regular
  | .pair head tail, exprs, resolved => by
      obtain ⟨expr, rest, hhead, htail, rfl⟩ := resolveAll_pair_eq_ok.mp resolved
      exact List.forall_mem_cons.mpr
        ⟨regular_of_resolve scope head hhead, regular_of_resolveAll scope tail htail⟩
  | .int _, exprs, resolved | .symbol _, exprs, resolved | .missing, exprs, resolved => by
      rw [resolveAll_of_items_eq_nil rfl] at resolved
      cases resolved
      exact List.forall_mem_nil _

end

end Scope

/-! ## Programs -/

namespace Compiler

variable {initial : Program} {compiler : Compiler} {environment : Environment}

/-- Compiled code has only instructions of the forms that are emitted, behind a program that has
such. -/
theorem Reached.emitted (reached : Reached initial compiler environment)
    (start : ∀ inst ∈ initial, inst.Emitted) : ∀ inst ∈ compiler.program, inst.Emitted := by
  induction reached with
  | start => exact start
  | @compile compiler environment node before ih =>
      have hadded : ∀ code : List Inst, (∀ inst ∈ code, inst.Emitted) →
          ∀ inst ∈ compiler.program ++ code.toArray, inst.Emitted := by
        intro code hcode inst hmem
        rcases Array.mem_append.mp hmem with hold | hnew
        · exact ih inst hold
        · exact hcode inst (List.mem_toArray.mp hnew)
      obtain ⟨error, hcompile⟩ | ⟨expr, -, hresolved, hcompile⟩ |
        ⟨definition, body, -, hresolved, hcompile⟩ := before.settled.compile_cases node
      · rw [hcompile]
        exact ih
      · rw [hcompile]
        exact hadded _ (Scope.regular_of_resolve _ _ hresolved _)
      · rw [hcompile]
        refine hadded _ ?_
        rw [Item.functionCode, List.cons_append, List.cons_append]
        exact List.forall_mem_cons.mpr ⟨.jump _, List.forall_mem_cons.mpr ⟨.enter _,
          List.forall_mem_append.mpr ⟨Scope.regular_of_resolve _ _ hresolved _,
            List.forall_mem_singleton.mpr .exit⟩⟩⟩

/-- A program is determined by its text. Two programs are written alike only if they are the same,
instruction for instruction, as long as all their instructions have the forms that compiled code
has; and the program of every compiler is such a program, if the one that it started on is. -/
theorem determined_by_text :
    (∀ program other : Program, (∀ inst ∈ program, inst.Emitted) →
      (∀ inst ∈ other, inst.Emitted) → program.render = other.render → program = other) ∧
    ∀ initial compiler environment, (∀ inst ∈ initial, inst.Emitted) →
      Reached initial compiler environment → ∀ inst ∈ compiler.program, inst.Emitted := by
  refine ⟨?_, ?_⟩
  · intro program other hprogram hother hsame
    exact Program.eq_of_render hprogram hother hsame
  · intro initial compiler environment hinitial hreached
    exact hreached.emitted hinitial

/-- The code of `(define (f x) (- x -5))` is the only program of its text, which has the operator
beside a negative constant. -/
theorem determined_by_text_define :
    let compiled := (({} : Compiler).compile (.ofList [.symbol "define",
      .ofList [.symbol "f", .symbol "x"],
      .ofList [.symbol "-", .symbol "x", .int (-5)]])).1.program
    let listed : Program :=
      #[.jump 6, .enter 1, .arg 0, .constant (-5), .binary .sub, .exit]
    (∀ inst ∈ compiled, inst.Emitted) ∧ (∀ inst ∈ listed, inst.Emitted) ∧
      compiled.render = "[jump 6, enter 1, arg 0, -5, -, exit]" ∧ compiled = listed := by
  intro compiled listed
  have hcompiled : ∀ inst ∈ compiled, inst.Emitted :=
    determined_by_text.2 #[] _ _ (by simp) (.compile _ .start)
  have hlisted : ∀ inst ∈ listed, inst.Emitted := by
    have hbinary : (Inst.binary .sub).Emitted := .binary (by decide)
    simp [listed, Inst.Emitted.jump, Inst.Emitted.enter, Inst.Emitted.arg, Inst.Emitted.constant,
      Inst.Emitted.exit, hbinary]
  have htext : compiled.render = "[jump 6, enter 1, arg 0, -5, -, exit]" := by decide +kernel
  exact ⟨hcompiled, hlisted, htext, determined_by_text.1 compiled listed hcompiled hlisted
    (htext.trans (by decide +kernel))⟩

end Compiler

end WordLisp
