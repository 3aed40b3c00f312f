import Mathlib.Data.List.Forall2
import WordLisp.Proofs.Compiler.Scoped

/-!
# Calls and the forms that they come from

A form calls a function if its head names one. The code of a node has one call for each such form in
it, and no others: the calls stand in the order in which the forms are evaluated, each behind the
code of its operands (`callsAt_of_resolve`).

Resolving a node keeps its calls in this order (`Scope.calls_of_resolve`), and so does the code of a
resolved expression (`Expr.callsIn_code`).
-/

namespace WordLisp

/-! ## Forms that call functions -/

/-- A form whose head names a function. -/
structure CallForm where
  name : String
  operands : Node

namespace Node

mutual

/-- The forms in a node that call functions, in the order of their evaluation: those among the
operands of a form come before the form itself. -/
def callForms (functions : Table) : Node → List CallForm
  | .pair (.symbol name) operands =>
      operandForms functions operands ++
        if (functions.lookup? name).isSome then [⟨name, operands⟩] else []
  | _ => []

/-- The forms in the nodes of a list that call functions. -/
def operandForms (functions : Table) : Node → List CallForm
  | .pair operand rest => callForms functions operand ++ operandForms functions rest
  | _ => []

end

end Node

/-! ## Calls of a resolved expression -/

/-- A call of the function at an address, with its arguments. -/
structure ResolvedCall where
  entry : Nat
  arguments : List Expr

namespace Expr

mutual

/-- The calls in an expression, in the order of their code. -/
def calls : Expr → List ResolvedCall
  | .literal _ | .parameter _ => []
  | .unary _ operand => operand.calls
  | .binary _ left right => left.calls ++ right.calls
  | .conditional condition consequent alternative =>
      condition.calls ++ (consequent.calls ++ alternative.calls)
  | .call entry arguments => callsOf arguments ++ [⟨entry, arguments⟩]

/-- The calls in several expressions. -/
def callsOf : List Expr → List ResolvedCall
  | [] => []
  | expr :: rest => expr.calls ++ callsOf rest

end

/-- Expressions that are joined have the calls of all of them. -/
theorem calls_foldl_binary (operator : Operator) (first : Expr) (rest : List Expr) :
    (rest.foldl (.binary operator) first).calls = first.calls ++ callsOf rest := by
  induction rest generalizing first with
  | nil => rw [List.foldl_nil, callsOf, List.append_nil]
  | cons expr rest ih => rw [List.foldl_cons, ih, calls, callsOf, List.append_assoc]

/-- A builtin form has the calls of its operands, of which none is left out. -/
theorem calls_apply {builtin : Builtin} {operands : Node} {exprs : List Expr}
    (accepted : builtin.refusal? operands = none) (count : exprs.length = operands.length) :
    (builtin.apply exprs).calls = callsOf exprs := by
  cases builtin with
  | unary operator =>
      have hone : exprs.length = 1 := by simpa [Builtin.refusal?, ← count] using accepted
      obtain ⟨operand, rfl⟩ := List.length_eq_one_iff.mp hone
      simp only [Builtin.apply, calls, callsOf, List.append_nil]
  | binary operator =>
      have htwo : exprs.length = 2 := by simpa [Builtin.refusal?, ← count] using accepted
      obtain ⟨left, right, rfl⟩ := List.length_eq_two.mp htwo
      exact calls_foldl_binary operator left [right]
  | fold unit operator =>
      cases exprs with
      | nil => simp only [Builtin.apply, calls, callsOf]
      | cons first rest => exact calls_foldl_binary operator first rest
  | foldFrom unit operator =>
      match exprs with
      | [] => simp [Builtin.refusal?, ← count] at accepted
      | [operand] => simp only [Builtin.apply, calls, callsOf, List.nil_append, List.append_nil]
      | first :: second :: rest => exact calls_foldl_binary operator first (second :: rest)
  | conditional =>
      have hthree : exprs.length = 3 := by simpa [Builtin.refusal?, ← count] using accepted
      obtain ⟨condition, consequent, alternative, rfl⟩ := List.length_eq_three.mp hthree
      simp only [Builtin.apply, calls, callsOf, List.append_nil]
  | definition => cases accepted

end Expr

/-- A call is what a form becomes in a scope. -/
structure Scope.Calls (scope : Scope) (call : ResolvedCall) (form : CallForm) : Prop where
  function : ∃ function, scope.functions.lookup? form.name = some function ∧
    call.entry = function.entry ∧ function.arity = form.operands.length
  arguments : scope.resolveAll form.operands = .ok call.arguments

namespace Scope

mutual

/-- The calls in the expression of a node are those of its forms, in the same order. -/
theorem calls_of_resolve (scope : Scope) : (node : Node) → {expr : Expr} →
    scope.resolve node = .ok expr →
      List.Forall₂ scope.Calls expr.calls (node.callForms scope.functions)
  | .int value, expr, resolved => by
      rw [resolve] at resolved
      cases resolved
      simp [Expr.calls, Node.callForms]
  | .symbol name, expr, resolved => by
      rw [resolve] at resolved
      split at resolved
      · cases resolved
        simp [Expr.calls, Node.callForms]
      · cases resolved
  | .pair (.symbol name) operands, expr, resolved => by
      rw [resolve] at resolved
      rw [Node.callForms]
      split at resolved
      · next function hfound =>
          split at resolved
          · next hcount =>
              obtain ⟨arguments, harguments, rfl⟩ := map_eq_ok.mp resolved
              rw [Expr.calls, hfound, Option.isSome_some, if_pos rfl]
              exact List.rel_append (calls_of_resolveAll scope operands harguments)
                (.cons ⟨⟨function, hfound, rfl, hcount.symm⟩, harguments⟩ .nil)
          · cases resolved
      · next hfound =>
          rw [hfound, Option.isSome_none, if_neg Bool.false_ne_true, List.append_nil]
          split at resolved
          · split at resolved
            · cases resolved
            · next haccepted =>
                obtain ⟨exprs, hexprs, rfl⟩ := map_eq_ok.mp resolved
                rw [Expr.calls_apply haccepted (length_resolveAll hexprs)]
                exact calls_of_resolveAll scope operands hexprs
          · cases resolved
  | .pair (.int _) _, expr, resolved => by
      simp [resolve] at resolved
  | .pair (.pair _ _) _, expr, resolved => by
      simp [resolve] at resolved
  | .pair .missing _, expr, resolved => by
      simp [resolve] at resolved
  | .missing, expr, resolved => by
      rw [resolve] at resolved
      cases resolved

/-- The calls in the expressions of a list are those of its forms, in the same order. -/
theorem calls_of_resolveAll (scope : Scope) : (nodes : Node) → {exprs : List Expr} →
    scope.resolveAll nodes = .ok exprs →
      List.Forall₂ scope.Calls (Expr.callsOf exprs) (nodes.operandForms scope.functions)
  | .pair head tail, exprs, resolved => by
      obtain ⟨expr, rest, hhead, htail, rfl⟩ := resolveAll_pair_eq_ok.mp resolved
      rw [Expr.callsOf, Node.operandForms]
      exact List.rel_append (calls_of_resolve scope head hhead)
        (calls_of_resolveAll scope tail htail)
  | .int _, exprs, resolved | .symbol _, exprs, resolved | .missing, exprs, resolved => by
      rw [resolveAll_of_items_eq_nil rfl] at resolved
      cases resolved
      simp [Expr.callsOf, Node.operandForms]

end

end Scope

/-! ## Calls in a program -/

/-- The addresses of the calls in a program from `start` on and before `stop`. -/
def Program.callsBetween (program : Program) (start stop : Nat) : List Nat :=
  (List.range' start (stop - start)).filter fun address ↦
    program[address]?.map Inst.op = some .call

/-- The instruction at an address is a call, behind the code of its arguments, which begins at
`first` or later. -/
def EndsCall (program : Program) (first address : Nat) (call : ResolvedCall) : Prop :=
  ∃ start, first ≤ start ∧
    CodeAt program start ((Expr.call call.entry call.arguments).code start) ∧
    start + Expr.sizes call.arguments = address

/-- The calls in a stretch of a program. -/
def CallsIn (program : Program) (start stop : Nat) (calls : List ResolvedCall) : Prop :=
  List.Forall₂ (EndsCall program start) (program.callsBetween start stop) calls

namespace Program

variable {program : Program} {start middle stop : Nat}

/-- The calls of two stretches side by side. -/
theorem callsBetween_append (before : start ≤ middle) (behind : middle ≤ stop) :
    program.callsBetween start stop =
      program.callsBetween start middle ++ program.callsBetween middle stop := by
  have hrange : List.range' start (stop - start) =
      List.range' start (middle - start) ++ List.range' middle (stop - middle) := by
    have happend := List.range'_append_1 (s := start) (m := middle - start) (n := stop - middle)
    rw [Nat.add_sub_cancel' before] at happend
    rw [happend]
    congr 1
    omega
  rw [callsBetween, hrange, List.filter_append]
  rfl

/-- An instruction that is no call. -/
theorem callsBetween_plain {inst : Inst} (found : program[start]? = some inst)
    (plain : inst.op ≠ .call) : program.callsBetween start (start + 1) = [] := by
  simp [callsBetween, found, plain]

/-- A call. -/
theorem callsBetween_call {inst : Inst} (found : program[start]? = some inst)
    (call : inst.op = .call) : program.callsBetween start (start + 1) = [start] := by
  simp [callsBetween, found, call]

/-- The calls of a program stay where they are when it grows. -/
theorem callsBetween_extend (le : stop ≤ program.size) (added : Array Inst) :
    callsBetween (program ++ added) start stop = program.callsBetween start stop := by
  refine List.filter_congr fun address hmem ↦ ?_
  have hlt : address < program.size := by
    have := List.mem_range'_1.mp hmem
    omega
  rw [Array.getElem?_append_left hlt]

end Program

namespace CallsIn

variable {program : Program} {start middle stop : Nat} {calls others : List ResolvedCall}

/-- The calls of two stretches side by side. -/
theorem append (first : CallsIn program start middle calls)
    (second : CallsIn program middle stop others) (before : start ≤ middle)
    (behind : middle ≤ stop) : CallsIn program start stop (calls ++ others) := by
  rw [CallsIn, Program.callsBetween_append before behind]
  refine List.rel_append first (second.imp fun _ _ hends ↦ ?_)
  obtain ⟨begins, hle, hends⟩ := hends
  exact ⟨begins, Nat.le_trans before hle, hends⟩

/-- An instruction behind a stretch that is no call. -/
theorem plain (h : CallsIn program start stop calls) (le : start ≤ stop) {inst : Inst}
    (found : program[stop]? = some inst) (plain : inst.op ≠ .call) :
    CallsIn program start (stop + 1) calls := by
  rw [CallsIn, Program.callsBetween_append le (Nat.le_succ stop),
    Program.callsBetween_plain found plain, List.append_nil]
  exact h

/-- There is nothing in an empty stretch. -/
theorem empty (program : Program) (start : Nat) : CallsIn program start start [] := by
  simp [CallsIn, Program.callsBetween]

end CallsIn

namespace Expr

mutual

/-- The calls in the code of an expression are those of the expression. -/
theorem callsIn_code {program : Program} (start : Nat) : (expr : Expr) →
    CodeAt program start (expr.code start) →
      CallsIn program start (start + expr.size) expr.calls
  | .literal value, placed => by
      rw [code] at placed
      exact (CallsIn.empty program start).plain (Nat.le_refl _) placed.head
        (by simp [Inst.constant])
  | .parameter index, placed => by
      rw [code] at placed
      exact (CallsIn.empty program start).plain (Nat.le_refl _) placed.head (by simp [Inst.arg])
  | .unary operator operand, placed => by
      obtain ⟨hoperand, hlast⟩ := placed.unary
      rw [size, calls, ← Nat.add_assoc]
      exact (callsIn_code start operand hoperand).plain (by omega) hlast (by simp [Inst.unary])
  | .binary operator left right, placed => by
      obtain ⟨hleft, hright, hlast⟩ := placed.binary
      rw [size, calls, ← Nat.add_assoc, ← Nat.add_assoc]
      have hboth := (callsIn_code start left hleft).append
        (callsIn_code (start + left.size) right hright) (by omega) (by omega)
      exact hboth.plain (by omega) hlast (by simp [Inst.binary])
  | .conditional condition consequent alternative, placed => by
      obtain ⟨yes, hyes⟩ : ∃ yes, yes = start + condition.size + 1 := ⟨_, rfl⟩
      obtain ⟨no, hno⟩ : ∃ no, no = yes + consequent.size + 1 := ⟨_, rfl⟩
      obtain ⟨hcondition, hbranch, hconsequent, hleave, halternative⟩ :=
        placed.conditional hyes hno
      have hend : start + (Expr.conditional condition consequent alternative).size =
          no + alternative.size := by
        rw [size]
        omega
      rw [hend, calls]
      -- Behind each of the first two parts stands a jump.
      have htest := (callsIn_code start condition hcondition).plain (by omega) hbranch
        (by simp [Inst.jumpZ])
      have hchosen := (callsIn_code yes consequent hconsequent).plain (by omega) hleave
        (by simp [Inst.jump])
      rw [← hyes] at htest
      rw [← hno] at hchosen
      have hbranches := hchosen.append (callsIn_code no alternative halternative) (by omega)
        (Nat.le_add_right _ _)
      exact htest.append hbranches (by omega) (by omega)
  | .call entry arguments, placed => by
      obtain ⟨harguments, hlast⟩ := placed.call
      rw [size, calls, ← Nat.add_assoc]
      have hle : start ≤ start + sizes arguments := Nat.le_add_right _ _
      rw [CallsIn, Program.callsBetween_append hle (Nat.le_succ _),
        Program.callsBetween_call hlast rfl]
      exact List.rel_append (callsIn_codes start arguments harguments)
        (.cons ⟨start, Nat.le_refl _, placed, rfl⟩ .nil)

/-- The calls in the code of several expressions are those of the expressions. -/
theorem callsIn_codes {program : Program} (start : Nat) : (exprs : List Expr) →
    CodeAt program start (codes start exprs) →
      CallsIn program start (start + sizes exprs) (callsOf exprs)
  | [], _ => by
      rw [sizes, callsOf]
      exact .empty program start
  | expr :: rest, placed => by
      obtain ⟨hfirst, hrest⟩ := placed.cons
      rw [sizes, callsOf, ← Nat.add_assoc]
      exact (callsIn_code start expr hfirst).append
        (callsIn_codes (start + expr.size) rest hrest) (by omega) (by omega)

end

end Expr

/-! ## Calls and forms -/

/-- The instruction at an address is what a form becomes in a scope: it calls the function that the
scope has for the name, whose code begins earlier and takes as many arguments as the form has
operands. The code of these operands begins at `first` or later, and ends where the call stands. -/
structure CallAt (program : Program) (scope : Scope) (first address : Nat) (form : CallForm) :
    Prop where
  function : ∃ function, scope.functions.lookup? form.name = some function ∧
    program[address]? = some (.call (Int64.ofNat function.entry)) ∧ function.entry < address ∧
    program[function.entry]? = some (.enter (Int64.ofNat form.operands.length))
  operands : ∃ start arguments, first ≤ start ∧ scope.resolveAll form.operands = .ok arguments ∧
    CodeAt program start (Expr.codes start arguments) ∧ start + Expr.sizes arguments = address

/-- The functions of a table begin before an address, each with the number of its parameters. -/
def Table.EnteredBefore (table : Table) (program : Program) (start : Nat) : Prop :=
  ∀ function ∈ table, function.entry < start ∧
    program[function.entry]? = some (.enter (Int64.ofNat function.arity))

section Forms

variable {program : Program} {scope : Scope} {first address : Nat} {form : CallForm}

/-- A call stays when the program grows. -/
theorem CallAt.extend (h : CallAt program scope first address form) (added : Array Inst) :
    CallAt (program ++ added) scope first address form := by
  obtain ⟨function, hfound, hcall, hlt, henter⟩ := h.function
  obtain ⟨start, arguments, hle, hresolved, hplaced, hend⟩ := h.operands
  exact ⟨⟨function, hfound, getElem?_extend hcall added, hlt, getElem?_extend henter added⟩,
    ⟨start, arguments, hle, hresolved, hplaced.extend added, hend⟩⟩

/-- Operands that begin at an address or later begin at an earlier one or later. -/
theorem CallAt.mono (h : CallAt program scope first address form) {earlier : Nat}
    (le : earlier ≤ first) : CallAt program scope earlier address form := by
  obtain ⟨start, arguments, hle, hoperands⟩ := h.operands
  exact ⟨h.function, ⟨start, arguments, Nat.le_trans le hle, hoperands⟩⟩

/-- A call that a form became is what the form says, if the functions of the scope stand before
it. -/
theorem Scope.Calls.callAt {call : ResolvedCall} (h : scope.Calls call form)
    (ends : EndsCall program first address call)
    (functions : scope.functions.EnteredBefore program first) :
    CallAt program scope first address form := by
  obtain ⟨function, hfound, hentry, harity⟩ := h.function
  obtain ⟨start, hle, hplaced, rfl⟩ := ends
  obtain ⟨harguments, hcall⟩ := hplaced.call
  obtain ⟨hbefore, henter⟩ := functions function (Table.of_lookup? hfound).1
  rw [hentry] at hcall
  rw [harity] at henter
  exact ⟨⟨function, hfound, hcall, by omega, henter⟩,
    ⟨start, call.arguments, hle, h.arguments, harguments, rfl⟩⟩

/-- The calls that forms became, in the same order. -/
theorem callsAt_of_calls {addresses : List Nat} {calls : List ResolvedCall}
    {forms : List CallForm} (ends : List.Forall₂ (EndsCall program first) addresses calls)
    (became : List.Forall₂ scope.Calls calls forms)
    (functions : scope.functions.EnteredBefore program first) :
    List.Forall₂ (CallAt program scope first) addresses forms := by
  induction ends generalizing forms with
  | nil =>
      cases became
      exact .nil
  | cons hends _ ih =>
      cases became with
      | cons hcalls hrest => exact .cons (hcalls.callAt hends functions) (ih hrest)

/-- The calls in the code of a node are those of its forms that call functions, in the order of
their evaluation. -/
theorem callsAt_of_resolve {node : Node} {expr : Expr} (resolved : scope.resolve node = .ok expr)
    (placed : CodeAt program first (expr.code first))
    (functions : scope.functions.EnteredBefore program first) :
    List.Forall₂ (CallAt program scope first)
      (program.callsBetween first (first + expr.size)) (node.callForms scope.functions) :=
  callsAt_of_calls (expr.callsIn_code first placed) (scope.calls_of_resolve node resolved) functions

end Forms

end WordLisp
