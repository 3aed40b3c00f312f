import WordLisp.Proofs.Evaluation.Simulation
import WordLisp.Proofs.Machine.Reuse

/-!
# Compiled expressions run as they evaluate

The main result is `Compiler.runs_as_evaluated`. On every compiler that can be reached, the code of
a node that is not a definition, run from its start on a machine with any stack, gives a value only
if the node evaluates to it, and faults only on a full stack or where the evaluation divides by
zero. In turn an evaluation comes out of every run on a stack that is deep enough for it, and fills
up every other stack.

Addresses are words, and so the program must be `Addressable`.
-/

namespace WordLisp

/-- An address of a program, or its end, is one that a run may start at. -/
theorem Machine.startAddress?_ofNat {program : Program} {start : Nat}
    (fits : program.Addressable) (le : start ≤ program.size) :
    startAddress? program (Int64.ofNat start) = some start := by
  have hlt : start < 0x8000000000000000 := Nat.lt_of_le_of_lt le fits
  have hnonneg : (0 : Word) ≤ Int64.ofNat start := Int64.zero_le_ofNat_of_lt hlt
  have hstart : (Int64.ofNat start).toNatClampNeg = start :=
    Int64.toNatClampNeg_ofNat_of_lt hlt
  simp only [startAddress?, Program.index?, hnonneg, hstart, true_and]
  rw [if_pos (by omega)]

namespace Compiler

variable {compiler : Compiler} {environment : Environment} {node : Node} {size : Word}
  {machine : Machine} {room : Nat} {words : List Word}

/-- The code of a compiled expression comes to what the node evaluates to, also when the program has
grown since. -/
theorem Settled.comes_expression (settled : compiler.Settled environment)
    (expression : node.definition? environment = none)
    (done : (compiler.compile node).2 = none) (added : Array Inst)
    (fits : Program.Addressable ((compiler.compile node).1.program ++ added))
    (shows : machine.Shows size compiler.program.size 0 words)
    (sum : words.length + room = size.toNatClampNeg) :
    machine.Comes ((compiler.compile node).1.program ++ added)
      (evaluate (Machine.overflow size) room environment [] node)
      fun value next ↦
        next.Shows size (compiler.compile node).1.program.size 0 (words ++ [value]) := by
  obtain ⟨error, hcompile⟩ | ⟨expr, -, hresolved, hcompile⟩ |
    ⟨definition, body, hsome, -, -⟩ := settled.compile_cases node
  · rw [hcompile] at done
    cases done
  · rw [hcompile] at fits ⊢
    have hend : (compiler.program ++ (expr.code compiler.program.size).toArray).size =
        compiler.program.size + expr.size := by
      simp
    rw [hend]
    exact simulates fits size room node ((settled.laid.extend _).extend _) rfl hresolved
      ((codeAt_append compiler.program _).extend _) shows sum (.nil words 0)
  · rw [expression] at hsome
    cases hsome

/-- The run of a compiled expression comes to what the node evaluates to on the whole stack. -/
theorem Settled.runsTo_evaluate (settled : compiler.Settled environment)
    (expression : node.definition? environment = none)
    (done : (compiler.compile node).2 = none)
    (fits : (compiler.compile node).1.program.Addressable) (ready : machine.Ready size) :
    ∃ final, machine.RunsTo (compiler.compile node).1.program
        (Int64.ofNat compiler.program.size) final
        (evaluate (Machine.overflow size) size.toNatClampNeg environment [] node) ∧
      ∀ value, evaluate (Machine.overflow size) size.toNatClampNeg environment [] node =
        .ok value → final.Shows size (compiler.compile node).1.program.size 0 [value] := by
  obtain ⟨added, hadded⟩ := settled.program_compile node
  have hstart : Machine.startAddress? (compiler.compile node).1.program
      (Int64.ofNat compiler.program.size) = some compiler.program.size :=
    Machine.startAddress?_ofNat fits (by simp [hadded])
  have hcomes := settled.comes_expression expression done #[] (by simpa using fits)
    (ready.shows_begin compiler.program.size) (Nat.zero_add _)
  rw [Array.append_empty] at hcomes
  obtain ⟨final, hruns, hfinal⟩ := hcomes.runsTo hstart fun _ next hnext ↦ by
    simp [Machine.atEnd, hnext.pc]
  refine ⟨final, ?_, hfinal⟩
  cases hresult : evaluate (Machine.overflow size) size.toNatClampNeg environment [] node with
  | ok value =>
      rw [hresult] at hruns
      rwa [← (hfinal value hresult).result_eq]
  | error fault =>
      rw [hresult] at hruns
      exact hruns

/-- Compiled expressions run as they evaluate. A run of the code of a node that gives a value has
the value of the node, which is then all that is on the stack. A run that faults found the stack
full, or the node divides by zero. And a node that evaluates to an outcome does so in every run on
a stack as deep as this needs, and fills up every other stack. -/
theorem runs_as_evaluated {initial : Program} {compiled : Compiler}
    (reached : Reached initial compiler environment)
    (expression : node.definition? environment = none)
    (done : compiler.compile node = (compiled, none)) (fits : compiled.program.Addressable)
    (pos : 0 < size) (used : Machine.Used size machine) :
    (∀ final value,
      machine.RunsTo compiled.program (Int64.ofNat compiler.program.size) final (.ok value) →
      (∃ depth, Evaluates environment [] node (.ok value) depth) ∧
        final.live? = some [value] ∧ final.bp = 0 ∧ final.pc = compiled.program.size) ∧
    (∀ final fault,
      machine.RunsTo compiled.program (Int64.ofNat compiler.program.size) final (.error fault) →
      fault.kind = "vm.stack_overflow" ∨
        fault.kind = "vm.divide_by_zero" ∧
          ∃ depth, Evaluates environment [] node (.error fault) depth) ∧
    ∀ outcome depth, Evaluates environment [] node outcome depth →
      ∃ final, machine.RunsTo compiled.program (Int64.ofNat compiler.program.size) final
        (if depth ≤ size.toNatClampNeg then outcome else .error (Machine.overflow size)) := by
  have hcompiled : (compiler.compile node).1 = compiled := by rw [done]
  obtain ⟨last, hlast, hshows⟩ := reached.settled.runsTo_evaluate expression (by rw [done])
    (by rwa [hcompiled]) (used.ready pos)
  rw [hcompiled] at hlast hshows
  -- A run has one outcome, so each of the three parts is about what `evaluate` gives.
  have hwithin := evaluates_of_evaluate (Machine.overflow size) size.toNatClampNeg environment []
    node
  refine ⟨?_, ?_, ?_⟩
  · intro final value hruns
    obtain ⟨rfl, hvalue⟩ := hlast.unique hruns
    have hfinal := hshows value hvalue
    rw [hvalue] at hwithin
    obtain ⟨⟨⟩⟩ | ⟨depth, -, heval⟩ := hwithin
    exact ⟨⟨depth, heval⟩, hfinal.live?_eq, hfinal.bp, hfinal.pc⟩
  · intro final fault hruns
    obtain ⟨-, hfault⟩ := hlast.unique hruns
    rw [hfault] at hwithin
    obtain ⟨⟨⟩⟩ | ⟨depth, -, heval⟩ := hwithin
    · exact .inl rfl
    · exact .inr ⟨(heval.isDivision fault rfl).kind_eq, depth, heval⟩
  · intro outcome depth heval
    rw [evaluate_of_evaluates _ heval] at hlast
    exact ⟨last, hlast⟩

/-- A function that doubles its argument. -/
def double : Definition where
  name := "double"
  parameters := ["x"]
  body := .ofList [.symbol "*", .int 2, .symbol "x"]

/-- A call of it needs five slots: two for the operands, one for the argument and two for the
call. -/
theorem runs_as_evaluated_double :
    let program : Program := #[.jump 6, .enter 1, .constant 2, .arg 0, .binary .mul, .exit,
      .constant 21, .call 1]
    (∃ final, (Machine.new 5).RunsTo program 6 final (.ok 42)) ∧
      ∃ final, (Machine.new 4).RunsTo program 6 final (.error (Machine.overflow 4)) := by
  intro program
  have hdefine : ({} : Compiler).compile (.ofList [.symbol "define",
      .ofList [.symbol "double", .symbol "x"], double.body]) =
      (⟨program.take 6, [⟨"double", 1, 1⟩], []⟩, none) := by decide +kernel
  have hcompile : Compiler.compile ⟨program.take 6, [⟨"double", 1, 1⟩], []⟩
      (.ofList [.symbol "double", .int 21]) = (⟨program, [⟨"double", 1, 1⟩], []⟩, none) := by
    decide +kernel
  have hreached : Reached #[] ⟨program.take 6, [⟨"double", 1, 1⟩], []⟩ [double] :=
    Reached.next .start hdefine
  have hbody : Evaluates [double] [("x", 21)] double.body (.ok 42) 2 :=
    .form rfl rfl (.any (.cons (.int _ _ 2) (.cons (.parameter rfl) rfl (.nil _ _ _ _))))
  have harguments : EvaluatesAll [double] [] [.int 21] (.ok [21]) (max 1 (1 + 0)) :=
    .cons (.int _ _ 21) (.nil _ _)
  have hcall : Evaluates [double] [] (.ofList [.symbol "double", .int 21]) (.ok 42)
      (max (max 1 (1 + 0)) ([(21 : Word)].length + 2 + 2)) :=
    .call rfl rfl harguments hbody
  have hwide := runs_as_evaluated hreached rfl hcompile (by decide) (by decide)
    (.new : Machine.Used 5 _)
  have hnarrow := runs_as_evaluated hreached rfl hcompile (by decide) (by decide)
    (.new : Machine.Used 4 _)
  exact ⟨hwide.2.2 _ _ hcall, hnarrow.2.2 _ _ hcall⟩

end Compiler

end WordLisp
