import WordLisp.Proofs.Compiler.StaticRules
import WordLisp.Proofs.Session.Lasting

/-!
# What entering a node tells

A session tells a definition from an expression after the node has been compiled, by the shape of
the node and the entry of the function that is then found under its name. The compiler has looked at
something else: whether the head of the node still means the builtin for definitions. In every
session that can be reached the two agree. A node that only looks like a definition, because
`define` has been defined to be a function, is run.
-/

namespace WordLisp

namespace Compiler

variable {compiler : Compiler} {node : Node} {function : Function} {body : Expr} {expr : Expr}

/-- A top-level node is compiled by the builtin rule for definitions: its head is the name of that
builtin and of no function. -/
def TakesDefinition (compiler : Compiler) (node : Node) : Prop :=
  ∃ word written, node = .pair (.symbol word) written ∧ compiler.function? word = none ∧
    Builtin.ofName? word = some .definition

/-- No definition is an expression. -/
theorem not_takesDefinition {start : Nat}
    (found : Item.ofNode compiler.functions start node = .ok (.expression expr)) :
    ¬compiler.TakesDefinition node := by
  rintro ⟨word, written, rfl, hundefined, hbuiltin⟩
  rw [Item.ofNode, if_pos ⟨hundefined, hbuiltin⟩] at found
  obtain ⟨_, _, _, _, _, _, _, _, hitem⟩ := of_ofDefinition found
  cases hitem

/-- A node whose item is a function is a definition, and says the name of the function and its
parameters. -/
theorem takesDefinition_of_ofNode {start : Nat}
    (found : Item.ofNode compiler.functions start node = .ok (.definition function body)) :
    compiler.TakesDefinition node ∧ ∃ written name parameters inner,
      node = .pair (.symbol "define") written ∧ written.Defines name parameters inner ∧
        function = ⟨name, start + 1, parameters.length⟩ := by
  have htakes : compiler.TakesDefinition node := by
    unfold Item.ofNode at found
    split at found
    · next word written =>
        split at found
        · next hdefine => exact ⟨word, written, rfl, hdefine.1, hdefine.2⟩
        · obtain ⟨_, _, ⟨⟩⟩ := map_eq_ok.mp found
    · obtain ⟨_, _, ⟨⟩⟩ := map_eq_ok.mp found
  refine ⟨htakes, ?_⟩
  obtain ⟨word, written, rfl, hundefined, hbuiltin⟩ := htakes
  obtain rfl := Builtin.eq_define hbuiltin
  rw [Item.ofNode, if_pos ⟨hundefined, hbuiltin⟩] at found
  by_cases hshape : ∃ name parameters inner, written.Defines name parameters inner
  · obtain ⟨name, parameters, inner, hdefines⟩ := hshape
    rw [Item.ofDefinition_eq _ _ hdefines] at found
    obtain ⟨_, _, ⟨⟩⟩ := map_eq_ok.mp found
    exact ⟨written, name, parameters, inner, rfl, hdefines, rfl⟩
  · have hdiffers : ∀ name parameters inner, ¬written.Defines name parameters inner :=
      fun name parameters inner hdefines ↦ hshape ⟨name, parameters, inner, hdefines⟩
    obtain ⟨error, hfailed, -⟩ := Item.ofDefinition_malformed compiler.functions start hdiffers
    rw [hfailed] at found
    cases found

end Compiler

namespace Session

variable {session : Session} {size : Word} {node : Node} {compiled : Compiler}

/-- Entering tells definitions from expressions. In every session, a node that can be compiled is
entered as a definition if and only if it is compiled by the builtin rule for definitions. Then the
function is the one of the table under the name that the node gives; its entry is behind the jump
that the code starts with, its arity the number of the parameters, and the machine does not run. Any
other node is run from the start of its code, whatever it looks like. -/
theorem enter_tells_definitions (reached : session.Reached size)
    (done : session.compiler.compile node = (compiled, none)) (watch : Watch) :
    let start := session.compiler.program.size
    let entered := session.enter watch node
    ((∃ function, entered.2 = .ok (.defined function)) ↔
        session.compiler.TakesDefinition node) ∧
      (∀ function, entered.2 = .ok (.defined function) →
        ∃ written name parameters body,
          node = .pair (.symbol "define") written ∧ written.Defines name parameters body ∧
            entered.1.compiler.function? name = some function ∧
            function = ⟨name, start + 1, parameters.length⟩ ∧
            entered.1.machine = session.machine) ∧
      (¬session.compiler.TakesDefinition node →
        ∃ code, compiled.program = session.compiler.program ++ code ∧
          (compiled.program.Addressable →
            Machine.startAddress? compiled.program (Int64.ofNat start) = some start) ∧
          let ran := session.machine.runAt compiled.program watch (Int64.ofNat start)
          entered.1.machine = ran.1 ∧
            entered.2 = (ran.2.mapError .ofStop).map .value) := by
  intro start entered
  obtain ⟨⟨environment, hsettled⟩, -⟩ := reached.sound
  have hentered := enter_of_compile done watch
  have hcompiler : entered.1.compiler = compiled := by
    rw [compiler_enter, done]
  rw [hsettled.definedSince?_eq { session with compiler := compiled } done] at hentered
  cases hitem : Item.ofNode session.compiler.functions start node with
  | error error =>
      rw [hsettled.compile_error hitem] at done
      cases done
  | ok item =>
      have hcompile := hsettled.compile_ok hitem
      rw [done] at hcompile
      obtain ⟨rfl, -⟩ := Prod.mk.inj hcompile
      cases item with
      | expression expr =>
          have hplain := Compiler.not_takesDefinition hitem
          rw [(hsettled.laid.of_ofNode_expression hitem).1] at hentered
          obtain ⟨hmachine, hresult⟩ := hentered
          have hvalue : ∀ function, entered.2 ≠ .ok (.defined function) := by
            intro function hdefined
            obtain ⟨_, _, ⟨⟩⟩ := map_eq_ok.mp (hresult.symm.trans hdefined)
          refine ⟨⟨?_, ?_⟩, ?_, ?_⟩
          · rintro ⟨function, hdefined⟩
            exact absurd hdefined (hvalue function)
          · exact fun htakes ↦ absurd htakes hplain
          · exact fun function hdefined ↦ absurd hdefined (hvalue function)
          · refine fun _ ↦ ⟨_, rfl, fun fits ↦ ?_, hmachine, hresult⟩
            exact Machine.startAddress?_ofNat fits (by simp [start])
      | definition function body =>
          obtain ⟨htakes, written, name, parameters, inner, hnode, hdefines, hfunction⟩ :=
            Compiler.takesDefinition_of_ofNode hitem
          obtain ⟨definition, hsome, hsame, -⟩ := hsettled.laid.of_ofNode_definition hitem
          rw [hsome, Option.map_some, ← hsame] at hentered
          obtain ⟨hmachine, hresult⟩ := hentered
          refine ⟨⟨fun _ ↦ htakes, fun _ ↦ ⟨function, hresult⟩⟩, ?_, ?_⟩
          · intro other hother
            cases hresult.symm.trans hother
            refine ⟨written, name, parameters, inner, hnode, hdefines, ?_, hfunction, hmachine⟩
            rw [hcompiler]
            show Table.lookup? (session.compiler.functions.set function) name = some function
            have hentry : start ≤ function.entry := by
              rw [hfunction]
              exact Nat.le_succ start
            rw [hsettled.valid.lookup?_set hentry, if_pos (by rw [hfunction])]
          · exact fun hplain ↦ absurd htakes hplain

/-- The word `define` as a function of two parameters: what looks like a definition anew of a
function is a call, and is run. -/
theorem enter_tells_definitions_shadowed :
    let session := (((Session.new 16 ⟨[]⟩).enter .never doubling).1.enter .never
      (.ofList [.symbol "define", .ofList [.symbol "define", .symbol "x", .symbol "y"],
        .ofList [.symbol "-", .symbol "x", .symbol "y"]])).1
    let node := Node.ofList [.symbol "define", .ofList [.symbol "double", .int 21], .int 2]
    node.definedName? = some "double" ∧ (session.compiler.function? "double").isSome ∧
      ¬session.compiler.TakesDefinition node ∧
      (session.enter .never node).2.toOption.bind Entry.value? = some 40 := by
  intro session node
  have hdone : (session.compiler.compile node).2 = none := by decide +kernel
  have hreached : session.Reached 16 := .enter _ _ (.enter _ _ (.new rfl rfl))
  obtain ⟨htells, -, -⟩ := enter_tells_definitions hreached (Prod.ext rfl hdone) .never
  have hvalue : (session.enter .never node).2.toOption.bind Entry.value? = some 40 := by
    decide +kernel
  refine ⟨by decide, by decide +kernel, fun htakes ↦ ?_, hvalue⟩
  obtain ⟨function, hfunction⟩ := htells.mpr htakes
  rw [hfunction] at hvalue
  cases hvalue

end Session

end WordLisp
