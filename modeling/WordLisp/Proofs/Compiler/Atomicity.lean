import WordLisp.Proofs.Compiler.Reached
import WordLisp.Proofs.Node.Reading

/-!
# Failed compilation

A node that cannot be compiled leaves no trace in a compiler, and a source that cannot be read or
compiled to its end leaves the compiler as the complete expressions before the failing one have made
it. The main statement is `compileReader_atomic`.
-/

namespace WordLisp

namespace Compiler

variable {compiler after : Compiler} {environment : Environment} {nodes : List Node}

/-- A settled compiler that fails to compile a node has not changed. -/
theorem Settled.compile_eq_self (settled : compiler.Settled environment) {node : Node}
    {error : CompileError} (failed : (compiler.compile node).2 = some error) :
    compiler.compile node = (compiler, some error) := by
  obtain ⟨cause, hcompile⟩ | ⟨_, -, -, hcompile⟩ | ⟨_, _, -, -, hcompile⟩ :=
    settled.compile_cases node
  · rw [hcompile] at failed ⊢
    cases failed
    rfl
  · rw [hcompile] at failed
    cases failed
  · rw [hcompile] at failed
    cases failed

/-- A settled compiler stays settled over several nodes. -/
theorem Settled.compileNodes (settled : compiler.Settled environment) (nodes : List Node) :
    ∃ environment, (compiler.compileNodes nodes).1.Settled environment := by
  induction nodes generalizing compiler environment with
  | nil => exact ⟨environment, settled⟩
  | cons node rest ih =>
      have hnext := settled.compile node
      rw [Compiler.compileNodes]
      split
      · next hcompile =>
          rw [hcompile] at hnext
          exact ih hnext
      · next hcompile =>
          rw [hcompile] at hnext
          exact ⟨_, hnext⟩

/-- The first node that cannot be compiled ends the work, and the nodes before it are all that was
compiled. -/
theorem Settled.compileNodes_error (settled : compiler.Settled environment) {error : CompileError}
    (failed : compiler.compileNodes nodes = (after, some error)) :
    ∃ preceding node rest, nodes = preceding ++ node :: rest ∧
      compiler.compileNodes preceding = (after, none) ∧
      after.compile node = (after, some error) := by
  induction nodes generalizing compiler environment with
  | nil => cases failed
  | cons node rest ih =>
      have hnext := settled.compile node
      rw [Compiler.compileNodes] at failed
      split at failed
      · next next hcompile =>
          rw [hcompile] at hnext
          obtain ⟨preceding, failing, others, rfl, hpreceding, hfailing⟩ := ih hnext failed
          refine ⟨node :: preceding, failing, others, rfl, ?_, hfailing⟩
          simp only [Compiler.compileNodes, hcompile, hpreceding]
      · next next cause hcompile =>
          cases failed
          have hself := settled.compile_eq_self (by rw [hcompile])
          rw [hself] at hcompile
          cases hcompile
          exact ⟨[], node, rest, rfl, rfl, hself⟩

/-- Why a compiler does not get past a reader: no expression can be read, or the next one cannot be
compiled and changes nothing. -/
def StopsAt (compiler : Compiler) (reader : Reader) : SourceError → Prop
  | .read cause => reader.read.1 = .error cause
  | .compile cause => ∃ node, reader.read.1 = .ok node ∧
      compiler.compile node = (compiler, some cause)

/-- Failed compilation is atomic. A node that cannot be compiled changes nothing of a compiler. A
source that fails, in reading or in compiling, leaves the compiler that compiling the complete
expressions before the failing one gives. -/
theorem compileReader_atomic {initial : Program} (reached : Reached initial compiler environment) :
    compiler.parameters = [] ∧
    (∀ node error, (compiler.compile node).2 = some error → (compiler.compile node).1 = compiler) ∧
    ∀ reader after error, compiler.compileReader reader = (after, some error) →
      ∃ preceding stopped, reader.Reads preceding stopped ∧
        compiler.compileNodes preceding = (after, none) ∧ after.parameters = [] ∧
        after.StopsAt stopped error := by
  have hsettled := reached.settled
  refine ⟨hsettled.parameters_eq, ?_, ?_⟩
  · intro node error hfailed
    rw [hsettled.compile_eq_self hfailed]
  · intro reader after error hfailed
    obtain ⟨last, hreads, hlast⟩ := reader.reads_readAll
    obtain ⟨afterwards, hafter⟩ := hsettled.compileNodes reader.readAll.1
    simp only [compileReader] at hfailed
    -- Either a node could not be compiled, or all could and the reader stopped.
    split at hfailed
    · next compiled cause hnodes =>
        cases hfailed
        rw [hnodes] at hafter
        obtain ⟨preceding, node, rest, hsplit, hpreceding, hnode⟩ :=
          hsettled.compileNodes_error hnodes
        rw [hsplit] at hreads
        obtain ⟨stopped, hstopped, hread⟩ := hreads.split
        exact ⟨preceding, stopped, hstopped, hpreceding, hafter.parameters_eq, node, hread, hnode⟩
    · next compiled hnodes =>
        obtain ⟨rfl, herror⟩ := Prod.mk.inj hfailed
        rw [hnodes] at hafter
        obtain ⟨cause, hcause, rfl⟩ := Option.map_eq_some_iff.mp herror
        rw [hcause] at hlast
        exact ⟨_, last, hreads, hnodes, hafter.parameters_eq, hlast⟩

/-- A function that cannot be redefined, as its new body calls a function that is not there, stays
as it was. -/
theorem compileReader_atomic_redefinition :
    let defined := (({} : Compiler).compile (.ofList [.symbol "define",
      .ofList [.symbol "f", .symbol "x"], .symbol "x"])).1
    (defined.compile (.ofList [.symbol "define", .ofList [.symbol "f"],
      .ofList [.symbol "g"]])).1 = defined :=
  (compileReader_atomic (.compile _ .start)).2.1 _ (.unknownFunction (.symbol "g"))
    (by decide +kernel)

end Compiler

end WordLisp
