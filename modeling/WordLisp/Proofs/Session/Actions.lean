import WordLisp.Proofs.Machine.Reuse
import WordLisp.Session.Basic

/-!
# What the actions of a session do

A session compiles by its compiler and runs by its machine, and neither changes the other. Here each
action is said in terms of these two, whatever the session prints or traces: what a run changes and
gives (`machine_run`, `runAt_of_run`, `run_of_runAt`), and what entering a node does
(`compiler_enter`, `ready_enter`, `result_enter`).
-/

namespace WordLisp

namespace Session

variable {session : Session} {watch : Watch} {node : Node} {value : Word}

@[simp] theorem compiler_note (session : Session) (lines : Unit → List String) :
    (session.note lines).compiler = session.compiler := by
  unfold note
  split <;> rfl

@[simp] theorem machine_note (session : Session) (lines : Unit → List String) :
    (session.note lines).machine = session.machine := by
  unfold note
  split <;> rfl

@[simp] theorem writer_note (session : Session) (lines : Unit → List String) :
    (session.note lines).writer = session.writer := by
  unfold note
  split <;> rfl

/-- A run does not change the program. -/
@[simp] theorem compiler_runAt (session : Session) (watch : Watch) (start : Word) :
    (session.runAt watch start).1.compiler = session.compiler := by
  simp [runAt]

/-- A run changes the machine as the program does. -/
theorem machine_runAt (session : Session) (watch : Watch) (start : Word) :
    (session.runAt watch start).1.machine =
      (session.machine.runAt session.compiler.program watch start).1 := by
  simp [runAt]

/-- A run gives what the program gives. -/
theorem result_runAt (session : Session) (watch : Watch) (start : Word) :
    (session.runAt watch start).2 =
      (session.machine.runAt session.compiler.program watch start).2.mapError .ofStop := by
  simp [runAt]

/-- To run the whole program is to run it from its start, and to flush the output. -/
theorem fst_run (session : Session) (watch : Watch) :
    (session.run watch).1 = (session.runAt watch 0).1.flush.1 := by
  unfold run
  dsimp only
  split <;> rfl

/-- To run the whole program does not change it. -/
theorem compiler_run (session : Session) (watch : Watch) :
    (session.run watch).1.compiler = session.compiler := by
  rw [fst_run]
  exact session.compiler_runAt watch 0

/-- To run the whole program changes the machine as this does. -/
theorem machine_run (session : Session) (watch : Watch) :
    (session.run watch).1.machine =
      (session.machine.runAt session.compiler.program watch 0).1 := by
  rw [fst_run]
  exact session.machine_runAt watch 0

/-- The value of a session is that of its program. -/
theorem runAt_of_run (ended : (session.run watch).2 = .ok value) :
    session.machine.runAt session.compiler.program watch 0 =
      ((session.run watch).1.machine, .ok value) := by
  have hresult : (session.runAt watch 0).2 = .ok value := by
    unfold run at ended
    dsimp only at ended
    split at ended
    · cases ended
    · exact ended
  rw [result_runAt] at hresult
  refine Prod.ext (session.machine_run watch).symm ?_
  cases hprogram : (session.machine.runAt session.compiler.program watch 0).2 with
  | ok other =>
      rw [hprogram] at hresult
      cases hresult
      rfl
  | error stop =>
      rw [hprogram] at hresult
      cases hresult

/-- The fault of a program is reported, whatever becomes of the output. -/
theorem run_of_runAt {final : Machine} {stop : Stop}
    (stopped : session.machine.runAt session.compiler.program watch 0 = (final, .error stop)) :
    (session.run watch).2 = .error (.ofStop stop) := by
  have hresult : (session.runAt watch 0).2 = .error (.ofStop stop) := by
    rw [result_runAt, stopped]
    rfl
  unfold run
  dsimp only
  split
  · next hok _ =>
      rw [hresult] at hok
      cases hok
  · exact hresult

/-! ## Entering a node -/

/-- To enter a node is to compile it, with or without an error. -/
theorem compiler_enter (session : Session) (watch : Watch) (node : Node) :
    (session.enter watch node).1.compiler = (session.compiler.compile node).1 := by
  unfold enter
  simp only [compiler_note]
  split
  · next hcompile => simp [hcompile]
  · next hcompile =>
      split
      · simp [hcompile]
      · simp [hcompile]

/-- To enter a node leaves the machine ready. -/
theorem ready_enter {size : Word} (ready : session.machine.Ready size) (watch : Watch)
    (node : Node) : (session.enter watch node).1.machine.Ready size := by
  unfold enter
  simp only [compiler_note]
  split
  · simpa using ready
  · split
    · simpa using ready
    · simp only [machine_runAt, machine_note, compiler_note]
      exact ready.runAt _ watch _

/-- What entering a node does that can be compiled: its function is told and the machine stays as it
is, or its code is run and the value is told. -/
theorem enter_of_compile {compiled : Compiler}
    (done : session.compiler.compile node = (compiled, none)) (watch : Watch) :
    let entered := session.enter watch node
    match { session with compiler := compiled }.definedSince? session.compiler.program.size
        node with
    | some function => entered.1.machine = session.machine ∧ entered.2 = .ok (.defined function)
    | none =>
        let ran := session.machine.runAt compiled.program watch
          (Int64.ofNat session.compiler.program.size)
        entered.1.machine = ran.1 ∧ entered.2 = (ran.2.mapError .ofStop).map .value := by
  intro entered
  have hentered : entered = session.enter watch node := rfl
  unfold enter at hentered
  simp only [compiler_note, done] at hentered
  have hsince : { session.note fun _ ↦ (session.compiler.trace node).map ("compile " ++ ·) with
      compiler := compiled }.definedSince? session.compiler.program.size node =
      { session with compiler := compiled }.definedSince? session.compiler.program.size node := rfl
  rw [hsince] at hentered
  cases hdefined : { session with compiler := compiled }.definedSince?
      session.compiler.program.size node with
  | some function =>
      rw [hdefined] at hentered
      rw [hentered]
      exact ⟨session.machine_note _, rfl⟩
  | none =>
      rw [hdefined] at hentered
      rw [hentered]
      simp [machine_runAt, result_runAt]

/-- What entering a node gives that can be compiled: its function, or the value of its code. -/
theorem result_enter {compiled : Compiler}
    (done : session.compiler.compile node = (compiled, none)) (watch : Watch) :
    (session.enter watch node).2 =
      match { session with compiler := compiled }.definedSince? session.compiler.program.size
        node with
      | some function => .ok (.defined function)
      | none => ((session.machine.runAt compiled.program watch
          (Int64.ofNat session.compiler.program.size)).2.mapError .ofStop).map .value := by
  have hentered := enter_of_compile done watch
  split
  · next hdefined =>
      rw [hdefined] at hentered
      exact hentered.2
  · next hdefined =>
      rw [hdefined] at hentered
      exact hentered.2

end Session

end WordLisp
