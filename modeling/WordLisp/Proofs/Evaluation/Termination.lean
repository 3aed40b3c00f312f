import WordLisp.Proofs.Evaluation.Correctness

/-!
# Every run ends

A run of compiled code from the start of any of its nodes evaluates the expressions from there on,
one after the other, and jumps over the functions between them (`Settled.comes_each`). What that
comes to is a function, `evaluateEach`, as no evaluation outlasts the stack; so every run ends,
also one of a function that calls itself without end, which fills up the stack. This is
`Compiler.every_run_ends`.
-/

namespace WordLisp.Compiler

variable {compiler : Compiler} {environment : Environment} {size : Word}
  {machine : Machine}

/-! ## What the code of several nodes comes to -/

/-- What the code of a top-level node comes to on a stack with `room` free slots: the value of an
expression. The code of a function is jumped over, and a node that is refused has none. -/
def evaluateTop (overflow : Fault) (compiler : Compiler) (environment : Environment) (room : Nat)
    (node : Node) : Except Fault (List Word) :=
  match (compiler.compile node).2, node.definition? environment with
  | none, none => (evaluate overflow room environment [] node).map ([·])
  | _, _ => .ok []

/-- What the code of several top-level nodes comes to. -/
def evaluateEach (overflow : Fault) (compiler : Compiler) (environment : Environment)
    (room : Nat) : List Node → Except Fault (List Word)
  | [] => .ok []
  | node :: rest => do
      let values ← evaluateTop overflow compiler environment room node
      let others ← evaluateEach overflow (compiler.compile node).1
        (environment.after node (compiler.compile node).2) (room - values.length) rest
      return values ++ others

/-- What the code of nodes comes to after that of others. -/
theorem evaluateEach_append (overflow : Fault) (compiler : Compiler) (environment : Environment)
    (room : Nat) (nodes more : List Node) :
    evaluateEach overflow compiler environment room (nodes ++ more) = (do
      let values ← evaluateEach overflow compiler environment room nodes
      let others ← evaluateEach overflow (compiler.compileEach environment nodes).1
        (compiler.compileEach environment nodes).2 (room - values.length) more
      return values ++ others) := by
  induction nodes generalizing compiler environment room with
  | nil =>
      show _ = evaluateEach overflow compiler environment room more >>= fun others ↦ .ok others
      cases h : evaluateEach overflow compiler environment room more with
      | ok others => exact h
      | error fault => exact h
  | cons node rest ih =>
      simp only [List.cons_append, evaluateEach, Compiler.compileEach, ih, bind_assoc, pure_bind,
        List.length_append, Nat.sub_sub, List.append_assoc]

/-- A node without direct evaluation fills up every stack. -/
theorem evaluate_of_not_evaluates {overflow : Fault} {room : Nat} {node : Node}
    {bindings : Bindings}
    (never : ∀ outcome depth, ¬Evaluates environment bindings node outcome depth) :
    evaluate overflow room environment bindings node = .error overflow := by
  rcases evaluates_of_evaluate overflow room environment bindings node with hfull | ⟨_, -, h⟩
  · exact hfull
  · exact absurd h (never _ _)

/-- The code of top-level nodes faults on a full stack or in a division. -/
theorem fault_of_evaluateEach {overflow fault : Fault} {room : Nat} {nodes : List Node}
    (failed : evaluateEach overflow compiler environment room nodes = .error fault) :
    fault = overflow ∨ fault.IsDivision := by
  induction nodes generalizing compiler environment room with
  | nil => cases failed
  | cons node rest ih =>
      rcases bind_eq_error.mp failed with hfirst | ⟨values, -, hothers⟩
      · unfold evaluateTop at hfirst
        split at hfirst
        · rcases evaluates_of_evaluate overflow room environment [] node with
            hfull | ⟨depth, -, h⟩
          · rw [map_eq_error.mp hfirst] at hfull
            exact .inl (Except.error.inj hfull)
          · exact .inr (h.isDivision fault (map_eq_error.mp hfirst))
        · cases hfirst
      · rcases bind_eq_error.mp hothers with hrest | ⟨others, -, hdone⟩
        · exact ih hrest
        · cases hdone

/-! ## Runs over several nodes -/

/-- The code of a top-level node comes to its value, if it has one, and leads to the code behind it,
also when the program has grown since. -/
theorem Settled.comes_top (settled : compiler.Settled environment) (node : Node)
    (added : Array Inst) (fits : Program.Addressable ((compiler.compile node).1.program ++ added))
    {words : List Word} {room : Nat}
    (shows : machine.Shows size compiler.program.size 0 words)
    (sum : words.length + room = size.toNatClampNeg) :
    machine.Comes ((compiler.compile node).1.program ++ added)
      (evaluateTop (Machine.overflow size) compiler environment room node)
      fun values next ↦
        next.Shows size (compiler.compile node).1.program.size 0 (words ++ values) := by
  obtain ⟨error, hcompile⟩ | ⟨expr, hnone, -, hcompile⟩ |
    ⟨definition, body, hsome, -, hcompile⟩ := settled.compile_cases node
  · simp only [evaluateTop, hcompile]
    exact .pure (by simpa using shows)
  · have hdone : (compiler.compile node).2 = none := by rw [hcompile]
    simp only [evaluateTop, hdone, hnone]
    exact (settled.comes_expression hnone hdone added fits shows sum).map
  · simp only [evaluateTop, hcompile, hsome]
    rw [hcompile] at fits
    obtain ⟨hjump, -, -, hexit⟩ := ((codeAt_append compiler.program _).extend added).function
    have hend : (compiler.program ++ (Item.functionCode compiler.program.size
        definition.parameters.length body).toArray).size =
        compiler.program.size + 2 + body.size + 1 := by
      simp
      omega
    rw [hend]
    have hlt := (Array.getElem?_eq_some_iff.mp hexit).1
    obtain ⟨next, hreach, hnext⟩ := shows.jump fits hjump hlt
    exact .of_reaches hreach (.pure (by simpa using hnext))

/-- The code of several top-level nodes comes to their values, and leads to the end of the
program. -/
theorem Settled.comes_each (settled : compiler.Settled environment) (nodes : List Node)
    (fits : (compiler.compileEach environment nodes).1.program.Addressable)
    {words : List Word} {room : Nat}
    (shows : machine.Shows size compiler.program.size 0 words)
    (sum : words.length + room = size.toNatClampNeg) :
    machine.Comes (compiler.compileEach environment nodes).1.program
      (evaluateEach (Machine.overflow size) compiler environment room nodes)
      fun values next ↦ next.Shows size
        (compiler.compileEach environment nodes).1.program.size 0 (words ++ values) := by
  induction nodes generalizing compiler environment machine words room with
  | nil => exact .pure (by simpa [Compiler.compileEach] using shows)
  | cons node rest ih =>
      have hnext := settled.compile node
      -- For the code of the first node, that of the others is only added behind it.
      obtain ⟨added, hadded⟩ := hnext.program_compileEach rest
      have hfirst := settled.comes_top node added (by rwa [← hadded]) shows sum
      rw [← hadded] at hfirst
      refine hfirst.bind fun values next _ hvalues ↦ ?_
      have hsum : (words ++ values).length + (room - values.length) = size.toNatClampNeg := by
        have hfits := hvalues.fits
        simp only [List.length_append] at hfits ⊢
        omega
      refine (ih hnext fits hvalues hsum).bind fun others last _ hothers ↦ .pure ?_
      rwa [List.append_assoc] at hothers

/-- A run of compiled code from the start of a node evaluates the nodes from there on, and leaves
their values on the stack. -/
theorem Settled.runsTo_shows (settled : compiler.Settled environment) (nodes : List Node)
    (fits : (compiler.compileEach environment nodes).1.program.Addressable)
    (ready : machine.Ready size) :
    ∃ final, machine.RunsTo (compiler.compileEach environment nodes).1.program
        (Int64.ofNat compiler.program.size) final
        (evaluateEach (Machine.overflow size) compiler environment size.toNatClampNeg nodes >>=
          fun _ ↦ final.result) ∧
      ∀ values, evaluateEach (Machine.overflow size) compiler environment size.toNatClampNeg nodes =
        .ok values →
        final.Shows size (compiler.compileEach environment nodes).1.program.size 0 values := by
  obtain ⟨added, hadded⟩ := settled.program_compileEach nodes
  have hstart : Machine.startAddress? (compiler.compileEach environment nodes).1.program
      (Int64.ofNat compiler.program.size) = some compiler.program.size :=
    Machine.startAddress?_ofNat fits (by simp [hadded])
  have hcomes := settled.comes_each nodes fits (ready.shows_begin compiler.program.size)
    (Nat.zero_add _)
  exact hcomes.runsTo hstart fun _ next hnext ↦ by simp [Machine.atEnd, hnext.pc]

/-- A run of compiled code from the start of a node has an outcome. -/
theorem Settled.runsTo_each (settled : compiler.Settled environment) (nodes : List Node)
    (fits : (compiler.compileEach environment nodes).1.program.Addressable)
    (ready : machine.Ready size) :
    ∃ final, machine.RunsTo (compiler.compileEach environment nodes).1.program
      (Int64.ofNat compiler.program.size) final
      (evaluateEach (Machine.overflow size) compiler environment size.toNatClampNeg nodes >>=
        fun _ ↦ final.result) := by
  obtain ⟨final, hruns, -⟩ := settled.runsTo_shows nodes fits ready
  exact ⟨final, hruns⟩

/-- Every run of compiled code ends. A compiler that started without a program has compiled some
nodes, and then the nodes `later`: a run of all the code from its first instruction, and one from
the start of what was compiled later, come to an outcome on every stack. If the first of those later
nodes is an expression whose direct evaluation does not end, the run from there fills up the stack,
and so does the run of all the code, unless it divides by zero before. -/
theorem every_run_ends (reached : Reached #[] compiler environment) (later : List Node)
    (fits : (compiler.compileEach environment later).1.program.Addressable) (pos : 0 < size)
    (used : Machine.Used size machine) :
    (∃ final outcome, machine.RunsTo (compiler.compileEach environment later).1.program 0 final
      outcome) ∧
    (∃ final outcome, machine.RunsTo (compiler.compileEach environment later).1.program
      (Int64.ofNat compiler.program.size) final outcome) ∧
    ∀ node rest, later = node :: rest → node.definition? environment = none →
      (compiler.compile node).2 = none →
      (∀ outcome depth, ¬Evaluates environment [] node outcome depth) →
      (∃ final, machine.RunsTo (compiler.compileEach environment later).1.program
        (Int64.ofNat compiler.program.size) final (.error (Machine.overflow size))) ∧
      ∃ final fault, machine.RunsTo (compiler.compileEach environment later).1.program 0 final
        (.error fault) ∧ (fault = Machine.overflow size ∨ fault.IsDivision) := by
  obtain ⟨before, hbefore⟩ := reached.exists_compileEach
  have hall : compileEach { program := #[] } [] (before ++ later) =
      compiler.compileEach environment later := by
    rw [compileEach_append, hbefore]
  have hready := used.ready pos
  obtain ⟨final, hruns⟩ := reached.settled.runsTo_each later fits hready
  obtain ⟨last, hlast⟩ := (settled_start #[]).runsTo_each (before ++ later) (by rwa [hall]) hready
  rw [hall] at hlast
  refine ⟨⟨last, _, hlast⟩, ⟨final, _, hruns⟩, ?_⟩
  rintro node rest rfl hexpression hdone hnever
  -- Nothing but the full stack is left for the first node, however many slots are free.
  have hfull : ∀ room, evaluateEach (Machine.overflow size) compiler environment room
      (node :: rest) = .error (Machine.overflow size) := by
    intro room
    simp only [evaluateEach, evaluateTop, hdone, hexpression, evaluate_of_not_evaluates hnever]
    rfl
  rw [hfull] at hruns
  refine ⟨⟨final, hruns⟩, ?_⟩
  obtain ⟨fault, hfault⟩ : ∃ fault, evaluateEach (Machine.overflow size) { program := #[] } []
      size.toNatClampNeg (before ++ node :: rest) = .error fault := by
    rw [evaluateEach_append, hbefore]
    cases evaluateEach (Machine.overflow size) { program := #[] } [] size.toNatClampNeg before with
    | error fault => exact ⟨fault, rfl⟩
    | ok values =>
        refine ⟨Machine.overflow size, bind_eq_error.mpr (.inr ⟨values, rfl, ?_⟩)⟩
        exact bind_eq_error.mpr (.inl (hfull _))
  rw [hfault] at hlast
  exact ⟨last, fault, hlast, fault_of_evaluateEach hfault⟩

/-- A function that calls itself without end. -/
def endless : Definition where
  name := "f"
  parameters := ["x"]
  body := .ofList [.symbol "f", .symbol "x"]

/-- No call of it with an argument that does not fault evaluates to anything: the body would have to
evaluate with fewer slots. -/
theorem not_evaluates_endless {bindings : Bindings} {operand : Node}
    (plain : ∀ fault depth, ¬Evaluates [endless] bindings operand (.error fault) depth)
    (outcome : Except Fault Word) (depth : Nat) :
    ¬Evaluates [endless] bindings (.ofList [.symbol "f", operand]) outcome depth := by
  induction depth using Nat.strongRecOn generalizing bindings operand with
  | ind depth inner =>
      intro h
      cases h with
      | call hfound _ _ hbody =>
          cases hfound
          refine inner _ (by omega) ?_ hbody
          intro fault depth hfaults
          cases hfaults
      | callFaults _ _ harguments =>
          generalize hresult : Except.error _ = result at harguments
          match harguments with
          | .cons _ hnone =>
              cases hnone
              cases hresult
          | .faults hfirst => exact plain _ _ hfirst
      | form hnone _ _ => cases hnone

/-- A run of it fills up a stack of a hundred slots. -/
theorem every_run_ends_endless :
    let program : Program := #[.jump 5, .enter 1, .arg 0, .call 1, .exit, .constant 1, .call 1]
    ∃ final, (Machine.new 100).RunsTo program 5 final (.error (Machine.overflow 100)) := by
  intro program
  have hdefine : ({} : Compiler).compile (.ofList [.symbol "define",
      .ofList [.symbol "f", .symbol "x"], endless.body]) =
      (⟨program.take 5, [⟨"f", 1, 1⟩], []⟩, none) := by decide +kernel
  have hcompile : Compiler.compile ⟨program.take 5, [⟨"f", 1, 1⟩], []⟩
      (.ofList [.symbol "f", .int 1]) = (⟨program, [⟨"f", 1, 1⟩], []⟩, none) := by decide +kernel
  have hreached : Reached #[] ⟨program.take 5, [⟨"f", 1, 1⟩], []⟩ [endless] :=
    Reached.next .start hdefine
  have hends := every_run_ends hreached [.ofList [.symbol "f", .int 1]]
    (by rw [compileEach, hcompile]; decide) (by decide) (.new : Machine.Used 100 _)
  rw [compileEach, hcompile] at hends
  refine (hends.2.2 _ _ rfl rfl (by rw [hcompile]) (not_evaluates_endless ?_)).1
  intro fault depth hfaults
  cases hfaults

end WordLisp.Compiler
