import WordLisp.Proofs.Compiler.Atomicity
import WordLisp.Proofs.Session.Incremental

/-!
# Definitions keep their meaning

A call is bound to a definition when it is compiled. So what a function does is settled once it is
defined: later entries may define other functions, give new meanings to the names that its body
uses, be refused, or fault, and a call of it with the same words still comes to the same
(`Session.enter_call_lasts`). Only a new definition of its own name can change that.

In terms of the environment the reason is short. Entries add definitions in front, the definition of
the function still comes first under its name, and what was in force for its body is part of what is
found (`Environment.find?_after`).
-/

namespace WordLisp

/-! ## Calls with words -/

/-- A call of a function with these words. -/
def Node.call (name : String) (arguments : List Word) : Node :=
  .ofList (.symbol name :: arguments.map .int)

/-- A name keeps its meaning unless it is defined anew. -/
theorem Environment.find?_after {environment : Environment} {node : Node}
    {error? : Option CompileError} {name : String}
    (kept : ∀ definition, error? = none → node.definition? environment = some definition →
      definition.name ≠ name) :
    (environment.after node error?).find? name = environment.find? name := by
  unfold after
  split
  · next definition hsome => rw [find?, if_neg (kept definition rfl hsome)]
  · rfl

section Calls

variable {overflow : Fault} {room : Nat} {environment later : Environment} {name : String}
  {definition : Definition} {scope : Environment} {arguments : List Word}

/-- There are as many items as words. -/
theorem length_ofList_ints (arguments : List Word) :
    (Node.ofList (arguments.map .int)).length = arguments.length := by
  rw [Node.length, Node.items_ofList, List.length_map]

/-- Words mean the same everywhere. -/
theorem evaluateAll_ints (environment later : Environment) (bindings : Bindings)
    (arguments : List Word) :
    evaluateAll overflow room later bindings (.ofList (arguments.map .int)) =
      evaluateAll overflow room environment bindings (.ofList (arguments.map .int)) := by
  induction arguments generalizing room with
  | nil => simp [Node.ofList, Node.nil, evaluateAll]
  | cons value rest ih => simp [Node.ofList, evaluateAll, evaluate, ih]

/-- A call comes to the same wherever its function means the same. -/
theorem evaluate_call_congr (found : environment.find? name = some (definition, scope))
    (same : later.find? name = environment.find? name) :
    evaluate overflow room later [] (.call name arguments) =
      evaluate overflow room environment [] (.call name arguments) := by
  rw [Node.call, Node.ofList, evaluate, evaluate, same, found]
  simp only [evaluateAll_ints environment later]

end Calls

namespace Compiler

variable {compiler : Compiler} {environment : Environment} {name : String} {function : Function}
  {definition : Definition} {scope : Environment} {arguments : List Word}

/-- Words have expressions. -/
theorem exists_resolveAll_ints (scope : Scope) (arguments : List Word) :
    ∃ exprs, scope.resolveAll (.ofList (arguments.map .int)) = .ok exprs := by
  induction arguments with
  | nil => exact ⟨[], Scope.resolveAll_of_items_eq_nil rfl⟩
  | cons value rest ih =>
      obtain ⟨exprs, hexprs⟩ := ih
      refine ⟨.literal value :: exprs, Scope.resolveAll_pair_eq_ok.mpr ⟨_, _, ?_, hexprs, rfl⟩⟩
      rw [Scope.resolve]

/-- A call of a defined function is compiled, and is no definition. -/
theorem Settled.compile_call (settled : compiler.Settled environment)
    (found : environment.find? name = some (definition, scope))
    (count : arguments.length = definition.parameters.length) :
    (compiler.compile (.call name arguments)).2 = none ∧
      (Node.call name arguments).definition? environment = none := by
  have hdefined : compiler.functions.lookup? name ≠ none := by
    rw [ne_eq, settled.laid.lookup?_eq_none_iff, found]
    exact nofun
  obtain ⟨function, hfunction⟩ := Option.ne_none_iff_exists'.mp hdefined
  obtain ⟨own, older, start, inner, body, hfind, rfl, -, -⟩ := settled.laid.of_lookup? hfunction
  rw [found] at hfind
  cases hfind
  have hitem : ∃ expr, Item.ofNode compiler.functions compiler.program.size
      (.call name arguments) = .ok (.expression expr) := by
    obtain ⟨exprs, hexprs⟩ := exists_resolveAll_ints ⟨compiler.functions, []⟩ arguments
    refine ⟨.call (start + 1) exprs, ?_⟩
    rw [Node.call, Node.ofList, Item.ofNode, if_neg fun h ↦ hdefined h.1, Scope.resolve]
    simp only [hfunction, length_ofList_ints, count, Definition.arity_function, if_true, hexprs]
    rfl
  obtain ⟨expr, hexpr⟩ := hitem
  refine ⟨by rw [settled.compile_ok hexpr], ?_⟩
  exact (settled.laid.of_ofNode_expression hexpr).1

end Compiler

/-! ## Sessions that can be reached -/

namespace Session

/-- The sessions there can be: new ones with a stack of this size, whatever they print to and
trace, after any sources and entries. -/
inductive Reached (size : Word) : Session → Prop where
  | new {session : Session} :
      session.compiler = {} → session.machine = Machine.new size → Reached size session
  | compile {session : Session} (sources : List Source) :
      Reached size session → Reached size (session.compile sources).1
  | run {session : Session} (watch : Watch) :
      Reached size session → Reached size (session.run watch).1
  | load {session : Session} (watch : Watch) (sources : List Source) :
      Reached size session → Reached size (session.load watch sources).1
  | enter {session : Session} (watch : Watch) (node : Node) :
      Reached size session → Reached size (session.enter watch node).1

variable {session : Session} {environment : Environment} {size : Word}

/-- To compile sources is to compile what is read from them. -/
theorem compiler_compile (session : Session) (sources : List Source) :
    (session.compile sources).1.compiler =
      (session.compiler.compileReader (.ofSources sources)).1 := by
  unfold compile
  simp only [compiler_note]
  split
  · rfl
  · split <;> rfl

/-- To compile sources does not run anything. -/
theorem machine_compile (session : Session) (sources : List Source) :
    (session.compile sources).1.machine = session.machine := by
  unfold compile
  simp only [compiler_note]
  split
  · exact session.machine_note _
  · split <;> exact session.machine_note _

/-- To load sources is to compile them, and to run the program if that succeeds. -/
theorem fst_load (session : Session) (watch : Watch) (sources : List Source) :
    (session.load watch sources).1 = (session.compile sources).1 ∨
      (session.load watch sources).1 = ((session.compile sources).1.run watch).1 := by
  unfold load
  split
  · next hcompile =>
      rw [hcompile]
      exact .inl rfl
  · next hcompile =>
      rw [hcompile]
      exact .inr rfl

/-- What all sessions keep: the compiler is settled, and the machine ready. -/
def Sound (session : Session) (size : Word) : Prop :=
  (∃ environment, session.compiler.Settled environment) ∧
    session.machine.Ready (Machine.new size).stackSize

/-- Compiling keeps a session sound, also when it stops at an error. -/
theorem Sound.compile (sound : session.Sound size) (sources : List Source) :
    (session.compile sources).1.Sound size := by
  obtain ⟨⟨environment, hsettled⟩, hready⟩ := sound
  obtain ⟨after, hafter⟩ := hsettled.compileNodes (Reader.ofSources sources).readAll.1
  refine ⟨⟨after, ?_⟩, by rwa [machine_compile]⟩
  rw [compiler_compile, Compiler.compileReader]
  dsimp only
  split
  · next hnodes =>
      rw [hnodes] at hafter
      exact hafter
  · next hnodes =>
      rw [hnodes] at hafter
      exact hafter

/-- So does a run, however it stops. -/
theorem Sound.run (sound : session.Sound size) (watch : Watch) :
    (session.run watch).1.Sound size := by
  refine ⟨by rw [compiler_run]; exact sound.1, ?_⟩
  rw [machine_run]
  exact sound.2.runAt _ watch 0

/-- Every session is sound. -/
theorem Reached.sound (reached : session.Reached size) : session.Sound size := by
  induction reached with
  | new hcompiler hmachine =>
      refine ⟨⟨[], hcompiler ▸ Compiler.settled_start #[]⟩, ?_⟩
      rw [hmachine]
      exact Machine.ready_new size
  | compile sources _ ih => exact ih.compile sources
  | run watch _ ih => exact ih.run watch
  | @load session watch sources _ ih =>
      rcases session.fst_load watch sources with h | h <;> rw [h]
      · exact ih.compile sources
      · exact (ih.compile sources).run watch
  | enter watch node _ ih =>
      obtain ⟨⟨environment, hsettled⟩, hready⟩ := ih
      have hnext := hsettled.compile node
      rw [← compiler_enter] at hnext
      exact ⟨⟨_, hnext⟩, ready_enter hready watch node⟩

/-! ## Entries that leave a function alone -/

/-- The function that entering a node defines, if it does. -/
def defines? (session : Session) (watch : Watch) (node : Node) : Option Function :=
  match (session.enter watch node).2 with
  | .ok (.defined function) => some function
  | _ => none

/-- None of these entries, one after the other, defines a function under this name. -/
def Keeps (session : Session) (name : String) : List (Watch × Node) → Prop
  | [] => True
  | (watch, node) :: rest =>
      (session.defines? watch node).map Function.name ≠ some name ∧
        (session.enter watch node).1.Keeps name rest

instance decidableKeeps (session : Session) (name : String) :
    (entered : List (Watch × Node)) → Decidable (session.Keeps name entered)
  | [] => .isTrue trivial
  | (watch, node) :: rest =>
      have := decidableKeeps (session.enter watch node).1 name rest
      inferInstanceAs (Decidable (_ ∧ _))

/-- To enter a definition that can be compiled is to define its function. -/
theorem defines?_eq (settled : session.compiler.Settled environment) {node : Node}
    {definition : Definition} (done : (session.compiler.compile node).2 = none)
    (found : node.definition? environment = some definition) (watch : Watch) :
    session.defines? watch node =
      some (definition.function session.compiler.program.size) := by
  have hcompile : session.compiler.compile node = ((session.compiler.compile node).1, none) :=
    Prod.ext rfl done
  have hsince := settled.definedSince?_eq
    { session with compiler := (session.compiler.compile node).1 } hcompile
  rw [found] at hsince
  rw [defines?, result_enter hcompile, hsince]
  rfl

/-- A function that is not defined anew means the same after some entries. -/
theorem Keeps.find?_eq {name : String} {entered : List (Watch × Node)}
    (settled : session.compiler.Settled environment) (kept : session.Keeps name entered) :
    ∃ later, (session.enterEach entered).compiler.Settled later ∧
      later.find? name = environment.find? name := by
  induction entered generalizing session environment with
  | nil => exact ⟨environment, settled, rfl⟩
  | cons first rest ih =>
      obtain ⟨watch, node⟩ := first
      obtain ⟨hfirst, hrest⟩ := kept
      have hnext := settled.compile node
      rw [← session.compiler_enter watch node] at hnext
      obtain ⟨later, hlater, hfind⟩ := ih hnext hrest
      refine ⟨later, hlater, hfind.trans (Environment.find?_after fun definition hdone hsome ↦ ?_)⟩
      rw [defines?_eq settled hdone hsome] at hfirst
      exact fun hname ↦ hfirst (congrArg some hname)

/-- What entering an expression tells that comes to this outcome. -/
def told (outcome : Except Fault Word) : Except Failure Entry :=
  (outcome.map .value).mapError .fault

variable {name : String} {definition : Definition} {scope : Environment} {arguments : List Word}

/-- Entering a call of a function tells what the call evaluates to, if the run is given the time,
and else it is interrupted. -/
theorem enter_call (settled : session.compiler.Settled environment)
    (found : environment.find? name = some (definition, scope))
    (count : arguments.length = definition.parameters.length)
    (fits : (session.compiler.compile (.call name arguments)).1.program.Addressable)
    (ready : session.machine.Ready size) :
    let outcome := evaluate (Machine.overflow size) size.toNatClampNeg environment []
      (.call name arguments)
    (∃ checks, ∀ watch : Watch, checks ≤ watch.checks →
      (session.enter watch (.call name arguments)).2 = told outcome) ∧
    ∀ watch : Watch, (session.enter watch (.call name arguments)).2 = told outcome ∨
      (session.enter watch (.call name arguments)).2 = .error (.interrupted watch.reason) := by
  intro outcome
  obtain ⟨hdone, hexpression⟩ := settled.compile_call found count
  have hcompile : session.compiler.compile (.call name arguments) =
      ((session.compiler.compile (.call name arguments)).1, none) := Prod.ext rfl hdone
  have hsince := settled.definedSince?_eq
    { session with compiler := (session.compiler.compile (.call name arguments)).1 } hcompile
  rw [hexpression] at hsince
  obtain ⟨final, hruns, -⟩ := settled.runsTo_evaluate hexpression hdone fits ready
  have hresult : ∀ watch : Watch, (session.enter watch (.call name arguments)).2 =
      ((session.machine.runAt (session.compiler.compile (.call name arguments)).1.program watch
        (Int64.ofNat session.compiler.program.size)).2.mapError .ofStop).map .value := by
    intro watch
    rw [result_enter hcompile, hsince]
    rfl
  have htold : ((outcome.mapError Stop.fault).mapError Failure.ofStop).map Entry.value =
      told outcome := by
    cases outcome <;> rfl
  constructor
  · obtain ⟨checks, hchecks⟩ := hruns
    refine ⟨checks, fun watch hwatch ↦ ?_⟩
    rw [hresult, hchecks watch hwatch]
    exact htold
  · intro watch
    rw [hresult]
    rcases hruns.runAt_cases watch with hrun | hrun <;> rw [hrun]
    · exact .inl htold
    · exact .inr rfl

/-- Definitions keep their meaning. In every session, a call of a defined function with words for
all its parameters comes to an outcome, a value or a fault. Entering the call tells it, unless the
run is interrupted; and once the call has been entered, and then any nodes, under any watches and
with any success, none of which defines a function of that name anew, entering it again tells the
same. -/
theorem enter_call_lasts {function : Function} {first : Watch} {entered : List (Watch × Node)}
    (reached : session.Reached size) (defined : session.compiler.function? name = some function)
    (count : arguments.length = function.arity)
    (kept : (session.enter first (.call name arguments)).1.Keeps name entered)
    (fits : ((((session.enter first (.call name arguments)).1.enterEach entered).compiler.compile
      (.call name arguments)).1.program.Addressable)) :
    ∃ outcome : Except Fault Word,
      ((session.enter first (.call name arguments)).2 = told outcome ∨
        (session.enter first (.call name arguments)).2 = .error (.interrupted first.reason)) ∧
      (∃ checks, ∀ watch : Watch, checks ≤ watch.checks →
        (session.enter watch (.call name arguments)).2 = told outcome) ∧
      ∃ checks, ∀ watch : Watch, checks ≤ watch.checks →
        (((session.enter first (.call name arguments)).1.enterEach entered).enter watch
          (.call name arguments)).2 = told outcome := by
  obtain ⟨⟨environment, hsettled⟩, hready⟩ := reached.sound
  obtain ⟨definition, older, start, inner, body, hfound, rfl, -, -⟩ :=
    hsettled.laid.of_lookup? defined
  rw [Definition.arity_function] at count
  obtain ⟨hdone, hexpression⟩ := hsettled.compile_call hfound count
  -- The call itself defines nothing, and neither does what follows it define the name anew.
  have hcalled := hsettled.compile (.call name arguments)
  have hafter : environment.after (.call name arguments)
      (session.compiler.compile (.call name arguments)).2 = environment := by
    simp only [Environment.after, hdone, hexpression]
  rw [hafter, ← session.compiler_enter first] at hcalled
  obtain ⟨later, hlater, hsame⟩ := kept.find?_eq hcalled
  have hagain := hlater.compile_call (hsame.trans hfound) count
  -- The program has only grown.
  obtain ⟨added, hadded⟩ := hcalled.program_compileEach (entered.map Prod.snd)
  rw [← compiler_enterEach] at hadded
  obtain ⟨more, hmore⟩ := hlater.program_compile (.call name arguments)
  have hfits : (session.compiler.compile (.call name arguments)).1.program.Addressable := by
    rw [Program.Addressable, hmore, hadded, session.compiler_enter first, Array.size_append,
      Array.size_append] at fits
    rw [Program.Addressable]
    omega
  obtain ⟨hfirst, hcases⟩ := enter_call hsettled hfound count hfits hready
  obtain ⟨hlast, -⟩ := enter_call hlater (hsame.trans hfound) count fits
    (ready_enterEach (ready_enter hready first _) entered)
  rw [evaluate_call_congr hfound hsame] at hlast
  exact ⟨_, hcases first, hfirst, hlast⟩

/-- Doubling goes on doubling after its operator has been defined to add, after an entry that is
refused, and after one that faults. -/
theorem enter_call_lasts_double :
    let session := ((Session.new 16 ⟨[]⟩).enter .never doubling).1
    let entered : List (Watch × Node) := [
      (.never, .ofList [.symbol "define", .ofList [.symbol "*", .symbol "x", .symbol "y"],
        .ofList [.symbol "+", .symbol "x", .symbol "y"]]),
      (.never, .call "triple" [14]),
      (.never, .call "/" [1, 0])]
    ∃ checks, ∀ watch : Watch, checks ≤ watch.checks →
      (((session.enter .never (.call "double" [21])).1.enterEach entered).enter watch
        (.call "double" [21])).2 = .ok (.value 42) := by
  intro session entered
  have hdefined : session.compiler.function? "double" = some ⟨"double", 1, 1⟩ := by
    decide +kernel
  have hkept : (session.enter .never (.call "double" [21])).1.Keeps "double" entered := by
    decide +kernel
  have hvalue : (session.enter .never (.call "double" [21])).2.toOption.bind Entry.value? =
      some 42 := by
    decide +kernel
  obtain ⟨outcome, hfirst, -, hlast⟩ :=
    enter_call_lasts (.enter .never doubling (.new rfl rfl)) hdefined rfl hkept (by decide +kernel)
  have houtcome : told outcome = .ok (.value 42) := by
    rcases hfirst with htold | hinterrupted
    · rw [htold] at hvalue
      cases outcome with
      | ok value =>
          cases hvalue
          rfl
      | error fault => cases hvalue
    · rw [hinterrupted] at hvalue
      cases hvalue
  rwa [houtcome] at hlast

end Session

end WordLisp
