import WordLisp.Proofs.Evaluation.Termination
import WordLisp.Proofs.Session.Actions

/-!
# Entering expressions one by one

A session can be given its expressions one by one, each of which runs on an empty stack as soon as
it is compiled, or all at once, and then they run in one go, each on top of the values of those
before it. The two agree (`Session.entering_agrees`): they leave the same program and functions, and
if the one run gives a value, then its stack has the very values that the single ones give.

What entering a node comes to is `evaluateEntry`. This does not depend on how many slots are free as
long as they suffice (`evaluateEntry_of_le`), nor on what the runs before have left.
-/

namespace WordLisp

/-- The value that entering an expression gave. -/
def Entry.value? : Entry → Option Word
  | .value word => some word
  | .defined _ => none

/-! ## Definitions that have just been compiled -/

/-- A definition has the shape of one. -/
theorem Node.definedName?_of_definition? {environment : Environment} {node : Node}
    {definition : Definition} (h : node.definition? environment = some definition) :
    node.definedName? = some definition.name := by
  unfold definition? at h
  split at h
  · next word tail =>
      split at h
      · next hdefine =>
          split at h
          · next name parameters body hitems =>
              obtain ⟨names, -, rfl⟩ := Option.map_eq_some_iff.mp h
              cases tail with
              | pair signature rest =>
                  obtain ⟨rfl, -⟩ := List.cons.inj hitems
                  rw [definedName?, if_pos hdefine.2]
              | int value | symbol name | missing => cases hitems
          · cases h
      · cases h
  · cases h

/-- After a node has been compiled, its function is known if it is a definition. A function of
before is never taken for it, even if the node has the shape of a definition. -/
theorem Compiler.Settled.definedSince?_eq {compiler : Compiler} {environment : Environment}
    {node : Node} (settled : compiler.Settled environment) (session : Session)
    (done : compiler.compile node = (session.compiler, none)) :
    session.definedSince? compiler.program.size node =
      (node.definition? environment).map (·.function compiler.program.size) := by
  obtain ⟨error, hcompile⟩ | ⟨expr, hnone, -, hcompile⟩ |
    ⟨definition, body, hsome, -, hcompile⟩ := settled.compile_cases node
  · rw [hcompile] at done
    cases done
  · obtain ⟨hcompiler, -⟩ := Prod.mk.inj (hcompile.symm.trans done)
    rw [hnone, Option.map_none, Session.definedSince?]
    cases node.definedName? with
    | none => rfl
    | some name =>
        show (session.compiler.function? name).filter _ = none
        rw [Option.filter_eq_none_iff]
        intro function hfunction
        rw [← hcompiler] at hfunction
        have hbelow := settled.valid.below function (Table.of_lookup? hfunction).1
        simpa using Nat.le_of_lt hbelow
  · obtain ⟨hcompiler, -⟩ := Prod.mk.inj (hcompile.symm.trans done)
    rw [hsome, Option.map_some, Session.definedSince?, Node.definedName?_of_definition? hsome]
    have hfunction : session.compiler.function? definition.name =
        some (definition.function compiler.program.size) := by
      rw [← hcompiler]
      show Table.lookup? _ _ = _
      rw [settled.valid.lookup?_set (Nat.le_succ _), Definition.name_function, if_pos rfl]
    show (session.compiler.function? definition.name).filter _ = _
    rw [hfunction]
    simp

/-! ## What entering a node comes to -/

namespace Compiler

variable {overflow : Fault} {compiler compiled : Compiler} {environment : Environment}
  {room : Nat} {node : Node} {nodes : List Node}

/-- What entering a node comes to on a stack with `room` free slots: the function of a definition,
or the value of an expression. -/
def evaluateEntry (overflow : Fault) (compiler : Compiler) (environment : Environment) (room : Nat)
    (node : Node) : Except Fault Entry :=
  match node.definition? environment with
  | some definition => .ok (.defined (definition.function compiler.program.size))
  | none => (evaluate overflow room environment [] node).map .value

/-- The code of a node that was compiled comes to the value that entering the node gives. -/
theorem evaluateTop_eq (done : (compiler.compile node).2 = none) :
    evaluateTop overflow compiler environment room node =
      (evaluateEntry overflow compiler environment room node).map (·.value?.toList) := by
  rw [evaluateTop, evaluateEntry, done]
  cases node.definition? environment with
  | some definition => rfl
  | none =>
      show (evaluate overflow room environment [] node).map ([·]) =
        ((evaluate overflow room environment [] node).map Entry.value).map
          fun entry ↦ entry.value?.toList
      rw [map_map]
      rfl

/-- A value that needs no more than `room` slots is the same on a larger stack. -/
theorem evaluateEntry_of_le {entry : Entry} {more : Nat}
    (evaluated : evaluateEntry overflow compiler environment room node = .ok entry)
    (le : room ≤ more) : evaluateEntry overflow compiler environment more node = .ok entry := by
  unfold evaluateEntry at evaluated ⊢
  split at evaluated
  · exact evaluated
  · obtain ⟨value, hvalue, rfl⟩ := map_eq_ok.mp evaluated
    have hwithin := evaluates_of_evaluate overflow room environment [] node
    rw [hvalue] at hwithin
    obtain ⟨⟨⟩⟩ | ⟨depth, hdepth, heval⟩ := hwithin
    rw [evaluate_of_evaluates overflow heval, limit, if_pos (Nat.le_trans hdepth le)]
    rfl

/-- Only a definition gives no value. -/
theorem value?_eq_none_iff {entry : Entry}
    (evaluated : evaluateEntry overflow compiler environment room node = .ok entry) :
    entry.value? = none ↔ (node.definition? environment).isSome := by
  unfold evaluateEntry at evaluated
  split at evaluated
  · next hsome =>
      cases evaluated
      simp [hsome, Entry.value?]
  · next hnone =>
      obtain ⟨value, -, rfl⟩ := map_eq_ok.mp evaluated
      simp [hnone, Entry.value?]

/-- If nodes can all be compiled, then the first can, and the others after it. -/
theorem of_compileNodes_cons (done : compiler.compileNodes (node :: nodes) = (compiled, none)) :
    ∃ next, compiler.compile node = (next, none) ∧ next.compileNodes nodes = (compiled, none) := by
  rw [Compiler.compileNodes] at done
  split at done
  · next next hcompile => exact ⟨next, hcompile, done⟩
  · cases done

/-- Nodes that can all be compiled, compiled one by one. -/
theorem compileEach_of_compileNodes (environment : Environment)
    (done : compiler.compileNodes nodes = (compiled, none)) :
    (compiler.compileEach environment nodes).1 = compiled := by
  induction nodes generalizing compiler environment with
  | nil =>
      cases done
      rfl
  | cons node rest ih =>
      obtain ⟨next, hcompile, hrest⟩ := of_compileNodes_cons done
      rw [compileEach, hcompile]
      exact ih _ hrest

/-- If nodes can all be compiled, then so can each behind those before it. -/
theorem compile_of_compileNodes {before after : List Node} (environment : Environment)
    (done : compiler.compileNodes (before ++ node :: after) = (compiled, none)) :
    ((compiler.compileEach environment before).1.compile node).2 = none := by
  induction before generalizing compiler environment with
  | nil =>
      obtain ⟨next, hcompile, -⟩ := of_compileNodes_cons done
      rw [compileEach, hcompile]
  | cons first before ih =>
      obtain ⟨next, hcompile, hrest⟩ := of_compileNodes_cons done
      rw [compileEach, hcompile]
      exact ih _ hrest

/-- The values that the code of nodes comes to are those of entering them one by one, on any stack
that is as large. -/
theorem exists_entries {values : List Word} {full : Nat}
    (done : compiler.compileNodes nodes = (compiled, none)) (le : room ≤ full)
    (evaluated : evaluateEach overflow compiler environment room nodes = .ok values) :
    ∃ entries : List Entry, entries.length = nodes.length ∧
      entries.filterMap Entry.value? = values ∧
      ∀ before node after, nodes = before ++ node :: after →
        ∃ entry, entries[before.length]? = some entry ∧
          evaluateEntry overflow (compiler.compileEach environment before).1
            (compiler.compileEach environment before).2 full node = .ok entry := by
  induction nodes generalizing compiler environment room values with
  | nil =>
      cases evaluated
      refine ⟨[], rfl, rfl, ?_⟩
      intro before node after hsplit
      cases before <;> cases hsplit
  | cons first rest ih =>
      obtain ⟨next, hcompile, hdone⟩ := of_compileNodes_cons done
      obtain ⟨top, htop, hrest⟩ := bind_eq_ok.mp evaluated
      obtain ⟨others, hothers, hvalues⟩ := bind_eq_ok.mp hrest
      cases hvalues
      rw [evaluateTop_eq (by rw [hcompile])] at htop
      obtain ⟨entry, hentry, rfl⟩ := map_eq_ok.mp htop
      rw [hcompile] at hothers
      -- The others have fewer slots, as the value of the first stays on the stack.
      obtain ⟨entries, hlength, rfl, hentries⟩ :=
        ih hdone (Nat.le_trans (Nat.sub_le _ _) le) hothers
      refine ⟨entry :: entries, ?_, ?_, ?_⟩
      · rw [List.length_cons, List.length_cons, hlength]
      · cases entry <;> rfl
      · intro before node after hsplit
        cases before with
        | nil =>
            cases hsplit
            exact ⟨entry, rfl, evaluateEntry_of_le hentry le⟩
        | cons other before =>
            obtain ⟨rfl, hbehind⟩ := List.cons.inj hsplit
            obtain ⟨found, hfound, hevaluated⟩ := hentries before node after hbehind
            refine ⟨found, hfound, ?_⟩
            rw [compileEach, hcompile]
            exact hevaluated

/-- The code of definitions comes to nothing. -/
theorem evaluateEach_of_definitions
    (definitions : ∀ before node after, nodes = before ++ node :: after →
      (node.definition? (compiler.compileEach environment before).2).isSome) :
    evaluateEach overflow compiler environment room nodes = .ok [] := by
  induction nodes generalizing compiler environment room with
  | nil => rfl
  | cons first rest ih =>
      have hfirst := definitions [] first rest rfl
      have htop : evaluateTop overflow compiler environment room first = .ok [] := by
        obtain ⟨definition, hsome⟩ := Option.isSome_iff_exists.mp hfirst
        rw [evaluateTop, show first.definition? environment = some definition from hsome]
        cases (compiler.compile first).2 <;> rfl
      have hrest := @ih (compiler.compile first).1
        (environment.after first (compiler.compile first).2) room ?_
      · rw [evaluateEach, htop]
        show evaluateEach _ _ _ room rest >>= _ = _
        rw [hrest]
        rfl
      · intro before node after hsplit
        exact definitions (first :: before) node after (by rw [hsplit]; rfl)

end Compiler

namespace Session

open Compiler (evaluateEach evaluateEntry)

variable {session : Session} {environment : Environment} {node : Node} {nodes : List Node}
  {size : Word}

/-- Entering a node that can be compiled comes to its function or its value, if the run is given
the time. -/
theorem enter_evaluates (settled : session.compiler.Settled environment)
    (done : (session.compiler.compile node).2 = none)
    (fits : (session.compiler.compile node).1.program.Addressable)
    (ready : session.machine.Ready size) :
    ∃ checks, ∀ watch : Watch, checks ≤ watch.checks →
      (session.enter watch node).2 = (evaluateEntry (Machine.overflow size) session.compiler
        environment size.toNatClampNeg node).mapError .fault := by
  have hcompile : session.compiler.compile node = ((session.compiler.compile node).1, none) :=
    Prod.ext rfl done
  have hsince := settled.definedSince?_eq
    { session with compiler := (session.compiler.compile node).1 } hcompile
  unfold evaluateEntry
  cases hdefinition : node.definition? environment with
  | some definition =>
      refine ⟨0, fun watch _ ↦ ?_⟩
      rw [result_enter hcompile, hsince, hdefinition]
      rfl
  | none =>
      obtain ⟨final, ⟨checks, hchecks⟩, -⟩ :=
        settled.runsTo_evaluate hdefinition done fits ready
      refine ⟨checks, fun watch hwatch ↦ ?_⟩
      rw [result_enter hcompile, hsince, hdefinition, hchecks watch hwatch]
      cases evaluate (Machine.overflow size) size.toNatClampNeg environment [] node <;> rfl

/-- Enter nodes one after the other, each under its own watch, whatever comes of it. -/
def enterEach (session : Session) : List (Watch × Node) → Session
  | [] => session
  | (watch, node) :: rest => (session.enter watch node).1.enterEach rest

/-- To enter nodes is to compile them one by one. -/
theorem compiler_enterEach (session : Session) (environment : Environment)
    (entered : List (Watch × Node)) :
    (session.enterEach entered).compiler =
      (session.compiler.compileEach environment (entered.map Prod.snd)).1 := by
  induction entered generalizing session environment with
  | nil => rfl
  | cons first rest ih =>
      rw [enterEach, ih _ (environment.after first.2 (session.compiler.compile first.2).2),
        compiler_enter]
      rfl

/-- To enter nodes leaves the machine ready. -/
theorem ready_enterEach (ready : session.machine.Ready size) (entered : List (Watch × Node)) :
    (session.enterEach entered).machine.Ready size := by
  induction entered generalizing session with
  | nil => exact ready
  | cons first rest ih => exact ih (ready_enter ready first.1 first.2)

/-- If some nodes can all be compiled, then entering one of them behind those before it comes to its
function or its value, whatever the runs before have come to. -/
theorem enter_behind {compiled : Compiler} {before after : List Node}
    (settled : session.compiler.Settled environment)
    (done : session.compiler.compileNodes (before ++ node :: after) = (compiled, none))
    (fits : compiled.program.Addressable) (ready : session.machine.Ready size)
    {entered : List (Watch × Node)} (same : entered.map Prod.snd = before) :
    ∃ checks, ∀ watch : Watch, checks ≤ watch.checks →
      ((session.enterEach entered).enter watch node).2 =
        (evaluateEntry (Machine.overflow size)
          (session.compiler.compileEach environment before).1
          (session.compiler.compileEach environment before).2
          size.toNatClampNeg node).mapError .fault := by
  have hbefore := settled.compileEach before
  have hnode := Compiler.compile_of_compileNodes environment done
  have hcompiler : (session.enterEach entered).compiler =
      (session.compiler.compileEach environment before).1 := by
    rw [session.compiler_enterEach environment, same]
  -- The code of the nodes behind it is only added to the program that is run.
  obtain ⟨added, hadded⟩ := (hbefore.compile node).program_compileEach after
  have hwhole := Compiler.compileEach_of_compileNodes environment done
  rw [Compiler.compileEach_append] at hwhole
  have hprogram : compiled.program =
      ((session.compiler.compileEach environment before).1.compile node).1.program ++ added := by
    rw [← hwhole]
    exact hadded
  rw [Program.Addressable, hprogram, Array.size_append] at fits
  have hfits := Nat.lt_of_le_of_lt (Nat.le_add_right _ _) fits
  rw [← hcompiler] at hbefore hnode hfits ⊢
  exact enter_evaluates hbefore hnode hfits (ready_enterEach ready entered)

/-- Entering expressions one by one agrees with running all of them in one go, in a new session with
a stack of any size.

Whatever comes of the entries, they leave the program and the functions that the nodes are compiled
to. If the run in one go gives a value, then its stack has one slot for each node that is not a
definition, and the last slot is the value; and each of these nodes, entered behind those before it,
gives the word in its slot. If all nodes are definitions, the run has no result. -/
theorem entering_agrees {compiled : Compiler} (fresh : session.compiler = {})
    (new : session.machine = Machine.new size)
    (done : session.compiler.compileNodes nodes = (compiled, none))
    (fits : compiled.program.Addressable) :
    let whole : Session := { session with compiler := compiled }
    (∀ entered watch, entered.map Prod.snd = nodes →
      (session.enterEach entered).compiler = (whole.run watch).1.compiler) ∧
    (∀ watch value, (whole.run watch).2 = .ok value →
      ∃ entries : List Entry, entries.length = nodes.length ∧
        (whole.run watch).1.machine.live? = some (entries.filterMap Entry.value?) ∧
        (whole.run watch).1.machine.bp = 0 ∧
        (entries.filterMap Entry.value?).getLast? = some value ∧
        ∀ before node after, nodes = before ++ node :: after →
          ∃ entry, entries[before.length]? = some entry ∧
            (entry.value? = none ↔
              (node.definition? (session.compiler.compileEach [] before).2).isSome) ∧
            ∀ entered, entered.map Prod.snd = before →
              ∃ checks, ∀ watch : Watch, checks ≤ watch.checks →
                ((session.enterEach entered).enter watch node).2 = .ok entry) ∧
    ((∀ before node after, nodes = before ++ node :: after →
        (node.definition? (session.compiler.compileEach [] before).2).isSome) →
      ∃ checks, ∀ watch : Watch, checks ≤ watch.checks →
        (whole.run watch).2 = .error (.fault .emptyResult)) := by
  intro whole
  obtain ⟨slots, hready⟩ : ∃ slots, session.machine.Ready slots :=
    ⟨_, new ▸ Machine.ready_new size⟩
  have hsettled : session.compiler.Settled [] := fresh ▸ Compiler.settled_start #[]
  have hwhole := Compiler.compileEach_of_compileNodes [] done
  have hstart : Int64.ofNat session.compiler.program.size = 0 := by
    rw [fresh]
    rfl
  obtain ⟨final, hruns, hshows⟩ := hsettled.runsTo_shows nodes (by rwa [hwhole]) hready
  rw [hwhole, hstart] at hruns
  refine ⟨?_, ?_, ?_⟩
  · intro entered watch hentered
    rw [compiler_run, session.compiler_enterEach [], hentered, hwhole]
  · intro watch value hended
    obtain ⟨hfinal, houtcome⟩ := hruns.of_runAt (runAt_of_run hended)
    obtain ⟨values, hvalues, hresult⟩ := bind_eq_ok.mp houtcome
    have hshown := hshows values hvalues
    obtain ⟨entries, hlength, rfl, hentries⟩ :=
      Compiler.exists_entries done (Nat.le_refl _) hvalues
    rw [hfinal]
    refine ⟨entries, hlength, hshown.live?_eq, hshown.bp, hshown.getLast?_eq hresult, ?_⟩
    intro before node after hsplit
    obtain ⟨entry, hentry, hevaluated⟩ := hentries before node after hsplit
    refine ⟨entry, hentry, Compiler.value?_eq_none_iff hevaluated, ?_⟩
    intro entered hentered
    obtain ⟨checks, hchecks⟩ := enter_behind hsettled (hsplit ▸ done) fits hready hentered
    refine ⟨checks, fun watch hwatch ↦ ?_⟩
    rw [hchecks watch hwatch, hevaluated]
    rfl
  · intro hdefinitions
    have hnothing : evaluateEach (Machine.overflow slots) session.compiler []
        slots.toNatClampNeg nodes = .ok [] :=
      Compiler.evaluateEach_of_definitions hdefinitions
    rw [hnothing] at hruns
    obtain ⟨checks, hchecks⟩ := hruns
    refine ⟨checks, fun watch hwatch ↦ ?_⟩
    have hrun := hchecks watch hwatch
    rw [show (Except.ok [] >>= fun _ ↦ final.result : Except Fault Word) = final.result from rfl,
      (hshows [] hnothing).result_nil] at hrun
    exact @run_of_runAt whole watch final (.fault .emptyResult) hrun

/-- The definition of a function that doubles its argument. -/
def doubling : Node :=
  .ofList [.symbol "define", .ofList [.symbol "double", .symbol "x"],
    .ofList [.symbol "*", .int 2, .symbol "x"]]

/-- A call of it. -/
def doubled : Node :=
  .ofList [.symbol "double", .int 21]

/-- The run in one go leaves 42 and 7 on the stack, and so entering the call gives 42. -/
theorem entering_agrees_doubled :
    let program : Program := #[.jump 6, .enter 1, .constant 2, .arg 0, .binary .mul, .exit,
      .constant 21, .call 1, .constant 7]
    let session := Session.new 16 ⟨[]⟩
    let whole := { session with compiler := ⟨program, [⟨"double", 1, 1⟩], []⟩ }
    (whole.run .never).1.machine.live? = some [42, 7] ∧
      ∃ checks, ∀ watch : Watch, checks ≤ watch.checks →
        ((session.enterEach [(.canceled, doubling)]).enter watch doubled).2 =
          .ok (.value 42) := by
  intro program session whole
  have hdone : session.compiler.compileNodes [doubling, doubled, .int 7] =
      (whole.compiler, none) := by
    decide +kernel
  have hlive : (whole.run .never).1.machine.live? = some [42, 7] := by
    decide +kernel
  have hsome : (whole.run .never).2.toOption.isSome := by
    decide +kernel
  have hgives : ∀ result : Except Failure Word, result.toOption.isSome → ∃ value, result = .ok value
    | .ok value, _ => ⟨value, rfl⟩
  obtain ⟨value, hvalue⟩ := hgives _ hsome
  obtain ⟨-, hagrees, -⟩ := @entering_agrees session _ 16 _ rfl rfl hdone (by decide)
  obtain ⟨entries, -, hslots, -, -, hentries⟩ := hagrees .never value hvalue
  obtain ⟨defined, hdefined, hnone, -⟩ := hentries [] doubling [doubled, .int 7] rfl
  obtain ⟨called, hcalled, hvalue?, hentered⟩ := hentries [doubling] doubled [.int 7] rfl
  obtain ⟨checks, hchecks⟩ := hentered [(.canceled, doubling)] rfl
  refine ⟨hlive, checks, fun watch hwatch ↦ (hchecks watch hwatch).trans ?_⟩
  -- The definition has no slot, so the first slot is that of the call.
  have hwords := Option.some.inj (hslots.symm.trans hlive)
  obtain ⟨rest, rfl⟩ : ∃ rest, entries = defined :: called :: rest := by
    match entries, hdefined, hcalled with
    | _ :: _ :: rest, rfl, rfl => exact ⟨rest, rfl⟩
  rw [List.filterMap_cons_none (hnone.mpr (by decide))] at hwords
  cases called with
  | value word =>
      have hcons : word :: rest.filterMap Entry.value? = [42, 7] := hwords
      rw [(List.cons.inj hcons).1]
  | defined function => exact absurd (hvalue?.mp rfl) (by decide +kernel)

end Session

end WordLisp
