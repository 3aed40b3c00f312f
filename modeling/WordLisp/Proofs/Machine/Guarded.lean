import WordLisp.Proofs.Machine.Bounds
import WordLisp.Proofs.Memory.Guarded

/-!
# Runs with checks

A machine with every partial operation checked: the loads and stores of its stack, the quotients and
remainders of its operators, the look-up of its next instruction, and the copy of the live stack
that a trace takes of it before each one. No check ever fails (`Bounded.guarded_loop`): whatever
words a program gives to its instructions, a run with checks is the run without them, and it ends
in a value, a fault or an interruption (`runAt_classified`).
-/

namespace WordLisp

/-- What ends work with checks before its end. -/
inductive Trap where
  | fault (cause : Fault)
  | crash (cause : Crash)

namespace Guarded

/-- A change of the machine with checks. -/
abbrev Exec := EStateM Trap Machine

/-- What work does, as what work with checks does. -/
def lifted {α : Type} : EStateM.Result Fault Machine α → EStateM.Result Trap Machine α
  | .ok value next => .ok value next
  | .error fault failed => .error (.fault fault) failed

/-- Put a word on the stack. -/
def push (value : Word) : Exec Unit := fun machine ↦
  match store machine.stack machine.sp value with
  | .ok (stack, none) => .ok () { machine with stack, sp := machine.sp + 1 }
  | .ok (stack, some cause) => .error (.fault (.push cause)) { machine with stack }
  | .error crash => .error (.crash crash) machine

/-- Take the top word off the stack. -/
def pop : Exec Word := fun machine ↦
  if machine.sp ≤ 0 then
    .error (.fault .emptyPop) machine
  else
    let machine := { machine with sp := machine.sp - 1 }
    match load machine.stack machine.sp with
    | .ok (.ok value) => .ok value machine
    | .ok (.error cause) => .error (.fault (.read "pop" cause)) machine
    | .error crash => .error (.crash crash) machine

/-- The argument of the current frame with this index. -/
def argument (index : Word) : Exec Word := fun machine ↦
  let address := machine.bp + index
  if index < 0 ∨ machine.sp ≤ address then
    .error (.fault (.argument index machine.bp machine.sp)) machine
  else
    match load machine.stack address with
    | .ok (.ok value) => .ok value machine
    | .ok (.error cause) =>
        .error (.fault (.read ("arg " ++ Word.render index) cause)) machine
    | .error crash => .error (.crash crash) machine

/-- Go on at an address, or at the end of the program. -/
def jump (length : Nat) (address : Word) : Exec Unit := fun machine ↦
  lifted (Machine.Exec.jump length address machine)

/-- Compute `left op right`. -/
def compute (operator : Operator) (left right : Word) : Except Trap Word :=
  match operator with
  | .div =>
      if right = 0 then .error (.fault (.divideByZero left))
      else (quotient left right).mapError .crash
  | .mod =>
      if right = 0 then .error (.fault (.remainderByZero left))
      else (remainder left right).mapError .crash
  | operator => (operator.apply left right).mapError .fault

/-- The result of an operator, or why it has none. -/
def ofResult : Except Trap Word → Exec Word
  | .ok value => pure value
  | .error trap => throw trap

/-- Run the instruction at `address`, with `pc` already behind it, in a program of `length`
instructions. -/
def perform (length address : Nat) (inst : Inst) : Exec Unit := do
  match inst.op with
  | .constant => push inst.n
  | .arg => push (← argument inst.n)
  | .binary =>
      let right ← pop
      let left ← pop
      push (← ofResult (compute inst.operator left right))
  | .unary =>
      let operand ← pop
      push (← ofResult (compute inst.operator operand 0))
  | .jump => jump length inst.n
  | .jumpZ =>
      let condition ← pop
      if condition = 0 then jump length inst.n
  | .call =>
      push (Int64.ofNat (← get).pc)
      jump length inst.n
  | .enter =>
      push (← get).bp
      let sp := (← get).sp
      let frame := sp - 2 - inst.n
      if frame < 0 then throw (.fault (.enter inst.n address sp))
      modify ({ · with bp := frame })
  | .exit =>
      let frame := (← get).bp
      let result ← pop
      let caller ← pop
      modify ({ · with bp := caller })
      jump length (← pop)
      let sp := (← get).sp
      if sp < frame then throw (.fault (.exit address frame sp))
      modify ({ · with sp := frame })
      push result
  | .hole => throw (.fault (.unpatched address))
  | .unknown _ => throw (.fault (.instruction inst address))

/-- Run the instruction at `pc`, after a copy of the live stack has been taken. -/
def step (program : Program) : Exec Unit := fun machine ↦
  match element program machine.pc with
  | .error crash => .error (.crash crash) machine
  | .ok inst =>
      if machine.live?.isNone then
        .error (.crash .slice) machine
      else
        perform program.size machine.pc inst { machine with pc := machine.pc + 1 }

/-- Take at most `allowance` steps. -/
def loop (program : Program) : Nat → Machine → Machine × Except Crash Machine.Progress
  | 0, machine => (machine, .ok (if machine.atEnd program then .ended else .paused))
  | allowance + 1, machine =>
      if machine.atEnd program then
        (machine, .ok .ended)
      else
        match step program machine.tick with
        | .ok () next => loop program allowance next
        | .error (.fault fault) failed => (failed, .ok (.faulted fault))
        | .error (.crash crash) failed => (failed, .error crash)

/-- The value that a finished run left. -/
def result (machine : Machine) : Except Crash (Except Fault Word) :=
  if machine.sp ≤ 0 then
    .ok (.error .emptyResult)
  else do
    let value ← load machine.stack (machine.sp - 1)
    return value.mapError (.read "result")

/-- Run a program from an address until it ends. -/
def runAt (program : Program) (watch : Watch) (start : Word) (machine : Machine) :
    Machine × Except Crash (Except Stop Word) :=
  match Machine.startAddress? program start with
  | none => (machine.begin 0, .ok (.error (.fault (.start start program.size))))
  | some pc =>
      match loop program (watch.allowance machine.steps) (machine.begin pc) with
      | (failed, .error crash) => (failed, .error crash)
      | (final, .ok .ended) => (final, do return (← result final).mapError .fault)
      | (failed, .ok (.faulted fault)) => (failed, .ok (.error (.fault fault)))
      | (paused, .ok .paused) => (paused.tick, .ok (.error (.interrupted watch.reason)))

/-! ## No check fails -/

/-- What work does without checks and with them is the same, and leaves the machine ready. -/
inductive Agrees {α : Type} (size : Word) :
    EStateM.Result Fault Machine α → EStateM.Result Trap Machine α → Prop where
  | ok {next : Machine} (value : α) :
      next.Ready size → Agrees size (.ok value next) (.ok value next)
  | error (fault : Fault) (failed : Machine) :
      Agrees size (.error fault failed) (.error (.fault fault) failed)

/-- Work with checks does what the work without them does. -/
theorem Agrees.eq_lifted {α : Type} {size : Word} {result : EStateM.Result Fault Machine α}
    {checked : EStateM.Result Trap Machine α} (h : Agrees size result checked) :
    checked = lifted result := by
  cases h <;> rfl

/-- On a machine that is ready, some work passes all its checks. -/
def Passes {α : Type} (size : Word) (work : Machine.Exec α) (checked : Exec α) : Prop :=
  ∀ machine : Machine, machine.Ready size → Agrees size (work machine) (checked machine)

namespace Passes

variable {α β : Type} {size : Word}

/-- Work after work. -/
theorem bind {first : Machine.Exec α} {first' : Exec α} {second : α → Machine.Exec β}
    {second' : α → Exec β} (hfirst : Passes size first first')
    (hsecond : ∀ value, Passes size (second value) (second' value)) :
    Passes size (first >>= second) (first' >>= second') := by
  intro machine hready
  have hagrees := hfirst machine hready
  show Agrees size (EStateM.bind first second machine) (EStateM.bind first' second' machine)
  rw [EStateM.bind, EStateM.bind]
  generalize first machine = result at hagrees
  generalize first' machine = checked at hagrees
  cases hagrees with
  | ok value hnext => exact hsecond value _ hnext
  | error fault failed => exact .error fault failed

/-- The same choice with and without checks. -/
theorem ite {condition : Prop} [Decidable condition] {work other : Machine.Exec α}
    {work' other' : Exec α} (hwork : Passes size work work') (hother : Passes size other other') :
    Passes size (if condition then work else other) (if condition then work' else other') := by
  split
  · exact hwork
  · exact hother

/-- To look at the machine changes nothing. -/
theorem get : Passes size MonadState.get MonadState.get :=
  fun machine hready ↦ .ok machine hready

/-- Nothing is done. -/
theorem pure (value : α) : Passes size (Pure.pure value) (Pure.pure value) :=
  fun _ hready ↦ .ok value hready

/-- A fault. -/
theorem throw (fault : Fault) :
    Passes size (MonadExcept.throw fault : Machine.Exec α) (MonadExcept.throw (.fault fault)) :=
  fun machine _ ↦ .error fault machine

/-- A change of the registers. -/
theorem change {move : Machine → Machine} (same : ∀ machine, (move machine).stack = machine.stack) :
    Passes size (modify move) (modify move) :=
  fun machine hready ↦ .ok () (hready.of_stack_eq (same machine))

/-- A push stores one word. -/
theorem push (value : Word) : Passes size (Machine.Exec.push value) (Guarded.push value) := by
  intro machine hready
  rw [Guarded.push, hready.valid.guarded_store]
  cases hrefusal : machine.stack.refusal? .store machine.sp with
  | some error =>
      simp only [Machine.Exec.push, Memory.store_refused value hrefusal]
      exact .error _ _
  | none =>
      obtain ⟨stack, hstored, hstore⟩ := hready.valid.store_word value hrefusal
      simp only [Machine.Exec.push, hstore]
      exact .ok () (hready.stored hstored)

/-- A pop loads one word. -/
theorem pop : Passes size Machine.Exec.pop Guarded.pop := by
  intro machine hready
  simp only [Guarded.pop, Machine.Exec.pop, hready.valid.guarded_load]
  split
  · exact .error _ _
  · cases machine.stack.load (machine.sp - 1) with
    | error cause => exact .error _ _
    | ok value => exact .ok value (hready.of_stack_eq rfl)

/-- An argument is one word. -/
theorem argument (index : Word) :
    Passes size (Machine.Exec.argument index) (Guarded.argument index) := by
  intro machine hready
  simp only [Guarded.argument, Machine.Exec.argument, hready.valid.guarded_load]
  split
  · exact .error _ _
  · cases machine.stack.load (machine.bp + index) with
    | error cause => exact .error _ _
    | ok value => exact .ok value hready

/-- A jump leaves the stack alone. -/
theorem jump (length : Nat) (address : Word) :
    Passes size (Machine.Exec.jump length address) (Guarded.jump length address) := by
  intro machine hready
  simp only [Guarded.jump, Machine.Exec.jump]
  split
  · exact .error _ _
  · exact .ok () (hready.of_stack_eq rfl)

/-- A quotient and a remainder are computed only if the divisor is not zero. -/
theorem compute_eq (operator : Operator) (left right : Word) :
    Guarded.compute operator left right = (operator.apply left right).mapError .fault := by
  cases operator with
  | div =>
      simp only [Guarded.compute, quotient, Operator.apply]
      split <;> rfl
  | mod =>
      simp only [Guarded.compute, remainder, Operator.apply]
      split <;> rfl
  | _ => rfl

/-- An operator has nothing to do with the machine. -/
theorem compute (operator : Operator) (left right : Word) :
    Passes size (Machine.Exec.ofResult (operator.apply left right))
      (ofResult (Guarded.compute operator left right)) := by
  rw [compute_eq]
  cases operator.apply left right with
  | ok value => exact pure value
  | error fault => exact throw fault

/-- Every instruction passes its checks. -/
theorem perform (length address : Nat) (inst : Inst) :
    Passes size (Machine.perform length address inst) (Guarded.perform length address inst) := by
  unfold Machine.perform Guarded.perform
  cases inst.op with
  | constant => exact push _
  | arg => exact bind (argument _) fun _ ↦ push _
  | binary =>
      exact bind pop fun _ ↦ bind pop fun _ ↦ bind (compute _ _ _) fun _ ↦ push _
  | unary => exact bind pop fun _ ↦ bind (compute _ _ _) fun _ ↦ push _
  | jump => exact jump _ _
  | jumpZ => exact bind pop fun condition ↦ ite (jump _ _) (pure _)
  | call => exact bind get fun _ ↦ bind (push _) fun _ ↦ jump _ _
  | enter =>
      refine bind get fun _ ↦ bind (push _) fun _ ↦ bind get fun now ↦ ite ?_ ?_
      · exact bind (throw _) fun _ ↦ change fun _ ↦ rfl
      · exact change fun _ ↦ rfl
  | exit =>
      refine bind get fun before ↦ bind pop fun result ↦ bind pop fun caller ↦
        bind (change fun _ ↦ rfl) fun _ ↦ bind pop fun back ↦ bind (jump _ _) fun _ ↦
        bind get fun now ↦ ite ?_ ?_
      · exact bind (throw _) fun _ ↦ bind (change fun _ ↦ rfl) fun _ ↦ push _
      · exact bind (change fun _ ↦ rfl) fun _ ↦ push _
  | hole => exact throw _
  | unknown code => exact throw _

end Passes

end Guarded

namespace Machine.Bounded

variable {machine : Machine} {size : Word} {program : Program}

/-- The live stack can be copied where `sp` is in its bounds. -/
theorem live?_isNone (h : machine.Bounded size) : machine.live?.isNone = false := by
  rw [live?, if_neg (Int64.not_lt.mpr h.sp_nonneg)]
  split <;> rfl

/-- A step passes its checks. -/
theorem guarded_step (h : machine.Bounded size) (inside : machine.pc < program.size) :
    Guarded.step program machine = Guarded.lifted (Machine.step program machine) := by
  have hinst : program[machine.pc]? = some program[machine.pc] := Array.getElem?_eq_getElem inside
  have hready : { machine with pc := machine.pc + 1 }.Ready size := h.ready.of_stack_eq rfl
  simp only [Guarded.step, Guarded.element, Machine.step, hinst, h.live?_isNone]
  exact (Guarded.Passes.perform _ _ _ _ hready).eq_lifted

/-- Any number of steps pass their checks. -/
theorem guarded_loop (h : machine.Bounded size) (program : Program) (allowance : Nat) :
    Guarded.loop program allowance machine =
      ((machine.loop program allowance).1, .ok (machine.loop program allowance).2) := by
  induction allowance generalizing machine with
  | zero => rfl
  | succ allowance ih =>
      rw [Guarded.loop, Machine.loop]
      by_cases hend : machine.atEnd program
      · rw [if_pos hend, if_pos hend]
      · rw [if_neg hend, if_neg hend]
        have htick : machine.tick.Bounded size := h.move rfl rfl
        have hlt : machine.pc < program.size := by simpa [atEnd] using hend
        have hstep := htick.step program
        rw [htick.guarded_step hlt]
        cases hdone : Machine.step program machine.tick with
        | ok _ next =>
            rw [hdone] at hstep
            exact ih hstep
        | error fault failed => rfl

/-- The result is looked up with all checks. -/
theorem guarded_result (h : machine.Bounded size) :
    Guarded.result machine = .ok machine.result := by
  rw [Guarded.result, Machine.result, h.ready.valid.guarded_load]
  split
  · rfl
  · cases machine.stack.load (machine.sp - 1) <;> rfl

end Machine.Bounded

/-! ## Whole runs -/

/-- The kinds of faults. -/
def Fault.kinds : List String :=
  ["vm.stack_overflow", "vm.stack_underflow", "vm.divide_by_zero", "vm.bad_address",
    "vm.bad_instruction", "vm.empty_result"]

/-- Every fault is of one of the kinds. -/
theorem Fault.kind_mem_kinds (fault : Fault) : fault.kind ∈ kinds := by
  cases fault <;> simp [kind, kinds]

/-- No fault has the kind of a refused patch. -/
theorem Fault.kind_ne_patch (fault : Fault) : fault.kind ≠ PatchError.kind := by
  intro hpatch
  have hmem := fault.kind_mem_kinds
  rw [hpatch] at hmem
  revert hmem
  decide

namespace Machine

variable {machine : Machine} {size : Word}

/-- A state in which a run from an address executes an instruction: it has come there without a
fault, it is not at its end, and the watch has not ended it. -/
def Executes (machine : Machine) (program : Program) (watch : Watch) (start : Word)
    (state : Machine) : Prop :=
  ∃ pc steps, startAddress? program start = some pc ∧
    steps < watch.allowance machine.steps ∧
    (machine.begin pc).loop program steps = (state, .paused)

/-- Steps that are used up before the end of the program leave an instruction to execute. -/
theorem pc_lt_of_paused {program : Program} {steps : Nat} {state : Machine}
    (paused : machine.loop program steps = (state, .paused)) : state.pc < program.size := by
  induction steps generalizing machine with
  | zero =>
      rw [loop] at paused
      split at paused
      · cases paused
      · next hend =>
          cases paused
          simpa [atEnd] using hend
  | succ steps ih =>
      rw [loop] at paused
      split at paused
      · cases paused
      · cases hstep : step program machine.tick with
        | ok _ next =>
            rw [hstep] at paused
            exact ih paused
        | error fault failed =>
            rw [hstep] at paused
            cases paused

/-- A run that is interrupted says why it was. -/
theorem reason_of_conclude {reached : Machine × Progress} {reason other : Interrupt}
    (stopped : (conclude reason reached).2 = .error (.interrupted other)) : other = reason := by
  obtain ⟨final, progress⟩ := reached
  cases progress with
  | faulted fault => cases stopped
  | paused =>
      cases stopped
      rfl
  | ended =>
      rw [conclude] at stopped
      split at stopped <;> cases stopped

/-- Execution is classified. Whatever a program has for instructions, wherever a run of it starts
and however long it may last, on any machine:

* before every instruction that is executed, `sp` is a slot of the stack or the one behind the last,
  and `pc` is an address of the program; and the instruction passes all its checks, and completes or
  raises a fault of one of the kinds;
* the run with checks is the run without them, so that no partial operation is ever applied outside
  of its domain;
* an error of the run is a fault of one of the kinds, none of which is that of a refused patch, or
  the reason of the watch. -/
theorem runAt_classified (used : Used size machine) (program : Program) (watch : Watch)
    (start : Word) :
    (∀ state, machine.Executes program watch start state →
      (0 ≤ state.sp ∧ state.sp ≤ machine.stackSize ∧ state.pc < program.size) ∧
      ((∃ next, Guarded.step program state.tick = .ok () next) ∨
        ∃ fault failed, Guarded.step program state.tick = .error (.fault fault) failed ∧
          fault.kind ∈ Fault.kinds)) ∧
    Guarded.runAt program watch start machine =
      ((machine.runAt program watch start).1, .ok (machine.runAt program watch start).2) ∧
    ∀ stop, (machine.runAt program watch start).2 = .error stop →
      stop = .interrupted watch.reason ∨
        ∃ fault, stop = .fault fault ∧ fault.kind ∈ Fault.kinds ∧
          fault.kind ≠ PatchError.kind := by
  have hready := used.ready_new
  rw [← show machine.stackSize = (Machine.new size).stackSize from hready.limit] at hready
  have hbegin : ∀ pc, (machine.begin pc).Bounded machine.stackSize := fun pc ↦
    ⟨hready.of_stack_eq rfl, Int64.le_refl _, Int64.le_of_lt hready.size_pos⟩
  refine ⟨?_, ?_, ?_⟩
  · rintro state ⟨pc, steps, -, -, hpaused⟩
    have hstays := (hbegin pc).loop program steps
    rw [hpaused] at hstays
    have hbounded : state.Bounded machine.stackSize := hstays
    have htick : state.tick.Bounded machine.stackSize := hbounded.move rfl rfl
    have hlt := pc_lt_of_paused hpaused
    refine ⟨⟨hbounded.sp_nonneg, hbounded.sp_le, hlt⟩, ?_⟩
    rw [htick.guarded_step hlt]
    cases Machine.step program state.tick with
    | ok _ next => exact .inl ⟨next, rfl⟩
    | error fault failed => exact .inr ⟨fault, failed, rfl, fault.kind_mem_kinds⟩
  · cases hstart : startAddress? program start with
    | none => simp only [Guarded.runAt, Machine.runAt, hstart]
    | some pc =>
        simp only [Guarded.runAt, Machine.runAt, hstart, (hbegin pc).guarded_loop]
        have hstays := (hbegin pc).loop program (watch.allowance machine.steps)
        generalize (machine.begin pc).loop program (watch.allowance machine.steps) = reached
          at hstays
        obtain ⟨final, progress⟩ := reached
        cases progress with
        | faulted fault => rfl
        | paused => rfl
        | ended =>
            have hbounded : final.Bounded machine.stackSize := hstays
            simp only [hbounded.guarded_result, conclude]
            cases final.result <;> rfl
  · intro stop hstop
    cases stop with
    | fault cause => exact .inr ⟨cause, rfl, cause.kind_mem_kinds, cause.kind_ne_patch⟩
    | interrupted reason =>
        refine .inl (congrArg _ ?_)
        cases hstart : startAddress? program start with
        | none =>
            simp only [Machine.runAt, hstart] at hstop
            cases hstop
        | some pc =>
            simp only [Machine.runAt, hstart] at hstop
            exact reason_of_conclude hstop

/-- The first `exit` of this program leaves a `bp` of -1, and the second one moves `sp` there: this
is a fault of the push that follows, and no crash. -/
theorem runAt_classified_below :
    let program : Program :=
      #[.constant 4, .constant (-1), .constant 0, .exit, .constant 0, .constant 0, .exit]
    let machine := Machine.new 8
    (∃ state, machine.Executes program .never 0 state ∧ state.pc = 6 ∧ state.bp = -1 ∧
      0 ≤ state.sp ∧ state.sp ≤ 8) ∧
    Guarded.runAt program .never 0 machine = ((machine.runAt program .never 0).1,
      .ok (.error (.fault (.push (.negative .store (-1)))))) := by
  intro program machine
  obtain ⟨hexecutes, hguarded, -⟩ := runAt_classified (.new : Used 8 machine) program .never 0
  have hlast : machine.Executes program .never 0 ((machine.begin 0).loop program 6).1 :=
    ⟨0, 6, rfl, by decide, Prod.ext rfl (by decide +kernel)⟩
  obtain ⟨⟨hnonneg, hle, -⟩, -⟩ := hexecutes _ hlast
  have hfault : (machine.runAt program .never 0).2 =
      .error (.fault (.push (.negative .store (-1)))) := by
    decide +kernel
  refine ⟨⟨_, hlast, by decide +kernel, by decide +kernel, hnonneg, hle⟩, ?_⟩
  rw [hguarded, hfault]

end Machine

end WordLisp
