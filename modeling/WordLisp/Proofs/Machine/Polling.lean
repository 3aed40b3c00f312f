import WordLisp.Proofs.Machine.Reuse

/-!
# Checks that may end a run

A run asks a context before every 4096th step, counted over all runs of the machine, whether it may
go on. `poll` takes these steps one by one and asks as it goes, by a counter of 64 bits that wraps.
`runAt` does not ask: from a watch it works out how many steps there are before the check that ends
the run. The two are one (`polledRunAt?_eq`).

So a check ends a run promptly, at the state that the endless run has there, and is not noticed
otherwise.
-/

namespace WordLisp

/-- What a context answers when it is asked in a run, time after time: nothing, or why the run has
to end. -/
abbrev Context := Nat → Option Interrupt

/-- The context has no answer to the checks that the watch passes, and then its reason. -/
structure Watch.Describes (watch : Watch) (context : Context) : Prop where
  passes : ∀ asked < watch.checks, context asked = none
  ends : context watch.checks = some watch.reason

namespace Machine

variable {program : Program} {context : Context} {machine next : Machine}

/-! ## A run that asks -/

/-- Whether there is a check before the step that has just been counted. The counter is a word of 64
bits. -/
def due (machine : Machine) : Bool :=
  UInt64.ofNat machine.steps % 4096 == 0

/-- Ask the context if a check is due: either the run has to end, or this is how often it has been
asked. -/
def consult (context : Context) (asked : Nat) (machine : Machine) : Except Interrupt Nat :=
  if machine.due then
    match context asked with
    | some reason => .error reason
    | none => .ok (asked + 1)
  else
    .ok asked

/-- Take at most `allowance` steps of a run that has asked the context `asked` times. -/
def poll (program : Program) (context : Context) :
    Nat → Nat → Machine → Machine × Except Interrupt Progress
  | 0, _, machine => (machine, .ok (if machine.atEnd program then .ended else .paused))
  | allowance + 1, asked, machine =>
      if machine.atEnd program then
        (machine, .ok .ended)
      else
        match consult context asked machine.tick with
        | .error reason => (machine.tick, .error reason)
        | .ok asked =>
            match step program machine.tick with
            | .ok () next => poll program context allowance asked next
            | .error fault failed => (failed, .ok (.faulted fault))

/-- What a run comes to that a check ends after some steps, unless they have ended it. -/
def stopped (reason : Interrupt) : Machine × Progress → Machine × Except Interrupt Progress
  | (paused, .paused) => (paused.tick, .error reason)
  | (last, progress) => (last, .ok progress)

/-- Run a program from an address under a context, if `allowance` steps suffice for that. -/
def polledRunAt? (program : Program) (context : Context) (allowance : Nat) (start : Word)
    (machine : Machine) : Option (Machine × Except Stop Word) :=
  match startAddress? program start with
  | none => some (machine.begin 0, .error (.fault (.start start program.size)))
  | some pc =>
      match (machine.begin pc).poll program context allowance 0 with
      | (last, .error reason) => some (last, .error (.interrupted reason))
      | (last, .ok progress) =>
          (progress.outcome? last).map fun outcome ↦ (last, outcome.mapError .fault)

/-! ## Counting steps -/

/-- The machine that some work left has counted so many steps. -/
def Counted {α : Type} (steps : Nat) : EStateM.Result Fault Machine α → Prop
  | .ok _ next => next.steps = steps
  | .error _ failed => failed.steps = steps

/-- Some work leaves the counter of the steps alone. -/
def Uncounted {α : Type} (work : Exec α) : Prop :=
  ∀ machine : Machine, Counted machine.steps (work machine)

namespace Uncounted

variable {α β : Type}

/-- Work after work. -/
theorem bind {first : Exec α} {second : α → Exec β} (hfirst : Uncounted first)
    (hsecond : ∀ value, Uncounted (second value)) : Uncounted (first >>= second) := by
  intro machine
  have hresult := hfirst machine
  show Counted machine.steps (EStateM.bind first second machine)
  simp only [EStateM.bind]
  cases h : first machine with
  | error fault failed =>
      rw [h] at hresult
      exact hresult
  | ok value next =>
      rw [h] at hresult
      have hnext := hsecond value next
      rwa [show next.steps = machine.steps from hresult] at hnext

/-- A look at the machine. -/
theorem get_bind {next : Machine → Exec β} (each : ∀ machine, Uncounted (next machine)) :
    Uncounted (MonadState.get >>= next) :=
  fun machine ↦ each machine machine

/-- A change of the registers. -/
theorem change {move : Machine → Machine} (same : ∀ machine, (move machine).steps = machine.steps) :
    Uncounted (modify move : Exec Unit) :=
  fun machine ↦ same machine

/-- Nothing is done. -/
theorem pure (value : α) : Uncounted (Pure.pure value : Exec α) :=
  fun _ ↦ rfl

/-- A fault. -/
theorem throw (fault : Fault) : Uncounted (MonadExcept.throw fault : Exec α) :=
  fun _ ↦ rfl

theorem push (value : Word) : Uncounted (Exec.push value) := by
  intro machine
  simp only [Exec.push]
  rcases machine.stack.store machine.sp [value] with ⟨stack, _ | cause⟩ <;> rfl

theorem pop : Uncounted Exec.pop := by
  intro machine
  simp only [Exec.pop]
  split
  · rfl
  · cases machine.stack.load (machine.sp - 1) <;> rfl

theorem argument (index : Word) : Uncounted (Exec.argument index) := by
  intro machine
  simp only [Exec.argument]
  split
  · rfl
  · cases machine.stack.load (machine.bp + index) <;> rfl

theorem jump (length : Nat) (address : Word) : Uncounted (Exec.jump length address) := by
  intro machine
  simp only [Exec.jump]
  split <;> rfl

theorem ofResult (result : Except Fault Word) : Uncounted (Exec.ofResult result) := by
  cases result with
  | ok value => exact pure value
  | error fault => exact throw fault

/-- No instruction counts steps. -/
theorem perform (length address : Nat) (inst : Inst) :
    Uncounted (Machine.perform length address inst) := by
  unfold Machine.perform
  cases inst.op with
  | constant => exact push _
  | arg => exact bind (argument _) fun _ ↦ push _
  | binary =>
      exact bind pop fun _ ↦ bind pop fun _ ↦ bind (ofResult _) fun _ ↦ push _
  | unary => exact bind pop fun _ ↦ bind (ofResult _) fun _ ↦ push _
  | jump => exact jump _ _
  | jumpZ =>
      refine bind pop fun condition ↦ ?_
      split
      · exact jump _ _
      · exact pure _
  | call => exact get_bind fun _ ↦ bind (push _) fun _ ↦ jump _ _
  | enter =>
      refine get_bind fun _ ↦ bind (push _) fun _ ↦ get_bind fun _ ↦ ?_
      dsimp only
      split
      · exact bind (throw _) fun _ ↦ change fun _ ↦ rfl
      · exact change fun _ ↦ rfl
  | exit =>
      refine get_bind fun _ ↦ bind pop fun _ ↦ bind pop fun _ ↦ bind (change fun _ ↦ rfl) fun _ ↦
        bind pop fun _ ↦ bind (jump _ _) fun _ ↦ get_bind fun _ ↦ ?_
      dsimp only
      split
      · exact bind (throw _) fun _ ↦ bind (change fun _ ↦ rfl) fun _ ↦ push _
      · exact bind (change fun _ ↦ rfl) fun _ ↦ push _
  | hole => exact throw _
  | unknown code => exact throw _

/-- So a step does not count itself. -/
theorem step (program : Program) : Uncounted (Machine.step program) := by
  intro machine
  unfold Machine.step
  split
  · rfl
  · exact perform _ _ _ { machine with pc := machine.pc + 1 }

end Uncounted

/-- A step that does not fault leaves the counter alone. -/
theorem steps_of_ok (done : Machine.step program machine = .ok () next) :
    next.steps = machine.steps := by
  have hcounted := Uncounted.step program machine
  rwa [done] at hcounted

/-- Neither does one that faults. -/
theorem steps_of_error {fault : Fault}
    (failed : Machine.step program machine = .error fault next) : next.steps = machine.steps := by
  have hcounted := Uncounted.step program machine
  rwa [failed] at hcounted

/-- Steps come to what they come to when as many are allowed as they have counted. If the run is not
over, these are all. -/
theorem loop_counted {last : Machine} {progress : Progress} {allowance : Nat}
    (reached : machine.loop program allowance = (last, progress)) :
    ∃ count ≤ allowance, last.steps = machine.steps + count ∧
      machine.loop program count = (last, progress) ∧ (progress = .paused → count = allowance) := by
  induction allowance generalizing machine with
  | zero =>
      obtain ⟨rfl, -⟩ := Prod.mk.inj reached
      exact ⟨0, Nat.le_refl 0, rfl, reached, fun _ ↦ rfl⟩
  | succ allowance ih =>
      rw [loop] at reached
      split at reached
      · next hend =>
          obtain ⟨rfl, rfl⟩ := Prod.mk.inj reached
          exact ⟨0, Nat.zero_le _, rfl, by rw [loop, if_pos hend], by rintro ⟨⟩⟩
      · next hend =>
          split at reached
          · next next hstep =>
              obtain ⟨count, hle, hsteps, hloop, hpaused⟩ := ih reached
              have hnext : next.steps = machine.steps + 1 := steps_of_ok hstep
              refine ⟨count + 1, Nat.succ_le_succ hle, by omega, ?_,
                fun h ↦ congrArg (· + 1) (hpaused h)⟩
              rw [loop, if_neg hend, hstep]
              exact hloop
          · next fault failed hstep =>
              obtain ⟨rfl, rfl⟩ := Prod.mk.inj reached
              have hfailed : failed.steps = machine.steps + 1 := steps_of_error hstep
              refine ⟨1, Nat.succ_le_succ (Nat.zero_le _), hfailed, ?_, by rintro ⟨⟩⟩
              rw [loop, if_neg hend, hstep]

/-! ## Asking and working out -/

/-- A check is due at every 4096th step: that the counter wraps cannot be seen. -/
theorem due_iff (machine : Machine) :
    machine.due = true ↔ machine.steps % Watch.interval = 0 := by
  have hwrap : (UInt64.ofNat machine.steps % 4096).toNat = machine.steps % Watch.interval := by
    rw [UInt64.toNat_mod, UInt64.toNat_ofNat']
    exact Nat.mod_mod_of_dvd _ (by decide)
  rw [due, beq_iff_eq, ← UInt64.toNat_inj, hwrap]
  rfl

/-- A run that asks is the run that works out how many steps it may take. -/
theorem poll_eq {watch : Watch} (describes : watch.Describes context) {asked left : Nat}
    (le : asked ≤ watch.checks)
    (fits : left + machine.steps % Watch.interval + 1 =
      (watch.checks + 1 - asked) * Watch.interval) (more : Nat) :
    machine.poll program context (left + 1 + more) asked =
      stopped watch.reason (machine.loop program left) := by
  induction left generalizing machine asked with
  | zero =>
      rw [show 0 + 1 + more = more + 1 by omega, poll, loop]
      split
      · rfl
      · -- This is the check at which the context has an answer.
        have hdue : machine.tick.due = true := by
          rw [due_iff, show machine.tick.steps = machine.steps + 1 from rfl]
          simp only [Watch.interval] at fits ⊢
          omega
        have hasked : asked = watch.checks := by
          simp only [Watch.interval] at fits
          omega
        rw [consult, if_pos hdue, hasked, describes.ends]
        rfl
  | succ left ih =>
      rw [show left + 1 + 1 + more = (left + 1 + more) + 1 by omega, poll, loop]
      split
      · rfl
      · obtain ⟨later, hconsult, hle, hfits⟩ : ∃ later,
            consult context asked machine.tick = .ok later ∧ later ≤ watch.checks ∧
              left + machine.tick.steps % Watch.interval + 1 =
                (watch.checks + 1 - later) * Watch.interval := by
          rw [consult]
          split
          · next hdue =>
              rw [due_iff, show machine.tick.steps = machine.steps + 1 from rfl] at hdue
              rw [show machine.tick.steps = machine.steps + 1 from rfl]
              simp only [Watch.interval] at fits hdue ⊢
              have hlt : asked < watch.checks := by omega
              exact ⟨asked + 1, by rw [describes.passes asked hlt], hlt, by omega⟩
          · next hdue =>
              rw [due_iff, show machine.tick.steps = machine.steps + 1 from rfl] at hdue
              rw [show machine.tick.steps = machine.steps + 1 from rfl]
              refine ⟨asked, rfl, le, ?_⟩
              simp only [Watch.interval] at fits hdue ⊢
              omega
        rw [hconsult]
        cases hstep : Machine.step program machine.tick with
        | error fault failed => rfl
        | ok _ next => exact ih hle (by rw [steps_of_ok hstep]; exact hfits)

/-- A watch allows the steps up to the check that ends the run. -/
theorem allowance_add (watch : Watch) (steps : Nat) :
    watch.allowance steps + steps % Watch.interval + 1 = (watch.checks + 1) * Watch.interval := by
  have hbelow : steps % Watch.interval < Watch.interval := Nat.mod_lt _ (by decide)
  simp only [Watch.allowance, Watch.interval] at hbelow ⊢
  omega

/-- The number of checks before the next `count` steps, if `steps` have been counted. -/
def checksWithin (steps count : Nat) : Nat :=
  (List.range count).countP fun i ↦ (steps + i + 1) % Watch.interval = 0

/-- There is one check for every whole interval. -/
theorem checksWithin_eq (steps count : Nat) :
    checksWithin steps count = (steps % Watch.interval + count) / Watch.interval := by
  induction count with
  | zero =>
      rw [Nat.add_zero, Nat.div_eq_of_lt (Nat.mod_lt _ (by decide))]
      rfl
  | succ count ih =>
      rw [checksWithin] at ih ⊢
      rw [List.range_succ, List.countP_append, ih, List.countP_singleton]
      by_cases hcheck : (steps + count + 1) % Watch.interval = 0
      · rw [if_pos (decide_eq_true hcheck)]
        simp only [Watch.interval] at hcheck ⊢
        omega
      · rw [if_neg (by simpa using hcheck)]
        simp only [Watch.interval] at hcheck ⊢
        omega

/-- The steps that a watch allows are those before which it passes all checks. -/
theorem le_allowance_iff (watch : Watch) (steps count : Nat) :
    count ≤ watch.allowance steps ↔ checksWithin steps count ≤ watch.checks := by
  have hallowance := allowance_add watch steps
  rw [checksWithin_eq, Nat.div_le_iff_le_mul_add_pred (by decide)]
  simp only [Watch.interval] at hallowance ⊢
  omega

/-- A run under a context is the run under the watch that describes it. -/
theorem polledRunAt?_eq {watch : Watch} (describes : watch.Describes context) {allowance : Nat}
    (enough : (watch.checks + 1) * Watch.interval ≤ allowance) (start : Word) (machine : Machine) :
    machine.polledRunAt? program context allowance start =
      some (machine.runAt program watch start) := by
  rw [polledRunAt?, runAt]
  cases startAddress? program start with
  | none => rfl
  | some pc =>
      have hallowance := allowance_add watch machine.steps
      obtain ⟨more, rfl⟩ : ∃ more, allowance = watch.allowance machine.steps + 1 + more :=
        Nat.exists_eq_add_of_le (by omega)
      have hfits : watch.allowance machine.steps + (machine.begin pc).steps % Watch.interval + 1 =
          (watch.checks + 1 - 0) * Watch.interval := hallowance
      simp only [poll_eq describes (Nat.zero_le _) hfits more]
      rcases (machine.begin pc).loop program (watch.allowance machine.steps) with ⟨last, progress⟩
      rw [conclude_eq]
      cases progress <;> rfl

/-- A run ends with an outcome that it comes to before the check that would end it. -/
theorem RunsTo.runAt_eq {start : Word} {final : Machine} {outcome : Except Fault Word}
    (h : machine.RunsTo program start final outcome) {watch : Watch} {count : Nat}
    (counted : final.steps = machine.steps + count)
    (within : checksWithin machine.steps count ≤ watch.checks) :
    machine.runAt program watch start = (final, outcome.mapError .fault) := by
  rw [runAt]
  cases hstart : startAddress? program start with
  | none =>
      obtain ⟨rfl, rfl⟩ := (runsTo_iff_refused hstart).mp h
      rfl
  | some pc =>
      obtain ⟨allowance, progress, hloop, houtcome⟩ := (runsTo_iff_loop hstart).mp h
      obtain ⟨count', -, hcounted, hcount, -⟩ := loop_counted hloop
      obtain rfl : count' = count := Nat.add_left_cancel (hcounted.symm.trans counted)
      obtain ⟨more, hmore⟩ := Nat.exists_eq_add_of_le ((le_allowance_iff ..).mpr within)
      simp only [hmore, loop_of_outcome? hcount houtcome more, conclude_eq, houtcome]

/-- A run that has taken all steps which its watch allows is at the check that ends it. -/
theorem interrupted_of_paused {watch : Watch} {pc : Nat} {last : Machine}
    (paused : (machine.begin pc).loop program (watch.allowance machine.steps) = (last, .paused)) :
    last.steps = machine.steps + watch.allowance machine.steps ∧
      checksWithin machine.steps (watch.allowance machine.steps) = watch.checks ∧
      last.tick.due = true := by
  obtain ⟨count, -, hsteps, -, hcount⟩ := loop_counted paused
  rw [hcount rfl] at hsteps
  have hallowance := allowance_add watch machine.steps
  refine ⟨hsteps, ?_, ?_⟩
  · rw [checksWithin_eq]
    simp only [Watch.interval] at hallowance ⊢
    omega
  · rw [due_iff, show last.tick.steps = last.steps + 1 from rfl, hsteps]
    show (machine.steps + watch.allowance machine.steps + 1) % Watch.interval = 0
    simp only [Watch.interval] at hallowance ⊢
    omega

/-- A run comes to its outcome before the check that would end it, or it is interrupted there. -/
theorem runAt_cases (program : Program) (watch : Watch) (start : Word) (machine : Machine) :
    (∃ final outcome count, machine.RunsTo program start final outcome ∧
      final.steps = machine.steps + count ∧ checksWithin machine.steps count ≤ watch.checks ∧
      machine.runAt program watch start = (final, outcome.mapError .fault)) ∨
    ∃ pc before, startAddress? program start = some pc ∧
      (machine.begin pc).loop program (watch.allowance machine.steps) = (before, .paused) ∧
      machine.runAt program watch start = (before.tick, .error (.interrupted watch.reason)) := by
  cases hstart : startAddress? program start with
  | none =>
      have hruns : machine.RunsTo program start (machine.begin 0)
          (.error (.start start program.size)) := (runsTo_iff_refused hstart).mpr ⟨rfl, rfl⟩
      have hwithin : checksWithin machine.steps 0 ≤ watch.checks := Nat.zero_le _
      exact .inl ⟨_, _, 0, hruns, rfl, hwithin, hruns.runAt_eq rfl hwithin⟩
  | some pc =>
      rcases hloop : (machine.begin pc).loop program (watch.allowance machine.steps) with
        ⟨last, progress⟩
      cases houtcome : progress.outcome? last with
      | some outcome =>
          obtain ⟨count, hle, hcounted, -, -⟩ := loop_counted hloop
          have hwithin := (le_allowance_iff ..).mp hle
          have hruns := (runsTo_iff_loop hstart).mpr ⟨_, progress, hloop, houtcome⟩
          exact .inl ⟨last, outcome, count, hruns, hcounted, hwithin,
            hruns.runAt_eq hcounted hwithin⟩
      | none =>
          cases progress with
          | ended => cases houtcome
          | faulted fault => cases houtcome
          | paused =>
              refine .inr ⟨pc, last, rfl, hloop, ?_⟩
              simp only [runAt, hstart, hloop, conclude]

/-- Checks end a run promptly, and are not noticed otherwise. Take a machine with any counter, a
program, an address, and a context that answers nil to `checks` checks and then has a reason to end
the run. The run that asks this context is the run under the watch. It executes fewer instructions
than lie between `checks + 1` checks. If a run that no watch ends would come to an outcome before
the check that ends this one, then so does this one, and it leaves the same machine. If not, it
comes to the reason, and leaves what the other has before the instruction at which the check is. -/
theorem interruption_prompt {watch : Watch} (describes : watch.Describes context)
    (program : Program) (start : Word) (machine : Machine) :
    let run := machine.runAt program watch start
    (∀ allowance, (watch.checks + 1) * Watch.interval ≤ allowance →
      machine.polledRunAt? program context allowance start = some run) ∧
    (∃ executed < (watch.checks + 1) * Watch.interval,
      match run.2 with
      | .error (.interrupted _) => run.1.steps = machine.steps + executed + 1
      | _ => run.1.steps = machine.steps + executed) ∧
    (∀ final outcome count, machine.RunsTo program start final outcome →
      final.steps = machine.steps + count → checksWithin machine.steps count ≤ watch.checks →
      run = (final, outcome.mapError .fault)) ∧
    ((∀ final outcome count, machine.RunsTo program start final outcome →
        final.steps = machine.steps + count → watch.checks < checksWithin machine.steps count) →
      ∃ pc count before, startAddress? program start = some pc ∧
        (machine.begin pc).loop program count = (before, .paused) ∧
        before.steps = machine.steps + count ∧
        checksWithin machine.steps count = watch.checks ∧ before.tick.due = true ∧
        run = (before.tick, .error (.interrupted watch.reason))) := by
  intro run
  have hallowance := allowance_add watch machine.steps
  refine ⟨fun allowance henough ↦ polledRunAt?_eq describes henough start machine, ?_,
    fun final outcome count hruns hcounted hwithin ↦ hruns.runAt_eq hcounted hwithin, ?_⟩
  · rcases runAt_cases program watch start machine with
      ⟨final, outcome, count, -, hcounted, hwithin, hrun⟩ | ⟨pc, before, -, hloop, hrun⟩
    · have hle := (le_allowance_iff watch machine.steps count).mpr hwithin
      refine ⟨count, by omega, ?_⟩
      rw [show run = _ from hrun]
      cases outcome <;> exact hcounted
    · refine ⟨watch.allowance machine.steps, by omega, ?_⟩
      rw [show run = _ from hrun]
      exact congrArg (· + 1) (interrupted_of_paused hloop).1
  · intro hlate
    rcases runAt_cases program watch start machine with
      ⟨final, outcome, count, hruns, hcounted, hwithin, -⟩ | ⟨pc, before, hstart, hloop, hrun⟩
    · exact absurd hwithin (Nat.not_le_of_lt (hlate final outcome count hruns hcounted))
    · obtain ⟨hsteps, hchecks, hdue⟩ := interrupted_of_paused hloop
      exact ⟨pc, _, before, hstart, hloop, hsteps, hchecks, hdue, hrun⟩

/-- An endless run on a machine whose counter is about to wrap. The step that makes it wrap is the
next one with a check, and five are executed before it. -/
theorem interruption_prompt_endless :
    let machine := { Machine.new 4 with steps := 0xfffffffffffffffa }
    let run := machine.runAt #[.jump 0] .canceled 0
    let context : Context := fun _ ↦ some .canceled
    run.2 = .error (.interrupted .canceled) ∧
      machine.polledRunAt? #[.jump 0] context 4096 0 = some run ∧
      ∃ executed < 4096, run.1.steps = machine.steps + executed + 1 ∧ executed = 5 := by
  intro machine run context
  have hdescribes : Watch.canceled.Describes context := ⟨nofun, rfl⟩
  have hinterrupted : run.2 = .error (.interrupted .canceled) := by decide +kernel
  obtain ⟨hpolled, ⟨executed, hlt, hcounted⟩, -⟩ :=
    interruption_prompt hdescribes #[.jump 0] 0 machine
  rw [show (machine.runAt #[.jump 0] .canceled 0).2 = _ from hinterrupted] at hcounted
  have hsteps : run.1.steps = machine.steps + 6 := by decide +kernel
  exact ⟨hinterrupted, hpolled 4096 (Nat.le_refl _), executed, hlt, hcounted, by
    have hsame : machine.steps + executed + 1 = machine.steps + 6 := hcounted.symm.trans hsteps
    omega⟩

end Machine

end WordLisp
