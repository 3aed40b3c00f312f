import WordLisp.Machine.Run

/-!
# Stretches of runs

`Reaches` and `Faults` say where a run comes to, whatever its allowance is as long as it lasts.
`Comes` joins the two: a stretch of a run comes to a state or to a fault as a computation in
`Except Fault` says, so that stretches compose as such computations do (`Comes.bind`).

`RunsTo` is the outcome of a run that no watch ends: the one under every watch that lasts long
enough.
-/

namespace WordLisp.Machine

variable {program : Program} {machine next last : Machine}

/-- A run that is at `machine` comes to `next` after some steps. -/
def Reaches (program : Program) (machine next : Machine) : Prop :=
  ∃ steps, ∀ more, machine.loop program (steps + more) = next.loop program more

/-- A run that is at `machine` ends in a fault after some steps. -/
def Faults (program : Program) (machine : Machine) (fault : Fault) : Prop :=
  ∃ steps failed, ∀ more, machine.loop program (steps + more) = (failed, .faulted fault)

/-- A run that is at `machine` has come to it. -/
theorem Reaches.refl (program : Program) (machine : Machine) : machine.Reaches program machine :=
  ⟨0, fun more ↦ by rw [Nat.zero_add]⟩

/-- Two stretches of a run make one. -/
theorem Reaches.trans (first : machine.Reaches program next) (second : next.Reaches program last) :
    machine.Reaches program last := by
  obtain ⟨steps, hsteps⟩ := first
  obtain ⟨steps', hsteps'⟩ := second
  refine ⟨steps + steps', fun more ↦ ?_⟩
  rw [Nat.add_assoc, hsteps, hsteps']

/-- A run that comes to a state from which it faults ends in that fault. -/
theorem Reaches.faults {fault : Fault} (first : machine.Reaches program next)
    (second : next.Faults program fault) : machine.Faults program fault := by
  obtain ⟨steps, hsteps⟩ := first
  obtain ⟨steps', failed, hsteps'⟩ := second
  refine ⟨steps + steps', failed, fun more ↦ ?_⟩
  rw [Nat.add_assoc, hsteps, hsteps']

/-- A machine at an instruction has not reached the end. -/
theorem atEnd_eq_false {inst : Inst} (found : program[machine.pc]? = some inst) :
    machine.atEnd program = false := by
  obtain ⟨hlt, -⟩ := Array.getElem?_eq_some_iff.mp found
  simpa [atEnd] using hlt

/-- An instruction that does not fault is a stretch of a run. -/
theorem Reaches.step {inst : Inst} (found : program[machine.pc]? = some inst)
    (done : Machine.step program machine.tick = .ok () next) : machine.Reaches program next := by
  refine ⟨1, fun more ↦ ?_⟩
  rw [Nat.add_comm]
  simp [loop, atEnd_eq_false found, done]

/-- An instruction that faults ends a run. -/
theorem Faults.step {inst : Inst} {fault : Fault} (found : program[machine.pc]? = some inst)
    (failed : Machine.step program machine.tick = .error fault last) :
    machine.Faults program fault := by
  refine ⟨1, last, fun more ↦ ?_⟩
  rw [Nat.add_comm]
  simp [loop, atEnd_eq_false found, failed]

/-! ## Stretches as computations -/

/-- A run that is at `machine` comes to a state with `post`, or to a fault, as `result` says. -/
def Comes {α : Type} (program : Program) (machine : Machine) (result : Except Fault α)
    (post : α → Machine → Prop) : Prop :=
  match result with
  | .ok value => ∃ next, machine.Reaches program next ∧ post value next
  | .error fault => machine.Faults program fault

section Comes

variable {α β : Type} {result : Except Fault α} {post : α → Machine → Prop}
  {continuation : α → Except Fault β} {after : β → Machine → Prop}

/-- A run that has come to a state with `post`. -/
theorem Comes.pure {value : α} (h : post value machine) :
    machine.Comes program (.ok value) post :=
  ⟨machine, .refl program machine, h⟩

/-- Stretches that follow one another. -/
theorem Comes.bind (first : machine.Comes program result post)
    (second : ∀ value next, result = .ok value → post value next →
      next.Comes program (continuation value) after) :
    machine.Comes program (result >>= continuation) after := by
  cases result with
  | error fault => exact first
  | ok value =>
      obtain ⟨next, hreach, hpost⟩ := first
      have hsecond := second value next rfl hpost
      show machine.Comes program (continuation value) after
      cases h : continuation value with
      | error fault =>
          rw [h] at hsecond
          exact hreach.faults hsecond
      | ok value' =>
          rw [h] at hsecond
          obtain ⟨last, hlast, hafter⟩ := hsecond
          exact ⟨last, hreach.trans hlast, hafter⟩

/-- A stretch that leads to the start of another. -/
theorem Comes.of_reaches (first : machine.Reaches program next)
    (second : next.Comes program result post) : machine.Comes program result post := by
  cases result with
  | error fault => exact first.faults second
  | ok value =>
      obtain ⟨last, hlast, hpost⟩ := second
      exact ⟨last, first.trans hlast, hpost⟩

/-- What is known of a stretch may be weakened. -/
theorem Comes.mono {post' : α → Machine → Prop} (h : machine.Comes program result post)
    (weaker : ∀ value next, post value next → post' value next) :
    machine.Comes program result post' := by
  cases result with
  | error fault => exact h
  | ok value =>
      obtain ⟨next, hreach, hpost⟩ := h
      exact ⟨next, hreach, weaker value next hpost⟩

/-- The value of a stretch may be changed. -/
theorem Comes.map {f : α → β}
    (h : machine.Comes program result fun value next ↦ after (f value) next) :
    machine.Comes program (result.map f) after := by
  cases result with
  | error fault => exact h
  | ok value => exact h

end Comes

/-! ## Whole runs -/

/-- A run from `start` that no watch ends leaves `final` and comes to `outcome`: it does so under
every watch that lasts long enough. -/
def RunsTo (program : Program) (start : Word) (machine final : Machine)
    (outcome : Except Fault Word) : Prop :=
  ∃ checks, ∀ watch : Watch, checks ≤ watch.checks →
    machine.runAt program watch start = (final, outcome.mapError .fault)

/-- What a run comes to after this progress, if it has come to something. -/
def Progress.outcome? (progress : Progress) (machine : Machine) : Option (Except Fault Word) :=
  match progress with
  | .ended => some machine.result
  | .faulted cause => some (.error cause)
  | .paused => none

/-- A watch allows at least as many steps as it passes checks. -/
theorem checks_le_allowance (watch : Watch) (steps : Nat) :
    watch.checks ≤ watch.allowance steps := by
  have hlt : steps % Watch.interval < Watch.interval := Nat.mod_lt _ (by decide)
  simp only [Watch.allowance, Watch.interval] at hlt ⊢
  omega

/-- The outcome of a run tells its value or its fault. -/
theorem mapError_fault_inj {outcome outcome' : Except Fault Word}
    (same : outcome.mapError Stop.fault = outcome'.mapError Stop.fault) : outcome = outcome' := by
  cases outcome with
  | ok value =>
      cases outcome' with
      | ok value' => exact congrArg Except.ok (Except.ok.inj same)
      | error fault => cases same
  | error fault =>
      cases outcome' with
      | ok value => cases same
      | error fault' => exact congrArg Except.error (Stop.fault.inj (Except.error.inj same))

/-- A run that does not start. -/
theorem runsTo_iff_refused {start : Word} {final : Machine} {outcome : Except Fault Word}
    (refused : startAddress? program start = none) :
    machine.RunsTo program start final outcome ↔
      final = machine.begin 0 ∧ outcome = .error (.start start program.size) := by
  have hrun : ∀ watch : Watch, machine.runAt program watch start =
      (machine.begin 0, .error (.fault (.start start program.size))) := fun watch ↦ by
    simp only [runAt, refused]
  constructor
  · rintro ⟨checks, hchecks⟩
    have heq := (hrun ⟨checks, .canceled⟩).symm.trans (hchecks ⟨checks, .canceled⟩ (Nat.le_refl _))
    obtain ⟨hfinal, houtcome⟩ := Prod.mk.inj heq
    refine ⟨hfinal.symm, mapError_fault_inj ?_⟩
    rw [← houtcome]
    rfl
  · rintro ⟨rfl, rfl⟩
    exact ⟨0, fun watch _ ↦ hrun watch⟩

/-- Steps that have come to something come to the same as more of them. -/
theorem loop_of_outcome? {stopped : Machine} {progress : Progress} {allowance : Nat}
    {outcome : Except Fault Word} (ended : machine.loop program allowance = (stopped, progress))
    (come : progress.outcome? stopped = some outcome) (more : Nat) :
    machine.loop program (allowance + more) = (stopped, progress) := by
  rw [loop_add, ended]
  cases progress with
  | ended => rfl
  | faulted cause => rfl
  | paused => cases come

/-- Numbers of steps that have come to something have come to the same. -/
theorem loop_unique {stopped stopped' : Machine} {progress progress' : Progress}
    {allowance allowance' : Nat} {outcome outcome' : Except Fault Word}
    (ended : machine.loop program allowance = (stopped, progress))
    (come : progress.outcome? stopped = some outcome)
    (ended' : machine.loop program allowance' = (stopped', progress'))
    (come' : progress'.outcome? stopped' = some outcome') :
    (stopped, progress) = (stopped', progress') := by
  rw [← loop_of_outcome? ended come allowance', Nat.add_comm,
    loop_of_outcome? ended' come' allowance]

/-- A run that has come to something ends with it, and one that has not is interrupted. -/
theorem conclude_eq (reason : Interrupt) (machine : Machine) (progress : Progress) :
    conclude reason (machine, progress) =
      match progress.outcome? machine with
      | some outcome => (machine, outcome.mapError .fault)
      | none => (machine.tick, .error (.interrupted reason)) := by
  cases progress with
  | ended =>
      simp only [conclude, Progress.outcome?]
      cases machine.result <;> rfl
  | faulted cause => rfl
  | paused => rfl

/-- A run comes to what some number of steps bring it to. -/
theorem runsTo_iff_loop {start : Word} {pc : Nat} {final : Machine} {outcome : Except Fault Word}
    (found : startAddress? program start = some pc) :
    machine.RunsTo program start final outcome ↔
      ∃ allowance progress, (machine.begin pc).loop program allowance = (final, progress) ∧
        progress.outcome? final = some outcome := by
  constructor
  · rintro ⟨checks, hchecks⟩
    have hrun := hchecks ⟨checks, .canceled⟩ (Nat.le_refl _)
    simp only [runAt, found] at hrun
    generalize Watch.allowance _ _ = allowance at hrun
    rcases hloop : (machine.begin pc).loop program allowance with ⟨stopped, progress⟩
    rw [hloop, conclude_eq] at hrun
    cases houtcome : progress.outcome? stopped with
    | none =>
        rw [houtcome] at hrun
        cases outcome <;> cases (Prod.mk.inj hrun).2
    | some reached =>
        rw [houtcome] at hrun
        obtain ⟨rfl, hsame⟩ := Prod.mk.inj hrun
        exact ⟨allowance, progress, hloop, by rw [houtcome, mapError_fault_inj hsame]⟩
  · rintro ⟨allowance, progress, hloop, houtcome⟩
    refine ⟨allowance, fun watch hwatch ↦ ?_⟩
    have hallowance := checks_le_allowance watch machine.steps
    obtain ⟨more, hmore⟩ : ∃ more, watch.allowance machine.steps = allowance + more :=
      ⟨watch.allowance machine.steps - allowance, by omega⟩
    have hstays := loop_of_outcome? hloop houtcome more
    simp only [runAt, found, hmore, hstays, conclude_eq, houtcome]

/-- A run has at most one outcome. -/
theorem RunsTo.unique {start : Word} {final final' : Machine} {outcome outcome' : Except Fault Word}
    (h : machine.RunsTo program start final outcome)
    (h' : machine.RunsTo program start final' outcome') : final = final' ∧ outcome = outcome' := by
  obtain ⟨checks, hchecks⟩ := h
  obtain ⟨checks', hchecks'⟩ := h'
  -- Both outcomes show under a watch that lasts long enough for either run.
  have heq := (hchecks ⟨max checks checks', .canceled⟩ (Nat.le_max_left _ _)).symm.trans
    (hchecks' ⟨max checks checks', .canceled⟩ (Nat.le_max_right _ _))
  obtain ⟨hfinal, hsame⟩ := Prod.mk.inj heq
  exact ⟨hfinal, mapError_fault_inj hsame⟩

/-- A longer watch allows at least as many steps. -/
theorem allowance_mono {watch longer : Watch} (le : watch.checks ≤ longer.checks) (steps : Nat) :
    watch.allowance steps ≤ longer.allowance steps := by
  simp only [Watch.allowance, Watch.interval]
  omega

/-- A run that gave a value under some watch gives it under every longer one. -/
theorem runAt_of_le {start value : Word} {watch longer : Watch}
    (ended : machine.runAt program watch start = (last, .ok value))
    (le : watch.checks ≤ longer.checks) :
    machine.runAt program longer start = (last, .ok value) := by
  unfold runAt at ended ⊢
  cases hstart : startAddress? program start with
  | none =>
      rw [hstart] at ended
      cases ended
  | some pc =>
      simp only [hstart] at ended ⊢
      obtain ⟨more, hmore⟩ := Nat.exists_eq_add_of_le (allowance_mono le machine.steps)
      rw [hmore, loop_add]
      -- The run cannot have paused, as it was not interrupted.
      rcases hloop : (machine.begin pc).loop program (watch.allowance machine.steps) with
        ⟨stopped, progress⟩
      rw [hloop] at ended
      cases progress with
      | ended => exact ended
      | faulted fault => cases ended
      | paused => cases ended

/-- A run that gives a value under some watch comes to this value. -/
theorem RunsTo.of_runAt {start value : Word} {watch : Watch} {final : Machine}
    {outcome : Except Fault Word} (h : machine.RunsTo program start final outcome)
    (ended : machine.runAt program watch start = (last, .ok value)) :
    last = final ∧ outcome = .ok value := by
  obtain ⟨checks, hchecks⟩ := h
  have hlonger := runAt_of_le ended
    (show watch.checks ≤ (⟨max checks watch.checks, .canceled⟩ : Watch).checks from
      Nat.le_max_right _ _)
  rw [hchecks _ (Nat.le_max_left _ _)] at hlonger
  cases outcome with
  | ok other =>
      cases hlonger
      exact ⟨rfl, rfl⟩
  | error fault => cases hlonger

/-- A run under a watch that does not last long enough is interrupted, and every other one comes to
the outcome. -/
theorem RunsTo.runAt_cases {start : Word} {final : Machine} {outcome : Except Fault Word}
    (h : machine.RunsTo program start final outcome) (watch : Watch) :
    machine.runAt program watch start = (final, outcome.mapError .fault) ∨
      (machine.runAt program watch start).2 = .error (.interrupted watch.reason) := by
  cases hstart : startAddress? program start with
  | none =>
      obtain ⟨rfl, rfl⟩ := (runsTo_iff_refused hstart).mp h
      refine .inl ?_
      simp only [runAt, hstart]
      rfl
  | some pc =>
      obtain ⟨allowance, progress, hloop, houtcome⟩ := (runsTo_iff_loop hstart).mp h
      rcases hreached : (machine.begin pc).loop program (watch.allowance machine.steps) with
        ⟨stopped, reached⟩
      have hrun : machine.runAt program watch start = conclude watch.reason (stopped, reached) := by
        simp only [runAt, hstart, hreached]
      rw [hrun, conclude_eq]
      cases hstopped : reached.outcome? stopped with
      | none => exact .inr rfl
      | some other =>
          -- Both numbers of steps have come to the end of the run, which is the same.
          have hsame := loop_unique hloop houtcome hreached hstopped
          obtain ⟨rfl, rfl⟩ := Prod.mk.inj hsame
          rw [houtcome] at hstopped
          cases hstopped
          exact .inl rfl

/-- A run that reaches the end of the program leaves its result. -/
theorem Reaches.runsTo {start : Word} {pc : Nat} (found : startAddress? program start = some pc)
    (reach : (machine.begin pc).Reaches program last) (ended : last.atEnd program = true) :
    machine.RunsTo program start last last.result := by
  obtain ⟨steps, hsteps⟩ := reach
  refine (runsTo_iff_loop found).mpr ⟨steps + 0, .ended, ?_, rfl⟩
  rw [hsteps, loop, if_pos ended]

/-- A run that faults comes to that fault. -/
theorem Faults.runsTo {start : Word} {pc : Nat} {fault : Fault}
    (found : startAddress? program start = some pc)
    (faults : (machine.begin pc).Faults program fault) :
    ∃ failed, machine.RunsTo program start failed (.error fault) := by
  obtain ⟨steps, failed, hsteps⟩ := faults
  exact ⟨failed, (runsTo_iff_loop found).mpr ⟨steps + 0, .faulted fault, hsteps 0, rfl⟩⟩

/-- A run whose only stretch leads to the end of the program comes to the result that is there, or
to the fault of the stretch. -/
theorem Comes.runsTo {α : Type} {result : Except Fault α} {post : α → Machine → Prop}
    {start : Word} {pc : Nat} (found : startAddress? program start = some pc)
    (comes : (machine.begin pc).Comes program result post)
    (ended : ∀ value next, post value next → next.atEnd program = true) :
    ∃ final, machine.RunsTo program start final (result >>= fun _ ↦ final.result) ∧
      ∀ value, result = .ok value → post value final := by
  cases result with
  | ok value =>
      obtain ⟨final, hreach, hpost⟩ := comes
      exact ⟨final, hreach.runsTo found (ended value final hpost), by rintro _ ⟨⟩; exact hpost⟩
  | error fault =>
      obtain ⟨final, hruns⟩ := Faults.runsTo found comes
      exact ⟨final, hruns, nofun⟩

end WordLisp.Machine
