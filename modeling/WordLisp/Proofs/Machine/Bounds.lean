import WordLisp.Machine.Dump
import WordLisp.Proofs.Machine.Reuse

/-!
# How far `sp` can go

Code may put any words on the stack, and `exit` takes a return address and the base of a frame from
it. Still `sp` stays between the first slot and the slot behind the last one, and a push is refused
on a full stack only (`runAt_orderly`): every instruction keeps `sp` there, whatever it faults with.

There is one way out: `exit` cuts the stack off at `bp`, and where code has made `bp` negative, `sp`
follows it and the push of the result is refused (`runAt_orderly_below`).
-/

namespace WordLisp.Machine

/-- A machine whose `sp` is a slot of its stack, or the one behind the last. -/
structure Bounded (machine : Machine) (size : Word) : Prop where
  ready : machine.Ready size
  sp_nonneg : 0 ≤ machine.sp
  sp_le : machine.sp ≤ size

/-- A fault that leaves `sp` in its bounds, and that is an overflow on a full stack only. -/
structure Settled (size : Word) (fault : Fault) (failed : Machine) : Prop where
  bounded : failed.Bounded size
  full : fault.kind = "vm.stack_overflow" → fault = overflow size ∧ failed.sp = size

/-- The fault of a machine whose `sp` has followed a negative frame. -/
structure Escaped (frame : Word) (fault : Fault) (failed : Machine) : Prop where
  below : frame < 0
  sp_eq : failed.sp = frame
  fault_eq : fault = .push (.negative .store frame)

/-- A run that is at `machine` comes to an `exit` whose frame is negative, and faults there. -/
def Escapes (program : Program) (machine : Machine) (fault : Fault) (failed : Machine) : Prop :=
  ∃ before, machine.Reaches program before ∧ program[before.pc]?.map Inst.op = some .exit ∧
    Escaped before.bp fault failed

/-- Steps from `machine` on keep `sp` in its bounds, unless the run escapes. -/
def Stays (size : Word) (program : Program) (machine : Machine) : Machine × Progress → Prop
  | (failed, .faulted fault) => Settled size fault failed ∨ machine.Escapes program fault failed
  | (final, .ended) | (final, .paused) => final.Bounded size

/-- What some work does to a machine keeps `sp` in its bounds, or faults in the given way. -/
def Confined {α : Type} (size : Word) (escapes : Fault → Machine → Prop) :
    EStateM.Result Fault Machine α → Prop
  | .ok _ next => next.Bounded size
  | .error fault failed => Settled size fault failed ∨ escapes fault failed

/-- Some work keeps `sp` in its bounds, or faults in the given way. -/
def Confines {α : Type} (size : Word) (escapes : Fault → Machine → Prop) (work : Exec α) : Prop :=
  ∀ machine : Machine, machine.Bounded size → Confined size escapes (work machine)

/-- What is true of the rest of a run is true of the whole. -/
theorem Stays.of_reaches {size : Word} {program : Program} {machine next : Machine}
    {reached : Machine × Progress} (h : next.Stays size program reached)
    (first : machine.Reaches program next) : machine.Stays size program reached := by
  obtain ⟨final, progress⟩ := reached
  cases progress with
  | faulted fault =>
      refine h.imp id ?_
      rintro ⟨before, hreach, hescaped⟩
      exact ⟨before, first.trans hreach, hescaped⟩
  | ended => exact h
  | paused => exact h

/-- The ways to fault may be described more loosely. -/
theorem Confined.mono {α : Type} {size : Word} {escapes escapes' : Fault → Machine → Prop}
    {result : EStateM.Result Fault Machine α} (h : Confined size escapes result)
    (looser : ∀ fault failed, escapes fault failed → escapes' fault failed) :
    Confined size escapes' result := by
  cases result with
  | ok value next => exact h
  | error fault failed => exact h.imp id (looser fault failed)

/-- Work that looks at the machine first. -/
theorem Confined.get_bind {α : Type} {size : Word} {escapes : Fault → Machine → Prop}
    {machine : Machine} {next : Machine → Exec α}
    (h : Confined size escapes (next machine machine)) :
    Confined size escapes ((get >>= next) machine) := h

namespace Bounded

variable {machine next : Machine} {size : Word}

/-- Work on a machine in its bounds. -/
theorem confined {α : Type} {escapes : Fault → Machine → Prop} {work : Exec α}
    (h : machine.Bounded size) (confines : Confines size escapes work) :
    Confined size escapes (work machine) :=
  confines machine h

/-- A fault of another kind than an overflow. -/
theorem settled (h : machine.Bounded size) {fault : Fault}
    (other : fault.kind ≠ "vm.stack_overflow") : Settled size fault machine :=
  ⟨h, fun hkind ↦ absurd hkind other⟩

/-- The other registers have no bounds. -/
theorem move (h : machine.Bounded size) (stack_eq : next.stack = machine.stack)
    (sp_eq : next.sp = machine.sp) : next.Bounded size := by
  refine ⟨h.ready.of_stack_eq stack_eq, ?_, ?_⟩ <;> rw [sp_eq]
  · exact h.sp_nonneg
  · exact h.sp_le

/-- The stack may be cut off at a slot. -/
theorem cut (h : machine.Bounded size) {sp : Word} (nonneg : 0 ≤ sp) (le : sp ≤ machine.sp) :
    { machine with sp }.Bounded size :=
  ⟨h.ready.of_stack_eq rfl, nonneg, Int64.le_trans le h.sp_le⟩

/-- A push onto a stack in its bounds is refused on a full stack only. -/
theorem push (h : machine.Bounded size) (value : Word) (escapes : Fault → Machine → Prop) :
    Confined size escapes (Exec.push value machine) := by
  have hnonneg : ¬machine.sp < 0 := Int64.not_lt.mpr h.sp_nonneg
  by_cases hfull : size ≤ machine.sp
  · have hsp : machine.sp = size := Int64.le_antisymm h.sp_le hfull
    have hrefused : machine.stack.refusal? .store machine.sp =
        some (.pastLimit .store size size) := by
      rw [h.ready.refusal?_eq, if_neg hnonneg, if_pos hfull, hsp]
    simp only [Exec.push, Memory.store_refused value hrefused]
    exact .inl ⟨h, fun _ ↦ ⟨rfl, hsp⟩⟩
  · have haccepted : machine.stack.refusal? .store machine.sp = none := by
      rw [h.ready.refusal?_eq, if_neg hnonneg, if_neg hfull]
    obtain ⟨stack, hstored, hstore⟩ := h.ready.valid.store_word value haccepted
    simp only [Exec.push, hstore]
    have hroom : machine.sp < size := Int64.not_le.mp hfull
    have hup : machine.sp < machine.sp + 1 :=
      (Word.lt_add_one_iff hroom).mpr (Int64.le_refl _)
    have hle : machine.sp + 1 ≤ size :=
      Int64.not_lt.mp fun hlt ↦ hfull ((Word.lt_add_one_iff hroom).mp hlt)
    exact ⟨h.ready.stored hstored, Int64.le_trans h.sp_nonneg (Int64.le_of_lt hup), hle⟩

end Bounded

/-- No operator overflows the stack. -/
theorem kind_of_apply {operator : Operator} {left right : Word} {fault : Fault}
    (failed : operator.apply left right = .error fault) : fault.kind ≠ "vm.stack_overflow" := by
  cases operator with
  | div | mod =>
      simp only [Operator.apply] at failed
      split at failed
      · cases failed
        simp [Fault.kind]
      · cases failed
  | unknown code =>
      cases failed
      simp [Fault.kind]
  | _ => cases failed

namespace Confines

variable {α β : Type} {size : Word} {escapes : Fault → Machine → Prop}

/-- Work after work. -/
theorem bind {first : Exec α} {second : α → Exec β} (hfirst : Confines size escapes first)
    (hsecond : ∀ value, Confines size escapes (second value)) :
    Confines size escapes (first >>= second) := by
  intro machine hbounded
  have hresult := hfirst machine hbounded
  show Confined size escapes (EStateM.bind first second machine)
  rw [EStateM.bind]
  cases h : first machine with
  | ok value next =>
      rw [h] at hresult
      exact hsecond value next hresult
  | error fault failed =>
      rw [h] at hresult
      exact hresult

/-- To look at the machine changes nothing. -/
theorem get : Confines size escapes (MonadState.get : Exec Machine) :=
  fun _ hbounded ↦ hbounded

/-- Nothing is done. -/
theorem pure (value : α) : Confines size escapes (Pure.pure value : Exec α) :=
  fun _ hbounded ↦ hbounded

/-- A fault of another kind than an overflow. -/
theorem throw {fault : Fault} (other : fault.kind ≠ "vm.stack_overflow") :
    Confines size escapes (MonadExcept.throw fault : Exec α) :=
  fun _ hbounded ↦ .inl (hbounded.settled other)

/-- The other registers have no bounds. -/
theorem change {move : Machine → Machine}
    (same : ∀ machine, (move machine).stack = machine.stack ∧ (move machine).sp = machine.sp) :
    Confines size escapes (modify move : Exec Unit) :=
  fun machine hbounded ↦ hbounded.move (same machine).1 (same machine).2

/-- A push moves `sp` up to the size of the stack at most. -/
theorem push (value : Word) : Confines size escapes (Exec.push value) :=
  fun _ hbounded ↦ hbounded.push value escapes

/-- A pop moves `sp` down to zero at least. -/
theorem pop : Confines size escapes Exec.pop := by
  intro machine hbounded
  simp only [Exec.pop]
  by_cases hempty : machine.sp ≤ 0
  · rw [if_pos hempty]
    exact .inl (hbounded.settled (by decide))
  · have hpos : 0 < machine.sp := Int64.not_le.mp hempty
    have hnonneg : 0 ≤ machine.sp - 1 := (Word.le_sub_one_iff hpos).mpr hpos
    have hnext := hbounded.cut hnonneg (Int64.le_of_lt (Word.sub_one_lt hpos))
    rw [if_neg hempty]
    cases machine.stack.load (machine.sp - 1) with
    | ok value => exact hnext
    | error cause => exact .inl (hnext.settled (by simp [Fault.kind]))

/-- To look at an argument changes nothing. -/
theorem argument (index : Word) : Confines size escapes (Exec.argument index) := by
  intro machine hbounded
  simp only [Exec.argument]
  split
  · exact .inl (hbounded.settled (by simp [Fault.kind]))
  · cases machine.stack.load (machine.bp + index) with
    | ok value => exact hbounded
    | error cause => exact .inl (hbounded.settled (by simp [Fault.kind]))

/-- A jump leaves the stack alone. -/
theorem jump (length : Nat) (address : Word) :
    Confines size escapes (Exec.jump length address) := by
  intro machine hbounded
  simp only [Exec.jump]
  split
  · exact .inl (hbounded.settled (by simp [Fault.kind]))
  · exact hbounded.move rfl rfl

/-- An operator has nothing to do with the machine. -/
theorem apply (operator : Operator) (left right : Word) :
    Confines size escapes (Exec.ofResult (operator.apply left right)) := by
  cases h : operator.apply left right with
  | ok value => exact pure value
  | error fault => exact throw (kind_of_apply h)

end Confines

namespace Bounded

variable {machine : Machine} {size : Word}

/-- Every instruction keeps `sp` in its bounds, but for an `exit` whose frame is negative. -/
theorem perform (h : machine.Bounded size) (length address : Nat) (inst : Inst) :
    Confined size (fun fault failed ↦ inst.op = .exit ∧ Escaped machine.bp fault failed)
      (Machine.perform length address inst machine) := by
  unfold Machine.perform
  cases hop : inst.op with
  | constant => exact h.confined (.push _)
  | arg => exact h.confined (.bind (.argument _) fun _ ↦ .push _)
  | binary =>
      exact h.confined (.bind .pop fun _ ↦ .bind .pop fun _ ↦ .bind (.apply _ _ _) fun _ ↦ .push _)
  | unary => exact h.confined (.bind .pop fun _ ↦ .bind (.apply _ _ _) fun _ ↦ .push _)
  | jump => exact h.confined (.jump _ _)
  | jumpZ =>
      refine h.confined (.bind .pop fun condition ↦ ?_)
      split
      · exact .jump _ _
      · exact .pure _
  | call => exact h.confined (.bind .get fun _ ↦ .bind (.push _) fun _ ↦ .jump _ _)
  | enter =>
      refine h.confined (.bind .get fun _ ↦ .bind (.push _) fun _ ↦ .bind .get fun now ↦ ?_)
      dsimp only
      split
      · exact .bind (.throw (by simp [Fault.kind])) fun _ ↦ .change fun _ ↦ ⟨rfl, rfl⟩
      · exact .change fun _ ↦ ⟨rfl, rfl⟩
  | exit =>
      -- The frame that `exit` cuts the stack off at is the `bp` from before its pops.
      refine Confined.get_bind ?_
      dsimp only
      generalize machine.bp = frame
      refine h.confined (.bind .pop fun result ↦ .bind .pop fun caller ↦
        .bind (.change fun _ ↦ ⟨rfl, rfl⟩) fun _ ↦ .bind .pop fun back ↦
        .bind (.jump _ _) fun _ ↦ ?_)
      intro now hnow
      refine Confined.get_bind ?_
      by_cases habove : now.sp < frame
      · rw [if_pos habove]
        exact .inl (hnow.settled (by simp [Fault.kind]))
      · rw [if_neg habove]
        show Confined size _ (Exec.push result { now with sp := frame })
        by_cases hbelow : frame < 0
        · have hrefused : now.stack.refusal? .store frame =
              some (.negative .store frame) := if_pos hbelow
          simp only [Exec.push, Memory.store_refused result hrefused]
          exact .inr ⟨trivial, hbelow, rfl, rfl⟩
        · exact (hnow.cut (Int64.not_lt.mp hbelow) (Int64.not_lt.mp habove)).push result _
  | hole => exact h.confined (.throw (by simp [Fault.kind]))
  | unknown code => exact h.confined (.throw (by simp [Fault.kind]))

/-- One step keeps `sp` in its bounds, but for an `exit` whose frame is negative. -/
theorem step (h : machine.Bounded size) (program : Program) :
    Confined size (fun fault failed ↦ program[machine.pc]?.map Inst.op = some .exit ∧
      Escaped machine.bp fault failed) (Machine.step program machine) := by
  unfold Machine.step
  cases hinst : program[machine.pc]? with
  | none => exact h
  | some inst =>
      have hbehind : { machine with pc := machine.pc + 1 }.Bounded size := h.move rfl rfl
      refine (hbehind.perform program.size machine.pc inst).mono fun fault failed hescaped ↦ ?_
      exact ⟨congrArg some hescaped.1, hescaped.2⟩

/-- Any number of steps keeps `sp` in its bounds, unless the run escapes. -/
theorem loop (h : machine.Bounded size) (program : Program) (allowance : Nat) :
    machine.Stays size program (machine.loop program allowance) := by
  induction allowance generalizing machine with
  | zero =>
      rw [Machine.loop]
      split <;> exact h
  | succ allowance ih =>
      rw [Machine.loop]
      by_cases hend : machine.atEnd program
      · rw [if_pos hend]
        exact h
      · rw [if_neg hend]
        have htick : machine.tick.Bounded size := h.move rfl rfl
        have hstep := htick.step program
        have hlt : machine.pc < program.size := by simpa [atEnd] using hend
        cases hdone : Machine.step program machine.tick with
        | ok _ next =>
            rw [hdone] at hstep
            exact (ih hstep).of_reaches (.step (Array.getElem?_eq_getElem hlt) hdone)
        | error fault failed =>
            rw [hdone] at hstep
            refine hstep.imp id fun hescaped ↦ ?_
            exact ⟨machine, .refl program machine, hescaped.1, hescaped.2⟩

end Bounded

/-! ## Whole runs -/

/-- What a run on a machine of `size` slots leaves and comes to if it keeps `sp` in its bounds: the
stack can be shown, and an overflow is that of a full stack. -/
structure Orderly (size : Word) (program : Program) (final : Machine)
    (outcome : Except Stop Word) : Prop where
  sp_nonneg : 0 ≤ final.sp
  sp_le : final.sp ≤ size
  live : final.live?.isSome
  dump : (final.dump? program).isSome
  full : ∀ fault, outcome = .error (.fault fault) → fault.kind = "vm.stack_overflow" →
    fault = overflow size ∧ final.sp = size

section Orderly

variable {size : Word} {machine final : Machine} {program : Program} {outcome : Except Stop Word}

/-- Without a stack to show there is no dump. -/
theorem dump?_eq_none (missing : machine.live? = none) (program : Program) :
    machine.dump? program = none := by
  simp [dump?, missing]

/-- The stack can be shown where `sp` is in its bounds. -/
theorem Bounded.orderly (h : final.Bounded size) (program : Program)
    (full : ∀ fault, outcome = .error (.fault fault) → fault.kind = "vm.stack_overflow" →
      fault = overflow size ∧ final.sp = size) : Orderly size program final outcome := by
  have hlive : ∃ words, final.live? = some words := by
    rw [live?, if_neg (Int64.not_lt.mpr h.sp_nonneg)]
    split <;> exact ⟨_, rfl⟩
  obtain ⟨words, hwords⟩ := hlive
  exact ⟨h.sp_nonneg, h.sp_le, by simp [hwords], by simp [dump?, hwords], full⟩

/-- A missing result is no overflow. -/
theorem kind_of_result {fault : Fault} (failed : machine.result = .error fault) :
    fault.kind ≠ "vm.stack_overflow" := by
  rw [result] at failed
  split at failed
  · cases failed
    decide
  · split at failed
    · cases failed
    · cases failed
      simp [Fault.kind]

/-- What a run comes to after steps that kept `sp` in its bounds. -/
theorem Stays.orderly {reached : Machine × Progress} (h : machine.Stays size program reached)
    (reason : Interrupt) :
    Orderly size program (conclude reason reached).1 (conclude reason reached).2 ∨
      ∃ fault, machine.Escapes program fault (conclude reason reached).1 ∧
        (conclude reason reached).2 = .error (.fault fault) := by
  obtain ⟨final, progress⟩ := reached
  cases progress with
  | faulted cause =>
      rcases h with hsettled | hescapes
      · refine .inl (hsettled.bounded.orderly program fun fault hfault ↦ ?_)
        cases hfault
        exact hsettled.full
      · exact .inr ⟨cause, hescapes, rfl⟩
  | paused =>
      have htick : final.tick.Bounded size := Bounded.move h rfl rfl
      refine .inl (htick.orderly program fun fault hfault ↦ ?_)
      cases hfault
  | ended =>
      have hbounded : final.Bounded size := h
      rw [conclude]
      cases hresult : final.result with
      | ok value =>
          refine .inl (hbounded.orderly program fun fault hfault ↦ ?_)
          cases hfault
      | error cause =>
          refine .inl (hbounded.orderly program fun fault hfault ↦ ?_)
          cases hfault
          exact fun hkind ↦ absurd hkind (kind_of_result hresult)

/-- Whatever a program does, a run leaves `sp` in its bounds and overflows on a full stack only,
unless it comes to an `exit` whose frame is negative. -/
theorem runAt_orderly (used : Used size machine) (pos : 0 < size) (program : Program)
    (watch : Watch) (start : Word) :
    Orderly size program (machine.runAt program watch start).1
        (machine.runAt program watch start).2 ∨
      ∃ pc fault, startAddress? program start = some pc ∧
        (machine.begin pc).Escapes program fault (machine.runAt program watch start).1 ∧
        (machine.runAt program watch start).2 = .error (.fault fault) := by
  have hbegin : ∀ pc, (machine.begin pc).Bounded size := fun pc ↦
    ⟨(used.ready pos).of_stack_eq rfl, Int64.le_refl _, Int64.le_of_lt pos⟩
  cases hstart : startAddress? program start with
  | none =>
      simp only [runAt, hstart]
      refine .inl ((hbegin 0).orderly program fun fault hfault ↦ ?_)
      cases hfault
      exact fun hkind ↦ absurd hkind (by simp [Fault.kind])
  | some pc =>
      simp only [runAt, hstart]
      rcases ((hbegin pc).loop program _).orderly watch.reason with horderly | ⟨fault, hescapes⟩
      · exact .inl horderly
      · exact .inr ⟨pc, fault, rfl, hescapes⟩

/-- A third word on a stack of two slots is an overflow. -/
theorem runAt_orderly_full :
    let program : Program := #[.constant 1, .constant 2, .constant 3]
    let ran := (Machine.new 2).runAt program .never 0
    Orderly 2 program ran.1 ran.2 ∧ ran.2 = .error (.fault (overflow 2)) := by
  intro program ran
  have hsp : ran.1.sp = 2 := by decide +kernel
  have hfault : ran.2 = .error (.fault (overflow 2)) := by
    decide +kernel
  rcases runAt_orderly (.new : Used 2 _) (by decide) program .never 0 with
    horderly | ⟨pc, fault, -, ⟨before, -, -, hescaped⟩, -⟩
  · exact ⟨horderly, hfault⟩
  · -- The run does not end with a negative `sp`.
    have hbelow := hescaped.below
    rw [← hescaped.sp_eq, hsp] at hbelow
    exact absurd hbelow (by decide)

/-- The first `exit` leaves a `bp` of -1, to which the second one moves `sp`. The fault is an
overflow of a stack that is far from full, and the stack cannot be shown any more. -/
theorem runAt_orderly_below :
    let program : Program :=
      #[.constant 4, .constant (-1), .constant 0, .exit, .constant 0, .constant 0, .exit]
    let ran := (Machine.new 8).runAt program .never 0
    ¬Orderly 8 program ran.1 ran.2 ∧ ran.1.sp = -1 ∧ ran.1.live? = none ∧
      ran.1.dump? program = none ∧ ran.2 = .error (.fault (.push (.negative .store (-1)))) ∧
      (Fault.push (.negative .store (-1))).kind = "vm.stack_overflow" := by
  intro program ran
  have hsp : ran.1.sp = -1 := by decide +kernel
  have hlive : ran.1.live? = none := by decide +kernel
  refine ⟨fun horderly ↦ ?_, hsp, hlive, dump?_eq_none hlive program, ?_, rfl⟩
  · have hnonneg := horderly.sp_nonneg
    rw [hsp] at hnonneg
    exact absurd hnonneg (by decide)
  · decide +kernel

end Orderly

end WordLisp.Machine
