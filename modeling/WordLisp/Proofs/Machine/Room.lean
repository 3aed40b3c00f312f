import WordLisp.Proofs.Machine.Bounds

/-!
# More room on the stack

The size of a stack shows in a run in one way only: a push finds no slot. Every other access lies
below `sp`, which stays within the smaller size (`Bounded`), so with more slots a machine does what
it did with fewer (`Widens`), up to a push that was refused.

`resize` gives a machine more slots and leaves all else as it is. A run that does not overflow the
stack of a new machine comes to the same with a larger one: `larger_stack_agrees`.
-/

namespace WordLisp

/-! ## Memories with another limit -/

namespace Memory

variable {memory : Memory} {limit address : Word}

/-- The memory with another limit. -/
def withLimit (memory : Memory) (limit : Word) : Memory :=
  { memory with limit }

/-- The pages do not depend on the limit. -/
theorem Valid.withLimit (valid : memory.Valid) (limit : Word) : (memory.withLimit limit).Valid :=
  ⟨⟨valid.size_nonneg, valid.chosen, valid.paired, valid.sorted, valid.aligned, valid.sized⟩,
    valid.size_le⟩

/-- The page that is allocated for an address does not depend on the limit. -/
theorem allocate_withLimit (memory : Memory) (limit address : Word) :
    (memory.withLimit limit).allocate address = (memory.allocate address).withLimit limit := by
  show (if (memory.findPage address).2 then _ else _) =
    withLimit (if (memory.findPage address).2 then _ else _) limit
  split <;> rfl

/-- Nor do the words that are copied into it. -/
theorem copyTo_withLimit (memory : Memory) (limit address : Word) (values : List Word) :
    (memory.withLimit limit).copyTo address values =
      ((memory.copyTo address values).1.withLimit limit, (memory.copyTo address values).2) := by
  have hcontents :
      (memory.withLimit limit).contents[((memory.withLimit limit).findPage address).1]? =
        memory.contents[(memory.findPage address).1]? := rfl
  cases hwords : memory.contents[(memory.findPage address).1]? with
  | none =>
      rw [hwords] at hcontents
      simp only [copyTo, hcontents, hwords]
  | some words =>
      rw [hwords] at hcontents
      simp only [copyTo, hcontents, hwords]
      rfl

/-- A round of a store does not depend on the limit. -/
theorem round_withLimit (memory : Memory) (limit address : Word) (values : List Word) :
    Storing.round ⟨memory.withLimit limit, address, values⟩ =
      { Storing.round ⟨memory, address, values⟩ with
        memory := (Storing.round ⟨memory, address, values⟩).memory.withLimit limit } := by
  simp only [Storing.round, allocate_withLimit, copyTo_withLimit]

/-- Words that no limit refuses are stored alike. -/
theorem run_withLimit (rounds : Nat) (memory : Memory) (limit address : Word)
    (values : List Word) :
    Storing.run rounds ⟨memory.withLimit limit, address, values⟩ =
      ((Storing.run rounds ⟨memory, address, values⟩).1.withLimit limit,
        (Storing.run rounds ⟨memory, address, values⟩).2) := by
  induction rounds generalizing memory address values with
  | zero => rfl
  | succ rounds ih =>
      simp only [Storing.run]
      split
      · rfl
      · rw [round_withLimit]
        exact ih _ _ _

/-- So is one word at an address that neither limit refuses. -/
theorem store_withLimit (value : Word) (accepted : memory.refusal? .store address = none)
    (accepted' : (memory.withLimit limit).refusal? .store address = none) :
    (memory.withLimit limit).store address [value] =
      ((memory.store address [value]).1.withLimit limit, (memory.store address [value]).2) := by
  have hsize : (memory.withLimit limit).withPageSize = memory.withPageSize.withLimit limit := by
    unfold withPageSize withLimit
    split <;> rfl
  simp [store, rangeRefusal?, accepted, accepted', hsize, run_withLimit]

end Memory

namespace Machine

/-- The machine with another number of stack slots. -/
def resize (machine : Machine) (size : Word) : Machine :=
  { machine with stack := machine.stack.withLimit size }

/-- A new machine with more slots. -/
theorem resize_new {size larger : Word} (pos : 0 < size) (le : size ≤ larger) :
    (Machine.new size).resize larger = Machine.new larger := by
  have hlarger : 0 < larger := Int64.lt_of_lt_of_le pos le
  simp only [new, resize, Memory.withLimit, Memory.empty, if_neg (Int64.not_le.mpr hlarger)]

section Accesses

variable {machine : Machine} {size larger : Word}

/-- The slots of the smaller stack are slots of the larger one, and no address below them is one of
either. -/
theorem Ready.refusal?_resize (ready : machine.Ready size) (le : size ≤ larger) (access : Access)
    {address : Word} (lt : address < size) :
    (machine.resize larger).stack.refusal? access address =
      machine.stack.refusal? access address := by
  have hlarger : 0 < larger := Int64.lt_of_lt_of_le ready.size_pos le
  have hwider : (machine.resize larger).stack.limit = larger := rfl
  rw [ready.refusal?_eq, Memory.refusal?_eq_of_pos hwider hlarger,
    if_neg (Int64.not_le.mpr lt), if_neg (Int64.not_le.mpr (Int64.lt_of_lt_of_le lt le))]

/-- A word of the smaller stack is loaded alike. -/
theorem Ready.load_resize (ready : machine.Ready size) (le : size ≤ larger) {address : Word}
    (lt : address < size) :
    (machine.resize larger).stack.load address = machine.stack.load address := by
  simp only [Memory.load, ready.refusal?_resize le .load lt]
  rfl

/-- The predecessor of `sp` is a slot of the stack, or lies below all of them. -/
theorem Bounded.sub_one_lt (bounded : machine.Bounded size) (pos : 0 < machine.sp) :
    machine.sp - 1 < size :=
  Int64.lt_of_lt_of_le (Word.sub_one_lt pos) bounded.sp_le

/-- The value that a run left does not depend on the number of slots. -/
theorem Bounded.result_resize (bounded : machine.Bounded size) (le : size ≤ larger) :
    (machine.resize larger).result = machine.result := by
  have hsp : (machine.resize larger).sp = machine.sp := rfl
  simp only [result, hsp]
  by_cases hempty : machine.sp ≤ 0
  · rw [if_pos hempty, if_pos hempty]
  · have hlt := bounded.sub_one_lt (Int64.not_le.mp hempty)
    rw [if_neg hempty, if_neg hempty, bounded.ready.load_resize le hlt]

/-- Nor does what is on the stack. -/
theorem Bounded.live?_resize (bounded : machine.Bounded size) (le : size ≤ larger) :
    (machine.resize larger).live? = machine.live? := by
  have hrange : (machine.resize larger).stack.rangeRefusal? .load 0 machine.sp.toNatClampNeg =
      machine.stack.rangeRefusal? .load 0 machine.sp.toNatClampNeg := by
    unfold Memory.rangeRefusal?
    by_cases hcount : machine.sp.toNatClampNeg = 0
    · rw [if_pos hcount, if_pos hcount]
    · have hlast : 0 + Int64.ofNat machine.sp.toNatClampNeg - 1 = machine.sp - 1 := by
        rw [Int64.ofNat_toNatClampNeg machine.sp bounded.sp_nonneg, Int64.zero_add]
      have hpos : 0 < machine.sp := by
        refine Int64.lt_of_le_of_ne bounded.sp_nonneg fun hzero ↦ hcount ?_
        rw [← hzero]
        rfl
      rw [if_neg hcount, if_neg hcount, hlast, bounded.ready.refusal?_resize le .load
        bounded.ready.size_pos, bounded.ready.refusal?_resize le .load (bounded.sub_one_lt hpos)]
  have hsp : (machine.resize larger).sp = machine.sp := rfl
  have hvalid : (machine.resize larger).stack.Valid := bounded.ready.valid.withLimit larger
  rw [live?, live?, hsp, bounded.ready.valid.loadRange_congr hvalid
    machine.sp.toNatClampNeg_lt hrange fun _ _ ↦ rfl]

/-- A machine looks the same with more slots. -/
theorem Bounded.view_resize (bounded : machine.Bounded size) (le : size ≤ larger) :
    (machine.resize larger).view = machine.view := by
  rw [view, bounded.live?_resize le]
  rfl

end Accesses

/-! ## Work with more room -/

/-- What some work does to a machine in its bounds, and what it does with more slots: the same,
unless it has overflowed the stack. -/
inductive Widened {α : Type} (size larger : Word) :
    EStateM.Result Fault Machine α → EStateM.Result Fault Machine α → Prop where
  | ok {next : Machine} (value : α) : next.Bounded size →
      Widened size larger (.ok value next) (.ok value (next.resize larger))
  | error {failed : Machine} (fault : Fault) : failed.Bounded size →
      Widened size larger (.error fault failed) (.error fault (failed.resize larger))
  | overflow {fault : Fault} {failed : Machine} (result : EStateM.Result Fault Machine α) :
      fault.kind = "vm.stack_overflow" → Widened size larger (.error fault failed) result

/-- Some work does the same with more slots, unless it overflows the stack. -/
def Widens {α : Type} (size larger : Word) (work : Exec α) : Prop :=
  ∀ machine : Machine, machine.Bounded size →
    Widened size larger (work machine) (work (machine.resize larger))

namespace Widens

variable {α β : Type} {size larger : Word}

/-- Work after work. -/
theorem bind {first : Exec α} {second : α → Exec β} (hfirst : Widens size larger first)
    (hsecond : ∀ value, Widens size larger (second value)) :
    Widens size larger (first >>= second) := by
  intro machine hbounded
  have hwidened := hfirst machine hbounded
  show Widened size larger (EStateM.bind first second machine)
    (EStateM.bind first second (machine.resize larger))
  simp only [EStateM.bind]
  generalize first machine = result at hwidened
  generalize first (machine.resize larger) = result' at hwidened
  cases hwidened with
  | ok value hnext => exact hsecond value _ hnext
  | error fault hfailed => exact .error fault hfailed
  | overflow _ hkind => exact .overflow _ hkind

/-- A look at the machine, at anything but the number of its slots. -/
theorem get_bind {next : Machine → Exec β}
    (each : ∀ machine, Widens size larger (next machine))
    (same : ∀ machine : Machine, next (machine.resize larger) = next machine) :
    Widens size larger (MonadState.get >>= next) := by
  intro machine hbounded
  show Widened size larger (next machine machine)
    (next (machine.resize larger) (machine.resize larger))
  rw [same]
  exact each machine machine hbounded

/-- A change of registers other than `sp`. -/
theorem change {move : Machine → Machine}
    (stack_eq : ∀ machine, (move machine).stack = machine.stack)
    (sp_eq : ∀ machine, (move machine).sp = machine.sp)
    (same : ∀ machine, move (machine.resize larger) = (move machine).resize larger) :
    Widens size larger (modify move : Exec Unit) := by
  intro machine hbounded
  show Widened size larger (.ok () (move machine)) (.ok () (move (machine.resize larger)))
  rw [same]
  exact .ok () (hbounded.move (stack_eq machine) (sp_eq machine))

/-- Nothing is done. -/
theorem pure (value : α) : Widens size larger (Pure.pure value : Exec α) :=
  fun _ hbounded ↦ .ok value hbounded

/-- A fault. -/
theorem throw (fault : Fault) : Widens size larger (MonadExcept.throw fault : Exec α) :=
  fun _ hbounded ↦ .error fault hbounded

/-- A push finds its slot in the larger stack too, or it overflows the smaller one. This is so
wherever `sp` is. -/
theorem widened_push {machine : Machine} (ready : machine.Ready size) (le : size ≤ larger)
    (value : Word) :
    Widened size larger (Exec.push value machine) (Exec.push value (machine.resize larger)) := by
  cases hrefusal : machine.stack.refusal? .store machine.sp with
  | some error =>
      simp only [Exec.push, Memory.store_refused value hrefusal]
      exact .overflow _ rfl
  | none =>
      have hlt := ready.lt_size hrefusal
      have haccepted := (ready.refusal?_resize le .store hlt).trans hrefusal
      have hbounded : machine.Bounded size :=
        ⟨ready, Memory.nonneg_of_refusal? hrefusal, Int64.le_of_lt hlt⟩
      have hpushed := hbounded.push value fun _ _ ↦ False
      obtain ⟨stack, -, hstore⟩ := ready.valid.store_word value hrefusal
      have hstore' := Memory.store_withLimit value hrefusal haccepted
      rw [hstore] at hstore'
      simp only [Exec.push, hstore] at hpushed ⊢
      simp only [resize, hstore']
      exact .ok () hpushed

variable (le : size ≤ larger)

include le

/-- A push. -/
theorem push (value : Word) : Widens size larger (Exec.push value) :=
  fun _ hbounded ↦ widened_push hbounded.ready le value

/-- A pop looks at a slot below `sp`. -/
theorem pop : Widens size larger Exec.pop := by
  intro machine hbounded
  have hpopped : Confined size (fun _ _ ↦ False) (Exec.pop machine) :=
    Confines.pop machine hbounded
  have hsp : (machine.resize larger).sp = machine.sp := rfl
  simp only [Exec.pop, hsp] at hpopped ⊢
  by_cases hempty : machine.sp ≤ 0
  · rw [if_pos hempty, if_pos hempty]
    exact .error _ hbounded
  · have hlt := hbounded.sub_one_lt (Int64.not_le.mp hempty)
    have hload := hbounded.ready.load_resize le hlt
    rw [if_neg hempty] at hpopped
    rw [if_neg hempty, if_neg hempty, hload]
    cases hvalue : machine.stack.load (machine.sp - 1) with
    | ok value =>
        rw [hvalue] at hpopped
        exact .ok value hpopped
    | error cause =>
        rw [hvalue] at hpopped
        exact .error _ (hpopped.resolve_right id).bounded

/-- An argument lies below `sp`. -/
theorem argument (index : Word) : Widens size larger (Exec.argument index) := by
  intro machine hbounded
  have hsp : (machine.resize larger).sp = machine.sp := rfl
  have hbp : (machine.resize larger).bp = machine.bp := rfl
  simp only [Exec.argument, hsp, hbp]
  by_cases houtside : index < 0 ∨ machine.sp ≤ machine.bp + index
  · rw [if_pos houtside, if_pos houtside]
    exact .error _ hbounded
  · have hlive : machine.bp + index < machine.sp := Int64.not_le.mp fun hle ↦ houtside (.inr hle)
    have hlt := Int64.lt_of_lt_of_le hlive hbounded.sp_le
    rw [if_neg houtside, if_neg houtside, hbounded.ready.load_resize le hlt]
    cases machine.stack.load (machine.bp + index) with
    | ok value => exact .ok value hbounded
    | error cause => exact .error _ hbounded

omit le

/-- A jump leaves the stack alone. -/
theorem jump (length : Nat) (address : Word) : Widens size larger (Exec.jump length address) := by
  intro machine hbounded
  simp only [Exec.jump]
  split
  · exact .error _ hbounded
  · exact .ok () (hbounded.move rfl rfl)

/-- An operator has nothing to do with the machine. -/
theorem ofResult (result : Except Fault Word) : Widens size larger (Exec.ofResult result) := by
  cases result with
  | ok value => exact pure value
  | error fault => exact throw fault

/-- Every instruction does the same with more slots, unless it overflows the stack. -/
theorem perform (le : size ≤ larger) (length address : Nat) (inst : Inst) :
    Widens size larger (Machine.perform length address inst) := by
  unfold Machine.perform
  cases inst.op with
  | constant => exact push le _
  | arg => exact bind (argument le _) fun _ ↦ push le _
  | binary =>
      exact bind (pop le) fun _ ↦ bind (pop le) fun _ ↦ bind (ofResult _) fun _ ↦ push le _
  | unary => exact bind (pop le) fun _ ↦ bind (ofResult _) fun _ ↦ push le _
  | jump => exact jump _ _
  | jumpZ =>
      refine bind (pop le) fun condition ↦ ?_
      split
      · exact jump _ _
      · exact pure _
  | call =>
      exact get_bind (fun _ ↦ bind (push le _) fun _ ↦ jump _ _) fun _ ↦ rfl
  | enter =>
      refine get_bind (fun _ ↦ bind (push le _) fun _ ↦ get_bind (fun now ↦ ?_) fun _ ↦ rfl)
        fun _ ↦ rfl
      dsimp only
      split
      · exact bind (throw _) fun _ ↦ change (fun _ ↦ rfl) (fun _ ↦ rfl) fun _ ↦ rfl
      · exact change (fun _ ↦ rfl) (fun _ ↦ rfl) fun _ ↦ rfl
  | exit =>
      refine get_bind (fun before ↦ bind (pop le) fun result ↦ bind (pop le) fun caller ↦
        bind (change (fun _ ↦ rfl) (fun _ ↦ rfl) fun _ ↦ rfl) fun _ ↦
        bind (pop le) fun back ↦ bind (jump _ _) fun _ ↦ ?_) fun _ ↦ rfl
      intro machine hbounded
      show Widened size larger ((if machine.sp < before.bp then _ else _ : Exec Unit) machine)
        ((if machine.sp < before.bp then _ else _ : Exec Unit) (machine.resize larger))
      by_cases habove : machine.sp < before.bp
      · rw [if_pos habove, if_pos habove]
        exact .error _ hbounded
      · rw [if_neg habove, if_neg habove]
        -- A negative frame takes `sp` out of its bounds, but then the push overflows.
        have hcut : { machine with sp := before.bp }.Ready size := hbounded.ready.of_stack_eq rfl
        exact widened_push hcut le result
  | hole => exact throw _
  | unknown code => exact throw _

end Widens

/-! ## Runs with more room -/

section Runs

variable {machine : Machine} {size larger : Word}

/-- One step is the same with more slots, unless it overflows the stack. -/
theorem Bounded.widened_step (bounded : machine.Bounded size) (le : size ≤ larger)
    (program : Program) :
    Widened size larger (Machine.step program machine)
      (Machine.step program (machine.resize larger)) := by
  have hpc : (machine.resize larger).pc = machine.pc := rfl
  simp only [Machine.step, hpc]
  cases program[machine.pc]? with
  | none => exact .ok () bounded
  | some inst =>
      have hbehind : { machine with pc := machine.pc + 1 }.Bounded size := bounded.move rfl rfl
      exact Widens.perform le program.size machine.pc inst _ hbehind

/-- Steps that have come so far come as far with more slots, unless they have overflowed the
stack. -/
theorem Bounded.loop_resize (bounded : machine.Bounded size) (le : size ≤ larger)
    (program : Program) (allowance : Nat) {stopped : Machine} {progress : Progress}
    (reached : machine.loop program allowance = (stopped, progress))
    (fits : ∀ fault, progress = .faulted fault → fault.kind ≠ "vm.stack_overflow") :
    stopped.Bounded size ∧
      (machine.resize larger).loop program allowance = (stopped.resize larger, progress) := by
  induction allowance generalizing machine with
  | zero =>
      cases reached
      exact ⟨bounded, rfl⟩
  | succ allowance ih =>
      have hatEnd : (machine.resize larger).atEnd program = machine.atEnd program := rfl
      have htick_resize : (machine.resize larger).tick = machine.tick.resize larger := rfl
      rw [Machine.loop] at reached ⊢
      rw [hatEnd, htick_resize]
      by_cases hend : machine.atEnd program
      · rw [if_pos hend] at reached ⊢
        cases reached
        exact ⟨bounded, rfl⟩
      · rw [if_neg hend] at reached ⊢
        have htick : machine.tick.Bounded size := bounded.move rfl rfl
        have hstep := htick.widened_step le program
        generalize Machine.step program machine.tick = result at hstep reached
        generalize Machine.step program (machine.tick.resize larger) = result' at hstep
        cases hstep with
        | ok value hnext => exact ih hnext reached
        | error fault hfailed =>
            cases reached
            exact ⟨hfailed, rfl⟩
        | overflow _ hkind =>
            cases reached
            exact absurd hkind (fits _ rfl)

/-- More room on the stack changes nothing for a run that did not overflow it. Whatever a program
does, if its run on a new machine ends otherwise, then with a larger stack it comes to the same
value or fault, and leaves the same to see. -/
theorem larger_stack_agrees (pos : 0 < size) (le : size ≤ larger) (program : Program)
    (start : Word) {final : Machine} {outcome : Except Fault Word}
    (runs : (Machine.new size).RunsTo program start final outcome)
    (fits : ∀ fault, outcome = .error fault → fault.kind ≠ "vm.stack_overflow") :
    ∃ final', (Machine.new larger).RunsTo program start final' outcome ∧
      final'.view = final.view := by
  have hbegin : ∀ pc, ((Machine.new size).begin pc).Bounded size := fun pc ↦
    ⟨((Used.new : Used size _).ready pos).of_stack_eq rfl, Int64.le_refl _, Int64.le_of_lt pos⟩
  rw [← resize_new pos le]
  cases hstart : startAddress? program start with
  | none =>
      obtain ⟨rfl, rfl⟩ := (runsTo_iff_refused hstart).mp runs
      exact ⟨_, (runsTo_iff_refused hstart).mpr ⟨rfl, rfl⟩, (hbegin 0).view_resize le⟩
  | some pc =>
      obtain ⟨allowance, progress, hloop, houtcome⟩ := (runsTo_iff_loop hstart).mp runs
      have hfits : ∀ fault, progress = .faulted fault → fault.kind ≠ "vm.stack_overflow" := by
        rintro fault rfl
        cases houtcome
        exact fits fault rfl
      obtain ⟨hfinal, hloop'⟩ := (hbegin pc).loop_resize le program allowance hloop hfits
      refine ⟨_, (runsTo_iff_loop hstart).mpr ⟨allowance, progress, hloop', ?_⟩,
        hfinal.view_resize le⟩
      rw [← houtcome]
      cases progress with
      | ended => exact congrArg some (hfinal.result_resize le)
      | faulted fault => rfl
      | paused => rfl

/-- An argument outside the live stack is refused in the same words, even if the larger stack has a
slot there. -/
theorem larger_stack_agrees_argument :
    ∃ final, (Machine.new 9).RunsTo #[.constant 1, .arg 5] 0 final (.error (.argument 5 0 1)) ∧
      final.view = ⟨1, 0, 2, some [1]⟩ := by
  have hstart : startAddress? #[.constant 1, .arg 5] 0 = some 0 := by decide
  have hruns : (Machine.new 1).RunsTo #[.constant 1, .arg 5] 0
      (((Machine.new 1).begin 0).loop #[.constant 1, .arg 5] 2).1 (.error (.argument 5 0 1)) :=
    (runsTo_iff_loop hstart).mpr
      ⟨2, .faulted (.argument 5 0 1), Prod.ext rfl (by decide +kernel), rfl⟩
  have hview : (((Machine.new 1).begin 0).loop #[.constant 1, .arg 5] 2).1.view =
      ⟨1, 0, 2, some [1]⟩ := by decide +kernel
  rw [← hview]
  refine larger_stack_agrees (by decide) (by decide) _ _ hruns ?_
  rintro _ ⟨⟩
  simp [Fault.kind]

end Runs

end Machine

end WordLisp
