import WordLisp.Proofs.Machine.Runs
import WordLisp.Proofs.Memory.Load

/-!
# Machines in lockstep

The stack is never cleared: above `sp` a machine keeps the words of earlier pushes, and a new run
starts below all of them. `Alike` relates two machines that can differ in such words only, and
`Lockstep` says of some work that it does the same on both. Every instruction does, as it looks at
no slot from `sp` on: a pop and an argument lie below `sp`, a push writes the slot that it adds, and
`exit` moves `sp` down only.

So a run comes to the same on two machines whose stacks are valid memories of one size
(`Alike.runsTo`), and leaves such a stack again.
-/

namespace WordLisp.Machine

/-- A machine whose stack is a valid memory of `size` slots. -/
structure Ready (machine : Machine) (size : Word) : Prop where
  valid : machine.stack.Valid
  limit : machine.stack.limit = size
  size_pos : 0 < size

namespace Ready

variable {machine next : Machine} {size : Word}

/-- It is the stack alone that makes a machine ready. -/
theorem of_stack_eq (ready : machine.Ready size) (same : next.stack = machine.stack) :
    next.Ready size := by
  refine ⟨?_, ?_, ready.size_pos⟩ <;> rw [same]
  · exact ready.valid
  · exact ready.limit

/-- A stack that a word was stored on is one. -/
theorem stored (ready : machine.Ready size) {address value : Word}
    (stored : machine.stack.Stored address value next.stack) : next.Ready size :=
  ⟨stored.valid, stored.limit_eq.trans ready.limit, ready.size_pos⟩

/-- The slots of the stack are those that are not refused. -/
theorem refusal?_eq (ready : machine.Ready size) (access : Access) (address : Word) :
    machine.stack.refusal? access address =
      if address < 0 then some (.negative access address)
      else if size ≤ address then some (.pastLimit access address size)
      else none :=
  Memory.refusal?_eq_of_pos ready.limit ready.size_pos access address

/-- A slot that is not refused is one of the stack. -/
theorem lt_size (ready : machine.Ready size) {access : Access} {address : Word}
    (accepted : machine.stack.refusal? access address = none) : address < size := by
  rw [ready.refusal?_eq] at accepted
  split at accepted
  · cases accepted
  · split at accepted
    · cases accepted
    · next hlt => exact Int64.not_le.mp hlt

end Ready

/-- Two machines with the same registers, and with the same words on their stacks of `size`
slots. -/
structure Alike (left right : Machine) (size : Word) : Prop where
  left_ready : left.Ready size
  right_ready : right.Ready size
  sp_eq : left.sp = right.sp
  bp_eq : left.bp = right.bp
  pc_eq : left.pc = right.pc
  word_eq : ∀ address, 0 ≤ address → address < left.sp →
    left.stack.word address = right.stack.word address

namespace Alike

variable {left right : Machine} {size : Word}

/-- At the start of a run there is nothing on the stack. -/
theorem begin (hleft : left.Ready size) (hright : right.Ready size) (pc : Nat) :
    (left.begin pc).Alike (right.begin pc) size where
  left_ready := hleft.of_stack_eq rfl
  right_ready := hright.of_stack_eq rfl
  sp_eq := rfl
  bp_eq := rfl
  pc_eq := rfl
  word_eq _ hnonneg hlt := absurd hnonneg (Int64.not_le.mpr hlt)

/-- The registers of both machines may be changed in the same way, as long as no slot comes to lie
below `sp`. -/
theorem move (h : left.Alike right size) {left' right' : Machine}
    (left_stack : left'.stack = left.stack) (right_stack : right'.stack = right.stack)
    (sp_eq : left'.sp = right'.sp) (bp_eq : left'.bp = right'.bp) (pc_eq : left'.pc = right'.pc)
    (le : left'.sp ≤ left.sp) : left'.Alike right' size := by
  refine ⟨?_, ?_, sp_eq, bp_eq, pc_eq, fun address hnonneg hlt ↦ ?_⟩
  · exact h.left_ready.of_stack_eq left_stack
  · exact h.right_ready.of_stack_eq right_stack
  · rw [left_stack, right_stack]
    exact h.word_eq address hnonneg (Int64.lt_of_lt_of_le hlt le)

/-- Both stacks refuse the same addresses. -/
theorem refusal?_eq (h : left.Alike right size) (access : Access) (address : Word) :
    left.stack.refusal? access address = right.stack.refusal? access address := by
  rw [h.left_ready.refusal?_eq, h.right_ready.refusal?_eq]

/-- Both stacks refuse the same ranges. -/
theorem rangeRefusal?_eq (h : left.Alike right size) (access : Access) (address : Word)
    (count : Nat) :
    left.stack.rangeRefusal? access address count =
      right.stack.rangeRefusal? access address count := by
  simp only [Memory.rangeRefusal?, h.refusal?_eq]

/-- A word below `sp` is loaded alike. -/
theorem load_eq (h : left.Alike right size) {address : Word} (lt : address < left.sp) :
    left.stack.load address = right.stack.load address := by
  simp only [Memory.load, h.refusal?_eq]
  cases hrefusal : right.stack.refusal? .load address with
  | some error => rfl
  | none => exact h.word_eq address (Memory.nonneg_of_refusal? hrefusal) lt

end Alike

/-! ## Work in lockstep -/

/-- What some work does to two machines is the same. -/
inductive Matches {α : Type} (size : Word) :
    EStateM.Result Fault Machine α → EStateM.Result Fault Machine α → Prop where
  | ok {left right : Machine} (value : α) :
      left.Alike right size → Matches size (.ok value left) (.ok value right)
  | error {left right : Machine} (fault : Fault) :
      left.Alike right size → Matches size (.error fault left) (.error fault right)

/-- Some work cannot tell apart two machines that are alike. -/
def Lockstep {α : Type} (size : Word) (work : Exec α) : Prop :=
  ∀ left right : Machine, left.Alike right size → Matches size (work left) (work right)

namespace Lockstep

variable {α β : Type} {size : Word}

/-- Work after work. -/
theorem bind {first : Exec α} {second : α → Exec β} (hfirst : Lockstep size first)
    (hsecond : ∀ value, Lockstep size (second value)) : Lockstep size (first >>= second) := by
  intro left right halike
  have hmatch := hfirst left right halike
  show Matches size (EStateM.bind first second left) (EStateM.bind first second right)
  simp only [EStateM.bind]
  generalize first left = leftResult at hmatch
  generalize first right = rightResult at hmatch
  cases hmatch with
  | ok value hnext => exact hsecond value _ _ hnext
  | error fault hfailed => exact .error fault hfailed

/-- A look at the machine, at what is the same on both. -/
theorem get_bind {next : Machine → Exec β} (each : ∀ machine, Lockstep size (next machine))
    (same : ∀ left right : Machine, left.Alike right size → next left = next right) :
    Lockstep size (MonadState.get >>= next) := by
  intro left right halike
  show Matches size (next left left) (next right right)
  rw [same left right halike]
  exact each right left right halike

/-- A change of the registers that is the same on both machines. -/
theorem change {move : Machine → Machine}
    (moved : ∀ left right : Machine, left.Alike right size →
      (move left).Alike (move right) size) :
    Lockstep size (modify move : Exec Unit) :=
  fun left right halike ↦ .ok () (moved left right halike)

/-- Nothing is done. -/
theorem pure (value : α) : Lockstep size (Pure.pure value : Exec α) :=
  fun _ _ halike ↦ .ok value halike

/-- A fault. -/
theorem throw (fault : Fault) : Lockstep size (MonadExcept.throw fault : Exec α) :=
  fun _ _ halike ↦ .error fault halike

/-- A push writes the slot that it adds. -/
theorem push (value : Word) : Lockstep size (Exec.push value) := by
  intro left right halike
  have hsame := halike.refusal?_eq .store left.sp
  cases hrefusal : left.stack.refusal? .store left.sp with
  | some error =>
      rw [hrefusal, halike.sp_eq] at hsame
      simp only [Exec.push, Memory.store_refused value hrefusal,
        Memory.store_refused value hsame.symm]
      exact .error _ halike
  | none =>
      rw [hrefusal, halike.sp_eq] at hsame
      obtain ⟨stack, hstored, hstore⟩ := halike.left_ready.valid.store_word value hrefusal
      obtain ⟨stack', hstored', hstore'⟩ := halike.right_ready.valid.store_word value hsame.symm
      have hroom : left.sp < size := halike.left_ready.lt_size hrefusal
      simp only [Exec.push, hstore, hstore']
      refine .ok () ⟨halike.left_ready.stored hstored, halike.right_ready.stored hstored',
        congrArg (· + 1) halike.sp_eq, halike.bp_eq, halike.pc_eq, fun address hnonneg hlt ↦ ?_⟩
      rw [hstored.word_eq address hnonneg, hstored'.word_eq address hnonneg, ← halike.sp_eq]
      by_cases htop : address = left.sp
      · rw [if_pos htop, if_pos htop]
      · rw [if_neg htop, if_neg htop]
        have hle := (Word.lt_add_one_iff hroom).mp hlt
        exact halike.word_eq address hnonneg (Int64.lt_of_le_of_ne hle htop)

/-- A pop looks at a slot below `sp`. -/
theorem pop : Lockstep size Exec.pop := by
  intro left right halike
  simp only [Exec.pop, ← halike.sp_eq]
  by_cases hempty : left.sp ≤ 0
  · simp only [if_pos hempty]
    exact .error _ halike
  · have hdown : left.sp - 1 < left.sp := Word.sub_one_lt (Int64.not_le.mp hempty)
    have hnext : { left with sp := left.sp - 1 }.Alike { right with sp := left.sp - 1 } size :=
      halike.move rfl rfl rfl halike.bp_eq halike.pc_eq (Int64.le_of_lt hdown)
    simp only [if_neg hempty, halike.load_eq hdown]
    cases right.stack.load (left.sp - 1) with
    | ok value => exact .ok value hnext
    | error cause => exact .error _ hnext

/-- An argument lies below `sp`. -/
theorem argument (index : Word) : Lockstep size (Exec.argument index) := by
  intro left right halike
  simp only [Exec.argument, ← halike.sp_eq, ← halike.bp_eq]
  by_cases houtside : index < 0 ∨ left.sp ≤ left.bp + index
  · simp only [if_pos houtside]
    exact .error _ halike
  · have hlive : left.bp + index < left.sp := Int64.not_le.mp fun hle ↦ houtside (.inr hle)
    simp only [if_neg houtside, halike.load_eq hlive]
    cases right.stack.load (left.bp + index) with
    | ok value => exact .ok value halike
    | error cause => exact .error _ halike

/-- A jump does not look at the machine. -/
theorem jump (length : Nat) (address : Word) : Lockstep size (Exec.jump length address) := by
  intro left right halike
  simp only [Exec.jump]
  split
  · exact .error _ halike
  · exact .ok () (halike.move rfl rfl halike.sp_eq halike.bp_eq rfl (Int64.le_refl _))

/-- An operator has nothing to do with the machine. -/
theorem ofResult (result : Except Fault Word) : Lockstep size (Exec.ofResult result) := by
  cases result with
  | ok value => exact pure value
  | error fault => exact throw fault

/-- No instruction tells two machines apart that are alike. -/
theorem perform (length address : Nat) (inst : Inst) :
    Lockstep size (Machine.perform length address inst) := by
  unfold Machine.perform
  cases inst.op with
  | constant => exact push _
  | arg => exact bind (argument _) fun _ ↦ push _
  | binary =>
      exact bind pop fun _ ↦ bind pop fun _ ↦ bind (ofResult _) fun _ ↦ push _
  | unary => exact bind pop fun _ ↦ bind (ofResult _) fun _ ↦ push _
  | jump => exact jump _ _
  | jumpZ =>
      refine bind pop fun condition ↦ ?_
      split
      · exact jump _ _
      · exact pure _
  | call =>
      refine get_bind (fun _ ↦ bind (push _) fun _ ↦ jump _ _) fun left right halike ↦ ?_
      rw [halike.pc_eq]
  | enter =>
      refine get_bind (fun _ ↦ bind (push _) fun _ ↦ get_bind (fun now ↦ ?_) ?_)
        fun left right halike ↦ by rw [halike.bp_eq]
      · dsimp only
        split
        · exact bind (throw _) fun _ ↦ change fun left right halike ↦
            halike.move rfl rfl halike.sp_eq rfl halike.pc_eq (Int64.le_refl _)
        · exact change fun left right halike ↦
            halike.move rfl rfl halike.sp_eq rfl halike.pc_eq (Int64.le_refl _)
      · intro left right halike
        dsimp only
        rw [halike.sp_eq]
  | exit =>
      refine get_bind (fun before ↦ bind pop fun result ↦ bind pop fun caller ↦
        bind (change fun left right halike ↦
          halike.move rfl rfl halike.sp_eq rfl halike.pc_eq (Int64.le_refl _)) fun _ ↦
        bind pop fun back ↦ bind (jump _ _) fun _ ↦ ?_) fun left right halike ↦ by rw [halike.bp_eq]
      -- The frame of a forged `bp` may lie anywhere, but the stack is never cut off above `sp`.
      intro left right halike
      show Matches size ((if left.sp < before.bp then _ else _ : Exec Unit) left)
        ((if right.sp < before.bp then _ else _ : Exec Unit) right)
      rw [← halike.sp_eq]
      by_cases habove : left.sp < before.bp
      · rw [if_pos habove]
        exact .error _ halike
      · rw [if_neg habove]
        have hcut : { left with sp := before.bp }.Alike { right with sp := before.bp } size :=
          halike.move rfl rfl rfl halike.bp_eq halike.pc_eq (Int64.not_lt.mp habove)
        show Matches size (Exec.push result { left with sp := before.bp })
          (Exec.push result { right with sp := before.bp })
        exact push result _ _ hcut
  | hole => exact throw _
  | unknown code => exact throw _

end Lockstep

/-! ## Runs of machines that are alike -/

namespace Alike

variable {left right : Machine} {size : Word}

/-- One step is the same on both machines. -/
theorem step (h : left.Alike right size) (program : Program) :
    Matches size (Machine.step program left) (Machine.step program right) := by
  unfold Machine.step
  rw [← h.pc_eq]
  split
  · exact .ok () h
  · next inst _ =>
      have hbehind : { left with pc := left.pc + 1 }.Alike { right with pc := left.pc + 1 } size :=
        h.move rfl rfl h.sp_eq h.bp_eq rfl (Int64.le_refl _)
      exact Lockstep.perform _ _ inst _ _ hbehind

/-- Both machines reach the end of a program at once. -/
theorem atEnd_eq (h : left.Alike right size) (program : Program) :
    left.atEnd program = right.atEnd program := by
  rw [atEnd, atEnd, h.pc_eq]

/-- Any number of steps is the same on both machines. -/
theorem loop (h : left.Alike right size) (program : Program) (allowance : Nat) :
    (left.loop program allowance).1.Alike (right.loop program allowance).1 size ∧
      (left.loop program allowance).2 = (right.loop program allowance).2 := by
  induction allowance generalizing left right with
  | zero =>
      simp only [Machine.loop, h.atEnd_eq]
      exact ⟨h, trivial⟩
  | succ allowance ih =>
      simp only [Machine.loop, h.atEnd_eq]
      by_cases hright : right.atEnd program
      · rw [if_pos hright, if_pos hright]
        exact ⟨h, rfl⟩
      · rw [if_neg hright, if_neg hright]
        have htick : left.tick.Alike right.tick size :=
          h.move rfl rfl h.sp_eq h.bp_eq h.pc_eq (Int64.le_refl _)
        have hmatch := htick.step program
        generalize Machine.step program left.tick = leftResult at hmatch
        generalize Machine.step program right.tick = rightResult at hmatch
        cases hmatch with
        | ok value hnext => exact ih hnext
        | error fault hfailed => exact ⟨hfailed, rfl⟩

/-- Both machines have the same result. -/
theorem result_eq (h : left.Alike right size) : left.result = right.result := by
  simp only [result, ← h.sp_eq]
  by_cases hempty : left.sp ≤ 0
  · rw [if_pos hempty, if_pos hempty]
  · have hdown : left.sp - 1 < left.sp :=
      (Word.le_sub_one_iff (Int64.not_le.mp hempty)).mp (Int64.le_refl _)
    rw [if_neg hempty, if_neg hempty, h.load_eq hdown]

/-- Both machines show the same words. -/
theorem live?_eq (h : left.Alike right size) : left.live? = right.live? := by
  simp only [live?, ← h.sp_eq]
  by_cases hneg : left.sp < 0
  · rw [if_pos hneg, if_pos hneg]
  · have hbound := left.sp.toNatClampNeg_lt
    have hword : ∀ i < left.sp.toNatClampNeg,
        left.stack.word (0 + Int64.ofNat i) = right.stack.word (0 + Int64.ofNat i) := by
      intro i hlt
      rw [Int64.zero_add]
      apply h.word_eq
      · exact Int64.zero_le_ofNat_of_lt (by omega)
      · rw [← Int64.ofNat_toNatClampNeg left.sp (Int64.not_lt.mp hneg)]
        exact (Int64.ofNat_lt_iff_lt (by omega) hbound).mpr hlt
    rw [if_neg hneg, if_neg hneg, h.right_ready.valid.loadRange_congr h.left_ready.valid hbound
      (h.rangeRefusal?_eq _ _ _) hword]

/-- A run that comes to something on one machine comes to the same on the other. -/
theorem runsTo {program : Program} {start : Word} {final : Machine} {outcome : Except Fault Word}
    (hleft : left.Ready size) (hright : right.Ready size)
    (runs : left.RunsTo program start final outcome) :
    ∃ final', right.RunsTo program start final' outcome ∧ final.Alike final' size := by
  cases hstart : startAddress? program start with
  | none =>
      rw [runsTo_iff_refused hstart] at runs
      obtain ⟨rfl, rfl⟩ := runs
      exact ⟨right.begin 0, (runsTo_iff_refused hstart).mpr ⟨rfl, rfl⟩, .begin hleft hright 0⟩
  | some pc =>
      obtain ⟨allowance, progress, hloop, houtcome⟩ := (runsTo_iff_loop hstart).mp runs
      obtain ⟨hfinal, hprogress⟩ := (Alike.begin hleft hright pc).loop program allowance
      rw [hloop] at hfinal hprogress
      refine ⟨_, (runsTo_iff_loop hstart).mpr ⟨allowance, progress, ?_, ?_⟩, hfinal⟩
      · exact Prod.ext rfl hprogress.symm
      · rw [← houtcome]
        cases progress with
        | ended => simp only [Progress.outcome?, hfinal.result_eq]
        | faulted cause => rfl
        | paused => rfl

end Alike

end WordLisp.Machine
