import WordLisp.Proofs.Machine.Stack

/-!
# What each instruction does

One statement for each instruction that compiled code has, about a machine that `Shows` its stack:
where the run comes to, or the fault it ends in. An instruction that needs a slot comes to the fault
of a full stack as `roomFor` says; the operator of a `binary` or `unary` instruction may fault as
well.
-/

namespace WordLisp.Machine

/-- A change of the machine came to a state with `post`, or to a fault, as `result` says. -/
def Yields {α : Type} (change : EStateM.Result Fault Machine Unit) (result : Except Fault α)
    (post : α → Machine → Prop) : Prop :=
  match result with
  | .ok value => ∃ next, change = .ok () next ∧ post value next
  | .error fault => ∃ failed, change = .error fault failed

/-- To look at the machine changes nothing. -/
theorem get_eq (machine : Machine) : (get : Exec Machine) machine = .ok machine machine := rfl

/-- A change of the machine that does not fault. -/
theorem modify_eq (change : Machine → Machine) (machine : Machine) :
    (modify change : Exec Unit) machine = .ok () (change machine) := rfl

namespace Shows

variable {program : Program} {machine : Machine} {size : Word} {pc target : Nat} {bp value : Word}
  {words : List Word}

/-- An instruction is a stretch of a run: what it makes of a machine whose `pc` is behind it is
where the run comes to. -/
theorem comes {α : Type} (h : machine.Shows size pc bp words) {inst : Inst}
    (found : program[pc]? = some inst) {result : Except Fault α} {post : α → Machine → Prop}
    (effect : ∀ begun : Machine, begun.Shows size (pc + 1) bp words →
      Yields (perform program.size pc inst begun) result post) :
    machine.Comes program result post := by
  have heffect := effect _ (h.goTo (pc + 1) (machine.steps + 1))
  have hfound : program[machine.pc]? = some inst := by rw [h.pc, found]
  have hstep : Machine.step program machine.tick = perform program.size pc inst
      { machine with pc := pc + 1, steps := machine.steps + 1 } := by
    simp [Machine.step, Machine.tick, h.pc, found]
  rw [← hstep] at heffect
  cases result with
  | ok value =>
      obtain ⟨next, hdone, hpost⟩ := heffect
      exact ⟨next, .step hfound hdone, hpost⟩
  | error fault =>
      obtain ⟨failed, hfailed⟩ := heffect
      exact .step hfound hfailed

/-- A push onto a stack that may be full. -/
theorem push (h : machine.Shows size pc bp words) (value : Word) :
    Yields (Exec.push value machine) (roomFor size words.length)
      fun _ next ↦ next.Shows size pc bp (words ++ [value]) := by
  unfold roomFor
  split
  · next hroom => exact h.push_ok value hroom
  · next hroom =>
      exact h.push_full value (Nat.le_antisymm h.fits (Nat.not_lt.mp hroom))

/-- The result of an operator takes the slot of an operand. -/
theorem push_result (h : machine.Shows size pc bp words)
    (room : words.length < size.toNatClampNeg) (result : Except Fault Word) :
    Yields ((Exec.ofResult result >>= Exec.push) machine) result
      fun value next ↦ next.Shows size pc bp (words ++ [value]) := by
  cases result with
  | ok value => exact h.push_ok value room
  | error fault => exact ⟨machine, rfl⟩

/-- A literal is pushed. -/
theorem constant (h : machine.Shows size pc bp words)
    (found : program[pc]? = some (.constant value)) :
    machine.Comes program (roomFor size words.length)
      fun _ next ↦ next.Shows size (pc + 1) bp (words ++ [value]) :=
  h.comes found fun _ hbegun ↦ hbegun.push value

/-- An argument of the frame is pushed. -/
theorem arg {base index : Nat} (h : machine.Shows size pc (Int64.ofNat base) words)
    (found : program[pc]? = some (.arg (Int64.ofNat index)))
    (live : words[base + index]? = some value) :
    machine.Comes program (roomFor size words.length)
      fun _ next ↦ next.Shows size (pc + 1) (Int64.ofNat base) (words ++ [value]) := by
  refine h.comes found fun begun hbegun ↦ ?_
  have hperform : perform program.size pc (.arg (Int64.ofNat index)) begun =
      Exec.push value begun := by
    simp only [perform, Inst.arg, bind, EStateM.bind, hbegun.argument_ok live]
  rw [hperform]
  exact hbegun.push value

/-- Two operands are replaced by the result of their operator. -/
theorem binary {operator : Operator} {left right : Word}
    (h : machine.Shows size pc bp (words ++ [left] ++ [right]))
    (found : program[pc]? = some (.binary operator)) :
    machine.Comes program (operator.apply left right)
      fun value next ↦ next.Shows size (pc + 1) bp (words ++ [value]) := by
  refine h.comes found fun begun hbegun ↦ ?_
  have hfits := h.fits
  obtain ⟨first, hright, hfirst⟩ := hbegun.pop_ok
  obtain ⟨second, hleft, hsecond⟩ := hfirst.pop_ok
  have hperform : perform program.size pc (.binary operator) begun =
      (Exec.ofResult (operator.apply left right) >>= Exec.push) second := by
    simp only [perform, Inst.binary, bind, EStateM.bind, hright, hleft]
  rw [hperform]
  simp only [List.length_append, List.length_singleton] at hfits
  exact hsecond.push_result (by omega) _

/-- An operand is replaced by the result of its operator. -/
theorem unary {operator : Operator} {operand : Word}
    (h : machine.Shows size pc bp (words ++ [operand]))
    (found : program[pc]? = some (.unary operator)) :
    machine.Comes program (operator.apply operand 0)
      fun value next ↦ next.Shows size (pc + 1) bp (words ++ [value]) := by
  refine h.comes found fun begun hbegun ↦ ?_
  have hfits := h.fits
  obtain ⟨first, hoperand, hfirst⟩ := hbegun.pop_ok
  have hperform : perform program.size pc (.unary operator) begun =
      (Exec.ofResult (operator.apply operand 0) >>= Exec.push) first := by
    simp only [perform, Inst.unary, bind, EStateM.bind, hoperand]
  rw [hperform]
  simp only [List.length_append, List.length_singleton] at hfits
  exact hfirst.push_result (by omega) _

/-- A jump goes on elsewhere. -/
theorem jump (h : machine.Shows size pc bp words) (fits : program.Addressable)
    (found : program[pc]? = some (.jump (Int64.ofNat target))) (le : target ≤ program.size) :
    machine.Comes program (.ok ()) fun _ next ↦ next.Shows size target bp words := by
  refine h.comes found fun begun hbegun ↦ ?_
  exact ⟨_, jump_ok begun fits le, hbegun.goTo target begun.steps⟩

/-- A conditional jump takes the condition off the stack and goes on elsewhere if it is zero. -/
theorem jumpZ {condition : Word} (h : machine.Shows size pc bp (words ++ [condition]))
    (fits : program.Addressable)
    (found : program[pc]? = some (.jumpZ (Int64.ofNat target))) (le : target ≤ program.size) :
    machine.Comes program (.ok ()) fun _ next ↦
      next.Shows size (if condition = 0 then target else pc + 1) bp words := by
  refine h.comes found fun begun hbegun ↦ ?_
  obtain ⟨first, hcondition, hfirst⟩ := hbegun.pop_ok
  by_cases hzero : condition = 0
  · refine ⟨{ first with pc := target }, ?_, ?_⟩
    · simp only [perform, Inst.jumpZ, bind, EStateM.bind, hcondition, if_pos hzero,
        jump_ok first fits le]
    · rw [if_pos hzero]
      exact hfirst.goTo target first.steps
  · refine ⟨first, ?_, ?_⟩
    · simp only [perform, Inst.jumpZ, bind, EStateM.bind, hcondition, if_neg hzero]
      rfl
    · rwa [if_neg hzero]

/-- A call pushes the address behind it and goes on at the function. -/
theorem call (h : machine.Shows size pc bp words) (fits : program.Addressable)
    (found : program[pc]? = some (.call (Int64.ofNat target))) (le : target ≤ program.size) :
    machine.Comes program (roomFor size words.length) fun _ next ↦
      next.Shows size target bp (words ++ [Int64.ofNat (pc + 1)]) := by
  refine h.comes found fun begun hbegun ↦ ?_
  have hperform : perform program.size pc (.call (Int64.ofNat target)) begun =
      (Exec.push (Int64.ofNat (pc + 1)) >>= fun _ ↦
        Exec.jump program.size (Int64.ofNat target)) begun := by
    simp only [perform, Inst.call, bind, EStateM.bind, get_eq, hbegun.pc]
  rw [hperform]
  have hpush := hbegun.push (Int64.ofNat (pc + 1))
  cases hroom : roomFor size words.length with
  | error fault =>
      rw [hroom] at hpush
      obtain ⟨failed, hfailed⟩ := hpush
      exact ⟨failed, by simp only [bind, EStateM.bind, hfailed]⟩
  | ok _ =>
      rw [hroom] at hpush
      obtain ⟨first, hpushed, hfirst⟩ := hpush
      refine ⟨{ first with pc := target }, ?_, hfirst.goTo target first.steps⟩
      simp only [bind, EStateM.bind, hpushed, jump_ok first fits le]

/-- The frame of a machine may be moved. -/
theorem withBase (h : machine.Shows size pc bp words) (base : Word) :
    { machine with bp := base }.Shows size pc base words :=
  ⟨h.valid, h.limit, h.size_pos, h.fits, h.sp, rfl, h.pc, h.word⟩

/-- The stack of a machine may be cut off above a slot. -/
theorem cut (h : machine.Shows size pc bp words) {depth : Nat} (le : depth ≤ words.length) :
    { machine with sp := Int64.ofNat depth }.Shows size pc bp (words.take depth) := by
  have hlength : (words.take depth).length = depth := List.length_take_of_le le
  refine ⟨h.valid, h.limit, h.size_pos, ?_, by rw [hlength], h.bp, h.pc, ?_⟩
  · rw [hlength]
    exact Nat.le_trans le h.fits
  · intro i found hfound
    have hi := (List.getElem?_eq_some_iff.mp hfound).1
    rw [hlength] at hi
    rw [List.getElem?_take_of_lt hi] at hfound
    exact h.word i found hfound

/-- The number of words below the arguments is the new base: the return address and the base of the
caller lie above them. -/
theorem base_eq {frame count depth : Nat} (sum : frame + count + 2 = depth) :
    Int64.ofNat depth - 2 - Int64.ofNat count = Int64.ofNat frame := by
  subst sum
  have htwo : Int64.ofNat 2 = 2 := rfl
  rw [Int64.ofNat_add, htwo, Int64.add_sub_cancel, Int64.ofNat_add, Int64.add_sub_cancel]

/-- The first instruction of a function pushes the base of the caller and opens its frame. -/
theorem enter {frame count : Nat} (h : machine.Shows size pc bp words)
    (found : program[pc]? = some (.enter (Int64.ofNat count)))
    (sum : frame + count + 1 = words.length) :
    machine.Comes program (roomFor size words.length) fun _ next ↦
      next.Shows size (pc + 1) (Int64.ofNat frame) (words ++ [bp]) := by
  refine h.comes found fun begun hbegun ↦ ?_
  have hlen := h.length_lt
  have hpush := hbegun.push bp
  cases hroom : roomFor size words.length with
  | error fault =>
      rw [hroom] at hpush
      obtain ⟨failed, hfailed⟩ := hpush
      refine ⟨failed, ?_⟩
      simp only [perform, Inst.enter, bind, EStateM.bind, get_eq, hbegun.bp, hfailed]
  | ok _ =>
      rw [hroom] at hpush
      obtain ⟨first, hpushed, hfirst⟩ := hpush
      have hframe : first.sp - 2 - Int64.ofNat count = Int64.ofNat frame := by
        rw [hfirst.sp]
        exact base_eq (by simp; omega)
      have hnonneg : ¬Int64.ofNat frame < 0 :=
        Int64.not_lt.mpr (Int64.zero_le_ofNat_of_lt (by omega))
      refine ⟨{ first with bp := Int64.ofNat frame }, ?_, hfirst.withBase _⟩
      simp only [perform, Inst.enter, bind, EStateM.bind, get_eq, hbegun.bp, hpushed, hframe,
        if_neg hnonneg]
      rfl

/-- The last instruction of a function goes back to the caller, with the result in place of the
frame. -/
theorem exit {frame back : Nat} {caller result : Word}
    (h : machine.Shows size pc (Int64.ofNat frame)
      (words ++ [Int64.ofNat back] ++ [caller] ++ [result]))
    (fits : program.Addressable) (found : program[pc]? = some .exit)
    (le : frame ≤ words.length) (inside : back ≤ program.size) :
    machine.Comes program (.ok ()) fun _ next ↦
      next.Shows size back caller (words.take frame ++ [result]) := by
  refine h.comes found fun begun hbegun ↦ ?_
  have hfits := h.fits
  simp only [List.length_append, List.length_singleton] at hfits
  -- From the top down: the result, the frame of the caller and the return address.
  obtain ⟨first, hresult, hfirst⟩ := hbegun.pop_ok
  obtain ⟨second, hcaller, hsecond⟩ := hfirst.pop_ok
  obtain ⟨third, hback, hthird⟩ := (hsecond.withBase caller).pop_ok
  have hlen := hthird.length_lt
  have habove : ¬third.sp < Int64.ofNat frame := by
    rw [hthird.sp, Int64.not_lt]
    exact (Int64.ofNat_le_iff_le (by omega) hlen).mpr le
  -- The arguments go with the rest of the frame, which makes room for the result.
  have hcut := (hthird.goTo back third.steps).cut le
  obtain ⟨last, hpushed, hlast⟩ := hcut.push_ok result (by
    rw [List.length_take_of_le le]
    omega)
  refine ⟨last, ?_, hlast⟩
  simp only [perform, Inst.exit, bind, EStateM.bind, get_eq, modify_eq, hbegun.bp, hresult,
    hcaller, hback, jump_ok third fits inside, if_neg habove]
  exact hpushed

end Shows

end WordLisp.Machine
