import WordLisp.Proofs.Machine.Lockstep
import WordLisp.Proofs.Machine.Stack

/-!
# Machines that are used again

A machine keeps its stack from one run to the next. Whatever program it has run before, and however
those runs ended, its stack is still a valid memory of the same size (`Used.ready`), so that a new
run finds an empty stack with all its slots. It still holds the words of earlier runs, but no run
tells it from a new one (`reuse_unobservable`).
-/

namespace WordLisp.Machine

/-- A machine that was made with a stack of `size` slots and has run any programs since. -/
inductive Used (size : Word) : Machine → Prop where
  | new : Used size (Machine.new size)
  | runAt {machine : Machine} (program : Program) (watch : Watch) (start : Word) :
      Used size machine → Used size (machine.runAt program watch start).1

variable {size : Word} {machine : Machine}

/-- No run spoils the stack. -/
theorem Ready.runAt (ready : machine.Ready size) (program : Program) (watch : Watch)
    (start : Word) : (machine.runAt program watch start).1.Ready size := by
  have hbegin : ∀ pc, (machine.begin pc).Ready size := fun _ ↦ ready.of_stack_eq rfl
  unfold Machine.runAt
  split
  · exact hbegin 0
  · next pc _ =>
      -- The run does on this machine what it does on the same one.
      have halike := (Alike.begin ready ready pc).loop program (watch.allowance machine.steps)
      have hloop := halike.1.left_ready
      unfold conclude
      split <;> simp_all only
      · exact hloop.of_stack_eq rfl
      · split <;> exact hloop

/-- A new machine is ready with as many slots as its stack has. -/
theorem ready_new (size : Word) : (Machine.new size).Ready (Machine.new size).stackSize := by
  refine ⟨Memory.valid_empty _ (by decide) (by decide), rfl, ?_⟩
  show 0 < if size ≤ 0 then defaultStackSize else size
  split
  · decide
  · next hpos => exact Int64.not_le.mp hpos

/-- A machine that has been used is as good as a new one. -/
theorem Used.ready_new (used : Used size machine) :
    machine.Ready (Machine.new size).stackSize := by
  induction used with
  | new => exact Machine.ready_new size
  | runAt program watch start _ ih => exact ih.runAt program watch start

/-- A machine that was given a number of slots has as many. -/
theorem Used.ready (used : Used size machine) (pos : 0 < size) : machine.Ready size := by
  have hsize : (Machine.new size).stackSize = size := if_neg (Int64.not_le.mpr pos)
  rw [← hsize]
  exact used.ready_new

/-! ## What a run leaves to see -/

/-- What can be seen of a machine from outside. -/
structure View where
  sp : Word
  bp : Word
  pc : Nat
  live? : Option (List Word)
  deriving DecidableEq

/-- The registers of a machine, and the words on its stack. -/
def view (machine : Machine) : View :=
  ⟨machine.sp, machine.bp, machine.pc, machine.live?⟩

/-- Machines that are alike cannot be told apart from outside. -/
theorem Alike.view_eq {left right : Machine} (h : left.Alike right size) :
    left.view = right.view := by
  rw [view, view, h.sp_eq, h.bp_eq, h.pc_eq, h.live?_eq]

/-- A run on a machine that has been used comes to what it comes to on a new machine, and leaves the
same to see. -/
theorem reuse_unobservable (used : Used size machine)
    (program : Program) (start : Word) (outcome : Except Fault Word) (seen : View) :
    (∃ final, machine.RunsTo program start final outcome ∧ final.view = seen) ↔
      ∃ final, (Machine.new size).RunsTo program start final outcome ∧ final.view = seen := by
  have transfer : ∀ {left right : Machine}, left.Ready (Machine.new size).stackSize →
      right.Ready (Machine.new size).stackSize →
      (∃ final, left.RunsTo program start final outcome ∧ final.view = seen) →
      ∃ final, right.RunsTo program start final outcome ∧ final.view = seen := by
    rintro left right hleft hright ⟨final, hruns, hseen⟩
    obtain ⟨final', hruns', halike⟩ := Alike.runsTo hleft hright hruns
    exact ⟨final', hruns', halike.view_eq ▸ hseen⟩
  exact ⟨transfer used.ready_new (ready_new size), transfer (ready_new size) used.ready_new⟩

/-- An argument above `sp` is refused even though an earlier run has left a word in its slot. -/
theorem reuse_unobservable_argument :
    let used := ((Machine.new 4).runAt #[.constant 5, .constant 6] .never 0).1
    (used.stack.load 1).toOption = some 6 ∧
      ∃ final, used.RunsTo #[.constant 1, .arg 1] 0 final (.error (.argument 1 0 1)) ∧
        final.view = ⟨1, 0, 2, some [1]⟩ := by
  intro used
  have hused : Used 4 used := .runAt _ _ _ .new
  have hstart : startAddress? #[.constant 1, .arg 1] 0 = some 0 := by decide
  refine ⟨by decide +kernel, (reuse_unobservable hused _ _ _ _).mpr
    ⟨(((Machine.new 4).begin 0).loop #[.constant 1, .arg 1] 2).1,
      (runsTo_iff_loop hstart).mpr ⟨2, .faulted (.argument 1 0 1), ?_, rfl⟩, ?_⟩⟩
  · exact Prod.ext rfl (by decide +kernel)
  · decide +kernel

/-! ## The stack at the start and at the end -/

/-- A run starts with an empty stack. -/
theorem Ready.shows_begin (ready : machine.Ready size) (pc : Nat) :
    (machine.begin pc).Shows size pc 0 [] where
  valid := ready.valid
  limit := ready.limit
  size_pos := ready.size_pos
  fits := Nat.zero_le _
  sp := rfl
  bp := rfl
  pc := rfl
  word := by simp

namespace Shows

variable {pc : Nat} {bp value : Word} {words : List Word}

/-- The result of a run is the word on top of the stack. -/
theorem result_eq (h : machine.Shows size pc bp (words ++ [value])) :
    machine.result = .ok value := by
  have hlen := h.length_lt
  have hfits := h.fits
  simp only [List.length_append, List.length_singleton] at hlen hfits
  have hpos : ¬machine.sp ≤ 0 := by
    rw [h.sp, Int64.not_le]
    exact (Int64.ofNat_lt_iff_lt (by decide) h.length_lt).mpr (by simp)
  have hload : machine.stack.load (machine.sp - 1) = .ok value := by
    have hsp : machine.sp - 1 = Int64.ofNat words.length := by simp [h.sp]
    rw [hsp, Memory.load, h.refusal?_eq_none .load hfits]
    exact h.word _ _ List.getElem?_concat_length
  simp [Machine.result, hpos, hload]

/-- A run that leaves nothing on the stack has no result. -/
theorem result_nil (h : machine.Shows size pc bp []) : machine.result = .error .emptyResult := by
  have hsp : machine.sp ≤ 0 := by
    rw [h.sp]
    decide
  rw [Machine.result, if_pos hsp]

/-- The result of a run is the last word on the stack. -/
theorem getLast?_eq (h : machine.Shows size pc bp words) (ended : machine.result = .ok value) :
    words.getLast? = some value := by
  rcases List.eq_nil_or_concat words with rfl | ⟨others, last, rfl⟩
  · rw [h.result_nil] at ended
    cases ended
  · rw [List.concat_eq_append] at h ⊢
    rw [h.result_eq] at ended
    cases ended
    exact List.getLast?_concat

/-- The words of the stack can be looked at. -/
theorem live?_eq (h : machine.Shows size pc bp words) : machine.live? = some words := by
  have hlen := h.length_lt
  have hfits := h.fits
  have hnonneg : ¬machine.sp < 0 := by
    rw [h.sp]
    exact Int64.not_lt.mpr (Int64.zero_le_ofNat_of_lt hlen)
  have hcount : machine.sp.toNatClampNeg = words.length := by
    rw [h.sp, Int64.toNatClampNeg_ofNat_of_lt hlen]
  have hrange : machine.stack.rangeRefusal? .load 0 words.length = none := by
    unfold Memory.rangeRefusal?
    split
    · rfl
    · next hne =>
        have hlast : 0 + Int64.ofNat words.length - 1 = Int64.ofNat (words.length - 1) := by
          obtain ⟨count, hcount⟩ := Nat.exists_eq_succ_of_ne_zero hne
          simp [hcount]
        have hfirst := h.refusal?_eq_none .load (show 0 < size.toNatClampNeg by omega)
        rw [hlast, h.refusal?_eq_none .load (by omega)]
        simpa using hfirst
  have hholds : machine.stack.Holds 0 words := by
    intro i word hword
    rw [Int64.zero_add]
    exact h.word i word hword
  rw [Machine.live?, if_neg hnonneg, hcount, h.valid.loadRange_eq hrange hlen hholds]

end Shows

end WordLisp.Machine
