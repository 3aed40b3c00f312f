import WordLisp.Proofs.Machine.Runs
import WordLisp.Proofs.Memory.Store

/-!
# The stack as a list

`Shows` reads the registers and the stack of a machine off as a program counter, a base and a list
of words. Pushing, popping, looking at arguments and jumping are then operations on these, and each
instruction is one stretch of a run, or the fault of a full stack.
-/

namespace WordLisp

/-- A program whose addresses, and its end, are words: it has fewer than 2⁶³ instructions, as every
program that fits into memory. -/
def Program.Addressable (program : Program) : Prop :=
  program.size < 0x8000000000000000

instance (program : Program) : Decidable program.Addressable :=
  inferInstanceAs (Decidable (_ < _))

namespace Machine

/-- A machine with a stack of `size` slots is at `pc`, with the frame at `bp` and `words` on the
stack from the bottom up. -/
structure Shows (machine : Machine) (size : Word) (pc : Nat) (bp : Word) (words : List Word) :
    Prop where
  valid : machine.stack.Valid
  limit : machine.stack.limit = size
  size_pos : 0 < size
  fits : words.length ≤ size.toNatClampNeg
  sp : machine.sp = Int64.ofNat words.length
  bp : machine.bp = bp
  pc : machine.pc = pc
  word : ∀ i value, words[i]? = some value → machine.stack.word (Int64.ofNat i) = .ok value

/-- The fault of a push onto a full stack of `size` slots. -/
def overflow (size : Word) : Fault :=
  .push (.pastLimit .store size size)

/-- What becomes of a push onto a stack of `size` slots that holds `depth` words. -/
def roomFor (size : Word) (depth : Nat) : Except Fault Unit :=
  if depth < size.toNatClampNeg then .ok () else .error (overflow size)

namespace Shows

variable {machine : Machine} {size : Word} {pc : Nat} {bp value : Word} {words : List Word}

/-- The number of words on a stack is a word. -/
theorem length_lt (h : machine.Shows size pc bp words) : words.length < 0x8000000000000000 :=
  Nat.lt_of_le_of_lt h.fits size.toNatClampNeg_lt

/-- An address of the stack is not refused. -/
theorem refusal?_eq_none (h : machine.Shows size pc bp words) (access : Access) {i : Nat}
    (lt : i < size.toNatClampNeg) : machine.stack.refusal? access (Int64.ofNat i) = none := by
  have hbound := size.toNatClampNeg_lt
  have hi : i < 0x8000000000000000 := by omega
  have hnonneg : ¬Int64.ofNat i < 0 := Int64.not_lt.mpr (Int64.zero_le_ofNat_of_lt hi)
  have hsize : ¬size ≤ Int64.ofNat i := by
    rw [Int64.not_le, ← Int64.ofNat_toNatClampNeg size (Int64.le_of_lt h.size_pos)]
    exact (Int64.ofNat_lt_iff_lt hi hbound).mpr lt
  rw [Memory.refusal?_eq_of_pos h.limit h.size_pos, if_neg hnonneg, if_neg hsize]

/-- The slot behind the last one is refused. -/
theorem refusal?_eq_pastLimit (h : machine.Shows size pc bp words)
    (full : words.length = size.toNatClampNeg) :
    machine.stack.refusal? .store machine.sp = some (.pastLimit .store size size) := by
  have hsp : machine.sp = size := by
    rw [h.sp, full, Int64.ofNat_toNatClampNeg size (Int64.le_of_lt h.size_pos)]
  have hnonneg : ¬size < 0 := Int64.not_lt.mpr (Int64.le_of_lt h.size_pos)
  rw [Memory.refusal?_eq_of_pos h.limit h.size_pos, hsp, if_neg hnonneg,
    if_pos (Int64.le_refl size)]

/-- A machine that counts a step and goes on at another address. -/
theorem goTo (h : machine.Shows size pc bp words) (target steps : Nat) :
    { machine with pc := target, steps }.Shows size target bp words :=
  ⟨h.valid, h.limit, h.size_pos, h.fits, h.sp, h.bp, rfl, h.word⟩

/-- A push onto a stack with room. -/
theorem push_ok (h : machine.Shows size pc bp words) (value : Word)
    (room : words.length < size.toNatClampNeg) :
    ∃ next, Exec.push value machine = .ok () next ∧ next.Shows size pc bp (words ++ [value]) := by
  have haccepted := h.refusal?_eq_none .store room
  rw [← h.sp] at haccepted
  obtain ⟨stack, hstored, hstore⟩ := h.valid.store_word value haccepted
  refine ⟨{ machine with stack, sp := machine.sp + 1 }, ?_, ?_⟩
  · simp [Exec.push, hstore]
  · refine ⟨hstored.valid, hstored.limit_eq.trans h.limit, h.size_pos, ?_, ?_, h.bp, h.pc, ?_⟩
    · simpa using Nat.succ_le_of_lt room
    · simp [h.sp]
    · intro i found hfound
      have hlen := h.length_lt
      have hi : i < words.length + 1 := by
        have := (List.getElem?_eq_some_iff.mp hfound).1
        simpa using this
      rw [hstored.word_eq _ (Int64.zero_le_ofNat_of_lt (by omega)), h.sp]
      -- Only the slot at the top was written, and slots are told apart by their positions.
      by_cases heq : i = words.length
      · subst heq
        rw [List.getElem?_concat_length] at hfound
        rw [if_pos rfl, Option.some.inj hfound]
      · have hne : Int64.ofNat i ≠ Int64.ofNat words.length := by
          intro hof
          apply heq
          rw [← Int64.toNatClampNeg_ofNat_of_lt (show i < 0x8000000000000000 by omega), hof,
            Int64.toNatClampNeg_ofNat_of_lt hlen]
        rw [if_neg hne]
        apply h.word
        rwa [List.getElem?_append_left (by omega)] at hfound

/-- A push onto a full stack. -/
theorem push_full (h : machine.Shows size pc bp words) (value : Word)
    (full : words.length = size.toNatClampNeg) :
    ∃ failed, Exec.push value machine = .error (overflow size) failed := by
  have hrefused := h.refusal?_eq_pastLimit full
  refine ⟨machine, ?_⟩
  simp [Exec.push, Memory.store_refused value hrefused, overflow]

/-- A pop gives the top word back. -/
theorem pop_ok (h : machine.Shows size pc bp (words ++ [value])) :
    ∃ next, Exec.pop machine = .ok value next ∧ next.Shows size pc bp words := by
  have hlen := h.length_lt
  have hfits := h.fits
  simp only [List.length_append, List.length_singleton] at hlen hfits
  have hsp : machine.sp - 1 = Int64.ofNat words.length := by
    simp [h.sp]
  have hpos : ¬machine.sp ≤ 0 := by
    rw [h.sp, Int64.not_le]
    exact (Int64.ofNat_lt_iff_lt (by decide) h.length_lt).mpr (by simp)
  have hword : machine.stack.word (Int64.ofNat words.length) = .ok value :=
    h.word _ _ List.getElem?_concat_length
  refine ⟨{ machine with sp := machine.sp - 1 }, ?_, ?_⟩
  · simp [Exec.pop, hpos, hsp, Memory.load, h.refusal?_eq_none .load (i := words.length) hfits,
      hword]
  · refine ⟨h.valid, h.limit, h.size_pos, by omega, hsp, h.bp, h.pc, ?_⟩
    intro i found hfound
    have hi := (List.getElem?_eq_some_iff.mp hfound).1
    exact h.word i found (by rwa [List.getElem?_append_left hi])

/-- An argument of the frame is a word of the stack. -/
theorem argument_ok {base index : Nat} (h : machine.Shows size pc (Int64.ofNat base) words)
    (found : words[base + index]? = some value) :
    Exec.argument (Int64.ofNat index) machine = .ok value machine := by
  have hlen := h.length_lt
  have hfits := h.fits
  have hlt := (List.getElem?_eq_some_iff.mp found).1
  have haddress : machine.bp + Int64.ofNat index = Int64.ofNat (base + index) := by
    simp [h.bp]
  have hindex : ¬Int64.ofNat index < 0 :=
    Int64.not_lt.mpr (Int64.zero_le_ofNat_of_lt (by omega))
  have hsp : ¬machine.sp ≤ Int64.ofNat (base + index) := by
    rw [h.sp, Int64.not_le]
    exact (Int64.ofNat_lt_iff_lt (by omega) hlen).mpr hlt
  have hload : machine.stack.load (Int64.ofNat (base + index)) = .ok value := by
    rw [Memory.load, h.refusal?_eq_none .load (by omega)]
    exact h.word _ _ found
  simp only [Exec.argument, haddress, hindex, hsp, or_self, if_false, hload]

end Shows

/-- A jump to an address of the program, or to its end. -/
theorem jump_ok {length target : Nat} (machine : Machine) (fits : length < 0x8000000000000000)
    (le : target ≤ length) :
    Exec.jump length (Int64.ofNat target) machine = .ok () { machine with pc := target } := by
  have hnonneg : ¬Int64.ofNat target < 0 :=
    Int64.not_lt.mpr (Int64.zero_le_ofNat_of_lt (by omega))
  have htarget : (Int64.ofNat target).toNatClampNeg = target :=
    Int64.toNatClampNeg_ofNat_of_lt (by omega)
  simp [Exec.jump, hnonneg, htarget, Nat.not_lt.mpr le]

end Machine

end WordLisp
