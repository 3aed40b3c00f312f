import WordLisp.Proofs.Memory.Store

/-!
# Loads and stores with checks

A quotient by zero is zero here, an array has an answer for every index, and a page may have any
size. Where these operations are partial, one outside of its domain would break everything off. The
loads and stores below are those of a memory with every such operation checked. In a valid memory no
check fails, whatever the address (`Valid.guarded_load`, `Valid.guarded_store`).
-/

namespace WordLisp

/-- A partial operation outside of its domain. -/
inductive Crash where
  /-- An index that an array does not have. -/
  | index
  /-- A part of an array that it does not have, or a size that no array has. -/
  | slice
  /-- A division by zero. -/
  | division
  deriving DecidableEq, Repr

namespace Guarded

/-- The quotient of words. -/
def quotient (left right : Word) : Except Crash Word :=
  if right = 0 then .error .division else .ok (left / right)

/-- The remainder of words. -/
def remainder (left right : Word) : Except Crash Word :=
  if right = 0 then .error .division else .ok (left % right)

/-- An element of an array. -/
def element {α : Type} (array : Array α) (index : Nat) : Except Crash α :=
  match array[index]? with
  | some value => .ok value
  | none => .error .index

/-- The base of the page that an address belongs to. -/
def pageBase (memory : Memory) (address : Word) : Except Crash Word := do
  let page ← quotient address memory.pageSize
  return page * memory.pageSize

/-- Load the word at an address. -/
def load (memory : Memory) (address : Word) : Except Crash (Except MemoryError Word) :=
  match memory.refusal? .load address with
  | some error => .ok (.error error)
  | none =>
      if memory.contents.isEmpty then
        .ok (.ok 0)
      else do
        let base ← pageBase memory address
        let index := memory.pageIndex base
        if memory.bases[index]? = some base then
          let words ← element memory.contents index
          if address - base < 0 then throw .index
          let word ← element words (address - base).toNatClampNeg
          return .ok word
        else
          return .ok 0

/-- The words of a fresh page, of a size that an array can have. -/
def freshWords (size : Word) : Except Crash (Array Word) :=
  if size < 0 ∨ Memory.maxPageSize < size then .error .slice
  else .ok (Memory.freshWords size)

/-- A table with another entry in front of the one with this index, or behind them all. -/
def insertAt {α : Type} (table : Array α) (index : Nat) (entry : α) : Except Crash (Array α) :=
  if table.size < index then .error .slice
  else .ok (table.insertIdxIfInBounds index entry)

/-- The memory with the page of an address allocated. -/
def allocate (memory : Memory) (address : Word) : Except Crash Memory := do
  let base ← pageBase memory address
  let index := memory.pageIndex base
  if memory.bases[index]? = some base then
    return memory
  else
    let bases ← insertAt memory.bases index base
    let words ← freshWords memory.pageSize
    let contents ← insertAt memory.contents index words
    return { memory with bases, contents }

/-- The memory with another word at an address: it goes to the front of the part of the page that
starts there. -/
def setWord (memory : Memory) (address value : Word) : Except Crash Memory := do
  let base ← pageBase memory address
  let words ← element memory.contents (memory.pageIndex base)
  if address - base < 0 ∨ words.size ≤ (address - base).toNatClampNeg then throw .slice
  return (memory.copyTo address [value]).1

/-- Store a word at an address. -/
def store (memory : Memory) (address value : Word) :
    Except Crash (Memory × Option MemoryError) :=
  match memory.rangeRefusal? .store address 1 with
  | some error => .ok (memory, some error)
  | none => do
      let allocated ← allocate memory.withPageSize address
      let stored ← setWord allocated address value
      return (stored, none)

end Guarded

namespace Memory

variable {memory : Memory} {address : Word}

theorem pageSize_ne_zero (chosen : 0 < memory.pageSize) : memory.pageSize ≠ 0 :=
  fun hzero ↦ Int64.ne_of_lt chosen hzero.symm

/-- With a page size chosen, every address has a base. -/
theorem guarded_pageBase (chosen : memory.pageSize ≠ 0) (address : Word) :
    Guarded.pageBase memory address = .ok (memory.pageBase address) := by
  rw [Guarded.pageBase, Guarded.quotient, if_neg chosen]
  rfl

namespace Valid

/-- A load of a valid memory passes its checks. -/
theorem guarded_load (valid : memory.Valid) (address : Word) :
    Guarded.load memory address = .ok (memory.load address) := by
  rw [Guarded.load, Memory.load]
  cases hrefusal : memory.refusal? .load address with
  | some error => rfl
  | none =>
      have hnonneg := nonneg_of_refusal? hrefusal
      cases hempty : memory.contents.isEmpty with
      | true => simp [word, hempty]
      | false =>
          have hchosen := valid.pageSize_pos hempty
          have hoffset : ¬address - memory.pageBase address < 0 :=
            Int64.not_lt.mpr (offset_nonneg hchosen hnonneg)
          simp only [guarded_pageBase (pageSize_ne_zero hchosen), bind, Except.bind]
          by_cases hmem : memory.pageBase address ∈ memory.bases
          · have hfound := valid.getElem?_pageIndex hmem
            obtain ⟨words, hwords, hsize⟩ := valid.exists_words hfound
            have hlt : (address - memory.pageBase address).toNatClampNeg < words.size := by
              rw [hsize, valid.pageLength_eq]
              exact offset_lt hchosen hnonneg
            have hword := Array.getElem?_eq_getElem hlt
            have hpage : memory.pages[memory.pageIndex (memory.pageBase address)]? =
                some ⟨memory.pageBase address, words⟩ :=
              getElem?_pages_eq_some_iff.mpr ⟨hfound, hwords⟩
            rw [valid.word_eq_of_mem (Array.mem_of_getElem? hpage) rfl hword]
            simp [hfound, hwords, hoffset, Guarded.element, hword, pure, Except.pure]
          · have habsent : memory.bases[memory.pageIndex (memory.pageBase address)]? ≠
                some (memory.pageBase address) := fun hfound ↦
              hmem (Array.mem_of_getElem? hfound)
            rw [valid.word_eq_zero hmem]
            simp [habsent, pure, Except.pure]

/-- To allocate a page of a valid memory passes its checks. -/
theorem guarded_allocate (valid : memory.Valid) (chosen : 0 < memory.pageSize) (address : Word) :
    Guarded.allocate memory address = .ok (memory.allocate address) := by
  have hsize : ¬(memory.pageSize < 0 ∨ maxPageSize < memory.pageSize) := by
    rintro (hneg | hlarge)
    · exact Int64.not_lt.mpr valid.size_nonneg hneg
    · exact Int64.not_lt.mpr valid.size_le hlarge
  have hbases : ¬memory.bases.size < memory.pageIndex (memory.pageBase address) :=
    Nat.not_lt.mpr (memory.pageIndex_le _)
  have hcontents : ¬memory.contents.size < memory.pageIndex (memory.pageBase address) := by
    rwa [valid.paired]
  rw [Guarded.allocate, guarded_pageBase (pageSize_ne_zero chosen), Memory.allocate]
  dsimp only [bind, Except.bind]
  rw [Guarded.freshWords, if_neg hsize, Guarded.insertAt, if_neg hbases]
  dsimp only
  rw [Guarded.insertAt, if_neg hcontents]
  simp only [findPage]
  split <;> simp_all [insertBase, insertWords, pure, Except.pure]

/-- To set a word whose page has been allocated passes its checks. -/
theorem guarded_setWord (valid : memory.Valid) (chosen : 0 < memory.pageSize)
    (nonneg : 0 ≤ address) (mem : memory.pageBase address ∈ memory.bases) (value : Word) :
    Guarded.setWord memory address value = .ok (memory.copyTo address [value]).1 := by
  obtain ⟨words, hwords, hsize⟩ := valid.exists_words (valid.getElem?_pageIndex mem)
  have hinside : ¬(address - memory.pageBase address < 0 ∨
      words.size ≤ (address - memory.pageBase address).toNatClampNeg) := by
    rw [hsize, valid.pageLength_eq]
    rintro (hneg | hbeyond)
    · exact Int64.not_lt.mpr (offset_nonneg chosen nonneg) hneg
    · exact Nat.not_lt.mpr hbeyond (offset_lt chosen nonneg)
  rw [Guarded.setWord, guarded_pageBase (pageSize_ne_zero chosen)]
  show (Guarded.element memory.contents (memory.pageIndex (memory.pageBase address)) >>= _) = _
  rw [Guarded.element, hwords]
  show (if _ then _ else _) = _
  rw [if_neg hinside]
  rfl

/-- A store into a valid memory passes its checks. -/
theorem guarded_store (valid : memory.Valid) (address value : Word) :
    Guarded.store memory address value = .ok (memory.store address [value]) := by
  have hrange : memory.rangeRefusal? .store address 1 = memory.refusal? .store address := by
    cases hrefusal : memory.refusal? .store address <;> simp [rangeRefusal?, hrefusal]
  cases hrefusal : memory.refusal? .store address with
  | some error => simp only [Guarded.store, hrange, hrefusal, store_refused value hrefusal]
  | none =>
      have haccepted : memory.rangeRefusal? .store address [value].length = none :=
        hrange.trans hrefusal
      have hnonneg := nonneg_of_refusal? hrefusal
      have hsound := valid.toOrdered.sound haccepted (by simp)
      have hvalid := valid.withPageSize.1
      have hchosen := valid.toOrdered.withPageSize.2
      -- One round stores the one word.
      have hlt := hsound.length_round_lt hvalid.size_le (List.cons_ne_nil _ _)
      have hdone := List.length_eq_zero_iff.mp (Nat.lt_one_iff.mp hlt)
      rw [store_eq_run haccepted (List.cons_ne_nil _ _)]
      simp only [Guarded.store, hrange, hrefusal, hvalid.guarded_allocate hchosen]
      dsimp only [bind, Except.bind]
      rw [(hvalid.allocate hchosen hnonneg).guarded_setWord (by simpa using hchosen) hnonneg
        (hvalid.pageBase_mem_allocate address)]
      simp [Storing.run, hdone, pure, Except.pure]
      rfl

end Valid

end Memory

end WordLisp
