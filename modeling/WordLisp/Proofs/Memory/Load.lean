import WordLisp.Proofs.Memory.Store

/-!
# Loads

A load of several words goes round by round as well. A round copies the words of one page, or zeros
as far as a page would reach that has not been allocated (`Valid.copyFrom`). A load that is not
refused copies the words of all its addresses (`Valid.loadRange`).
-/

namespace WordLisp.Memory

/-- The words that a memory holds from an address on. -/
def Holds (memory : Memory) (address : Word) (words : List Word) : Prop :=
  ∀ i word, words[i]? = some word → memory.word (address + Int64.ofNat i) = .ok word

section Holds

variable {memory : Memory} {address : Word} {words others : List Word}

theorem holds_nil (memory : Memory) (address : Word) : memory.Holds address [] :=
  fun _ _ h ↦ nomatch h

/-- The same word everywhere. -/
theorem holds_replicate {count : Nat} {word : Word}
    (same : ∀ i < count, memory.word (address + Int64.ofNat i) = .ok word) :
    memory.Holds address (List.replicate count word) := by
  intro i other hother
  rw [List.getElem?_replicate] at hother
  split at hother
  · next hi =>
      cases hother
      exact same i hi
  · cases hother

/-- Words, and others behind them, are held where they are held together. -/
theorem Holds.append (first : memory.Holds address words)
    (second : memory.Holds (address + Int64.ofNat words.length) others) :
    memory.Holds address (words ++ others) := by
  intro i word hword
  rcases Nat.lt_or_ge i words.length with hlt | hge
  · rw [List.getElem?_append_left hlt] at hword
    exact first i word hword
  · rw [List.getElem?_append_right hge] at hword
    have hsecond := second _ word hword
    rwa [Int64.add_assoc, ← Int64.ofNat_add, Nat.add_sub_cancel' hge] at hsecond

/-- At one address there is one word. -/
theorem Holds.eq (first : memory.Holds address words) (second : memory.Holds address others)
    (length_eq : words.length = others.length) : words = others := by
  apply List.ext_getElem length_eq
  intro i hi hi'
  have hfirst := first i _ (List.getElem?_eq_getElem hi)
  rw [second i _ (List.getElem?_eq_getElem hi')] at hfirst
  exact (Except.ok.inj hfirst).symm

/-- Memories with the same words hold the same. -/
theorem Holds.congr {other : Memory} (holds : memory.Holds address words)
    (same : ∀ i < words.length, other.word (address + Int64.ofNat i) =
      memory.word (address + Int64.ofNat i)) : other.Holds address words := by
  intro i word hword
  rw [same i (List.getElem?_eq_some_iff.mp hword).1]
  exact holds i word hword

end Holds

/-! ## Rounds -/

/-- A load that may go on: the words that are left fit behind its address. -/
def Loading.Fits (loading : Loading) : Prop :=
  loading.left ≠ 0 → 0 ≤ loading.address ∧
    loading.address.toInt + loading.left ≤ 0x8000000000000000

/-- Behind words that have been loaded the others still fit. -/
theorem Loading.Fits.next {loading : Loading} (fits : loading.Fits) (count : Nat)
    (loaded : List Word) :
    (Loading.mk (loading.address + Int64.ofNat count) (loading.left - count) loaded).Fits := by
  intro hleft
  dsimp only at hleft ⊢
  obtain ⟨hnonneg, hfits⟩ := fits (by omega)
  refine ⟨Word.nonneg_add_ofNat hnonneg (by omega), ?_⟩
  rw [Word.toInt_add_ofNat hnonneg (by omega)]
  omega

namespace Valid

variable {memory : Memory} {address : Word}

/-- The words of a page up to its end. -/
theorem holds_page (valid : memory.Valid) (chosen : 0 < memory.pageSize) (nonneg : 0 ≤ address)
    {page : Page} (found : memory.page? address = some page) {count : Nat}
    (fits : address.toInt + count ≤ 0x8000000000000000) :
    memory.Holds address
      ((page.words.toList.drop (address - page.base).toNatClampNeg).take count) := by
  obtain ⟨hmem, hbase⟩ := valid.page?_eq_some_iff.mp found
  intro i word hword
  rw [List.getElem?_take] at hword
  split at hword
  · next hi =>
      rw [List.getElem?_drop, Array.getElem?_toList] at hword
      have hinside := (Array.getElem?_eq_some_iff.mp hword).1
      rw [valid.filled hmem, ← valid.pageLength_eq, hbase] at hinside
      have hlt : i < memory.room address := by
        rw [room]
        omega
      have hsame := valid.pageBase_add chosen nonneg hlt (by omega)
      refine valid.word_eq_of_mem hmem (hbase.trans hsame.symm) ?_
      have hoffset := valid.offset_add chosen nonneg hlt (by omega)
      rw [hbase, hoffset, ← hbase]
      exact hword
  · cases hword

/-- The distance of an address from the end of its page does not wrap around, even if the end lies
beyond the last address. -/
theorem room_eq (valid : memory.Valid) (chosen : 0 < memory.pageSize) (nonneg : 0 ≤ address) :
    (memory.pageBase address + memory.pageSize - address).toInt = memory.room address := by
  have hend := valid.toInt_add_room chosen nonneg
  have hle : memory.room address ≤ memory.pageSize.toNatClampNeg := by
    rw [room, valid.pageLength_eq]
    exact Nat.sub_le _ _
  have hsize := memory.pageSize.toNatClampNeg_lt
  rw [Int64.toInt_sub, Int64.toInt_add, ← hend, Int.bmod_sub_bmod,
    Int.add_comm, Int.add_sub_cancel]
  exact Int.bmod_eq_of_le (by omega) (by omega)

/-- The zeros of a page that has not been allocated. -/
theorem holds_zeros (valid : memory.Valid) (chosen : 0 < memory.pageSize) (nonneg : 0 ≤ address)
    (absent : memory.page? address = none) {count : Nat} (le : count ≤ memory.room address)
    (fits : address.toInt + count ≤ 0x8000000000000000) :
    memory.Holds address (List.replicate count 0) := by
  refine holds_replicate fun i hi ↦ valid.word_eq_zero ?_
  rw [valid.pageBase_add chosen nonneg (by omega) (by omega)]
  exact valid.page?_eq_none_iff.mp absent

/-- A copy takes as many words as there are up to the end of the page. -/
theorem copyFrom (valid : memory.Valid) (chosen : 0 < memory.pageSize) (nonneg : 0 ≤ address)
    {count : Nat} (fits : address.toInt + count ≤ 0x8000000000000000) :
    ∃ words, memory.copyFrom address count = .ok words ∧
      words.length = min (memory.room address) count ∧ memory.Holds address words := by
  cases hpage : memory.page? address with
  | some page =>
      obtain ⟨hmem, hbase⟩ := valid.page?_eq_some_iff.mp hpage
      have hfilled := valid.filled hmem
      have hinside : ¬(address - page.base < 0 ∨
          page.words.size < (address - page.base).toNatClampNeg) := by
        rw [hfilled, hbase, not_or]
        exact ⟨Int64.not_lt.mpr (offset_nonneg chosen nonneg),
          Nat.not_lt.mpr (Nat.le_of_lt (offset_lt chosen nonneg))⟩
      refine ⟨_, by simp only [Memory.copyFrom, hpage, if_neg hinside], ?_,
        valid.holds_page chosen nonneg hpage fits⟩
      rw [List.length_take, List.length_drop, Array.length_toList, hfilled, hbase, room,
        valid.pageLength_eq, Nat.min_comm]
  | none =>
      have hroom := valid.room_eq chosen nonneg
      have hnonneg : ¬memory.pageBase address + memory.pageSize - address < 0 := by
        rw [Int64.not_lt, Word.nonneg_iff, hroom]
        exact Int.natCast_nonneg _
      have hcount : (memory.pageBase address + memory.pageSize - address).toNatClampNeg =
          memory.room address := by
        have hcast := Int64.cast_toNatClampNeg _ (Int64.not_lt.mp hnonneg)
        omega
      refine ⟨List.replicate (min (memory.room address) count) 0, ?_, List.length_replicate,
        valid.holds_zeros chosen nonneg hpage (Nat.min_le_left _ _) (by omega)⟩
      simp only [Memory.copyFrom, hpage, if_neg hnonneg, hcount]

/-- A round of a load takes the words up to the end of a page, one or more of them. -/
theorem round (valid : memory.Valid) (chosen : 0 < memory.pageSize) {loading : Loading}
    (fits : loading.Fits) (some : loading.left ≠ 0) :
    ∃ words, loading.round memory = .ok ⟨loading.address + Int64.ofNat words.length,
        loading.left - words.length, loading.loaded ++ words⟩ ∧
      0 < words.length ∧ words.length ≤ loading.left ∧ memory.Holds loading.address words := by
  obtain ⟨hnonneg, hfits⟩ := fits some
  obtain ⟨words, hcopy, hlength, hholds⟩ := valid.copyFrom chosen hnonneg hfits
  have hroom := valid.room_pos chosen hnonneg
  exact ⟨words, by rw [Loading.round, hcopy]; rfl, by omega, by omega, hholds⟩

/-- As many rounds as there are words load all of them. -/
theorem run (valid : memory.Valid) (chosen : 0 < memory.pageSize) {loading : Loading}
    (fits : loading.Fits) {rounds : Nat} (enough : loading.left ≤ rounds) :
    ∃ words, loading.run memory rounds = .ok (loading.loaded ++ words) ∧
      words.length = loading.left ∧ memory.Holds loading.address words := by
  induction rounds generalizing loading with
  | zero =>
      have hnone := Nat.le_zero.mp enough
      exact ⟨[], by simp [Loading.run, hnone], hnone.symm, memory.holds_nil _⟩
  | succ rounds ih =>
      by_cases hnone : loading.left = 0
      · exact ⟨[], by simp [Loading.run, hnone], hnone.symm, memory.holds_nil _⟩
      · obtain ⟨words, hround, hpos, hle, hholds⟩ := valid.round chosen fits hnone
        have hnext := fits.next words.length (loading.loaded ++ words)
        obtain ⟨rest, hrun, hlength, hrest⟩ := ih hnext (by dsimp only; omega)
        refine ⟨words ++ rest, ?_, ?_, hholds.append hrest⟩
        · simp only [Loading.run, if_neg hnone, hround, hrun, List.append_assoc]
        · rw [List.length_append, hlength]
          exact Nat.add_sub_cancel' hle

/-- A load that is not refused loads all its words. -/
theorem loadRange (valid : memory.Valid) {count : Nat}
    (accepted : memory.rangeRefusal? .load address count = none)
    (countable : count < 0x8000000000000000) :
    ∃ words, memory.loadRange address count = .ok words ∧ words.length = count ∧
      memory.Holds address words := by
  cases hempty : memory.contents.isEmpty with
  | true =>
      exact ⟨List.replicate count 0, by simp only [Memory.loadRange, accepted, hempty, if_true],
        List.length_replicate, holds_replicate fun i _ ↦ by simp [word, hempty]⟩
  | false =>
      have hfits : Loading.Fits { address, left := count } := fun hne ↦
        fits_of_rangeRefusal? accepted (Nat.pos_of_ne_zero hne) countable
      obtain ⟨words, hrun, hlength, hholds⟩ :=
        valid.run (valid.pageSize_pos hempty) hfits (Nat.le_refl _)
      exact ⟨words, by simpa [Memory.loadRange, accepted, hempty] using hrun, hlength, hholds⟩

/-- The words that a memory holds are those that it loads. -/
theorem loadRange_eq (valid : memory.Valid) {words : List Word}
    (accepted : memory.rangeRefusal? .load address words.length = none)
    (countable : words.length < 0x8000000000000000) (holds : memory.Holds address words) :
    memory.loadRange address words.length = .ok words := by
  obtain ⟨loaded, hload, hlength, hloaded⟩ := valid.loadRange accepted countable
  rw [hload, hloaded.eq holds hlength]

/-- Memories that refuse the same and have the same words load alike. -/
theorem loadRange_congr (valid : memory.Valid) {other : Memory} (other_valid : other.Valid)
    {count : Nat} (countable : count < 0x8000000000000000)
    (refusal_eq : other.rangeRefusal? .load address count =
      memory.rangeRefusal? .load address count)
    (word_eq : ∀ i < count, other.word (address + Int64.ofNat i) =
      memory.word (address + Int64.ofNat i)) :
    other.loadRange address count = memory.loadRange address count := by
  cases hrefusal : memory.rangeRefusal? .load address count with
  | some error =>
      rw [hrefusal] at refusal_eq
      simp only [Memory.loadRange, refusal_eq, hrefusal]
  | none =>
      rw [hrefusal] at refusal_eq
      obtain ⟨words, hload, rfl, hholds⟩ := valid.loadRange hrefusal countable
      rw [hload]
      exact other_valid.loadRange_eq refusal_eq countable (hholds.congr word_eq)

end Valid

end WordLisp.Memory
