import WordLisp.Text.Column

/-!
# Machine words

Every number of the language is a signed 64-bit word, and its arithmetic wraps around.
-/

namespace WordLisp

/-- A machine word. -/
abbrev Word := Int64

namespace Word

/-- The word in decimal. -/
def render (word : Word) : String :=
  Text.integer word.toInt

/-- The words a numeral may denote. -/
def InRange (n : Int) : Prop :=
  Int64.minValue.toInt ≤ n ∧ n ≤ Int64.maxValue.toInt

instance (n : Int) : Decidable (InRange n) :=
  inferInstanceAs (Decidable (_ ∧ _))

/-- The word that denotes a number in range. -/
def ofInt? (n : Int) : Option Word :=
  if InRange n then some (Int64.ofInt n) else none

/-- One for true and zero for false. -/
def ofBool (b : Bool) : Word :=
  if b then 1 else 0

section Sums

variable {word : Word}

theorem nonneg_iff : 0 ≤ word ↔ 0 ≤ word.toInt := by
  rw [Int64.le_iff_toInt_le, Int64.toInt_zero]

theorem pos_iff : 0 < word ↔ 0 < word.toInt := by
  rw [Int64.lt_iff_toInt_lt, Int64.toInt_zero]

/-- A sum that is a word again does not wrap around. -/
theorem toInt_add_ofNat {i : Nat} (nonneg : 0 ≤ word)
    (inside : word.toInt + i < 0x8000000000000000) :
    (word + Int64.ofNat i).toInt = word.toInt + i := by
  have hword := nonneg_iff.mp nonneg
  rw [Int64.toInt_add, Int64.toInt_ofNat_of_lt (by omega)]
  exact Int.bmod_eq_of_le (by omega) (by omega)

theorem nonneg_add_ofNat {i : Nat} (nonneg : 0 ≤ word)
    (inside : word.toInt + i < 0x8000000000000000) : 0 ≤ word + Int64.ofNat i := by
  have hword := nonneg_iff.mp nonneg
  rw [nonneg_iff, toInt_add_ofNat nonneg inside]
  omega

/-- The words below the successor of a word that is not the last one. -/
theorem lt_add_one_iff {bound other : Word} (lt : word < bound) :
    other < word + 1 ↔ other ≤ word := by
  have hlt := Int64.lt_iff_toInt_lt.mp lt
  have hbound := bound.toInt_lt
  have hword := word.le_toInt
  have hadd : (word + 1).toInt = word.toInt + 1 := by
    rw [Int64.toInt_add, Int64.toInt_one]
    exact Int.bmod_eq_of_le (by omega) (by omega)
  rw [Int64.lt_iff_toInt_lt, Int64.le_iff_toInt_le, hadd]
  omega

/-- The words below a word that is not the first one lie below its predecessor or are it. -/
theorem le_sub_one_iff {bound other : Word} (lt : bound < word) :
    other ≤ word - 1 ↔ other < word := by
  have hlt := Int64.lt_iff_toInt_lt.mp lt
  have hbound := bound.le_toInt
  have hword := word.toInt_lt
  have hsub : (word - 1).toInt = word.toInt - 1 := by
    rw [Int64.toInt_sub, Int64.toInt_one]
    exact Int.bmod_eq_of_le (by omega) (by omega)
  rw [Int64.lt_iff_toInt_lt, Int64.le_iff_toInt_le, hsub]
  omega

/-- The predecessor of a word that is not the first one is less. -/
theorem sub_one_lt {bound : Word} (lt : bound < word) : word - 1 < word :=
  (le_sub_one_iff lt).mp (Int64.le_refl _)

end Sums

end Word

end WordLisp
