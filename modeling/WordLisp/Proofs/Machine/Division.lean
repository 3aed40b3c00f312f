import Mathlib.Data.Rat.Floor
import WordLisp.Machine.Basic

/-!
# Division rounds toward zero

The quotient of two words is the integer next to their exact quotient on its way to zero
(`towardZero`), and the remainder is what the quotient leaves of the dividend
(`Operator.division_truncates`). Both are stated over the integers that the words stand for; only
the smallest word divided by -1 has a quotient that is no word, and this one wraps around.
-/

namespace WordLisp

/-- The integer next to a fraction on its way to zero. -/
def towardZero (fraction : ℚ) : ℤ :=
  if fraction < 0 then ⌈fraction⌉ else ⌊fraction⌋

/-- To round toward zero is to round the absolute value down. -/
theorem towardZero_neg (fraction : ℚ) : towardZero (-fraction) = -towardZero fraction := by
  rcases lt_trichotomy fraction 0 with hneg | rfl | hpos
  · have hnot : ¬-fraction < 0 := by simpa using hneg.le
    rw [towardZero, towardZero, if_neg hnot, if_pos hneg, Int.floor_neg]
  · simp [towardZero]
  · have hneg : -fraction < 0 := by simpa using hpos
    rw [towardZero, towardZero, if_pos hneg, if_neg hpos.le.not_gt, Int.ceil_neg]

/-- The quotient of two natural numbers is rounded down. -/
theorem towardZero_div_natCast (dividend divisor : ℕ) :
    towardZero (dividend / divisor) = (dividend : ℤ).tdiv divisor := by
  have hnot : ¬(dividend / divisor : ℚ) < 0 := not_lt.mpr (by positivity)
  have hfloor := Rat.floor_intCast_div_natCast dividend divisor
  rw [towardZero, if_neg hnot, Int.tdiv_eq_ediv_of_nonneg (Int.natCast_nonneg dividend), ← hfloor]
  rfl

/-- The quotient of two integers is rounded toward zero: its sign is that of the exact one, and its
absolute value the quotient of theirs. -/
theorem towardZero_div (dividend divisor : ℤ) :
    towardZero (dividend / divisor) = dividend.tdiv divisor := by
  obtain ⟨m, rfl | rfl⟩ := dividend.eq_nat_or_neg <;>
    obtain ⟨n, rfl | rfl⟩ := divisor.eq_nat_or_neg <;>
    push_cast
  · exact towardZero_div_natCast m n
  · rw [div_neg, towardZero_neg, Int.tdiv_neg, towardZero_div_natCast]
  · rw [neg_div, towardZero_neg, Int.neg_tdiv, towardZero_div_natCast]
  · rw [neg_div_neg_eq, Int.neg_tdiv, Int.tdiv_neg, Int.neg_neg, towardZero_div_natCast]

namespace Operator

/-- The only operations that fault as a division by zero are the quotient and the remainder by
zero. -/
theorem divides_by_zero_iff (operator : Operator) (left right : Word) :
    (∃ fault, operator.apply left right = .error fault ∧ fault.kind = "vm.divide_by_zero") ↔
      (operator = .div ∨ operator = .mod) ∧ right = 0 := by
  constructor
  · rintro ⟨fault, hfault, hkind⟩
    cases operator with
    | div =>
        simp only [apply] at hfault
        split at hfault
        · next hzero => exact ⟨.inl rfl, hzero⟩
        · cases hfault
    | mod =>
        simp only [apply] at hfault
        split at hfault
        · next hzero => exact ⟨.inr rfl, hzero⟩
        · cases hfault
    | unknown code =>
        cases hfault
        simp [Fault.kind] at hkind
    | _ => cases hfault
  · rintro ⟨rfl | rfl, rfl⟩
    · exact ⟨.divideByZero left, rfl, rfl⟩
    · exact ⟨.remainderByZero left, rfl, rfl⟩

section Words

variable (left right : Word)

/-- A remainder is smaller than the divisor. -/
theorem natAbs_mod_lt (divides : right ≠ 0) :
    (left % right).toInt.natAbs < right.toInt.natAbs := by
  have hpos : 0 < right.toInt.natAbs :=
    Int.natAbs_pos.mpr fun hzero ↦ divides (Int64.toInt.inj hzero)
  rw [Int64.toInt_mod, Int.natAbs_tmod]
  exact Nat.mod_lt _ hpos

/-- A remainder has the sign of the dividend. -/
theorem sign_mod : left % right = 0 ∨ (left % right).toInt.sign = left.toInt.sign := by
  have hsign := Int.sign_tmod left.toInt right.toInt
  rw [← Int64.toInt_mod] at hsign
  split at hsign
  · exact .inl (Int64.toInt.inj (Int.sign_eq_zero_iff_zero.mp hsign))
  · exact .inr hsign

/-- A quotient is the integer quotient, rounded toward zero and wrapped around. -/
theorem div_eq_towardZero :
    left / right = Int64.ofInt (towardZero (left.toInt / right.toInt)) := by
  rw [towardZero_div]
  apply Int64.toInt.inj
  rw [Int64.toInt_div, Int64.toInt_ofInt]

/-- The quotient times the divisor and the remainder make up the dividend, even if the quotient has
wrapped around. -/
theorem div_mul_add_mod : left / right * right + left % right = left := by
  have hquotient := div_eq_towardZero left right
  rw [towardZero_div] at hquotient
  have hremainder : left % right = Int64.ofInt (left.toInt.tmod right.toInt) := by
    rw [← Int64.toInt_mod, Int64.ofInt_toInt]
  calc left / right * right + left % right
      = Int64.ofInt (left.toInt.tdiv right.toInt * right.toInt + left.toInt.tmod right.toInt) := by
        rw [hquotient, hremainder, Int64.ofInt_add, Int64.ofInt_mul, Int64.ofInt_toInt]
    _ = left := by rw [Int.tdiv_mul_add_tmod, Int64.ofInt_toInt]

end Words

/-- The machine divides with truncation. If the divisor is not zero, both the quotient and the
remainder exist: together they make up the dividend, the remainder is smaller than the divisor and
is zero or has the sign of the dividend, and the quotient is the exact one rounded toward zero and
wrapped around, which makes the smallest word its own quotient by -1. If the divisor is zero both
fault as divisions by zero, and nothing else does. -/
theorem division_truncates (left right : Word) :
    (right ≠ 0 → ∃ quotient remainder : Word,
      Operator.div.apply left right = .ok quotient ∧
      Operator.mod.apply left right = .ok remainder ∧
      quotient * right + remainder = left ∧
      remainder.toInt.natAbs < right.toInt.natAbs ∧
      (remainder = 0 ∨ remainder.toInt.sign = left.toInt.sign) ∧
      quotient = Int64.ofInt (towardZero (left.toInt / right.toInt)) ∧
      (left = Int64.minValue ∧ right = -1 → quotient = Int64.minValue ∧ remainder = 0)) ∧
    ∀ operator : Operator,
      (∃ fault, operator.apply left right = .error fault ∧ fault.kind = "vm.divide_by_zero") ↔
        (operator = .div ∨ operator = .mod) ∧ right = 0 := by
  refine ⟨fun hdivides ↦ ⟨left / right, left % right, if_neg hdivides, if_neg hdivides,
    div_mul_add_mod left right, natAbs_mod_lt left right hdivides, sign_mod left right,
    div_eq_towardZero left right, ?_⟩, fun operator ↦ divides_by_zero_iff operator left right⟩
  rintro ⟨rfl, rfl⟩
  exact ⟨by decide, by decide⟩

/-- The one quotient that is no word: the smallest word divided by -1. -/
theorem division_truncates_smallest :
    ∃ quotient remainder : Word,
      Operator.div.apply Int64.minValue (-1) = .ok quotient ∧
      Operator.mod.apply Int64.minValue (-1) = .ok remainder ∧
      quotient = Int64.minValue ∧ remainder = 0 := by
  obtain ⟨quotient, remainder, hdiv, hmod, -, -, -, -, hsmallest⟩ :=
    (division_truncates Int64.minValue (-1)).1 (by decide)
  exact ⟨quotient, remainder, hdiv, hmod, hsmallest ⟨rfl, rfl⟩⟩

end Operator

end WordLisp
