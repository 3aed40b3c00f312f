import WordLisp.Compiler.Builtin
import WordLisp.Machine.Basic

/-!
# The meaning of the builtin forms

What each builtin name means, said of the integers that words stand for and not of the machine.
Sums, differences and products wrap around. A comparison is one if it holds and zero if it does not,
and every word but zero counts as true. Quotients are rounded toward zero, and a remainder is what
the quotient leaves of the dividend.

The machine computes with operators of its own, which the compiler finds in a table of builtins. The
main statement is `Form.ofName?_eq`: the table gives every name the operands, the unit and the
operator that its meaning asks for, and has no other names but the word for a definition.
-/

namespace WordLisp

/-- Two values are joined to one, or to a fault. -/
abbrev Join := Word → Word → Except Fault Word

namespace Join

/-- An operation on integers. A result that is no word wraps around. -/
def wrapped (operation : Int → Int → Int) : Join := fun left right ↦
  .ok (Int64.ofInt (operation left.toInt right.toInt))

/-- One if a relation holds between two integers, and zero if it does not. -/
def truth (relation : Int → Int → Prop) [DecidableRel relation] : Join := fun left right ↦
  .ok (if relation left.toInt right.toInt then 1 else 0)

/-- A division, which faults if the divisor is zero. -/
def divided (fault : Word → Fault) (operation : Int → Int → Int) : Join := fun left right ↦
  if right.toInt = 0 then .error (fault left) else wrapped operation left right

/-- The second value if the first one is true, and otherwise zero. -/
def conjunction : Join := fun left right ↦
  .ok (if left.toInt = 0 then 0 else right)

/-- The first value if it is true, and otherwise the second one. -/
def disjunction : Join := fun left right ↦
  .ok (if left.toInt = 0 then right else left)

end Join

/-- What a builtin form does with the values of its operands. -/
inductive Form where
  /-- It takes one operand and changes its value. -/
  | one (change : Word → Except Fault Word)
  /-- It takes two operands and joins their values. -/
  | two (join : Join)
  /-- It joins any number of values from the left. Without operands it is the unit. -/
  | any (unit : Word) (join : Join)
  /-- It joins at least one value from the left. A single one is joined to the unit. -/
  | several (unit : Word) (join : Join)
  /-- It chooses one of two operands by the value of another. -/
  | choice

/-- The form that a name means. -/
def Form.ofName? : String → Option Form
  | "=" => some (.two (.truth (· = ·)))
  | "/=" => some (.two (.truth (· ≠ ·)))
  | "<" => some (.two (.truth (· < ·)))
  | "<=" => some (.two (.truth (· ≤ ·)))
  | ">" => some (.two (.truth (· > ·)))
  | ">=" => some (.two (.truth (· ≥ ·)))
  | "+" => some (.any 0 (.wrapped (· + ·)))
  | "*" => some (.any 1 (.wrapped (· * ·)))
  | "and" => some (.any 1 .conjunction)
  | "or" => some (.any 0 .disjunction)
  | "-" => some (.several 0 (.wrapped (· - ·)))
  | "/" => some (.several 1 (.divided .divideByZero Int.tdiv))
  | "%" => some (.several 1 (.divided .remainderByZero Int.tmod))
  | "not" => some (.one fun value ↦ .ok (if value.toInt = 0 then 1 else 0))
  | "if" => some .choice
  | _ => none

/-! ## Faults -/

/-- The fault of a division, or a remainder, by zero. -/
def Fault.IsDivision (fault : Fault) : Prop :=
  ∃ dividend, fault = .divideByZero dividend ∨ fault = .remainderByZero dividend

/-- The kind of such a fault. -/
theorem Fault.IsDivision.kind_eq {fault : Fault} (h : fault.IsDivision) :
    fault.kind = "vm.divide_by_zero" := by
  obtain ⟨dividend, rfl | rfl⟩ := h <;> rfl

/-- Values are joined without a fault but that of a division by zero. -/
def Join.OnlyDivides (join : Join) : Prop :=
  ∀ left right fault, join left right = .error fault → fault.IsDivision

/-- What a form does with values does not fault but in a division by zero. -/
def Form.OnlyDivides : Form → Prop
  | .one change => ∀ value fault, change value ≠ .error fault
  | .two join | .any _ join | .several _ join => join.OnlyDivides
  | .choice => True

/-- Values that always give one are joined without a fault. -/
theorem Join.onlyDivides_of_ok {join : Join}
    (values : ∀ left right, ∃ value, join left right = .ok value) : join.OnlyDivides := by
  intro left right fault failed
  obtain ⟨value, hvalue⟩ := values left right
  rw [hvalue] at failed
  cases failed

/-- A division faults only as a division by zero. -/
theorem Join.onlyDivides_divided {fault : Word → Fault} (operation : Int → Int → Int)
    (division : ∀ dividend, (fault dividend).IsDivision) :
    (divided fault operation).OnlyDivides := by
  intro left right cause failed
  unfold divided at failed
  split at failed <;> cases failed
  exact division left

/-- No name means a form that faults but in a division by zero. -/
theorem Form.onlyDivides_of_ofName? {name : String} {form : Form}
    (found : ofName? name = some form) : form.OnlyDivides := by
  unfold ofName? at found
  split at found <;> cases found
  case h_12 => exact Join.onlyDivides_divided _ fun dividend ↦ ⟨dividend, .inl rfl⟩
  case h_13 => exact Join.onlyDivides_divided _ fun dividend ↦ ⟨dividend, .inr rfl⟩
  case h_14 =>
    intro value fault failed
    cases failed
  case h_15 => trivial
  -- No other form divides.
  all_goals exact Join.onlyDivides_of_ok fun _ _ ↦ ⟨_, rfl⟩

/-! ## The operators of the machine -/

/-- The form that a builtin is, as the machine computes it. A definition is none of them. -/
def Builtin.form? : Builtin → Option Form
  | .binary operator => some (.two operator.apply)
  | .unary operator => some (.one fun value ↦ operator.apply value 0)
  | .fold unit operator => some (.any unit operator.apply)
  | .foldFrom unit operator => some (.several unit operator.apply)
  | .conditional => some .choice
  | .definition => none

/-- A word is zero if its integer is. -/
theorem Word.toInt_eq_zero_iff {word : Word} : word.toInt = 0 ↔ word = 0 := by
  rw [← Int64.toInt_inj, Int64.toInt_zero]

namespace Operator

variable {operator : Operator} {operation : Int → Int → Int} {relation : Int → Int → Prop}

/-- An operator that decides a relation. -/
theorem apply_eq_truth [DecidableRel relation] {decides : Word → Word → Bool}
    (computes : ∀ left right, operator.apply left right = .ok (Word.ofBool (decides left right)))
    (iff : ∀ left right, decides left right ↔ relation left.toInt right.toInt) :
    operator.apply = Join.truth relation := by
  funext left right
  simp only [computes, Join.truth, Word.ofBool, iff]

/-- An operator that computes an operation on integers. -/
theorem apply_eq_wrapped {result : Word → Word → Word}
    (computes : ∀ left right, operator.apply left right = .ok (result left right))
    (eq : ∀ left right, result left right = Int64.ofInt (operation left.toInt right.toInt)) :
    operator.apply = Join.wrapped operation := by
  funext left right
  rw [computes, eq, Join.wrapped]

/-- An operator that divides. -/
theorem apply_eq_divided {fault : Word → Fault} {result : Word → Word → Word}
    (computes : ∀ left right, operator.apply left right =
      if right = 0 then .error (fault left) else .ok (result left right))
    (eq : ∀ left right, result left right = Int64.ofInt (operation left.toInt right.toInt)) :
    operator.apply = Join.divided fault operation := by
  funext left right
  simp only [computes, eq, Join.divided, Join.wrapped, Word.toInt_eq_zero_iff]

theorem eq_apply : eq.apply = Join.truth (· = ·) :=
  apply_eq_truth (fun _ _ ↦ rfl) fun _ _ ↦ by simp [← Int64.toInt_inj]

theorem ne_apply : ne.apply = Join.truth (· ≠ ·) :=
  apply_eq_truth (fun _ _ ↦ rfl) fun _ _ ↦ by simp [← Int64.toInt_inj]

theorem lt_apply : lt.apply = Join.truth (· < ·) :=
  apply_eq_truth (fun _ _ ↦ rfl) fun _ _ ↦ by simp [Int64.lt_iff_toInt_lt]

theorem le_apply : le.apply = Join.truth (· ≤ ·) :=
  apply_eq_truth (fun _ _ ↦ rfl) fun _ _ ↦ by simp [Int64.le_iff_toInt_le]

theorem gt_apply : gt.apply = Join.truth (· > ·) :=
  apply_eq_truth (fun _ _ ↦ rfl) fun _ _ ↦ by simp [Int64.lt_iff_toInt_lt]

theorem ge_apply : ge.apply = Join.truth (· ≥ ·) :=
  apply_eq_truth (fun _ _ ↦ rfl) fun _ _ ↦ by simp [Int64.le_iff_toInt_le]

theorem add_apply : add.apply = Join.wrapped (· + ·) :=
  apply_eq_wrapped (fun _ _ ↦ rfl) fun _ _ ↦ by simp

theorem sub_apply : sub.apply = Join.wrapped (· - ·) :=
  apply_eq_wrapped (fun _ _ ↦ rfl) fun _ _ ↦ by simp

theorem mul_apply : mul.apply = Join.wrapped (· * ·) :=
  apply_eq_wrapped (fun _ _ ↦ rfl) fun _ _ ↦ by simp

theorem div_apply : div.apply = Join.divided .divideByZero Int.tdiv :=
  apply_eq_divided (fun _ _ ↦ rfl) fun _ _ ↦ by
    rw [← Int64.toInt_inj, Int64.toInt_div, Int64.toInt_ofInt]

theorem mod_apply : mod.apply = Join.divided .remainderByZero Int.tmod :=
  apply_eq_divided (fun _ _ ↦ rfl) fun _ _ ↦ by rw [← Int64.toInt_mod, Int64.ofInt_toInt]

theorem and_apply : and.apply = Join.conjunction := by
  funext left right
  simp only [apply, Join.conjunction, Word.toInt_eq_zero_iff]

theorem or_apply : or.apply = Join.disjunction := by
  funext left right
  simp only [apply, Join.disjunction, Word.toInt_eq_zero_iff]

theorem not_apply (value : Word) :
    not.apply value 0 = .ok (if value.toInt = 0 then 1 else 0) := by
  simp only [apply, Word.ofBool, beq_iff_eq, Word.toInt_eq_zero_iff]

end Operator

/-- Every entry of the table of builtins is what its name means, as the machine computes it. -/
theorem Builtin.form?_of_mem {entry : String × Builtin} (mem : entry ∈ all) :
    entry.2.form? = Form.ofName? entry.1 := by
  have hall : ∀ entry ∈ all, entry.2.form? = Form.ofName? entry.1 := by
    simp [all, form?, Form.ofName?, Operator.eq_apply, Operator.ne_apply, Operator.lt_apply,
      Operator.le_apply, Operator.gt_apply, Operator.ge_apply, Operator.add_apply,
      Operator.sub_apply, Operator.mul_apply, Operator.div_apply, Operator.mod_apply,
      Operator.and_apply, Operator.or_apply, Operator.not_apply]
  exact hall entry mem

/-- A name means what the compiler finds under it in the table of builtins, and the machine computes
with the operators there. -/
theorem Form.ofName?_eq (name : String) :
    ofName? name = (Builtin.ofName? name).bind Builtin.form? := by
  cases hbuiltin : Builtin.ofName? name with
  | some builtin => exact (Builtin.form?_of_mem (Builtin.mem_all_of_ofName? hbuiltin)).symm
  | none =>
      have hnot := Builtin.ofName?_eq_none_iff.mp hbuiltin
      unfold ofName?
      split
      case h_16 => rfl
      all_goals exact absurd (by simp [Builtin.names, Builtin.all]) hnot

/-- The form that a name means is that of the builtin under the name. -/
theorem Form.ofName?_eq_some_iff {name : String} {form : Form} :
    ofName? name = some form ↔
      ∃ builtin, Builtin.ofName? name = some builtin ∧ builtin.form? = some form := by
  rw [ofName?_eq, Option.bind_eq_some_iff]

/-- The builtin that is a given form. -/
theorem Builtin.of_form? {builtin : Builtin} {form : Form} (means : builtin.form? = some form) :
    match form with
    | .one change =>
        ∃ operator, builtin = .unary operator ∧ (fun value ↦ operator.apply value 0) = change
    | .two join => ∃ operator, builtin = .binary operator ∧ operator.apply = join
    | .any unit join => ∃ operator, builtin = .fold unit operator ∧ operator.apply = join
    | .several unit join => ∃ operator, builtin = .foldFrom unit operator ∧ operator.apply = join
    | .choice => builtin = .conditional := by
  cases builtin with
  | conditional =>
      cases means
      rfl
  | definition => cases means
  | binary | unary | fold | foldFrom =>
      cases means
      exact ⟨_, rfl, rfl⟩

/-- A builtin whose operands are not refused is a form. -/
theorem Builtin.exists_form? {builtin : Builtin} {operands : Node}
    (accepted : builtin.refusal? operands = none) : ∃ form, builtin.form? = some form := by
  cases builtin with
  | definition => cases accepted
  | _ => exact ⟨_, rfl⟩

end WordLisp
