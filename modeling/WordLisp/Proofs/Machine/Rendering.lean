import WordLisp.Machine.Program
import WordLisp.Proofs.Node.Printing
import WordLisp.Proofs.Text.Row

/-!
# A program is determined by its text

An instruction is written as a word, maybe with an operand behind a blank, and no word contains any
of the marks that a listing sets between words (`Inst.isWord_word`). Every instruction of the forms
that compiled code has can be told from its word and its operand (`Inst.Emitted.ofWord_word`), so a
program of such instructions can be told from its text (`Program.eq_of_render`).
-/

namespace WordLisp

/-! ## Words -/

/-- The characters that listings set between words, or in front of something. -/
def marks : List Char :=
  [' ', ',', ';', ':', '\n']

/-- A text that is one word of a listing. -/
def IsWord (text : List Char) : Prop :=
  text ≠ [] ∧ ∀ c ∈ text, c ∉ marks

instance (text : List Char) : Decidable (IsWord text) :=
  decidable_of_iff (text ≠ [] ∧ text.all (· ∉ marks)) (by simp [IsWord])

/-- Words that are written without a gap are a word. -/
theorem IsWord.append {text more : List Char} (h : IsWord text) (h' : IsWord more) :
    IsWord (text ++ more) :=
  ⟨by simp [h.1], List.forall_mem_append.mpr ⟨h.2, h'.2⟩⟩

/-- Digits are a word. -/
theorem Digits.isWord {text : List Char} (h : Digits text) : IsWord text := by
  have hmarks : ∀ c ∈ marks, c.isDigit = false := by
    simp [marks]
  refine ⟨h.1, fun c hc hmark ↦ ?_⟩
  have hdigit := h.2 c hc
  rw [hmarks c hmark] at hdigit
  cases hdigit

/-- A number is a word. -/
theorem isWord_decimal (n : Nat) : IsWord (Text.decimal n).toList :=
  (digits_decimal n).1.isWord

/-- A machine word is a word. -/
theorem isWord_render (value : Word) : IsWord (Word.render value).toList := by
  unfold Word.render Text.integer
  split
  · rw [String.toList_append]
    exact IsWord.append (by decide) (isWord_decimal _)
  · exact isWord_decimal _

/-- A machine word can be told from its text. -/
theorem Word.eq_of_render {value other : Word} (same : Word.render value = Word.render other) :
    value = other := by
  have hvalue := Token.integer?_eq_some_iff.mpr (numeral_integer value.toInt)
  have hother := Token.integer?_eq_some_iff.mpr (numeral_integer other.toInt)
  rw [show Text.integer value.toInt = Text.integer other.toInt from same, hother] at hvalue
  exact (Int64.toInt.inj (Option.some.inj hvalue)).symm

/-- The name of an operator is a word. -/
theorem Operator.isWord_name (operator : Operator) : IsWord operator.name.toList := by
  cases operator with
  | unknown code =>
      rw [name, String.toList_append, String.toList_append]
      exact IsWord.append (.append (by decide) (isWord_decimal _)) (by decide)
  | _ => decide

/-- The name of an operation is a word. -/
theorem Op.isWord_name (op : Op) : IsWord op.name.toList := by
  cases op with
  | unknown code =>
      rw [name, String.toList_append, String.toList_append]
      exact IsWord.append (.append (by decide) (isWord_decimal _)) (by decide)
  | _ => decide

/-! ## Instructions -/

namespace Inst

/-- The word that an instruction is written as. -/
def word (inst : Inst) : String :=
  match inst.op with
  | .constant => Word.render inst.n
  | .binary | .unary => inst.operator.name
  | .unknown _ => inst.op.name ++ "(" ++ Word.render inst.n ++ ")"
  | _ => inst.op.name

/-- The operand that is written behind the word. -/
def operand? (inst : Inst) : Option Word :=
  match inst.op with
  | .arg | .jump | .jumpZ | .call | .enter => some inst.n
  | _ => none

/-- What is written behind the word. -/
def operandText : Option Word → List Char
  | some n => ' ' :: (Word.render n).toList
  | none => []

/-- An instruction is written as its word, and the operand behind a blank. -/
theorem toList_render (inst : Inst) :
    inst.render.toList = inst.word.toList ++ operandText inst.operand? := by
  unfold render word operand?
  cases inst.op <;> simp [operandText]

/-- The operand can be told from what is written. -/
theorem operandText_inj {operand? other? : Option Word}
    (same : operandText operand? = operandText other?) : operand? = other? := by
  match operand?, other?, same with
  | none, none, _ => rfl
  | some n, some m, same =>
      rw [Word.eq_of_render (String.toList_inj.mp (List.cons.inj same).2)]

/-- The word of an instruction is one. -/
theorem isWord_word (inst : Inst) : IsWord inst.word.toList := by
  unfold word
  split
  · exact isWord_render _
  · exact Operator.isWord_name _
  · exact Operator.isWord_name _
  · rw [String.toList_append, String.toList_append, String.toList_append]
    exact .append (.append (.append (Op.isWord_name _) (by decide)) (isWord_render _))
      (by decide)
  · exact Op.isWord_name _

/-- The forms of the instructions that compiled code has, or leaves open for a while. -/
inductive Emitted : Inst → Prop where
  | constant (value : Word) : Emitted (.constant value)
  | arg (index : Word) : Emitted (.arg index)
  | jump (address : Word) : Emitted (.jump address)
  | jumpZ (address : Word) : Emitted (.jumpZ address)
  | call (address : Word) : Emitted (.call address)
  | enter (count : Word) : Emitted (.enter count)
  | exit : Emitted .exit
  | binary {operator : Operator} : operator ≠ .not → Emitted (.binary operator)
  | not : Emitted (.unary .not)
  | hole : Emitted .hole

end Inst

/-- The operator with this name, which may also be that of a code without a meaning. -/
def Operator.named (name : String) : Operator :=
  match all.find? (·.name = name), Token.digits? (name.toList.drop 9).dropLast with
  | some operator, _ => operator
  | none, some code => .unknown (UInt8.ofNat code)
  | none, none => .unknown 0

/-- The name of a code without a meaning starts like no other name. -/
theorem Operator.head?_name_unknown (code : UInt8) :
    (unknown code).name.toList.head? = some 'O' := by
  rw [name, String.toList_append, String.toList_append]
  rfl

/-- The name of an operator tells it. -/
theorem Operator.named_name (operator : Operator) : named operator.name = operator := by
  cases operator with
  | unknown code =>
      have hknown : ∀ known ∈ all, known.name.toList.head? ≠ some 'O' := by
        decide
      have hnone : all.find? (·.name = (unknown code).name) = none := by
        rw [Array.find?_eq_none]
        intro known hmem hname
        refine hknown known hmem ?_
        rw [of_decide_eq_true hname, head?_name_unknown]
      have hdigits : ((unknown code).name.toList.drop 9).dropLast =
          (Text.decimal code.toNat).toList := by
        rw [name, String.toList_append, String.toList_append]
        exact List.dropLast_concat
      rw [named, hnone, hdigits, Token.digits?_eq_some_iff.mpr (digits_decimal code.toNat)]
      simp
  | _ => rfl

/-- The name of an operator is no numeral and not the word of another instruction. -/
theorem Operator.name_ne (operator : Operator) :
    Token.integer? operator.name.toList = none ∧ operator.name ≠ "exit" ∧ operator.name ≠ "_" ∧
      (operator.name = "not" → operator = .not) := by
  cases operator with
  | unknown code =>
      have hfirst := head?_name_unknown code
      have hother : ∀ word : String, word.toList.head? ≠ some 'O' → (unknown code).name ≠ word :=
        fun word hword hname ↦ hword (hname ▸ hfirst)
      refine ⟨?_, hother "exit" (by decide), hother "_" (by decide),
        fun hname ↦ absurd hname (hother "not" (by decide))⟩
      rw [Option.eq_none_iff_forall_ne_some]
      intro n hn
      obtain hnumeral := Token.integer?_eq_some_iff.mp hn
      generalize (unknown code).name.toList = text at hfirst hnumeral
      cases hnumeral with
      | plain hdigits => exact absurd (hdigits.2 'O' (List.mem_of_mem_head? hfirst)) (by decide)
      | plus => cases hfirst
      | minus => cases hfirst
  | _ => decide

namespace Inst

/-- The instruction with this word and operand. -/
def ofWord (word : String) : Option Word → Inst
  | some n => { op := (Op.all.find? (·.name = word)).getD .hole, n }
  | none =>
      match Token.integer? word.toList with
      | some n => .constant (Int64.ofInt n)
      | none =>
          if word = "exit" then .exit
          else if word = "_" then .hole
          else if word = "not" then .unary .not
          else .binary (.named word)

/-- An instruction of compiled code can be told from its word and its operand. -/
theorem Emitted.ofWord_word {inst : Inst} (h : inst.Emitted) :
    ofWord inst.word inst.operand? = inst := by
  cases h with
  | constant value =>
      have hvalue : Token.integer? (Word.render value).toList = some value.toInt :=
        Token.integer?_eq_some_iff.mpr (numeral_integer value.toInt)
      show ofWord (Word.render value) none = Inst.constant value
      simp [ofWord, hvalue]
  | @binary operator hbinary =>
      obtain ⟨hinteger, hexit, hhole, hnot⟩ := operator.name_ne
      show ofWord operator.name none = Inst.binary operator
      simp [ofWord, hinteger, hexit, hhole, mt hnot hbinary, Operator.named_name]
  | _ => rfl

/-- An instruction of compiled code can be told from its text. -/
theorem Emitted.eq_of_render {inst other : Inst} (h : inst.Emitted) (h' : other.Emitted)
    (same : inst.render = other.render) : inst = other := by
  have htext := congrArg String.toList same
  rw [toList_render, toList_render] at htext
  have hfree : ∀ inst : Inst, ' ' ∉ inst.word.toList := fun inst hmem ↦
    inst.isWord_word.2 ' ' hmem (by decide)
  have hstop : ∀ operand? : Option Word, ∀ first ∈ (operandText operand?).head?, first = ' ' := by
    rintro (_ | n) _ ⟨⟩
    rfl
  obtain ⟨hword, hrest⟩ :=
    Text.append_unique (hfree inst) (hfree other) (hstop _) (hstop _) htext
  rw [← h.ofWord_word, ← h'.ofWord_word, String.toList_inj.mp hword, operandText_inj hrest]

/-- The text of an instruction is not empty, and no mark in it but a blank. -/
theorem render_free (inst : Inst) :
    inst.render.toList ≠ [] ∧ ∀ c ∈ inst.render.toList, c ∈ marks → c = ' ' := by
  obtain ⟨hne, hfree⟩ := inst.isWord_word
  rw [toList_render]
  refine ⟨by simp [hne], List.forall_mem_append.mpr ⟨?_, ?_⟩⟩
  · exact fun c hc hmark ↦ absurd hmark (hfree c hc)
  · cases inst.operand? with
    | none => exact List.forall_mem_nil _
    | some n =>
        exact List.forall_mem_cons.mpr ⟨fun _ ↦ rfl, fun c hc hmark ↦
          absurd hmark ((isWord_render n).2 c hc)⟩

end Inst

/-! ## Programs -/

namespace Program

/-- The text of a program between its brackets. -/
theorem toList_render (program : Program) :
    program.render.toList =
      '[' :: ([',', ' '].intercalate (program.toList.map (·.render.toList)) ++ [']']) := by
  rw [render, String.toList_append, String.toList_append, String.toList_intercalate, List.map_map]
  rfl

/-- Programs of instructions that compiled code may have can be told from their texts. -/
theorem eq_of_render {program other : Program} (emitted : ∀ inst ∈ program, inst.Emitted)
    (emitted' : ∀ inst ∈ other, inst.Emitted) (same : program.render = other.render) :
    program = other := by
  have hfree : ∀ program : Program,
      ∀ text ∈ program.toList.map (·.render.toList), text ≠ [] ∧ ',' ∉ text := by
    intro program text hmem
    obtain ⟨inst, -, rfl⟩ := List.mem_map.mp hmem
    obtain ⟨hne, hmarks⟩ := inst.render_free
    exact ⟨hne, fun hcomma ↦ absurd (hmarks ',' hcomma (by decide)) (by decide)⟩
  have htext := congrArg String.toList same
  rw [toList_render, toList_render] at htext
  have hrows := List.append_cancel_right (List.cons.inj htext).2
  have hinsts := Text.intercalate_inj (hfree program) (hfree other) hrows
  have hsize : program.size = other.size := by simpa using congrArg List.length hinsts
  refine Array.ext hsize fun i hi hi' ↦ ?_
  have hinst := congrArg (·[i]?) hinsts
  refine (emitted _ (Array.getElem_mem hi)).eq_of_render (emitted' _ (Array.getElem_mem hi')) ?_
  simpa [hi, hi', String.toList_inj] using hinst

end Program

end WordLisp
