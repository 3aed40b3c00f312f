import Mathlib.Data.List.Induction
import WordLisp.Proofs.Node.Lexeme
import WordLisp.Proofs.Node.Reading

/-!
# The grammar of expressions

What the lexemes of a text denote, said without a reader. A numeral denotes an integer, any other
atom the symbol of its name, and a sequence of expressions between parentheses the list of them
(`Forest`). A text that denotes nothing has a first offence: a parenthesis that closes no list, an
integer that is no word, or an end inside a list (`Offends`).

Every sequence of lexemes is one or the other (`forest_or_offends`).
-/

namespace WordLisp

open Text (Rune)

/-! ## Atoms -/

/-- Some decimal digits. -/
def Digits (text : List Char) : Prop :=
  text ≠ [] ∧ ∀ c ∈ text, c.isDigit

/-- A numeral and the integer it denotes: decimal digits, maybe after a sign. -/
inductive Numeral : List Char → Int → Prop where
  | plain {digits : List Char} : Digits digits → Numeral digits (Nat.ofDigitChars 10 digits 0)
  | plus {digits : List Char} :
      Digits digits → Numeral ('+' :: digits) (Nat.ofDigitChars 10 digits 0)
  | minus {digits : List Char} :
      Digits digits → Numeral ('-' :: digits) (-(Nat.ofDigitChars 10 digits 0 : Nat))

/-- The node that an atom denotes: a word if it is a numeral, else a symbol. -/
inductive Denotes (text : List Char) : Node → Prop where
  | integer (word : Word) : Numeral text word.toInt → Denotes text (.int word)
  | symbol : (∀ n, ¬Numeral text n) → Denotes text (.symbol (String.ofList text))

/-- A numeral of an integer that is no word: it is below -2⁶³ or above 2⁶³ - 1. -/
def OutOfRange (text : List Char) : Prop :=
  ∃ n, Numeral text n ∧ ¬(-0x8000000000000000 ≤ n ∧ n ≤ 0x7fffffffffffffff)

namespace Token

/-- Digits have their decimal value. -/
theorem digits?_eq_some_iff {text : List Char} {n : Nat} :
    digits? text = some n ↔ Digits text ∧ Nat.ofDigitChars 10 text 0 = n := by
  have hvalue : digitsValue text = Nat.ofDigitChars 10 text 0 := by
    rw [Nat.ofDigitChars_eq_foldl]
    rfl
  simp [digits?, Digits, hvalue]

/-- A sign is no digit. -/
theorem not_digits_cons {c : Char} (sign : c.isDigit = false) (rest : List Char) :
    ¬Digits (c :: rest) := by
  intro h
  have hdigit := h.2 c List.mem_cons_self
  rw [sign] at hdigit
  cases hdigit

/-- The integer of digits behind a sign, which `f` accounts for. -/
theorem signed_eq_some_iff {digits : List Char} {f : Int → Int} {n : Int} :
    (Option.map f do return (← digits? digits : Int)) = some n ↔
      Digits digits ∧ f (Nat.ofDigitChars 10 digits 0 : Nat) = n := by
  constructor
  · intro h
    obtain ⟨_, hvalue, rfl⟩ := Option.map_eq_some_iff.mp h
    obtain ⟨value, hdigits, ⟨⟩⟩ := Option.bind_eq_some_iff.mp hvalue
    obtain ⟨hall, rfl⟩ := digits?_eq_some_iff.mp hdigits
    exact ⟨hall, rfl⟩
  · rintro ⟨hdigits, rfl⟩
    rw [digits?_eq_some_iff.mpr ⟨hdigits, rfl⟩]
    rfl

/-- The integer of an atom is the one that it denotes as a numeral. -/
theorem integer?_eq_some_iff {text : List Char} {n : Int} :
    integer? text = some n ↔ Numeral text n := by
  constructor
  · intro h
    unfold integer? at h
    split at h <;> obtain ⟨hdigits, rfl⟩ := signed_eq_some_iff.mp h
    · exact .plus hdigits
    · exact .minus hdigits
    · exact .plain hdigits
  · rintro (hdigits | hdigits | hdigits)
    · unfold integer?
      split
      · exact absurd hdigits (not_digits_cons rfl _)
      · exact absurd hdigits (not_digits_cons rfl _)
      · exact signed_eq_some_iff.mpr ⟨hdigits, rfl⟩
    · exact signed_eq_some_iff.mpr ⟨hdigits, rfl⟩
    · exact signed_eq_some_iff.mpr ⟨hdigits, rfl⟩

end Token

namespace Word

variable {n : Int} {word : Word}

/-- The integers in range are those from -2⁶³ to 2⁶³ - 1. -/
theorem inRange_iff : InRange n ↔ -0x8000000000000000 ≤ n ∧ n ≤ 0x7fffffffffffffff := Iff.rfl

/-- The word of an integer is the one with its value. -/
theorem ofInt?_eq_some_iff : ofInt? n = some word ↔ word.toInt = n := by
  constructor
  · intro h
    unfold ofInt? at h
    split at h
    · next hrange =>
        cases h
        obtain ⟨hlow, hhigh⟩ := inRange_iff.mp hrange
        exact Int64.toInt_ofInt_of_le hlow (by omega)
    · cases h
  · rintro rfl
    have hlow := word.le_toInt
    have hhigh := word.toInt_lt
    rw [ofInt?, if_pos (inRange_iff.mpr (by omega)), Int64.ofInt_toInt]

/-- An integer without a word is out of range. -/
theorem ofInt?_eq_none_iff :
    ofInt? n = none ↔ ¬(-0x8000000000000000 ≤ n ∧ n ≤ 0x7fffffffffffffff) := by
  rw [← inRange_iff]
  unfold ofInt?
  split <;> simp_all

end Word

section Atoms

variable {text : List Char} {node : Node} (position : Position)

/-- The reader takes an atom for the node that it denotes. -/
theorem Denotes.atomNode (h : Denotes text node) : Reader.atomNode position text = .ok node := by
  unfold Reader.atomNode
  cases h with
  | integer word hnumeral =>
      rw [Token.integer?_eq_some_iff.mpr hnumeral]
      simp only [Word.ofInt?_eq_some_iff.mpr rfl]
  | symbol hnone =>
      have hsymbol : Token.integer? text = none :=
        Option.eq_none_iff_forall_ne_some.mpr fun n hn ↦ hnone n (Token.integer?_eq_some_iff.mp hn)
      rw [hsymbol]

/-- The reader refuses an integer that is no word. -/
theorem OutOfRange.atomNode (h : OutOfRange text) :
    Reader.atomNode position text =
      .error (.integerOutOfRange position (String.ofList text)) := by
  obtain ⟨n, hnumeral, hrange⟩ := h
  unfold Reader.atomNode
  rw [Token.integer?_eq_some_iff.mpr hnumeral]
  simp only [Word.ofInt?_eq_none_iff.mpr hrange]

/-- Every atom denotes a node or is out of range. -/
theorem denotes_or_outOfRange (text : List Char) :
    (∃ node, Denotes text node) ∨ OutOfRange text := by
  cases hinteger : Token.integer? text with
  | none =>
      refine .inl ⟨_, .symbol fun n hn ↦ ?_⟩
      rw [Token.integer?_eq_some_iff.mpr hn] at hinteger
      cases hinteger
  | some n =>
      have hnumeral := Token.integer?_eq_some_iff.mp hinteger
      cases hword : Word.ofInt? n with
      | some word =>
          rw [← Word.ofInt?_eq_some_iff.mp hword] at hnumeral
          exact .inl ⟨_, .integer word hnumeral⟩
      | none => exact .inr ⟨n, hnumeral, Word.ofInt?_eq_none_iff.mp hword⟩

/-- The reader takes an atom for a node that it denotes, or refuses it. -/
theorem Reader.atomNode_cases (text : List Char) :
    (∃ node, Denotes text node ∧ atomNode position text = .ok node) ∨
      atomNode position text = .error (.integerOutOfRange position (String.ofList text)) := by
  rcases denotes_or_outOfRange text with ⟨node, hdenotes⟩ | hrange
  · exact .inl ⟨node, hdenotes, hdenotes.atomNode position⟩
  · exact .inr (hrange.atomNode position)

end Atoms

/-! ## Expressions -/

/-- Lexemes that denote a sequence of expressions. -/
inductive Forest : List Lexeme → List Node → Prop where
  | nil : Forest [] []
  | atom {text : List Char} {node : Node} {rest : List Lexeme} {nodes : List Node} :
      Denotes text node → Forest rest nodes → Forest (.atom text :: rest) (node :: nodes)
  /-- A sequence of expressions between parentheses is the list of them. -/
  | list {inner rest : List Lexeme} {items nodes : List Node} :
      Forest inner items → Forest rest nodes →
      Forest (.opening :: (inner ++ .closing :: rest)) (.ofList items :: nodes)

/-- Lexemes without an offence: some complete expressions, and behind them `depth` lists that are
open, one inside the other, each with the complete expressions before the next one. -/
inductive Pending (nodes : List Node) : Nat → List Lexeme → Prop where
  | complete {lexemes : List Lexeme} : Forest lexemes nodes → Pending nodes 0 lexemes
  | opened {depth : Nat} {outer inner : List Lexeme} {items : List Node} :
      Pending nodes depth outer → Forest inner items →
      Pending nodes (depth + 1) (outer ++ .opening :: inner)

/-- What can be wrong with lexemes. -/
inductive Offence where
  /-- A parenthesis that closes no list. -/
  | strayClosing
  /-- An integer that is no word. -/
  | outOfRange (text : List Char)
  /-- An end inside a list. -/
  | unterminated
  deriving DecidableEq

/-- The first offence in a sequence of lexemes, and the complete expressions before it. -/
inductive Offends (nodes : List Node) : List Lexeme → Offence → Prop where
  | strayClosing {before rest : List Lexeme} :
      Forest before nodes → Offends nodes (before ++ .closing :: rest) .strayClosing
  | outOfRange {before rest : List Lexeme} {depth : Nat} {text : List Char} :
      Pending nodes depth before → OutOfRange text →
      Offends nodes (before ++ .atom text :: rest) (.outOfRange text)
  | unterminated {lexemes : List Lexeme} {depth : Nat} :
      Pending nodes (depth + 1) lexemes → Offends nodes lexemes .unterminated

section Expressions

variable {lexemes others : List Lexeme} {nodes more : List Node} {depth : Nat}

/-- Expressions after expressions. -/
theorem Forest.append (h : Forest lexemes nodes) (h' : Forest others more) :
    Forest (lexemes ++ others) (nodes ++ more) := by
  induction h with
  | nil => exact h'
  | atom hdenotes _ ih => exact .atom hdenotes ih
  | list hinner _ _ ih =>
      rw [List.cons_append, List.append_assoc]
      exact .list hinner ih

/-- If no list is open, all expressions are complete. -/
theorem Pending.forest (h : Pending nodes 0 lexemes) : Forest lexemes nodes := by
  cases h with
  | complete hforest => exact hforest

/-- Another atom, at the top or in the innermost list. -/
theorem Pending.atom {text : List Char} {node : Node} (h : Pending nodes depth lexemes)
    (denotes : Denotes text node) :
    ∃ nodes, Pending nodes depth (lexemes ++ [.atom text]) := by
  have hatom : Forest [.atom text] [node] := .atom denotes .nil
  cases h with
  | complete hforest => exact ⟨_, .complete (hforest.append hatom)⟩
  | opened houter hinner =>
      rw [List.append_assoc, List.cons_append]
      exact ⟨nodes, .opened houter (hinner.append hatom)⟩

/-- The innermost list is closed. -/
theorem Pending.close (h : Pending nodes (depth + 1) lexemes) :
    ∃ nodes, Pending nodes depth (lexemes ++ [.closing]) := by
  cases h with
  | @opened _ outer inner items houter hinner =>
      have hlist : Forest (.opening :: (inner ++ [.closing])) [.ofList items] := .list hinner .nil
      rw [List.append_assoc, List.cons_append]
      cases houter with
      | complete hforest => exact ⟨_, .complete (hforest.append hlist)⟩
      | opened houtmost houter =>
          rw [List.append_assoc, List.cons_append]
          exact ⟨nodes, .opened houtmost (houter.append hlist)⟩

/-- What follows the first offence does not matter, unless this was the end. -/
theorem Offends.append {offence : Offence} (h : Offends nodes lexemes offence)
    (inside : offence ≠ .unterminated) (rest : List Lexeme) :
    Offends nodes (lexemes ++ rest) offence := by
  cases h with
  | strayClosing hforest =>
      rw [List.append_assoc, List.cons_append]
      exact .strayClosing hforest
  | outOfRange hpending hrange =>
      rw [List.append_assoc, List.cons_append]
      exact .outOfRange hpending hrange
  | unterminated _ => exact absurd rfl inside

/-- Lexemes are free of offences, or one of them is the first. -/
theorem pending_or_offends (lexemes : List Lexeme) :
    (∃ nodes depth, Pending nodes depth lexemes) ∨
      ∃ nodes offence, offence ≠ .unterminated ∧ Offends nodes lexemes offence := by
  induction lexemes using List.reverseRecOn with
  | nil => exact .inl ⟨[], 0, .complete .nil⟩
  | append_singleton lexemes last ih =>
      rcases ih with ⟨nodes, depth, hpending⟩ | ⟨nodes, offence, hinside, hoffends⟩
      · cases last with
        | opening => exact .inl ⟨nodes, depth + 1, .opened hpending .nil⟩
        | closing =>
            cases depth with
            | zero => exact .inr ⟨nodes, .strayClosing, nofun, .strayClosing hpending.forest⟩
            | succ depth =>
                obtain ⟨nodes, hclosed⟩ := hpending.close
                exact .inl ⟨nodes, depth, hclosed⟩
        | atom text =>
            rcases denotes_or_outOfRange text with ⟨node, hdenotes⟩ | hrange
            · obtain ⟨nodes, hatom⟩ := hpending.atom hdenotes
              exact .inl ⟨nodes, depth, hatom⟩
            · exact .inr ⟨nodes, .outOfRange text, nofun, .outOfRange hpending hrange⟩
      · exact .inr ⟨nodes, offence, hinside, hoffends.append hinside [last]⟩

/-- Lexemes denote expressions or have a first offence. -/
theorem forest_or_offends (lexemes : List Lexeme) :
    (∃ nodes, Forest lexemes nodes) ∨ ∃ nodes offence, Offends nodes lexemes offence := by
  rcases pending_or_offends lexemes with
    ⟨nodes, depth, hpending⟩ | ⟨nodes, offence, -, hoffends⟩
  · cases depth with
    | zero => exact .inl ⟨nodes, hpending.forest⟩
    | succ depth => exact .inr ⟨nodes, .unterminated, .unterminated hpending⟩
  · exact .inr ⟨nodes, offence, hoffends⟩

end Expressions

end WordLisp
