import WordLisp.Proofs.Compiler.Table
import WordLisp.Proofs.Machine.Rendering
import WordLisp.Proofs.Search
import WordLisp.Session.Listing

/-!
# What a listing shows

In a table whose functions stand in the order of their entries, halving finds the function with an
entry (`Compiler.functionAt?_eq_some_iff`), and going through instructions and functions side by
side meets every function at its first instruction (`Compiler.interleaved_linesFrom`). So the lines
of a compiler are a listing of its program and its functions (`Compiler.isListing_lines`).

The text of a line can be told apart from those of the other kinds by its colon and its semicolon,
as long as names are atoms (`ListingLine.Named.written`).
-/

namespace WordLisp

/-! ## Lines -/

namespace ListingLine

/-- The function that a line is the heading of. -/
def function? : ListingLine → Option Function
  | .heading function => some function
  | .instruction .. => none

/-- The instruction of a line, with its address. -/
def located? : ListingLine → Option (Inst × Nat)
  | .heading _ => none
  | .instruction address inst _ => some (inst, address)

/-- The function that a line notes as the one that is called. -/
def callee? : ListingLine → Option Function
  | .heading _ => none
  | .instruction _ _ callee? => callee?

end ListingLine

/-- Lines that are a listing of a program and its functions. -/
structure IsListing (program : Program) (table : Table) (lines : List ListingLine) : Prop where
  /-- Every instruction has one line, in the order of the addresses. -/
  instructions : lines.filterMap ListingLine.located? = program.toList.zipIdx
  /-- Every function has one heading, and there are no others. -/
  headings : lines.filterMap ListingLine.function? = table
  distinct : table.Pairwise (·.name ≠ ·.name)
  /-- A heading stands right above the first instruction of its function. -/
  above : ∀ i function, lines[i]? = some (.heading function) →
    ∃ inst callee?, lines[i + 1]? = some (.instruction function.entry inst callee?)
  /-- The function that a line notes is the one of the table that its instruction calls. -/
  callee_iff : ∀ address inst callee?, ListingLine.instruction address inst callee? ∈ lines →
    ∀ function, callee? = some function ↔
      inst.op = .call ∧ function ∈ table ∧ inst.n.toInt = function.entry

namespace Compiler

variable {compiler : Compiler}

/-! ## The function at an address -/

/-- Functions with the same entry are the same. -/
theorem eq_of_entry_eq {table : Table} (increasing : table.Pairwise (·.entry < ·.entry))
    {function other : Function} (mem : function ∈ table) (mem' : other ∈ table)
    (same : function.entry = other.entry) : function = other := by
  obtain ⟨i, hi, rfl⟩ := List.mem_iff_getElem.mp mem
  obtain ⟨j, hj, rfl⟩ := List.mem_iff_getElem.mp mem'
  have horder := List.pairwise_iff_getElem.mp increasing
  rcases Nat.lt_trichotomy i j with hlt | rfl | hgt
  · exact absurd same (Nat.ne_of_lt (horder i j hi hj hlt))
  · rfl
  · exact absurd same.symm (Nat.ne_of_lt (horder j i hj hi hgt))

/-- The function that is found at an address is the one whose code starts there. -/
theorem functionAt?_eq_some_iff (increasing : compiler.functions.Pairwise (·.entry < ·.entry))
    {address : Word} {function : Function} :
    compiler.functionAt? address = some function ↔
      function ∈ compiler.functions ∧ address.toInt = function.entry := by
  simp only [functionAt?, Option.filter_eq_some_iff, decide_eq_true_eq]
  constructor
  · rintro ⟨hfound, hentry⟩
    exact ⟨List.mem_of_getElem? hfound, hentry.symm⟩
  · rintro ⟨hmem, hentry⟩
    refine ⟨getElem?_search increasing ?_ hmem ?_ ?_, hentry.symm⟩
    · intro earlier later horder hle
      have := of_decide_eq_true hle
      exact decide_eq_true (by omega)
    · exact decide_eq_true (Int.le_of_eq hentry)
    · intro earlier horder hle
      have := of_decide_eq_true hle
      omega

/-! ## Instructions and functions side by side -/

/-- The lines of instructions from an address on, with headings for these functions. -/
inductive Interleaved (compiler : Compiler) :
    Nat → List Function → List Inst → List ListingLine → Prop where
  | nil (address : Nat) : Interleaved compiler address [] [] []
  | heading {address : Nat} {function : Function} {later : List Function} {inst : Inst}
      {rest : List Inst} {lines : List ListingLine} :
      function.entry = address → Interleaved compiler (address + 1) later rest lines →
      Interleaved compiler address (function :: later) (inst :: rest)
        (.heading function :: .instruction address inst (compiler.callee? inst) :: lines)
  | instruction {address : Nat} {functions : List Function} {inst : Inst} {rest : List Inst}
      {lines : List ListingLine} :
      Interleaved compiler (address + 1) functions rest lines →
      Interleaved compiler address functions (inst :: rest)
        (.instruction address inst (compiler.callee? inst) :: lines)

/-- Where the first instruction has no function, all of them are still to come. -/
theorem linesFrom_of_lt {address : Nat} {functions : List Function} (inst : Inst)
    (rest : List Inst) (later : ∀ function ∈ functions, address < function.entry) :
    compiler.linesFrom address functions (inst :: rest) =
      .instruction address inst (compiler.callee? inst) ::
        compiler.linesFrom (address + 1) functions rest := by
  cases functions with
  | nil => rfl
  | cons function functions =>
      have hentry := later function List.mem_cons_self
      simp [linesFrom, Nat.not_le_of_lt hentry]

/-- Where the first instruction has a function, the others are still to come. -/
theorem linesFrom_of_eq {function : Function} {functions : List Function} (inst : Inst)
    (rest : List Inst) (later : ∀ other ∈ functions, function.entry < other.entry) :
    compiler.linesFrom function.entry (function :: functions) (inst :: rest) =
      .heading function :: .instruction function.entry inst (compiler.callee? inst) ::
        compiler.linesFrom (function.entry + 1) functions rest := by
  cases functions with
  | nil => simp [linesFrom]
  | cons other functions =>
      have hentry := later other List.mem_cons_self
      simp [linesFrom, Nat.not_le_of_lt hentry]

/-- Functions in the order of their entries meet the instructions there. -/
theorem interleaved_linesFrom {address : Nat} {functions : List Function} {insts : List Inst}
    (increasing : functions.Pairwise (·.entry < ·.entry))
    (ge : ∀ function ∈ functions, address ≤ function.entry)
    (lt : ∀ function ∈ functions, function.entry < address + insts.length) :
    Interleaved compiler address functions insts (compiler.linesFrom address functions insts) := by
  induction insts generalizing address functions with
  | nil =>
      cases functions with
      | nil => exact .nil address
      | cons function functions =>
          have := ge function List.mem_cons_self
          have := lt function List.mem_cons_self
          rw [List.length_nil] at this
          omega
  | cons inst rest ih =>
      have hbound : address + (inst :: rest).length = address + 1 + rest.length := by
        rw [List.length_cons]
        omega
      rw [hbound] at lt
      by_cases hfirst : ∃ function ∈ functions.head?, function.entry = address
      · obtain ⟨function, hhead, rfl⟩ := hfirst
        obtain ⟨later, rfl⟩ := List.head?_eq_some_iff.mp hhead
        obtain ⟨hlater, hincreasing⟩ := List.pairwise_cons.mp increasing
        rw [linesFrom_of_eq inst rest hlater]
        exact .heading rfl (ih hincreasing (fun other hother ↦ hlater other hother)
          fun other hother ↦ lt other (List.mem_cons_of_mem _ hother))
      · have hlater : ∀ function ∈ functions, address < function.entry := by
          cases functions with
          | nil => exact List.forall_mem_nil _
          | cons function later =>
              have hentry : address < function.entry :=
                Nat.lt_of_le_of_ne (ge function List.mem_cons_self) fun heq ↦
                  hfirst ⟨function, rfl, heq.symm⟩
              obtain ⟨hbehind, -⟩ := List.pairwise_cons.mp increasing
              exact List.forall_mem_cons.mpr ⟨hentry, fun other hother ↦
                Nat.lt_trans hentry (hbehind other hother)⟩
        rw [linesFrom_of_lt inst rest hlater]
        exact .instruction (ih increasing hlater lt)

namespace Interleaved

variable {address : Nat} {functions : List Function} {insts : List Inst}
  {lines : List ListingLine}

/-- The instructions have their lines in order. -/
theorem instructions (h : Interleaved compiler address functions insts lines) :
    lines.filterMap ListingLine.located? = insts.zipIdx address := by
  induction h with
  | nil => rfl
  | heading _ _ ih =>
      simp only [List.filterMap_cons, ListingLine.located?, ih, List.zipIdx_cons]
  | instruction _ ih =>
      simp only [List.filterMap_cons, ListingLine.located?, ih, List.zipIdx_cons]

/-- The functions have their headings in order. -/
theorem headings (h : Interleaved compiler address functions insts lines) :
    lines.filterMap ListingLine.function? = functions := by
  induction h with
  | nil => rfl
  | heading _ _ ih => simp only [List.filterMap_cons, ListingLine.function?, ih]
  | instruction _ ih => simp only [List.filterMap_cons, ListingLine.function?, ih]

/-- The first instruction of a function stands under its heading. -/
theorem above (h : Interleaved compiler address functions insts lines) {i : Nat}
    {function : Function} (found : lines[i]? = some (.heading function)) :
    ∃ inst callee?, lines[i + 1]? = some (.instruction function.entry inst callee?) := by
  induction h generalizing i with
  | nil => cases found
  | heading hentry _ ih =>
      match i, found with
      | 0, found =>
          cases found
          exact ⟨_, _, by rw [hentry]; rfl⟩
      | i + 2, found => exact ih found
  | instruction _ ih =>
      match i, found with
      | i + 1, found => exact ih found

/-- Every call has the function noted that is found at its address. -/
theorem callee?_eq (h : Interleaved compiler address functions insts lines) {location : Nat}
    {inst : Inst} {callee? : Option Function}
    (mem : .instruction location inst callee? ∈ lines) : callee? = compiler.callee? inst := by
  induction h with
  | nil => cases mem
  | heading _ _ ih =>
      rcases List.mem_cons.mp ((List.mem_cons.mp mem).resolve_left nofun) with heq | hmem
      · cases heq
        rfl
      · exact ih hmem
  | instruction _ ih =>
      rcases List.mem_cons.mp mem with heq | hmem
      · cases heq
        rfl
      · exact ih hmem

end Interleaved

/-- The lines of a compiler are a listing of its program and its functions. -/
theorem isListing_lines (valid : compiler.functions.Valid compiler.program.size) :
    IsListing compiler.program compiler.functions compiler.lines := by
  have hlines : Interleaved compiler 0 compiler.functions compiler.program.toList compiler.lines :=
    interleaved_linesFrom valid.increasing (fun _ _ ↦ Nat.zero_le _) fun function hmem ↦ by
      simpa using valid.below function hmem
  refine ⟨hlines.instructions, hlines.headings, valid.distinct, fun _ _ ↦ hlines.above, ?_⟩
  intro address inst callee? hmem function
  rw [hlines.callee?_eq hmem, Compiler.callee?]
  by_cases hcall : inst.op = .call
  · simp [hcall, functionAt?_eq_some_iff valid.increasing]
  · simp [hcall]

end Compiler

/-! ## Texts -/

/-- A text without the marks that end a line or start a note. -/
def Unmarked (text : String) : Prop :=
  '\n' ∉ text.toList ∧ ';' ∉ text.toList

theorem Unmarked.append {text more : String} (h : Unmarked text) (h' : Unmarked more) :
    Unmarked (text ++ more) := by
  simp [Unmarked, h.1, h.2, h'.1, h'.2]

/-- A number has no marks. -/
theorem unmarked_decimal (n : Nat) : Unmarked (Text.decimal n) := by
  obtain ⟨-, hfree⟩ := isWord_decimal n
  exact ⟨fun hmem ↦ hfree _ hmem (by decide), fun hmem ↦ hfree _ hmem (by decide)⟩

/-- Neither has an instruction. -/
theorem Inst.unmarked_render (inst : Inst) : Unmarked inst.render := by
  obtain ⟨-, hfree⟩ := inst.render_free
  exact ⟨fun hmem ↦ absurd (hfree _ hmem (by decide)) (by decide),
    fun hmem ↦ absurd (hfree _ hmem (by decide)) (by decide)⟩

/-- Neither has an atom. -/
theorem IsAtom.unmarked {text : String} (h : IsAtom text.toList) : Unmarked text :=
  ⟨fun hmem ↦ absurd (h.2 _ hmem) (by decide), fun hmem ↦ absurd (h.2 _ hmem) (by decide)⟩

/-- Blanks in front of a text bring none. -/
theorem Unmarked.padLeft {text : String} (h : Unmarked text) (width : Nat) :
    Unmarked (Text.padLeft ' ' width text) := by
  refine .append ?_ h
  simp [Unmarked, List.mem_replicate]

namespace ListingLine

/-- How the lines of a listing are worded, with their addresses in a column of this width. -/
inductive Worded (width : Nat) : ListingLine → String → Prop where
  | heading (function : Function) :
      Worded width (.heading function)
        (": " ++ function.name ++ "/" ++ Text.decimal function.arity ++ "\n")
  | plain (address : Nat) (inst : Inst) :
      Worded width (.instruction address inst none)
        ("  @" ++ Text.padLeft ' ' width (Text.decimal address) ++ " " ++ inst.render ++ "\n")
  | call (address : Nat) (inst : Inst) (callee : Function) :
      Worded width (.instruction address inst (some callee))
        ("  @" ++ Text.padLeft ' ' width (Text.decimal address) ++ " " ++ inst.render ++ " ; " ++
          callee.name ++ "\n")

/-- A text that is written for a line: it is worded for it, ends in the only line feed, starts with
a colon if it is a heading, and has a semicolon if it notes a function. -/
structure Written (width : Nat) (line : ListingLine) (text : String) : Prop where
  worded : Worded width line text
  ended : ∃ content, text = content ++ "\n" ∧ '\n' ∉ content.toList
  colon_iff : text.toList.head? = some ':' ↔ line.function?.isSome
  semicolon_iff : ';' ∈ text.toList ↔ line.callee?.isSome

variable {line : ListingLine}

/-- All names in a line are atoms. -/
def Named (line : ListingLine) : Prop :=
  ∀ function, line.function? = some function ∨ line.callee? = some function →
    IsAtom function.name.toList

/-- The marks in what a line says. -/
theorem Named.marks (named : line.Named) (width : Nat) :
    '\n' ∉ (line.render width).toList ∧
      ((line.render width).toList.head? = some ':' ↔ line.function?.isSome) ∧
      (';' ∈ (line.render width).toList ↔ line.callee?.isSome) := by
  cases line with
  | heading function =>
      have hname := (named function (.inl rfl)).unmarked
      have harity := unmarked_decimal function.arity
      simp [render, function?, callee?, hname.1, hname.2, harity.1, harity.2]
  | instruction address inst callee? =>
      have haddress := (unmarked_decimal address).padLeft width
      have hinst := inst.unmarked_render
      cases callee? with
      | none =>
          simp [render, function?, ListingLine.callee?, haddress.1, haddress.2, hinst.1, hinst.2]
      | some function =>
          have hname := (named function (.inr rfl)).unmarked
          simp [render, function?, ListingLine.callee?, haddress.1, hinst.1, hname.1]

/-- What a line says is ended by a line feed. -/
theorem Named.text_eq (named : line.Named) (width : Nat) :
    line.text width = line.render width ++ "\n" := by
  obtain ⟨hfree, -⟩ := named.marks width
  exact if_neg fun hlast ↦ hfree (List.mem_of_getLast? hlast)

/-- What a line says is worded for it. -/
theorem worded_render (width : Nat) (line : ListingLine) :
    Worded width line (line.render width ++ "\n") := by
  match line with
  | .heading function => exact .heading function
  | .instruction address inst none =>
      have hplain := @Worded.plain width address inst
      simpa [render] using hplain
  | .instruction address inst (some callee) =>
      have hcall := @Worded.call width address inst callee
      simpa [render, String.append_assoc] using hcall

/-- What is written for a line shows what it is. -/
theorem Named.written (named : line.Named) (width : Nat) :
    Written width line (line.text width) := by
  obtain ⟨hfree, hcolon, hsemicolon⟩ := named.marks width
  rw [named.text_eq]
  refine ⟨worded_render width line, ⟨_, rfl, hfree⟩, ?_, ?_⟩
  · rw [← hcolon, String.toList_append, List.head?_append]
    cases (line.render width).toList.head? with
    | none => decide
    | some c => rfl
  · rw [← hsemicolon]
    simp

end ListingLine

/-- A listing of functions named by atoms has only such names in it. -/
theorem IsListing.named {program : Program} {table : Table} {lines : List ListingLine}
    (listing : IsListing program table lines)
    (atoms : ∀ function ∈ table, IsAtom function.name.toList) :
    ∀ line ∈ lines, line.Named := by
  rintro line hmem function (hheading | hcallee)
  · refine atoms function ?_
    rw [← listing.headings]
    exact List.mem_filterMap.mpr ⟨line, hmem, hheading⟩
  · cases line with
    | heading => cases hcallee
    | instruction address inst callee? =>
        exact atoms function ((listing.callee_iff address inst callee? hmem function).mp
          hcallee).2.1

end WordLisp
