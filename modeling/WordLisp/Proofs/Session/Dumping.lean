import WordLisp.Proofs.Node.Printing
import WordLisp.Proofs.Output.Printing
import WordLisp.Proofs.Session.Lasting
import WordLisp.Proofs.Session.Listing

/-!
# Dumps of sessions

In a session that only ever compiled what some reader gave, every function is named by an atom
(`Compiler.Legible`), and a function that is replaced takes its address with it, as no later one
gets the same (`Compiler.Precedes`). So a dump shows the program and the functions, line by line,
and calls of what has been replaced are shown without a name (`Session.dump_shows`).
-/

namespace WordLisp

/-! ## Names that were read -/

/-- A symbol that was read is an atom. -/
theorem Readable.isAtom {name : String} (h : Readable (.symbol name)) : IsAtom name.toList := by
  generalize hnode : Node.symbol name = node at h
  cases h with
  | int => cases hnode
  | symbol hatom _ =>
      cases hnode
      exact hatom
  | @list nodes _ =>
      -- Of the lists only the empty one is a symbol.
      cases nodes with
      | nil =>
          cases hnode
          exact isAtom_nil
      | cons => cases hnode

/-- The items of a list that was read were read. -/
theorem Readable.items {node : Node} (h : Readable node) : ∀ item ∈ node.items, Readable item := by
  cases h with
  | int | symbol => exact List.forall_mem_nil _
  | list hnodes =>
      rw [Node.items_ofList]
      exact hnodes

/-- The items of a pair that was read are its head and what follows. -/
theorem Readable.of_pair {head tail : Node} (h : Readable (.pair head tail)) :
    Readable head ∧ ∀ item ∈ tail.items, Readable item :=
  List.forall_mem_cons.mp h.items

/-- The name of a definition that was read is an atom. -/
theorem Readable.isAtom_name {environment : Environment} {node : Node} {definition : Definition}
    (h : Readable node) (found : node.definition? environment = some definition) :
    IsAtom definition.name.toList := by
  unfold Node.definition? at found
  split at found
  · next word tail =>
      split at found
      · split at found
        · next name parameters body hitems =>
            obtain ⟨names, -, rfl⟩ := Option.map_eq_some_iff.mp found
            have hhead := h.of_pair.2 (.pair (.symbol name) parameters) (by
              rw [hitems]
              exact List.mem_cons_self)
            exact hhead.of_pair.1.isAtom
        · cases found
      · cases found
  · cases found

namespace Reader

/-- The expressions that are read one after the other are readable. -/
theorem Reads.readable {reader last : Reader} {nodes : List Node} (h : reader.Reads nodes last)
    (reached : reader.Reached) : ∀ node ∈ nodes, Readable node := by
  induction h with
  | nil => exact List.forall_mem_nil _
  | @cons reader next last node nodes hread _ ih =>
      refine List.forall_mem_cons.mpr ⟨reached.readable (by rw [hread]), ih ?_⟩
      have hnext := reached.read
      rwa [hread] at hnext

end Reader

/-! ## Compilers -/

namespace Compiler

variable {compiler later : Compiler} {node : Node}

/-- Everything is in order, and the functions are named by atoms. -/
structure Legible (compiler : Compiler) : Prop where
  settled : ∃ environment, compiler.Settled environment
  named : ∀ function ∈ compiler.functions, IsAtom function.name.toList

/-- The functions of a legible compiler are in order. -/
theorem Legible.valid (legible : compiler.Legible) :
    compiler.functions.Valid compiler.program.size := by
  obtain ⟨⟨environment, hsettled⟩, -⟩ := legible
  exact hsettled.valid

/-- A later compiler has a program that is not shorter, and no other functions of old than those of
the earlier one. -/
structure Precedes (compiler later : Compiler) : Prop where
  size_le : compiler.program.size ≤ later.program.size
  old_or_new : ∀ function ∈ later.functions,
    function ∈ compiler.functions ∨ compiler.program.size ≤ function.entry

/-- A compiler precedes itself. -/
theorem Precedes.refl (compiler : Compiler) : compiler.Precedes compiler :=
  ⟨Nat.le_refl _, fun _ hmem ↦ .inl hmem⟩

theorem Precedes.trans {middle : Compiler} (h : compiler.Precedes middle)
    (h' : middle.Precedes later) : compiler.Precedes later := by
  refine ⟨Nat.le_trans h.size_le h'.size_le, fun function hmem ↦ ?_⟩
  rcases h'.old_or_new function hmem with hold | hnew
  · exact h.old_or_new function hold
  · exact .inr (Nat.le_trans h.size_le hnew)

/-- To compile a node that was read keeps a compiler legible, and what is new comes behind. -/
theorem Legible.compile (legible : compiler.Legible) (readable : Readable node) :
    (compiler.compile node).1.Legible ∧ compiler.Precedes (compiler.compile node).1 := by
  obtain ⟨⟨environment, hsettled⟩, hnamed⟩ := legible
  have hnext := hsettled.compile node
  obtain ⟨error, hcompile⟩ | ⟨expr, -, -, hcompile⟩ | ⟨definition, body, hsome, -, hcompile⟩ :=
    hsettled.compile_cases node <;> rw [hcompile] at hnext ⊢
  · exact ⟨⟨⟨_, hnext⟩, hnamed⟩, .refl compiler⟩
  · exact ⟨⟨⟨_, hnext⟩, hnamed⟩, by simp, fun _ hmem ↦ .inl hmem⟩
  · have hmem : ∀ function ∈ compiler.functions.set (definition.function compiler.program.size),
        function ∈ compiler.functions ∨ function = definition.function compiler.program.size :=
      fun function ↦ hsettled.valid.mem_set (Nat.le_succ _)
    refine ⟨⟨⟨_, hnext⟩, fun function hfunction ↦ ?_⟩, by simp, fun function hfunction ↦ ?_⟩
    · rcases hmem function hfunction with hold | rfl
      · exact hnamed function hold
      · exact readable.isAtom_name hsome
    · rcases hmem function hfunction with hold | rfl
      · exact .inl hold
      · exact .inr (Nat.le_succ _)

/-- So it is with several nodes. -/
theorem Legible.compileNodes {nodes : List Node} (legible : compiler.Legible)
    (readable : ∀ node ∈ nodes, Readable node) :
    (compiler.compileNodes nodes).1.Legible ∧
      compiler.Precedes (compiler.compileNodes nodes).1 := by
  induction nodes generalizing compiler with
  | nil => exact ⟨legible, .refl compiler⟩
  | cons node rest ih =>
      obtain ⟨hnode, hrest⟩ := List.forall_mem_cons.mp readable
      obtain ⟨hlegible, hprecedes⟩ := legible.compile hnode
      rw [Compiler.compileNodes]
      split
      · next hcompile =>
          rw [hcompile] at hlegible hprecedes
          obtain ⟨hlast, hbefore⟩ := ih hlegible hrest
          exact ⟨hlast, hprecedes.trans hbefore⟩
      · next hcompile =>
          rw [hcompile] at hlegible hprecedes
          exact ⟨hlegible, hprecedes⟩

/-- So it is with a source. -/
theorem Legible.compileReader {reader : Reader} (legible : compiler.Legible)
    (reached : reader.Reached) :
    (compiler.compileReader reader).1.Legible ∧
      compiler.Precedes (compiler.compileReader reader).1 := by
  obtain ⟨last, hreads, -⟩ := reader.reads_readAll
  have hnodes := legible.compileNodes (hreads.readable reached)
  rw [Compiler.compileReader]
  dsimp only
  split
  · next hcompile => rwa [hcompile] at hnodes
  · next hcompile => rwa [hcompile] at hnodes

/-- The address of a function that has been replaced is not that of another one. -/
theorem Precedes.entry_ne (h : compiler.Precedes later) (legible : compiler.Legible)
    {function other : Function} (mem : function ∈ compiler.functions)
    (replaced : function ∉ later.functions) (mem' : other ∈ later.functions) :
    other.entry ≠ function.entry := by
  intro hentry
  rcases h.old_or_new other mem' with hold | hnew
  · rw [eq_of_entry_eq legible.valid.increasing hold mem hentry] at mem'
    exact replaced mem'
  · have := legible.valid.below function mem
    omega

end Compiler

/-! ## Sessions -/

namespace Session

/-- What comes of a session when sources are compiled, run or loaded, and expressions are entered
that some reader has given. -/
inductive Becomes (session : Session) : Session → Prop where
  | refl : Becomes session session
  | compile {later : Session} (sources : List Source) :
      Becomes session later → Becomes session (later.compile sources).1
  | run {later : Session} (watch : Watch) :
      Becomes session later → Becomes session (later.run watch).1
  | load {later : Session} (watch : Watch) (sources : List Source) :
      Becomes session later → Becomes session (later.load watch sources).1
  | enter {later : Session} {reader : Reader} {node : Node} (watch : Watch) :
      reader.Reached → reader.read.1 = .ok node → Becomes session later →
      Becomes session (later.enter watch node).1

variable {session later : Session}

/-- To compile sources keeps a session legible, and what is new comes behind. -/
theorem legible_compile (legible : session.compiler.Legible) (sources : List Source) :
    (session.compile sources).1.compiler.Legible ∧
      session.compiler.Precedes (session.compile sources).1.compiler := by
  rw [compiler_compile]
  exact legible.compileReader (.sources sources)

/-- What comes of a session that is legible is so too, and comes after it. -/
theorem Becomes.legible (becomes : session.Becomes later) (legible : session.compiler.Legible) :
    later.compiler.Legible ∧ session.compiler.Precedes later.compiler := by
  induction becomes with
  | refl => exact ⟨legible, .refl _⟩
  | compile sources _ ih =>
      obtain ⟨hnext, hafter⟩ := legible_compile ih.1 sources
      exact ⟨hnext, ih.2.trans hafter⟩
  | run watch _ ih => rwa [compiler_run]
  | @load later watch sources _ ih =>
      obtain ⟨hnext, hafter⟩ := legible_compile ih.1 sources
      rcases later.fst_load watch sources with h | h <;> rw [h]
      · exact ⟨hnext, ih.2.trans hafter⟩
      · rw [compiler_run]
        exact ⟨hnext, ih.2.trans hafter⟩
  | enter watch hreached hread _ ih =>
      obtain ⟨hlegible, hprecedes⟩ := ih
      obtain ⟨hnext, hafter⟩ := hlegible.compile (hreached.readable hread)
      rw [compiler_enter]
      exact ⟨hnext, hprecedes.trans hafter⟩

/-- Dumps are faithful. In every session that a new one becomes when sources are loaded and
expressions entered, with any success, the lines of a dump show the program and the functions:
every instruction once and in order, every function once and right above its code, and a called
function beside the call. Each line is written at once, as long as the writer takes what it is
given, under a title, and its text tells what it is. A call of a function that has been replaced
since has no function beside it. -/
theorem dump_shows {fresh : Session} (start : fresh.compiler = {})
    (becomes : fresh.Becomes session) :
    let width := Text.decimalWidth session.compiler.program.size
    IsListing session.compiler.program session.compiler.functions session.compiler.lines ∧
      (session.writer.Takes session.compiler.listing →
        session.dump = session.printAll ("# Program\n" ::
          session.compiler.lines.map (·.text width))) ∧
      (∀ line ∈ session.compiler.lines, line.Written width (line.text width)) ∧
      ∀ later function, session.Becomes later → function ∈ session.compiler.functions →
        function ∉ later.compiler.functions → ∀ address inst callee?,
        ListingLine.instruction address inst callee? ∈ later.compiler.lines →
        inst.n.toInt = function.entry → callee? = none := by
  intro width
  have hfresh : fresh.compiler.Legible := by
    rw [start]
    exact ⟨⟨[], Compiler.settled_start #[]⟩, List.forall_mem_nil _⟩
  obtain ⟨hlegible, -⟩ := becomes.legible hfresh
  have hlisting := Compiler.isListing_lines hlegible.valid
  have hnamed := hlisting.named hlegible.named
  refine ⟨hlisting, ?_, fun line hmem ↦ (hnamed line hmem).written width, ?_⟩
  · rintro ⟨-, htakes⟩
    exact congrArg (fun writer ↦ { session with writer }) htakes.printThrough_eq
  · intro later function hlater hmem hreplaced address inst callee? hline hcall
    obtain ⟨hnext, hprecedes⟩ := hlater.legible hlegible
    have hcallee := (Compiler.isListing_lines hnext.valid).callee_iff address inst callee? hline
    rw [Option.eq_none_iff_forall_ne_some]
    intro other hother
    obtain ⟨-, hfound, hentry⟩ := (hcallee other).mp hother
    refine hprecedes.entry_ne hlegible hmem hreplaced hfound ?_
    omega

/-- The second function calls the first, which is replaced after an expression that is refused. -/
theorem dump_shows_replaced :
    let reader := Reader.ofText (Text.Rune.ofString "(define (f) 2) (f)")
    let first := Node.ofList [.symbol "define", .ofList [.symbol "f"], .int 2]
    let second := Node.ofList [.symbol "f"]
    let loaded := ((Session.new 8 ⟨[.memory .empty]⟩).load .never
      [{ text := Text.Rune.ofString "(define (f) 1) (define (g) (f)) (h)" }]).1
    let session := ((loaded.enter .never first).1.enter .never second).1
    reader.read.1 = .ok first ∧ reader.read.2.read.1 = .ok second ∧
      session.dump = session.printAll ["# Program\n",
        "  @ 0 jump 4\n", "  @ 1 enter 0\n", "  @ 2 1\n", "  @ 3 exit\n",
        "  @ 4 jump 8\n", ": g/0\n", "  @ 5 enter 0\n", "  @ 6 call 1\n", "  @ 7 exit\n",
        "  @ 8 jump 12\n", ": f/0\n", "  @ 9 enter 0\n", "  @10 2\n", "  @11 exit\n",
        "  @12 call 9 ; f\n"] := by
  intro reader first second loaded session
  have hfirst : reader.read.1 = .ok first := by
    rfl
  have hsecond : reader.read.2.read.1 = .ok second := by
    rfl
  have htakes : session.writer.Takes session.compiler.listing := by
    decide +kernel
  obtain ⟨-, hdump, -⟩ := @dump_shows session (Session.new 8 ⟨[.memory .empty]⟩) rfl
    (.enter .never (.read (.source _)) hsecond
      (.enter .never (.source _) hfirst (.load .never _ .refl)))
  refine ⟨hfirst, hsecond, (hdump htakes).trans (congrArg session.printAll ?_)⟩
  decide +kernel

end Session

end WordLisp
