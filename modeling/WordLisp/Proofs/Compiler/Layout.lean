import WordLisp.Proofs.Compiler.CallForms
import WordLisp.Proofs.Compiler.Reached

/-!
# The layout of compiled code

What holds of the program and the tables of a compiler that has compiled some nodes: the code behind
the initial program has no holes, its jumps go forward and stay inside, and arguments are looked at
only inside functions that have them. The code is made of segments, one for each node that could be
compiled, and the calls in a segment are those of the forms of this node that call functions, with
as many arguments as the form has operands. The main statement is `Compiler.wellFormed_compileEach`.
-/

namespace WordLisp

/-! ## The code of an expression -/

/-- What an instruction in the code of an expression may be. -/
structure Inside (scope : Scope) (limit address : Nat) (inst : Inst) : Prop where
  filled : inst.op ≠ .hole
  jump : inst.op = .jump ∨ inst.op = .jumpZ →
    ∃ target, inst.n = Int64.ofNat target ∧ address < target ∧ target ≤ limit
  arg : inst.op = .arg → ∃ index, inst.n = Int64.ofNat index ∧ index < scope.parameters.length

/-- Every instruction from `start` on and before `stop` may be in the code of an expression that
ends at `limit`. -/
def Region (program : Program) (scope : Scope) (limit start stop : Nat) : Prop :=
  ∀ address inst, start ≤ address → address < stop → program[address]? = some inst →
    Inside scope limit address inst

namespace Region

variable {program : Program} {scope : Scope} {limit start middle stop : Nat}

/-- Two regions side by side. -/
theorem append (first : Region program scope limit start middle)
    (second : Region program scope limit middle stop) : Region program scope limit start stop := by
  intro address inst hle hlt hfound
  by_cases h : address < middle
  · exact first address inst hle h hfound
  · exact second address inst (Nat.not_lt.mp h) hlt hfound

/-- A region of one instruction. -/
theorem single {inst : Inst} (found : program[start]? = some inst)
    (inside : Inside scope limit start inst) :
    Region program scope limit start (start + 1) := by
  intro address other hle hlt hfound
  obtain rfl : address = start := by omega
  rw [found] at hfound
  cases hfound
  exact inside

/-- An instruction that neither jumps nor looks at an argument. -/
theorem plain {inst : Inst} (found : program[start]? = some inst)
    (ordinary : inst.op = .constant ∨ inst.op = .unary ∨ inst.op = .binary ∨ inst.op = .call) :
    Region program scope limit start (start + 1) := by
  have hother : inst.op ≠ .hole ∧ inst.op ≠ .jump ∧ inst.op ≠ .jumpZ ∧ inst.op ≠ .arg := by
    rcases ordinary with h | h | h | h <;> simp [h]
  obtain ⟨hhole, hjump, hjumpZ, harg⟩ := hother
  exact single found ⟨hhole, fun h ↦ (h.elim hjump hjumpZ).elim, fun h ↦ (harg h).elim⟩

/-- A jump forward. -/
theorem jump {inst : Inst} {target : Nat} (found : program[start]? = some inst)
    (op : inst.op = .jump ∨ inst.op = .jumpZ) (n : inst.n = Int64.ofNat target)
    (lt : start < target) (le : target ≤ limit) :
    Region program scope limit start (start + 1) := by
  have hother : inst.op ≠ .hole ∧ inst.op ≠ .arg := by
    rcases op with h | h <;> simp [h]
  obtain ⟨hhole, harg⟩ := hother
  exact single found ⟨hhole, fun _ ↦ ⟨target, n, lt, le⟩, fun h ↦ (harg h).elim⟩

/-- A region inside an expression that ends later. -/
theorem mono (h : Region program scope limit start stop) {later : Nat} (le : limit ≤ later) :
    Region program scope later start stop := by
  intro address inst hle hlt hfound
  obtain ⟨hfilled, hjump, harg⟩ := h address inst hle hlt hfound
  refine ⟨hfilled, fun hop ↦ ?_, harg⟩
  obtain ⟨target, hn, hbefore, hlimit⟩ := hjump hop
  exact ⟨target, hn, hbefore, Nat.le_trans hlimit le⟩

end Region

namespace Expr

mutual

/-- The code of an expression is a region of its own. -/
theorem region_code {program : Program} {scope : Scope} (start : Nat) : (expr : Expr) →
    expr.Scoped scope → CodeAt program start (expr.code start) →
      Region program scope (start + expr.size) start (start + expr.size)
  | .literal value, _, placed => by
      rw [code] at placed
      exact .plain placed.head (.inl rfl)
  | .parameter index, hscoped, placed => by
      rw [Scoped] at hscoped
      rw [code] at placed
      refine .single placed.head ⟨?_, ?_, fun _ ↦ ⟨index, rfl, hscoped⟩⟩ <;> intro h <;>
        simp [Inst.arg] at h
  | .unary operator operand, hscoped, placed => by
      rw [Scoped] at hscoped
      obtain ⟨hoperand, hlast⟩ := placed.unary
      have hregion := region_code start operand hscoped hoperand
      rw [size, ← Nat.add_assoc]
      exact (hregion.mono (by omega)).append (.plain hlast (.inr (.inl rfl)))
  | .binary operator left right, hscoped, placed => by
      rw [Scoped] at hscoped
      obtain ⟨hleft, hright, hlast⟩ := placed.binary
      have hregion := region_code start left hscoped.1 hleft
      have hregion' := region_code (start + left.size) right hscoped.2 hright
      rw [size, ← Nat.add_assoc, ← Nat.add_assoc]
      exact ((hregion.mono (by omega)).append (hregion'.mono (by omega))).append
        (.plain hlast (.inr (.inr (.inl rfl))))
  | .conditional condition consequent alternative, hscoped, placed => by
      rw [Scoped] at hscoped
      obtain ⟨yes, hyes⟩ : ∃ yes, yes = start + condition.size + 1 := ⟨_, rfl⟩
      obtain ⟨no, hno⟩ : ∃ no, no = yes + consequent.size + 1 := ⟨_, rfl⟩
      obtain ⟨hcondition, hbranch, hconsequent, hleave, halternative⟩ :=
        placed.conditional hyes hno
      have hregion := region_code start condition hscoped.1 hcondition
      have hregion' := region_code yes consequent hscoped.2.1 hconsequent
      have hregion'' := region_code no alternative hscoped.2.2 halternative
      have hend : start + (Expr.conditional condition consequent alternative).size =
          no + alternative.size := by
        rw [size]
        omega
      rw [hend]
      have hjumpZ : Region program scope (no + alternative.size) (start + condition.size) yes :=
        hyes ▸ .jump hbranch (.inr rfl) rfl (by omega) (by omega)
      have hjump : Region program scope (no + alternative.size) (yes + consequent.size) no :=
        hno ▸ .jump hleave (.inl rfl) rfl (by omega) (by omega)
      exact (((hregion.mono (by omega)).append hjumpZ).append
        ((hregion'.mono (by omega)).append hjump)).append hregion''
  | .call entry arguments, hscoped, placed => by
      rw [Scoped] at hscoped
      obtain ⟨harguments, hlast⟩ := placed.call
      have hregion := region_codes start arguments hscoped harguments
      rw [size, ← Nat.add_assoc]
      exact (hregion.mono (by omega)).append (.plain hlast (.inr (.inr (.inr rfl))))

/-- The code of several expressions is a region of its own. -/
theorem region_codes {program : Program} {scope : Scope} (start : Nat) : (exprs : List Expr) →
    AllScoped scope exprs → CodeAt program start (codes start exprs) →
      Region program scope (start + sizes exprs) start (start + sizes exprs)
  | [], _, _ => by
      intro address inst hle hlt
      simp only [sizes] at hlt
      omega
  | expr :: rest, hscoped, placed => by
      rw [AllScoped] at hscoped
      obtain ⟨hfirst, hrest⟩ := placed.cons
      have hregion := region_code start expr hscoped.1 hfirst
      have hregion' := region_codes (start + expr.size) rest hscoped.2 hrest
      rw [sizes, ← Nat.add_assoc]
      exact (hregion.mono (by omega)).append hregion'

end

end Expr

/-! ## The code of a program -/

/-- A function stands in a program: before its first instruction is a jump over it, to `finish`, and
its last instruction is the one before that. -/
structure FunctionAt (program : Program) (entry arity finish : Nat) : Prop where
  jump : program[entry - 1]? = some (.jump (Int64.ofNat finish))
  enter : program[entry]? = some (.enter (Int64.ofNat arity))
  exit : program[finish - 1]? = some .exit
  lt : entry < finish
  le : finish ≤ program.size

/-- What an instruction of compiled code may be. -/
structure Sound (program : Program) (address : Nat) (inst : Inst) : Prop where
  filled : inst.op ≠ .hole
  jump : inst.op = .jump ∨ inst.op = .jumpZ →
    ∃ target, inst.n = Int64.ofNat target ∧ address < target ∧ target ≤ program.size
  arg : inst.op = .arg → ∃ entry arity finish index, FunctionAt program entry arity finish ∧
    entry < address ∧ address + 1 < finish ∧ inst.n = Int64.ofNat index ∧ index < arity

section Extend

variable {program : Program} {address entry arity finish : Nat} {inst : Inst}

/-- A function stays when the program grows. -/
theorem FunctionAt.extend (h : FunctionAt program entry arity finish) (added : Array Inst) :
    FunctionAt (program ++ added) entry arity finish where
  jump := getElem?_extend h.jump added
  enter := getElem?_extend h.enter added
  exit := getElem?_extend h.exit added
  lt := h.lt
  le := Nat.le_trans h.le (by simp)

/-- What an instruction may be stays so when the program grows. -/
theorem Sound.extend (h : Sound program address inst) (added : Array Inst) :
    Sound (program ++ added) address inst where
  filled := h.filled
  jump op := by
    obtain ⟨target, hn, hlt, hle⟩ := h.jump op
    exact ⟨target, hn, hlt, Nat.le_trans hle (by simp)⟩
  arg op := by
    obtain ⟨entry, arity, finish, index, hfunction, hrest⟩ := h.arg op
    exact ⟨entry, arity, finish, index, hfunction.extend added, hrest⟩

end Extend

/-- A region is sound code if the parameters of its scope are those of a function around it. -/
theorem Region.sound {program : Program} {scope : Scope} {limit start stop : Nat}
    (h : Region program scope limit start stop) (le : limit ≤ program.size)
    (parameters : 0 < scope.parameters.length → ∃ entry finish,
      FunctionAt program entry scope.parameters.length finish ∧ entry < start ∧ stop < finish)
    {address : Nat} {inst : Inst} (first : start ≤ address) (last : address < stop)
    (found : program[address]? = some inst) : Sound program address inst := by
  obtain ⟨hfilled, hjump, harg⟩ := h address inst first last found
  -- A parameter can only be there if the scope has some, and then there is a function around it.
  refine ⟨hfilled, fun op ↦ ?_, fun op ↦ ?_⟩
  · obtain ⟨target, hn, hlt, hlimit⟩ := hjump op
    exact ⟨target, hn, hlt, Nat.le_trans hlimit le⟩
  · obtain ⟨index, hn, hlt⟩ := harg op
    obtain ⟨entry, finish, hfunction, hbefore, hbehind⟩ := parameters (by omega)
    exact ⟨entry, _, finish, index, hfunction, by omega, by omega, hn, hlt⟩

/-- Where the code of a function stands, the function stands. -/
theorem CodeAt.functionAt {program : Program} {start arity : Nat} {body : Expr}
    (h : CodeAt program start (Item.functionCode start arity body)) :
    FunctionAt program (start + 1) arity (start + 2 + body.size + 1) := by
  obtain ⟨hjump, henter, -, hexit⟩ := h.function
  obtain ⟨hlt, -⟩ := Array.getElem?_eq_some_iff.mp hexit
  exact ⟨hjump, henter, hexit, by omega, hlt⟩

/-- The calls of a function are those of its body. -/
theorem CodeAt.callsBetween_function {program : Program} {start arity : Nat} {body : Expr}
    (h : CodeAt program start (Item.functionCode start arity body)) :
    program.callsBetween start (start + 2 + body.size + 1) =
      program.callsBetween (start + 2) (start + 2 + body.size) := by
  obtain ⟨hjump, henter, -, hexit⟩ := h.function
  have hbegin : program.callsBetween start (start + 2) = [] := by
    rw [Program.callsBetween_append (Nat.le_add_right start 1) (Nat.le_succ (start + 1)),
      Program.callsBetween_plain hjump (by simp [Inst.jump]),
      Program.callsBetween_plain henter (by simp [Inst.enter]), List.nil_append]
  have hend : program.callsBetween (start + 2 + body.size) (start + 2 + body.size + 1) = [] :=
    Program.callsBetween_plain hexit (by simp [Inst.exit])
  rw [Program.callsBetween_append (Nat.le_add_right start 2) (by omega), hbegin,
    Program.callsBetween_append (Nat.le_add_right (start + 2) body.size) (Nat.le_succ _), hend,
    List.nil_append, List.append_nil]

namespace Compiler

/-! ## The segments of a program -/

/-- The code between two addresses, and what it is the code of: an expression, or the body of a
function, in the scope that the names have there. -/
structure Segment where
  start : Nat
  stop : Nat
  scope : Scope
  body : Node

/-- The segment that a node adds to the program, if it can be compiled. -/
def segment? (compiler : Compiler) (environment : Environment) (node : Node) : Option Segment :=
  let compiled := (compiler.compile node).1
  match (compiler.compile node).2, node.definition? environment with
  | some _, _ => none
  | none, none =>
      some ⟨compiler.program.size, compiled.program.size, ⟨compiled.functions, []⟩, node⟩
  | none, some definition =>
      some ⟨compiler.program.size, compiled.program.size,
        ⟨compiled.functions, definition.parameters⟩, definition.body⟩

/-- The segments of some nodes that are compiled one after the other. -/
def segments (compiler : Compiler) (environment : Environment) : List Node → List Segment
  | [] => []
  | node :: rest =>
      (compiler.segment? environment node).toList ++
        segments (compiler.compile node).1
          (environment.after node (compiler.compile node).2) rest

/-- The layout of a compiler that started on `initial` and has compiled these segments. -/
structure WellFormed (initial : Program) (segments : List Segment) (compiler : Compiler) :
    Prop where
  initial_le : initial.size ≤ compiler.program.size
  initial_eq : ∀ address, address < initial.size →
    compiler.program[address]? = initial[address]?
  sound : ∀ address inst, initial.size ≤ address → compiler.program[address]? = some inst →
    Sound compiler.program address inst
  covered : ∀ address, initial.size ≤ address → address < compiler.program.size →
    ∃ segment ∈ segments, segment.start ≤ address ∧ address < segment.stop
  inside : ∀ segment ∈ segments, initial.size ≤ segment.start ∧
    segment.stop ≤ compiler.program.size
  /-- The calls in a segment are those of its forms that call functions, in the order of their
  evaluation. -/
  calls : ∀ segment ∈ segments,
    List.Forall₂ (CallAt compiler.program segment.scope segment.start)
      (compiler.program.callsBetween segment.start segment.stop)
      (segment.body.callForms segment.scope.functions)
  functionAt : ∀ function ∈ compiler.functions, initial.size < function.entry ∧
    ∃ finish, FunctionAt compiler.program function.entry function.arity finish
  increasing : compiler.functions.Pairwise (·.entry < ·.entry)
  parameters_eq : compiler.parameters = []

variable {initial : Program} {compiler : Compiler} {environment : Environment}
  {before : List Segment}

/-- A compiler that has compiled nothing yet. -/
theorem wellFormed_start (initial : Program) : WellFormed initial [] { program := initial } where
  initial_le := Nat.le_refl _
  initial_eq _ _ := rfl
  sound address inst le found := by
    obtain ⟨hlt, -⟩ := Array.getElem?_eq_some_iff.mp found
    exact absurd hlt (Nat.not_lt.mpr le)
  covered address le lt := absurd lt (Nat.not_lt.mpr le)
  inside segment mem := by cases mem
  calls segment mem := by cases mem
  functionAt function mem := by cases mem
  increasing := .nil
  parameters_eq := rfl

/-- One more segment keeps the layout if its code is sound. -/
theorem WellFormed.extend (h : compiler.WellFormed initial before) {added : Array Inst}
    {table : Table} {scope : Scope} {body : Node}
    (sound : ∀ address inst, compiler.program.size ≤ address →
      (compiler.program ++ added)[address]? = some inst →
        Sound (compiler.program ++ added) address inst)
    (calls : List.Forall₂ (CallAt (compiler.program ++ added) scope compiler.program.size)
      (Program.callsBetween (compiler.program ++ added) compiler.program.size
        (compiler.program ++ added).size) (body.callForms scope.functions))
    (functionAt : ∀ function ∈ table, function ∉ compiler.functions →
      initial.size < function.entry ∧
        ∃ finish, FunctionAt (compiler.program ++ added) function.entry function.arity finish)
    (increasing : table.Pairwise (·.entry < ·.entry)) :
    WellFormed initial
      (before ++ [⟨compiler.program.size, (compiler.program ++ added).size, scope, body⟩])
      { compiler with program := compiler.program ++ added, functions := table } where
  initial_le := Nat.le_trans h.initial_le (by simp)
  initial_eq address lt := by
    rw [Array.getElem?_append_left (Nat.lt_of_lt_of_le lt h.initial_le), h.initial_eq address lt]
  sound address inst le found := by
    by_cases hlt : address < compiler.program.size
    · rw [Array.getElem?_append_left hlt] at found
      exact (h.sound address inst le found).extend added
    · exact sound address inst (Nat.not_lt.mp hlt) found
  covered address le lt := by
    by_cases hold : address < compiler.program.size
    · obtain ⟨segment, hmem, hsegment⟩ := h.covered address le hold
      exact ⟨segment, List.mem_append_left _ hmem, hsegment⟩
    · exact ⟨_, List.mem_append_right _ (List.mem_singleton_self _), Nat.not_lt.mp hold, lt⟩
  inside segment mem := by
    rcases List.mem_append.mp mem with hold | hnew
    · obtain ⟨hstart, hstop⟩ := h.inside segment hold
      exact ⟨hstart, Nat.le_trans hstop (by simp)⟩
    · rw [List.mem_singleton.mp hnew]
      exact ⟨h.initial_le, Nat.le_refl _⟩
  calls segment mem := by
    rcases List.mem_append.mp mem with hold | hnew
    · rw [Program.callsBetween_extend (h.inside segment hold).2]
      exact (h.calls segment hold).imp fun _ _ hcall ↦ hcall.extend added
    · rw [List.mem_singleton.mp hnew]
      exact calls
  functionAt function mem := by
    by_cases hold : function ∈ compiler.functions
    · obtain ⟨hinitial, finish, hfunction⟩ := h.functionAt function hold
      exact ⟨hinitial, finish, hfunction.extend added⟩
    · exact functionAt function mem hold
  increasing := increasing
  parameters_eq := h.parameters_eq

/-- The functions of a compiler stand before whatever is compiled next. -/
theorem WellFormed.enteredBefore (h : compiler.WellFormed initial before)
    (settled : compiler.Settled environment) (added : Array Inst) :
    compiler.functions.EnteredBefore (compiler.program ++ added) compiler.program.size := by
  intro function hmem
  obtain ⟨-, finish, hfunction⟩ := h.functionAt function hmem
  exact ⟨settled.valid.below function hmem, getElem?_extend hfunction.enter added⟩

/-- An expression keeps the layout. -/
theorem WellFormed.expression (h : compiler.WellFormed initial before)
    (settled : compiler.Settled environment) {node : Node} {expr : Expr}
    (resolved : Scope.resolve ⟨compiler.functions, []⟩ node = .ok expr) :
    let program := compiler.program ++ (expr.code compiler.program.size).toArray
    WellFormed initial
      (before ++ [⟨compiler.program.size, program.size, ⟨compiler.functions, []⟩, node⟩])
      { compiler with program } := by
  have hplaced := codeAt_append compiler.program (expr.code compiler.program.size)
  have hsize : (compiler.program ++ (expr.code compiler.program.size).toArray).size =
      compiler.program.size + expr.size := by
    simp
  refine h.extend (fun address inst hle hfound ↦ ?_) ?_ (fun function hmem hnew ↦ ?_)
    h.increasing
  · have hregion := Expr.region_code compiler.program.size expr
      (Scope.scoped_of_resolve _ node resolved) hplaced
    obtain ⟨hlt, -⟩ := Array.getElem?_eq_some_iff.mp hfound
    rw [hsize] at hlt
    refine hregion.sound (Nat.le_of_eq hsize.symm) (fun hpos ↦ ?_) hle hlt hfound
    cases hpos
  · rw [hsize]
    exact callsAt_of_resolve resolved hplaced (h.enteredBefore settled _)
  · exact absurd hmem hnew

/-- The code of a function is sound. -/
theorem sound_functionCode {program : Program} {table : Table} {definition : Definition}
    {start : Nat} {body : Expr} (placed : definition.PlacedAt program start table body)
    {address : Nat} {inst : Inst} (first : start ≤ address)
    (last : address < start + 2 + body.size + 1) (found : program[address]? = some inst) :
    Sound program address inst := by
  have hfunction := placed.code.functionAt
  obtain ⟨hjump, henter, hbody, hexit⟩ := placed.code.function
  by_cases hstart : address = start
  · rw [hstart, hjump] at found
    cases found
    refine ⟨?_, fun _ ↦ ⟨_, rfl, by omega, hfunction.le⟩, ?_⟩ <;> simp [Inst.jump]
  by_cases hentry : address = start + 1
  · rw [hentry, henter] at found
    cases found
    constructor <;> simp [Inst.enter]
  by_cases hleave : address = start + 2 + body.size
  · rw [hleave, hexit] at found
    cases found
    constructor <;> simp [Inst.exit]
  -- What is left is the body, in the scope of the parameters.
  have hregion := Expr.region_code (start + 2) body
    (Scope.scoped_of_resolve _ definition.body placed.resolved) hbody
  refine hregion.sound (Nat.le_of_lt hfunction.le) (fun _ ↦ ?_) ?_ ?_ found
  · exact ⟨start + 1, _, hfunction, by omega, by omega⟩
  · omega
  · omega

/-- A definition keeps the layout. -/
theorem WellFormed.definition (h : compiler.WellFormed initial before)
    (settled : compiler.Settled environment) {definition : Definition} {body : Expr}
    (resolved : Scope.resolve ⟨compiler.functions.set (definition.function compiler.program.size),
      definition.parameters⟩ definition.body = .ok body) :
    let table := compiler.functions.set (definition.function compiler.program.size)
    let program := compiler.program ++ (Item.functionCode compiler.program.size
      definition.parameters.length body).toArray
    WellFormed initial
      (before ++ [⟨compiler.program.size, program.size, ⟨table, definition.parameters⟩,
        definition.body⟩])
      { compiler with program, functions := table } := by
  have hplaced : definition.PlacedAt (compiler.program ++ (Item.functionCode compiler.program.size
      definition.parameters.length body).toArray) compiler.program.size _ body :=
    ⟨resolved, codeAt_append compiler.program _⟩
  have hsize : (compiler.program ++ (Item.functionCode compiler.program.size
      definition.parameters.length body).toArray).size =
        compiler.program.size + 2 + body.size + 1 := by
    simp
    omega
  have hlater : compiler.program.size ≤ (definition.function compiler.program.size).entry :=
    Nat.le_succ _
  refine h.extend (fun address inst hle hfound ↦ ?_) ?_ (fun function hmem hnew ↦ ?_)
    (settled.valid.set hlater).increasing
  · obtain ⟨hlt, -⟩ := Array.getElem?_eq_some_iff.mp hfound
    rw [hsize] at hlt
    exact sound_functionCode hplaced hle hlt hfound
  · rw [hsize, hplaced.code.callsBetween_function]
    obtain ⟨-, -, hbody, -⟩ := hplaced.code.function
    refine (callsAt_of_resolve resolved hbody fun function hmem ↦ ?_).imp
      fun _ _ hcall ↦ hcall.mono (Nat.le_add_right _ 2)
    -- The body may call the functions before it, and the function itself.
    rcases settled.valid.mem_set hlater hmem with hold | rfl
    · obtain ⟨hbelow, henter⟩ := h.enteredBefore settled _ function hold
      exact ⟨by omega, henter⟩
    · exact ⟨Nat.lt_succ_self _, hplaced.code.functionAt.enter⟩
  · rcases settled.valid.mem_set hlater hmem with hold | rfl
    · exact absurd hold hnew
    · have hle := h.initial_le
      exact ⟨by rw [Definition.entry_function]; omega, _, hplaced.code.functionAt⟩

/-- Every node keeps the layout, with one segment more if it can be compiled. -/
theorem WellFormed.compile (h : compiler.WellFormed initial before)
    (settled : compiler.Settled environment) (node : Node) :
    (compiler.compile node).1.WellFormed initial
      (before ++ (compiler.segment? environment node).toList) := by
  obtain ⟨error, hcompile⟩ | ⟨expr, hnone, hresolved, hcompile⟩ |
    ⟨definition, body, hsome, hresolved, hcompile⟩ := settled.compile_cases node
  · simp only [segment?, hcompile, Option.toList_none, List.append_nil]
    exact h
  · simp only [segment?, hcompile, hnone, Option.toList_some]
    exact h.expression settled hresolved
  · simp only [segment?, hcompile, hsome, Option.toList_some]
    exact h.definition settled hresolved

/-- Several nodes keep the layout. -/
theorem WellFormed.compileEach (h : compiler.WellFormed initial before)
    (settled : compiler.Settled environment) (nodes : List Node) :
    (compiler.compileEach environment nodes).1.WellFormed initial
      (before ++ compiler.segments environment nodes) := by
  induction nodes generalizing compiler environment before with
  | nil =>
      rw [segments, List.append_nil]
      exact h
  | cons node rest ih =>
      rw [segments, ← List.append_assoc]
      exact ih (h.compile settled node) (settled.compile node)

/-- A node that cannot be compiled breaks a rule. -/
theorem Settled.isRule (settled : compiler.Settled environment) {node : Node}
    {error : CompileError} (failed : (compiler.compile node).2 = some error) : error.IsRule := by
  cases hitem : Item.ofNode compiler.functions compiler.program.size node with
  | ok item =>
      rw [settled.compile_ok hitem] at failed
      cases failed
  | error cause =>
      rw [settled.compile_error hitem] at failed
      cases failed
      exact Item.isRule_ofNode hitem

/-- A node leaves every instruction that was there before it. -/
theorem Settled.getElem?_compile (settled : compiler.Settled environment) (node : Node)
    {address : Nat} (lt : address < compiler.program.size) :
    (compiler.compile node).1.program[address]? = compiler.program[address]? := by
  obtain ⟨added, hadded⟩ := settled.program_compile node
  rw [hadded]
  exact Array.getElem?_append_left lt

/-- A compiler that started on any program and has compiled any nodes, with or without success, has
the layout of compiled code, with a segment for each node that could be compiled. A further node
changes none of its instructions, and if it cannot be compiled that is never because a hole could
not be filled. -/
theorem wellFormed_compileEach (initial : Program) (nodes : List Node) :
    let compiler := (compileEach { program := initial } [] nodes).1
    compiler.WellFormed initial (segments { program := initial } [] nodes) ∧
    ∀ node,
      (∀ address, address < compiler.program.size →
        (compiler.compile node).1.program[address]? = compiler.program[address]?) ∧
      ∀ error, (compiler.compile node).2 = some error → error.kind ≠ PatchError.kind := by
  intro compiler
  have hsettled := (settled_start initial).compileEach nodes
  refine ⟨(wellFormed_start initial).compileEach (settled_start initial) nodes, fun node ↦
    ⟨fun address ↦ hsettled.getElem?_compile node, fun error hfailed ↦ ?_⟩⟩
  have hrule := hsettled.isRule hfailed
  cases error with
  | patch cause => exact absurd rfl (hrule cause)
  | _ => simp [CompileError.kind, PatchError.kind]

end Compiler

end WordLisp
