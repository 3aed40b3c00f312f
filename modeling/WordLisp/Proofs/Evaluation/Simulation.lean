import WordLisp.Proofs.Evaluation.Limited
import WordLisp.Proofs.Machine.Instructions

/-!
# Compiled code evaluates

The code of a node, wherever it stands in a program and whatever is on the stack already, comes to
what the node evaluates to on the slots that are free (`simulates`): it leaves the value on top
of what was there, in the frame it was started in, or ends in the fault.

`Simulates` says this of one node and one number of free slots. The code of a call is run in place
of the body of its function, so that the induction is that of `evaluate`: the free slots become
fewer at each call, and between calls the nodes become smaller.
-/

namespace WordLisp

/-- The arguments of a frame lie on the stack from `base` on. -/
def ArgumentsAt (words : List Word) (base : Nat) (arguments : List Word) : Prop :=
  ∀ i value, arguments[i]? = some value → words[base + i]? = some value

namespace ArgumentsAt

variable {words arguments : List Word} {base : Nat}

/-- Arguments stay where they are when the stack grows. -/
theorem append (h : ArgumentsAt words base arguments) (more : List Word) :
    ArgumentsAt (words ++ more) base arguments := by
  intro i value hvalue
  have hfound := h i value hvalue
  rw [List.getElem?_append_left (List.getElem?_eq_some_iff.mp hfound).1, hfound]

/-- Without arguments there is nothing to find. -/
theorem nil (words : List Word) (base : Nat) : ArgumentsAt words base [] :=
  nofun

/-- The arguments of a call lie on top of the stack. -/
theorem of_append (words arguments : List Word) :
    ArgumentsAt (words ++ arguments) words.length arguments := by
  intro i value hvalue
  rw [List.getElem?_append_right (Nat.le_add_right _ _), Nat.add_sub_cancel_left, hvalue]

end ArgumentsAt

/-- The position of a parameter is that of its argument. -/
theorem lookup_zip_of_idxOf? {parameters : List String} {arguments : List Word} {name : String}
    {index : Nat} (count : arguments.length = parameters.length)
    (found : parameters.idxOf? name = some index) :
    (parameters.zip arguments).lookup name = arguments[index]? := by
  induction parameters generalizing arguments index with
  | nil => cases found
  | cons parameter rest ih =>
      cases arguments with
      | nil => cases count
      | cons argument others =>
          rw [List.idxOf?_cons] at found
          rw [List.zip_cons_cons, List.lookup_cons]
          split at found
          · next heq =>
              cases found
              have hname : name == parameter := by simpa using (beq_iff_eq.mp heq).symm
              simp [hname]
          · next hne =>
              obtain ⟨i, hi, rfl⟩ := Option.map_eq_some_iff.mp found
              have hname : (name == parameter) = false :=
                beq_eq_false_iff_ne.mpr fun heq ↦ hne (beq_iff_eq.mpr heq.symm)
              rw [hname]
              simpa using ih (Nat.succ.inj count) hi

/-- The code that joins expressions is as long wherever it stands. -/
theorem Expr.size_foldl_binary (operator : Operator) (start : Nat) (first : Expr)
    (rest : List Expr) :
    (rest.foldl (.binary operator) first).size =
      first.size + (joinedCode operator (start + first.size) rest).length := by
  rw [← length_code start, code_foldl_binary, List.length_append, length_code]

/-- There are as many values as nodes. -/
theorem length_evaluateAll {overflow : Fault} {room : Nat} {environment : Environment}
    {bindings : Bindings} {nodes : Node} {values : List Word}
    (h : evaluateAll overflow room environment bindings nodes = .ok values) :
    values.length = nodes.length := by
  induction nodes generalizing room values with
  | pair head tail _ ih =>
      simp only [evaluateAll, bind_eq_ok, pure, Except.pure, Except.ok.injEq] at h
      obtain ⟨value, -, rest, hrest, rfl⟩ := h
      simpa [Node.length, Node.items] using ih hrest
  | int value | symbol name | missing =>
      rw [evaluateAll_of_items_eq_nil rfl] at h
      cases h
      rfl

namespace Machine

variable {program : Program} {machine : Machine} {size : Word}

/-- A stretch that is followed by one that does not fault. -/
theorem Comes.andThen {α : Type} {result : Except Fault α} {post after : α → Machine → Prop}
    (first : machine.Comes program result post)
    (second : ∀ value next, post value next →
      next.Comes program (.ok ()) fun _ last ↦ after value last) :
    machine.Comes program result after := by
  cases result with
  | error fault => exact first
  | ok value =>
      obtain ⟨next, hreach, hpost⟩ := first
      obtain ⟨last, hlast, hafter⟩ := second value next hpost
      exact ⟨last, hreach.trans hlast, hafter⟩

/-- The slots that are free behind a value. -/
theorem Shows.sum_sub_one {pc room : Nat} {bp value : Word} {words : List Word}
    (h : machine.Shows size pc bp (words ++ [value]))
    (sum : words.length + room = size.toNatClampNeg) :
    (words ++ [value]).length + (room - 1) = size.toNatClampNeg := by
  have hfits := h.fits
  simp only [List.length_append, List.length_singleton] at hfits ⊢
  omega

/-- A slot for a value. -/
theorem onStack_eq_roomFor {depth room : Nat} (sum : depth + room = size.toNatClampNeg)
    (value : Word) :
    onStack (overflow size) room value = roomFor size depth >>= fun _ ↦ .ok value := by
  unfold onStack roomFor
  split <;> split <;> first | rfl | omega

/-- Two slots for a call: both must be there before the body is evaluated. -/
theorem roomFor_frame {α : Type} {depth room count : Nat}
    (sum : depth + room = size.toNatClampNeg) (result : Except Fault α) :
    (if count + 2 ≤ room then result else .error (overflow size)) =
      roomFor size (depth + count) >>= fun _ ↦ roomFor size (depth + count + 1) >>= fun _ ↦
        result := by
  unfold roomFor
  split <;> split <;> first | omega | skip
  · rw [if_pos (by omega)]
    rfl
  · rw [if_neg (by omega)]
    rfl
  · rfl

/-- A function that is called with `values` on top of the stack, and whose body evaluates in its
frame, leaves its value in place of them. Two slots must be free for the return address and the
frame of the caller. -/
theorem Shows.callFrame {pc start room bodySize : Nat} {base : Nat} {words values : List Word}
    {result : Except Fault Word}
    (h : machine.Shows size pc (Int64.ofNat base) (words ++ values)) (fits : program.Addressable)
    (sum : words.length + room = size.toNatClampNeg)
    (call : program[pc]? = some (.call (Int64.ofNat (start + 1))))
    (enter : program[start + 1]? = some (.enter (Int64.ofNat values.length)))
    (exit : program[start + 2 + bodySize]? = some .exit)
    (body : ∀ entered : Machine, values.length + 2 ≤ room →
      entered.Shows size (start + 2) (Int64.ofNat words.length)
        (words ++ values ++ [Int64.ofNat (pc + 1)] ++ [Int64.ofNat base]) →
      entered.Comes program result fun value left ↦
        left.Shows size (start + 2 + bodySize) (Int64.ofNat words.length)
          (words ++ values ++ [Int64.ofNat (pc + 1)] ++ [Int64.ofNat base] ++ [value])) :
    machine.Comes program
      (if values.length + 2 ≤ room then result else .error (overflow size))
      fun value next ↦ next.Shows size (pc + 1) (Int64.ofNat base) (words ++ [value]) := by
  have hpc := (Array.getElem?_eq_some_iff.mp call).1
  have hstart := (Array.getElem?_eq_some_iff.mp enter).1
  rw [roomFor_frame sum, ← List.length_append]
  -- On the way in, the return address and the base of the caller are pushed.
  refine (h.call fits call (Nat.le_of_lt hstart)).bind fun _ called _ hcalled ↦ ?_
  have hdepth : words.length + values.length + 1 =
      (words ++ values ++ [Int64.ofNat (pc + 1)]).length := by
    simp only [List.length_append, List.length_singleton]
  rw [List.length_append, hdepth]
  refine (hcalled.enter enter hdepth).bind fun _ entered _ hentered ↦ ?_
  have hroom : values.length + 2 ≤ room := by
    have hfits := hentered.fits
    simp only [List.length_append, List.length_singleton] at hfits
    omega
  -- On the way out, everything from the first argument on gives way to the value.
  refine (body entered hroom hentered).andThen fun value left hleft ↦ ?_
  refine (hleft.exit fits exit (by simp) hpc).mono fun _ last hlast ↦ ?_
  simpa using hlast

end Machine

/-- The code of a node comes to what the node evaluates to with `room` free slots, wherever it
stands, and leaves the value on the stack. -/
def Simulates (program : Program) (size : Word) (room : Nat) (node : Node) : Prop :=
  ∀ ⦃environment : Environment⦄ ⦃table : Table⦄ ⦃parameters : List String⦄
    ⦃arguments : List Word⦄, Laid program environment table →
    arguments.length = parameters.length →
    ∀ ⦃expr : Expr⦄, Scope.resolve ⟨table, parameters⟩ node = .ok expr →
    ∀ ⦃pc : Nat⦄, CodeAt program pc (expr.code pc) →
    ∀ ⦃machine : Machine⦄ ⦃base : Nat⦄ ⦃words : List Word⦄,
    machine.Shows size pc (Int64.ofNat base) words →
    words.length + room = size.toNatClampNeg → ArgumentsAt words base arguments →
    machine.Comes program
      (evaluate (Machine.overflow size) room environment (parameters.zip arguments) node)
      fun value next ↦ next.Shows size (pc + expr.size) (Int64.ofNat base) (words ++ [value])

section Parts

variable {program : Program} {size : Word} {room : Nat}

/-- The code of a literal. -/
theorem simulates_int (value : Word) : Simulates program size room (.int value) := by
  intro _ _ _ _ _ _ expr resolved pc code machine base words shows sum _
  cases resolved
  rw [evaluate, Machine.onStack_eq_roomFor sum]
  exact (shows.constant code.head).bind fun _ _ _ hnext ↦ .pure hnext

/-- The code of a parameter. -/
theorem simulates_symbol (name : String) : Simulates program size room (.symbol name) := by
  intro _ _ _ arguments _ count expr resolved pc code machine base words shows sum live
  rw [Scope.resolve] at resolved
  split at resolved
  · next index hindex =>
      cases resolved
      have hlt : index < arguments.length := by
        rw [count]
        exact (List.idxOf?_eq_some_iff.mp hindex).1
      have hfound := List.getElem?_eq_getElem hlt
      simp only [evaluate, lookup_zip_of_idxOf? count hindex, hfound,
        Machine.onStack_eq_roomFor sum]
      exact (shows.arg code.head (live _ _ hfound)).bind fun _ _ _ hnext ↦ .pure hnext
  · cases resolved

variable {environment : Environment} {table : Table} {parameters : List String}
  {arguments : List Word} {pc base : Nat} {machine : Machine} {words : List Word}

/-- The code of several nodes leaves their values on the stack. -/
theorem comes_evaluateAll {nodes : Node} {exprs : List Expr}
    (each : ∀ fewer ≤ room, ∀ node ∈ nodes.items, Simulates program size fewer node)
    (laid : Laid program environment table) (count : arguments.length = parameters.length)
    (resolved : Scope.resolveAll ⟨table, parameters⟩ nodes = .ok exprs)
    (code : CodeAt program pc (Expr.codes pc exprs))
    (shows : machine.Shows size pc (Int64.ofNat base) words)
    (sum : words.length + room = size.toNatClampNeg) (live : ArgumentsAt words base arguments) :
    machine.Comes program
      (evaluateAll (Machine.overflow size) room environment (parameters.zip arguments) nodes)
      fun values next ↦
        next.Shows size (pc + Expr.sizes exprs) (Int64.ofNat base) (words ++ values) := by
  induction nodes generalizing room exprs pc machine words with
  | pair node rest _ ih =>
      obtain ⟨expr, others, hnode, hrest, rfl⟩ := Scope.resolveAll_pair_eq_ok.mp resolved
      obtain ⟨hcode, hcodes⟩ := code.cons
      rw [evaluateAll]
      refine (each room (Nat.le_refl _) node List.mem_cons_self laid count hnode hcode shows sum
        live).bind fun value next _ hnext ↦ ?_
      have heach : ∀ fewer ≤ room - 1, ∀ node ∈ rest.items, Simulates program size fewer node :=
        fun fewer hfewer item hitem ↦
          each fewer (Nat.le_trans hfewer (Nat.sub_le _ _)) item (List.mem_cons_of_mem _ hitem)
      refine (ih heach hrest hcodes hnext (hnext.sum_sub_one sum) (live.append _)).bind
        fun values last _ hlast ↦ .pure ?_
      rw [Expr.sizes, ← Nat.add_assoc]
      simpa using hlast
  | int value | symbol name | missing =>
      rw [Scope.resolveAll_of_items_eq_nil rfl] at resolved
      cases resolved
      rw [evaluateAll_of_items_eq_nil rfl]
      exact .pure (by simpa [Expr.sizes] using shows)

/-- The code that joins nodes to a value leaves the result in its place. -/
theorem comes_evaluateJoined {operator : Operator} {nodes : Node} {exprs : List Expr}
    {left : Word} (each : ∀ node ∈ nodes.items, Simulates program size room node)
    (laid : Laid program environment table) (count : arguments.length = parameters.length)
    (resolved : Scope.resolveAll ⟨table, parameters⟩ nodes = .ok exprs)
    (code : CodeAt program pc (Expr.joinedCode operator pc exprs))
    (shows : machine.Shows size pc (Int64.ofNat base) (words ++ [left]))
    (sum : (words ++ [left]).length + room = size.toNatClampNeg)
    (live : ArgumentsAt words base arguments) :
    machine.Comes program
      (evaluateJoined (Machine.overflow size) room environment (parameters.zip arguments) operator
        left nodes)
      fun value next ↦ next.Shows size (pc + (Expr.joinedCode operator pc exprs).length)
        (Int64.ofNat base) (words ++ [value]) := by
  induction nodes generalizing exprs pc machine left with
  | pair node rest _ ih =>
      obtain ⟨expr, others, hnode, hrest, rfl⟩ := Scope.resolveAll_pair_eq_ok.mp resolved
      obtain ⟨hcode, hoperator, hcodes⟩ := code.joined
      rw [evaluateJoined]
      refine (each node List.mem_cons_self laid count hnode hcode shows sum
        (live.append _)).bind fun right next _ hnext ↦ ?_
      -- The operator takes both operands off, so that as many slots are free as before.
      refine (hnext.binary hoperator).bind fun value last _ hlast ↦ ?_
      have hsum : (words ++ [value]).length + room = size.toNatClampNeg := by
        simpa using sum
      have heach : ∀ node ∈ rest.items, Simulates program size room node :=
        fun item hitem ↦ each item (List.mem_cons_of_mem _ hitem)
      refine (ih heach hrest hcodes hlast hsum).mono fun result final hfinal ↦ ?_
      have hend : pc + (Expr.joinedCode operator pc (expr :: others)).length =
          pc + expr.size + 1 +
            (Expr.joinedCode operator (pc + expr.size + 1) others).length := by
        simp only [Expr.joinedCode, List.length_append, List.length_cons, Expr.length_code]
        omega
      rw [hend]
      exact hfinal
  | int value | symbol name | missing =>
      rw [Scope.resolveAll_of_items_eq_nil rfl] at resolved
      cases resolved
      rw [evaluateJoined_of_items_eq_nil rfl]
      exact .pure (by simpa [Expr.joinedCode] using shows)

/-- The code of operands that are combined leaves their result on the stack. -/
theorem comes_combined {operator : Operator} {first rest : Node} {expr : Expr}
    {others : List Expr} (simulates : Simulates program size room first)
    (each : ∀ node ∈ rest.items, Simulates program size (room - 1) node)
    (laid : Laid program environment table) (count : arguments.length = parameters.length)
    (hfirst : Scope.resolve ⟨table, parameters⟩ first = .ok expr)
    (hrest : Scope.resolveAll ⟨table, parameters⟩ rest = .ok others)
    (code : CodeAt program pc ((others.foldl (.binary operator) expr).code pc))
    (shows : machine.Shows size pc (Int64.ofNat base) words)
    (sum : words.length + room = size.toNatClampNeg) (live : ArgumentsAt words base arguments) :
    machine.Comes program
      (do
        let value ← evaluate (Machine.overflow size) room environment (parameters.zip arguments)
          first
        evaluateJoined (Machine.overflow size) (room - 1) environment (parameters.zip arguments)
          operator value rest)
      fun value next ↦ next.Shows size (pc + (others.foldl (.binary operator) expr).size)
        (Int64.ofNat base) (words ++ [value]) := by
  rw [Expr.code_foldl_binary] at code
  have hjoined := code.right
  rw [Expr.length_code] at hjoined
  refine (simulates laid count hfirst code.left shows sum live).bind fun value next _ hnext ↦ ?_
  refine (comes_evaluateJoined each laid count hrest hjoined hnext (hnext.sum_sub_one sum)
    live).mono fun result last hlast ↦ ?_
  rw [Expr.size_foldl_binary operator pc, ← Nat.add_assoc]
  exact hlast

/-- The code of a choice leaves the value of the part that is chosen. -/
theorem comes_conditional {condition consequent alternative : Node} {test yes no : Expr}
    (fits : program.Addressable) (simulatesTest : Simulates program size room condition)
    (simulatesYes : Simulates program size room consequent)
    (simulatesNo : Simulates program size room alternative)
    (laid : Laid program environment table) (count : arguments.length = parameters.length)
    (htest : Scope.resolve ⟨table, parameters⟩ condition = .ok test)
    (hyes : Scope.resolve ⟨table, parameters⟩ consequent = .ok yes)
    (hno : Scope.resolve ⟨table, parameters⟩ alternative = .ok no)
    (code : CodeAt program pc ((Expr.conditional test yes no).code pc))
    (shows : machine.Shows size pc (Int64.ofNat base) words)
    (sum : words.length + room = size.toNatClampNeg) (live : ArgumentsAt words base arguments) :
    machine.Comes program
      (do
        let value ← evaluate (Machine.overflow size) room environment (parameters.zip arguments)
          condition
        if value = 0 then
          evaluate (Machine.overflow size) room environment (parameters.zip arguments) alternative
        else
          evaluate (Machine.overflow size) room environment (parameters.zip arguments) consequent)
      fun value next ↦ next.Shows size (pc + (Expr.conditional test yes no).size)
        (Int64.ofNat base) (words ++ [value]) := by
  obtain ⟨htestCode, hbranch, hyesCode, hleave, hnoCode⟩ := code.conditional rfl rfl
  have hnoStart := Nat.succ_le_of_lt (Array.getElem?_eq_some_iff.mp hleave).1
  have hend := hnoCode.end_le hnoStart
  rw [Expr.length_code] at hend
  have hsize : pc + (Expr.conditional test yes no).size =
      pc + test.size + 1 + yes.size + 1 + no.size := by
    simp only [Expr.size]
    omega
  rw [hsize]
  refine (simulatesTest laid count htest htestCode shows sum live).bind
    fun value next _ hnext ↦ ?_
  obtain ⟨chosen, hreach, hchosen⟩ := hnext.jumpZ fits hbranch hnoStart
  refine .of_reaches hreach ?_
  split
  · next hzero =>
      rw [if_pos hzero] at hchosen
      exact simulatesNo laid count hno hnoCode hchosen sum live
  · next hzero =>
      rw [if_neg hzero] at hchosen
      refine (simulatesYes laid count hyes hyesCode hchosen sum live).andThen
        fun value last hlast ↦ ?_
      exact hlast.jump fits hleave hend

/-- The code of a builtin form leaves its value on the stack. -/
theorem comes_evaluateForm {builtin : Builtin} {operands : Node} {exprs : List Expr}
    (fits : program.Addressable)
    (each : ∀ fewer ≤ room, ∀ node ∈ operands.items, Simulates program size fewer node)
    (accepted : builtin.refusal? operands = none) (laid : Laid program environment table)
    (count : arguments.length = parameters.length)
    (resolved : Scope.resolveAll ⟨table, parameters⟩ operands = .ok exprs)
    (code : CodeAt program pc ((builtin.apply exprs).code pc))
    (shows : machine.Shows size pc (Int64.ofNat base) words)
    (sum : words.length + room = size.toNatClampNeg) (live : ArgumentsAt words base arguments) :
    machine.Comes program
      (evaluateForm (Machine.overflow size) room environment (parameters.zip arguments) builtin
        operands)
      fun value next ↦ next.Shows size (pc + (builtin.apply exprs).size) (Int64.ofNat base)
        (words ++ [value]) := by
  have hhere : ∀ node ∈ operands.items, Simulates program size room node :=
    each room (Nat.le_refl _)
  have hbehind : ∀ node ∈ operands.items, Simulates program size (room - 1) node :=
    each (room - 1) (Nat.sub_le _ _)
  match builtin, operands, accepted with
  | .unary operator, .pair operand rest, _ =>
      obtain ⟨expr, others, hoperand, -, rfl⟩ := Scope.resolveAll_pair_eq_ok.mp resolved
      obtain ⟨hcode, hoperator⟩ := code.unary
      rw [evaluateForm]
      refine (hhere operand List.mem_cons_self laid count hoperand hcode shows sum live).bind
        fun value next _ hnext ↦ ?_
      exact hnext.unary hoperator
  | .binary operator, .pair first rest, _ | .fold _ operator, .pair first rest, _ =>
      obtain ⟨expr, others, hfirst, hrest, rfl⟩ := Scope.resolveAll_pair_eq_ok.mp resolved
      rw [evaluateForm]
      exact comes_combined (hhere first List.mem_cons_self)
        (fun item hitem ↦ hbehind item (List.mem_cons_of_mem _ hitem)) laid count hfirst hrest
        code shows sum live
  | .foldFrom _ operator, .pair first (.pair second rest), _ =>
      obtain ⟨expr, others, hfirst, hrest, rfl⟩ := Scope.resolveAll_pair_eq_ok.mp resolved
      obtain ⟨_, _, -, -, hothers⟩ := Scope.resolveAll_pair_eq_ok.mp hrest
      subst hothers
      rw [evaluateForm]
      exact comes_combined (hhere first List.mem_cons_self)
        (fun item hitem ↦ hbehind item (List.mem_cons_of_mem _ hitem)) laid count hfirst hrest
        code shows sum live
  | .foldFrom unit operator, .pair operand (.int _), _
  | .foldFrom unit operator, .pair operand (.symbol _), _
  | .foldFrom unit operator, .pair operand .missing, _ =>
      obtain ⟨expr, others, -, hrest, rfl⟩ := Scope.resolveAll_pair_eq_ok.mp resolved
      rw [Scope.resolveAll_of_items_eq_nil rfl] at hrest
      cases hrest
      -- The unit is joined to the operand like a literal in front of it.
      have hcombined := comes_combined (simulates_int unit) hbehind laid count rfl resolved code
        shows sum live
      rw [evaluate] at hcombined
      rw [evaluateForm_foldFrom_of_items_eq_nil rfl]
      exact hcombined
  | .conditional, .pair condition (.pair consequent (.pair alternative rest)), _ =>
      obtain ⟨test, _, htest, hmore, rfl⟩ := Scope.resolveAll_pair_eq_ok.mp resolved
      obtain ⟨yes, _, hyes, hlast, rfl⟩ := Scope.resolveAll_pair_eq_ok.mp hmore
      obtain ⟨no, others, hno, -, rfl⟩ := Scope.resolveAll_pair_eq_ok.mp hlast
      rw [evaluateForm]
      exact comes_conditional fits (hhere condition (by simp [Node.items]))
        (hhere consequent (by simp [Node.items])) (hhere alternative (by simp [Node.items])) laid
        count htest hyes hno code shows sum live
  | .fold unit operator, .int _, _ | .fold unit operator, .symbol _, _
  | .fold unit operator, .missing, _ =>
      rw [Scope.resolveAll_of_items_eq_nil rfl] at resolved
      cases resolved
      rw [evaluateForm_fold_of_items_eq_nil rfl, Machine.onStack_eq_roomFor sum]
      exact (shows.constant code.head).bind fun _ _ _ hnext ↦ .pure hnext

/-- The code of a call, or of a builtin form, leaves its value on the stack. The body of a function
has fewer slots than its call. -/
theorem simulates_pair {name : String} {operands : Node} (fits : program.Addressable)
    (inner : ∀ fewer < room, ∀ node, Simulates program size fewer node)
    (each : ∀ node ∈ operands.items, Simulates program size room node) :
    Simulates program size room (.pair (.symbol name) operands) := by
  intro environment table parameters arguments laid count expr resolved pc code machine base words
    shows sum live
  have heach : ∀ fewer ≤ room, ∀ node ∈ operands.items, Simulates program size fewer node := by
    intro fewer hfewer node hnode
    rcases Nat.lt_or_eq_of_le hfewer with hlt | rfl
    · exact inner fewer hlt node
    · exact each node hnode
  rw [Scope.resolve] at resolved
  split at resolved
  · next function hfunction =>
      -- The table and the environment agree on what the name means, and on the scope of the body.
      obtain ⟨definition, older, start, table', body, hfind, rfl, hlaid, hplaced⟩ :=
        laid.of_lookup? hfunction
      split at resolved
      · next hcount =>
          obtain ⟨exprs, hexprs, rfl⟩ := map_eq_ok.mp resolved
          obtain ⟨hcodes, hcall⟩ := code.call
          obtain ⟨-, henter, hbody, hexit⟩ := hplaced.code.function
          simp only [evaluate, hfind,
            if_pos (show operands.length = definition.parameters.length from hcount)]
          refine (comes_evaluateAll heach laid count hexprs hcodes shows sum live).bind
            fun values next hvalues hnext ↦ ?_
          have hlength : values.length = definition.parameters.length :=
            (length_evaluateAll hvalues).trans hcount
          rw [← hlength] at henter
          rw [Expr.size, ← Nat.add_assoc]
          refine hnext.callFrame fits sum hcall henter hexit fun entered hroom hentered ↦ ?_
          refine inner (room - (values.length + 2)) (by omega) definition.body hlaid hlength
            hplaced.resolved hbody hentered ?_ ?_
          · simp only [List.length_append, List.length_singleton]
            omega
          · exact ((ArgumentsAt.of_append words values).append _).append _
      · cases resolved
  · next hfunction =>
      have hfind := (laid.lookup?_eq_none_iff name).mp hfunction
      split at resolved
      · next builtin hbuiltin =>
          split at resolved
          · cases resolved
          · next haccepted =>
              obtain ⟨exprs, hexprs, rfl⟩ := map_eq_ok.mp resolved
              simp only [evaluate, hfind, hbuiltin, haccepted]
              exact comes_evaluateForm fits heach haccepted laid count hexprs code shows sum live
      · cases resolved

end Parts

/-- The code of every node comes to what the node evaluates to on the slots that are free. -/
theorem simulates {program : Program} (fits : program.Addressable) (size : Word) (room : Nat)
    (node : Node) : Simulates program size room node := by
  induction room using Nat.strongRecOn generalizing node with
  | ind room inner =>
      -- The nodes of a list are nodes inside it, but its tails are no expressions.
      suffices hall : Simulates program size room node ∧
          ∀ item ∈ node.items, Simulates program size room item from hall.1
      induction node with
      | int value => exact ⟨simulates_int value, nofun⟩
      | symbol name => exact ⟨simulates_symbol name, nofun⟩
      | missing => exact ⟨nofun, nofun⟩
      | pair head tail hhead htail =>
          refine ⟨?_, fun item hitem ↦ ?_⟩
          · cases head with
            | symbol name => exact simulates_pair fits inner htail.2
            | int value | pair _ _ | missing => exact nofun
          · rcases List.mem_cons.mp hitem with rfl | hitem
            · exact hhead.1
            · exact htail.2 item hitem

end WordLisp
