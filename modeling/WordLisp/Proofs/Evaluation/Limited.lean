import WordLisp.Proofs.Evaluation.Direct
import WordLisp.Proofs.Outcome

/-!
# Evaluation on a limited stack

`evaluate` evaluates a node as long as a given number of free slots lasts, and comes to a fault,
which stands for a full stack, if it does not. As every call takes slots until it returns, this is
a function: it ends also for a recursion without end.

It agrees with direct evaluation: a node that evaluates to an outcome with some depth has that
outcome on every stack at least as deep, and fills up every other one (`evaluate_of_evaluates`);
and whatever comes out but a full stack is what the node evaluates to, within the stack
(`evaluates_of_evaluate`).
-/

namespace WordLisp

/-- A value on a stack with this many free slots. -/
def onStack (overflow : Fault) (room : Nat) (value : Word) : Except Fault Word :=
  if room = 0 then .error overflow else .ok value

mutual

/-- The outcome of a node on a stack with this many free slots. A node that has no expression comes
to the fault as well. -/
def evaluate (overflow : Fault) (room : Nat) (environment : Environment) (bindings : Bindings)
    (node : Node) : Except Fault Word :=
  match node with
  | .int value => onStack overflow room value
  | .symbol name =>
      match bindings.lookup name with
      | some value => onStack overflow room value
      | none => .error overflow
  | .pair (.symbol name) operands =>
      match environment.find? name with
      | some (definition, scope) =>
          if operands.length = definition.parameters.length then do
            let arguments ← evaluateAll overflow room environment bindings operands
            if arguments.length + 2 ≤ room then
              evaluate overflow (room - (arguments.length + 2)) scope
                (definition.parameters.zip arguments) definition.body
            else
              .error overflow
          else
            .error overflow
      | none =>
          match Builtin.ofName? name with
          | some builtin =>
              match builtin.refusal? operands with
              | some _ => .error overflow
              | none => evaluateForm overflow room environment bindings builtin operands
          | none => .error overflow
  | .pair _ _ | .missing => .error overflow
termination_by (room, sizeOf node, 0)

/-- The outcome of the nodes of a list, one after the other. -/
def evaluateAll (overflow : Fault) (room : Nat) (environment : Environment) (bindings : Bindings)
    (nodes : Node) : Except Fault (List Word) :=
  match nodes with
  | .pair node rest => do
      let value ← evaluate overflow room environment bindings node
      let values ← evaluateAll overflow (room - 1) environment bindings rest
      return value :: values
  | _ => .ok []
termination_by (room, sizeOf nodes, 0)
decreasing_by
  all_goals first
    | decreasing_tactic
    | refine Prod.Lex.right' _ (Nat.sub_le _ _) (.left _ _ ?_)
      simp only [Node.pair.sizeOf_spec]
      omega

/-- The outcome of the nodes of a list, each joined to the value that is on the stack. -/
def evaluateJoined (overflow : Fault) (room : Nat) (environment : Environment)
    (bindings : Bindings) (operator : Operator) (left : Word) (nodes : Node) :
    Except Fault Word :=
  match nodes with
  | .pair node rest => do
      let right ← evaluate overflow room environment bindings node
      let value ← operator.apply left right
      evaluateJoined overflow room environment bindings operator value rest
  | _ => .ok left
termination_by (room, sizeOf nodes, 0)

/-- The outcome of a builtin form whose operands are not refused. -/
def evaluateForm (overflow : Fault) (room : Nat) (environment : Environment) (bindings : Bindings)
    (builtin : Builtin) (operands : Node) : Except Fault Word :=
  match builtin, operands with
  | .unary operator, .pair operand _ => do
      let value ← evaluate overflow room environment bindings operand
      operator.apply value 0
  | .foldFrom _ operator, .pair first (.pair second rest) => do
      let value ← evaluate overflow room environment bindings first
      evaluateJoined overflow (room - 1) environment bindings operator value (.pair second rest)
  | .foldFrom unit operator, .pair operand rest => do
      let value ← onStack overflow room unit
      evaluateJoined overflow (room - 1) environment bindings operator value (.pair operand rest)
  | .binary operator, .pair first rest | .fold _ operator, .pair first rest => do
      let value ← evaluate overflow room environment bindings first
      evaluateJoined overflow (room - 1) environment bindings operator value rest
  | .conditional, .pair condition (.pair consequent (.pair alternative _)) => do
      let value ← evaluate overflow room environment bindings condition
      if value = 0 then evaluate overflow room environment bindings alternative
      else evaluate overflow room environment bindings consequent
  | .fold unit _, _ => onStack overflow room unit
  | _, _ => .error overflow
termination_by (room, sizeOf operands, 1)
decreasing_by
  all_goals first
    | decreasing_tactic
    | refine Prod.Lex.right' _ (Nat.sub_le _ _) (.left _ _ ?_)
      simp only [Node.pair.sizeOf_spec]
      omega
    | exact Prod.Lex.right' _ (Nat.sub_le _ _) (.right _ Nat.one_pos)

end

/-! ## What direct evaluation gives -/

/-- An outcome that needs a stack of this depth, on a stack with `room` free slots. -/
def limit {α : Type} (overflow : Fault) (room depth : Nat) (outcome : Except Fault α) :
    Except Fault α :=
  if depth ≤ room then outcome else .error overflow

section Limit

variable {α β : Type} {overflow : Fault} {room depth : Nat}

/-- What comes after an outcome comes only if the stack was deep enough. -/
theorem limit_bind (outcome : Except Fault α) (f : α → Except Fault β) :
    limit overflow room depth outcome >>= f = limit overflow room depth (outcome >>= f) := by
  unfold limit
  split <;> rfl

/-- What comes after a value. -/
theorem limit_ok_bind (value : α) (f : α → Except Fault β) :
    limit overflow room depth (.ok value) >>= f = limit overflow room depth (f value) :=
  limit_bind _ f

/-- Nothing comes after a fault. -/
theorem limit_error_bind (fault : Fault) (f : α → Except Fault β) :
    limit overflow room depth (.error fault) >>= f = limit overflow room depth (.error fault) :=
  limit_bind _ f

/-- To change a value takes no slot. -/
theorem limit_map (outcome : Except Fault α) (f : α → β) :
    limit overflow room depth (outcome.map f) = (limit overflow room depth outcome).map f := by
  unfold limit
  split <;> rfl

/-- Two demands on the stack are one. -/
theorem limit_limit {more : Nat} (outcome : Except Fault α) :
    limit overflow room depth (limit overflow room more outcome) =
      limit overflow room (max depth more) outcome := by
  unfold limit
  by_cases h : depth ≤ room
  · simp only [Nat.max_le, h, true_and, if_true]
  · rw [if_neg h, if_neg fun hle ↦ h (Nat.le_trans (Nat.le_max_left _ _) hle)]

/-- A demand behind a value, which has one of the slots. -/
theorem limit_one {more : Nat} {outcome : Except Fault α} (pos : 0 < room) :
    limit overflow (room - 1) more outcome = limit overflow room (1 + more) outcome := by
  unfold limit
  split <;> split <;> first | rfl | omega

/-- A demand inside a call, whose frame must find room first. -/
theorem limit_frame {frame more : Nat} (outcome : Except Fault α) (pos : 0 < more) :
    (if frame ≤ room then limit overflow (room - frame) more outcome else .error overflow) =
      limit overflow room (frame + more) outcome := by
  unfold limit
  split
  · split <;> split <;> first | rfl | omega
  · rw [if_neg (by omega)]

/-- What an outcome is matters only if the stack is deep enough for it. -/
theorem limit_congr {outcome other : Except Fault α} (same : depth ≤ room → outcome = other) :
    limit overflow room depth outcome = limit overflow room depth other := by
  unfold limit
  split
  · next h => exact same h
  · rfl

/-- A value on the stack needs one slot. -/
theorem onStack_eq (value : Word) :
    onStack overflow room value = limit overflow room 1 (.ok value) := by
  unfold onStack limit
  split <;> split <;> first | rfl | omega

end Limit

namespace Node

/-- A list with a first node is a pair. -/
theorem eq_pair_of_items {list node : Node} {rest : List Node} (h : list.items = node :: rest) :
    ∃ tail, list = .pair node tail ∧ tail.items = rest := by
  cases list with
  | pair head tail =>
      cases h
      exact ⟨tail, rfl, rfl⟩
  | int value | symbol name | missing => cases h

end Node

section Empty

variable {overflow : Fault} {room : Nat} {environment : Environment} {bindings : Bindings}
  {operator : Operator} {left : Word} {nodes : Node}

/-- A list without nodes has no values. -/
theorem evaluateAll_of_items_eq_nil (empty : nodes.items = []) :
    evaluateAll overflow room environment bindings nodes = .ok [] := by
  cases nodes with
  | pair head tail => cases empty
  | int value | symbol name | missing => rw [evaluateAll]; exact nofun

/-- Nothing is joined to a value by a list without nodes. -/
theorem evaluateJoined_of_items_eq_nil (empty : nodes.items = []) :
    evaluateJoined overflow room environment bindings operator left nodes = .ok left := by
  cases nodes with
  | pair head tail => cases empty
  | int value | symbol name | missing => rw [evaluateJoined]; exact nofun

/-- A fold of a list without nodes is its unit. -/
theorem evaluateForm_fold_of_items_eq_nil {unit : Word} (empty : nodes.items = []) :
    evaluateForm overflow room environment bindings (.fold unit operator) nodes =
      onStack overflow room unit := by
  cases nodes with
  | pair head tail => cases empty
  | int value | symbol name | missing => rw [evaluateForm]; exact nofun

/-- A fold of a single node joins it to the unit. -/
theorem evaluateForm_foldFrom_of_items_eq_nil {unit : Word} {node : Node}
    (empty : nodes.items = []) :
    evaluateForm overflow room environment bindings (.foldFrom unit operator) (.pair node nodes) =
      (do
        let value ← onStack overflow room unit
        evaluateJoined overflow (room - 1) environment bindings operator value
          (.pair node nodes)) := by
  cases nodes with
  | pair head tail => cases empty
  | int value | symbol name | missing => rw [evaluateForm]; exact nofun

end Empty

mutual

/-- A node has the outcome of its direct evaluation on every stack that is deep enough, and fills up
every other one. -/
theorem evaluate_of_evaluates (overflow : Fault) {environment : Environment} {bindings : Bindings}
    {node : Node} {outcome : Except Fault Word} {depth : Nat}
    (h : Evaluates environment bindings node outcome depth) :
    ∀ room, evaluate overflow room environment bindings node =
      limit overflow room depth outcome := by
  match h with
  | .int _ _ value =>
      intro room
      rw [evaluate, onStack_eq]
  | .parameter hfound =>
      intro room
      rw [evaluate, hfound]
      exact onStack_eq _
  | .call hfound hcount harguments hbody =>
      intro room
      simp only [evaluate, hfound, if_pos hcount,
        evaluateAll_of_evaluatesAll overflow harguments room _ rfl, limit_ok_bind]
      rw [evaluate_of_evaluates overflow hbody, limit_frame _ hbody.depth_pos, limit_limit]
  | .callFaults hfound hcount harguments =>
      intro room
      simp only [evaluate, hfound, if_pos hcount,
        evaluateAll_of_evaluatesAll overflow harguments room _ rfl, limit_error_bind]
  | .form hnone hform happlies =>
      intro room
      obtain ⟨builtin, hbuiltin, hmeans⟩ := Form.ofName?_eq_some_iff.mp hform
      obtain ⟨haccepted, hevaluate⟩ := evaluateForm_of_applies overflow happlies hmeans room _ rfl
      simp only [evaluate, hnone, hbuiltin, haccepted, hevaluate]

/-- The same for several nodes. -/
theorem evaluateAll_of_evaluatesAll (overflow : Fault) {environment : Environment}
    {bindings : Bindings} {nodes : List Node} {result : Except Fault (List Word)} {depth : Nat}
    (h : EvaluatesAll environment bindings nodes result depth) :
    ∀ room operands, operands.items = nodes →
      evaluateAll overflow room environment bindings operands =
        limit overflow room depth result := by
  match h with
  | .nil _ _ =>
      intro room operands hitems
      rw [evaluateAll_of_items_eq_nil hitems, limit, if_pos (Nat.zero_le _)]
  | .cons hfirst hrest =>
      intro room operands hitems
      obtain ⟨tail, rfl, htail⟩ := Node.eq_pair_of_items hitems
      have hfirst' := evaluate_of_evaluates overflow hfirst room
      have hrest' := evaluateAll_of_evaluatesAll overflow hrest (room - 1) tail htail
      rw [evaluateAll, hfirst', hrest', limit_ok_bind, ← limit_limit]
      refine limit_congr fun hle ↦ ?_
      -- The first value is on the stack, so that one slot fewer is left for the others.
      have hroom : 0 < room := Nat.lt_of_lt_of_le hfirst.depth_pos hle
      rw [← limit_one hroom, limit_map]
      rfl
  | .faults hfirst =>
      intro room operands hitems
      obtain ⟨tail, rfl, -⟩ := Node.eq_pair_of_items hitems
      rw [evaluateAll, evaluate_of_evaluates overflow hfirst room, limit_error_bind]

/-- The same for nodes that are joined to a value. The value has one of the slots. -/
theorem evaluateJoined_of_joins (overflow : Fault) {environment : Environment}
    {bindings : Bindings} {join : Join} {operator : Operator} {left : Word} {nodes : List Node}
    {outcome : Except Fault Word} {depth : Nat}
    (h : Joins environment bindings join left nodes outcome depth)
    (computes : operator.apply = join) :
    ∀ room operands, operands.items = nodes → 0 < room →
      evaluateJoined overflow (room - 1) environment bindings operator left operands =
        limit overflow room depth outcome := by
  match h with
  | .nil _ _ _ _ =>
      intro room operands hitems hroom
      rw [evaluateJoined_of_items_eq_nil hitems, limit, if_pos (Nat.succ_le_of_lt hroom)]
  | .cons hnode hjoin hrest =>
      intro room operands hitems hroom
      obtain ⟨tail, rfl, htail⟩ := Node.eq_pair_of_items hitems
      have hrest' := evaluateJoined_of_joins overflow hrest computes room tail htail hroom
      rw [evaluateJoined, evaluate_of_evaluates overflow hnode, limit_one hroom, limit_ok_bind,
        ← limit_limit, ← hrest', computes, hjoin]
      rfl
  | .joinFaults hnode hjoin =>
      intro room operands hitems hroom
      obtain ⟨tail, rfl, -⟩ := Node.eq_pair_of_items hitems
      rw [evaluateJoined, evaluate_of_evaluates overflow hnode, limit_one hroom, limit_ok_bind,
        computes, hjoin]
      rfl
  | .faults hnode =>
      intro room operands hitems hroom
      obtain ⟨tail, rfl, -⟩ := Node.eq_pair_of_items hitems
      rw [evaluateJoined, evaluate_of_evaluates overflow hnode, limit_one hroom, limit_error_bind]

/-- The same for operands that are combined. -/
theorem evaluate_of_combines (overflow : Fault) {environment : Environment} {bindings : Bindings}
    {join : Join} {operator : Operator} {nodes : List Node} {outcome : Except Fault Word}
    {depth : Nat} (h : Combines environment bindings join nodes outcome depth)
    (computes : operator.apply = join) :
    ∀ room first rest, first :: rest.items = nodes →
      (do
        let value ← evaluate overflow room environment bindings first
        evaluateJoined overflow (room - 1) environment bindings operator value rest) =
      limit overflow room depth outcome := by
  match h with
  | .cons hfirst hrest =>
      intro room first rest hnodes
      obtain ⟨hnode, hitems⟩ := List.cons.inj hnodes
      rw [hnode, evaluate_of_evaluates overflow hfirst, limit_ok_bind, ← limit_limit]
      refine limit_congr fun hle ↦ ?_
      have hroom : 0 < room := Nat.lt_of_lt_of_le hfirst.depth_pos hle
      exact evaluateJoined_of_joins overflow hrest computes room rest hitems hroom
  | .faults hfirst =>
      intro room first rest hnodes
      obtain ⟨hnode, -⟩ := List.cons.inj hnodes
      rw [hnode, evaluate_of_evaluates overflow hfirst, limit_error_bind]

/-- The same for builtin forms, which are not refused. -/
theorem evaluateForm_of_applies (overflow : Fault) {environment : Environment}
    {bindings : Bindings} {form : Form} {builtin : Builtin} {nodes : List Node}
    {outcome : Except Fault Word} {depth : Nat}
    (h : Applies environment bindings form nodes outcome depth)
    (means : builtin.form? = some form) :
    ∀ room operands, operands.items = nodes → builtin.refusal? operands = none ∧
      evaluateForm overflow room environment bindings builtin operands =
        limit overflow room depth outcome := by
  match h with
  | .one hnode =>
      intro room operands hitems
      obtain ⟨operator, rfl, hcomputes⟩ := Builtin.of_form? means
      obtain ⟨tail, rfl, htail⟩ := Node.eq_pair_of_items hitems
      refine ⟨by simp [Builtin.refusal?, Node.length, hitems], ?_⟩
      rw [evaluateForm, evaluate_of_evaluates overflow hnode, limit_bind, ← hcomputes]
  | .two hcombines =>
      intro room operands hitems
      obtain ⟨operator, rfl, hcomputes⟩ := Builtin.of_form? means
      obtain ⟨tail, rfl, htail⟩ := Node.eq_pair_of_items hitems
      refine ⟨by simp [Builtin.refusal?, Node.length, hitems], ?_⟩
      rw [evaluateForm]
      exact evaluate_of_combines overflow hcombines hcomputes room _ tail (by rw [htail])
  | .unit _ _ _ _ =>
      intro room operands hitems
      obtain ⟨operator, rfl, -⟩ := Builtin.of_form? means
      refine ⟨rfl, ?_⟩
      rw [evaluateForm_fold_of_items_eq_nil hitems, onStack_eq]
  | .any hcombines =>
      intro room operands hitems
      obtain ⟨operator, rfl, hcomputes⟩ := Builtin.of_form? means
      obtain ⟨tail, rfl, htail⟩ := Node.eq_pair_of_items hitems
      refine ⟨rfl, ?_⟩
      rw [evaluateForm]
      exact evaluate_of_combines overflow hcombines hcomputes room _ tail (by rw [htail])
  | .single hjoins =>
      intro room operands hitems
      obtain ⟨operator, rfl, hcomputes⟩ := Builtin.of_form? means
      obtain ⟨tail, rfl, htail⟩ := Node.eq_pair_of_items hitems
      refine ⟨by simp [Builtin.refusal?, Node.length, hitems], ?_⟩
      rw [evaluateForm_foldFrom_of_items_eq_nil htail, onStack_eq, limit_ok_bind]
      -- The slot of the unit is one of those that joining needs.
      rw [← Nat.max_eq_right (Nat.succ_le_of_lt hjoins.depth_pos), ← limit_limit]
      exact limit_congr fun hroom ↦
        evaluateJoined_of_joins overflow hjoins hcomputes room _ hitems hroom
  | .several hcombines =>
      intro room operands hitems
      obtain ⟨operator, rfl, hcomputes⟩ := Builtin.of_form? means
      obtain ⟨tail, rfl, htail⟩ := Node.eq_pair_of_items hitems
      obtain ⟨rest, rfl, -⟩ := Node.eq_pair_of_items htail
      refine ⟨by simp [Builtin.refusal?, Node.length, hitems], ?_⟩
      rw [evaluateForm]
      exact evaluate_of_combines overflow hcombines hcomputes room _ _ (by rw [htail])
  | .choice htest hchosen =>
      intro room operands hitems
      rw [show builtin = .conditional from Builtin.of_form? means]
      obtain ⟨tail, rfl, htail⟩ := Node.eq_pair_of_items hitems
      obtain ⟨rest, rfl, hrest⟩ := Node.eq_pair_of_items htail
      obtain ⟨last, rfl, -⟩ := Node.eq_pair_of_items hrest
      refine ⟨by simp [Builtin.refusal?, Node.length, hitems], ?_⟩
      rw [evaluateForm, evaluate_of_evaluates overflow htest, limit_ok_bind, ← limit_limit,
        ← evaluate_of_evaluates overflow hchosen]
      split <;> rfl
  | .conditionFaults htest =>
      intro room operands hitems
      rw [show builtin = .conditional from Builtin.of_form? means]
      obtain ⟨tail, rfl, htail⟩ := Node.eq_pair_of_items hitems
      obtain ⟨rest, rfl, hrest⟩ := Node.eq_pair_of_items htail
      obtain ⟨last, rfl, -⟩ := Node.eq_pair_of_items hrest
      refine ⟨by simp [Builtin.refusal?, Node.length, hitems], ?_⟩
      rw [evaluateForm, evaluate_of_evaluates overflow htest, limit_error_bind]

end

/-- A node has at most one outcome, and the stack that it needs is as deep each time. -/
theorem Evaluates.unique {environment : Environment} {bindings : Bindings} {node : Node}
    {outcome outcome' : Except Fault Word} {depth depth' : Nat}
    (h : Evaluates environment bindings node outcome depth)
    (h' : Evaluates environment bindings node outcome' depth') :
    outcome = outcome' ∧ depth = depth' := by
  -- Any fault that is not of a division can stand for the full stack.
  have hagree : ∀ room, limit .emptyPop room depth outcome =
      limit .emptyPop room depth' outcome' := fun room ↦
    (evaluate_of_evaluates .emptyPop h room).symm.trans (evaluate_of_evaluates .emptyPop h' room)
  have hnever : ¬Fault.emptyPop.IsDivision := by
    rintro ⟨_, hfault | hfault⟩ <;> cases hfault
  have hne : outcome ≠ .error .emptyPop := fun heq ↦ hnever (h.isDivision _ heq)
  have hne' : outcome' ≠ .error .emptyPop := fun heq ↦ hnever (h'.isDivision _ heq)
  have hdepth : depth = depth' := by
    rcases Nat.lt_trichotomy depth depth' with hlt | heq | hlt
    · have hfull := hagree depth
      rw [limit, if_pos (Nat.le_refl _), limit, if_neg (Nat.not_le.mpr hlt)] at hfull
      exact absurd hfull hne
    · exact heq
    · have hfull := hagree depth'
      rw [limit, if_neg (Nat.not_le.mpr hlt), limit, if_pos (Nat.le_refl _)] at hfull
      exact absurd hfull.symm hne'
  have hsame := hagree depth
  rw [limit, if_pos (Nat.le_refl _), limit, if_pos (Nat.le_of_eq hdepth.symm)] at hsame
  exact ⟨hsame, hdepth⟩

/-! ## What is direct evaluation -/

/-- An outcome is that of a full stack, or comes with a depth that the stack has. -/
def Within {α : Type} (overflow : Fault) (room : Nat) (outcome : Except Fault α)
    (evaluates : Except Fault α → Nat → Prop) : Prop :=
  outcome = .error overflow ∨ ∃ depth, depth ≤ room ∧ evaluates outcome depth

namespace Within

variable {α β : Type} {overflow : Fault} {room inner : Nat} {outcome : Except Fault α}
  {evaluates : Except Fault α → Nat → Prop} {f : α → Except Fault β}
  {follows : Except Fault β → Nat → Prop}

/-- An outcome that comes with a depth. -/
theorem of_le {depth : Nat} (le : depth ≤ room) (h : evaluates outcome depth) :
    Within overflow room outcome evaluates :=
  .inr ⟨depth, le, h⟩

/-- A value on a stack with room. -/
theorem onStack {value : Word} {evaluates : Except Fault Word → Nat → Prop}
    (h : evaluates (.ok value) 1) :
    Within overflow room (WordLisp.onStack overflow room value) evaluates := by
  unfold WordLisp.onStack
  split
  · exact .inl rfl
  · exact of_le (by omega) h

/-- What comes after an outcome. -/
theorem bind (first : Within overflow inner outcome evaluates)
    (faults : ∀ fault depth, depth ≤ inner → evaluates (.error fault) depth →
      Within overflow room (.error fault) follows)
    (values : ∀ value depth, depth ≤ inner → evaluates (.ok value) depth →
      Within overflow room (f value) follows) :
    Within overflow room (outcome >>= f) follows := by
  rcases first with rfl | ⟨depth, hle, h⟩
  · exact .inl rfl
  · cases outcome with
    | error fault => exact faults fault depth hle h
    | ok value => exact values value depth hle h

/-- What follows from an evaluation. -/
theorem imp {evaluates' : Except Fault α → Nat → Prop}
    (h : Within overflow inner outcome evaluates)
    (implies : ∀ outcome depth, depth ≤ inner → evaluates outcome depth →
      ∃ depth', depth' ≤ room ∧ evaluates' outcome depth') :
    Within overflow room outcome evaluates' := by
  rcases h with hfull | ⟨depth, hle, h⟩
  · exact .inl hfull
  · exact .inr (implies outcome depth hle h)

end Within

mutual

/-- Whatever a node comes to but a full stack is what it evaluates to, within the stack. -/
theorem evaluates_of_evaluate (overflow : Fault) (room : Nat) (environment : Environment)
    (bindings : Bindings) (node : Node) :
    Within overflow room (evaluate overflow room environment bindings node)
      (Evaluates environment bindings node) := by
  match node with
  | .int value =>
      rw [evaluate]
      exact .onStack (.int _ _ value)
  | .symbol name =>
      rw [evaluate]
      cases hfound : bindings.lookup name with
      | none => exact .inl rfl
      | some value => exact .onStack (.parameter hfound)
  | .pair (.symbol name) operands =>
      rw [evaluate]
      cases hfound : environment.find? name with
      | some found =>
          by_cases hcount : operands.length = found.1.parameters.length
          · simp only [if_pos hcount]
            refine (evaluatesAll_of_evaluateAll overflow room environment bindings operands).bind
              (fun fault depth hle h ↦ .of_le hle (.callFaults hfound hcount h))
              fun arguments before hbefore harguments ↦ ?_
            -- The body has fewer slots than the call, which is what the recursion is on.
            split
            · next hroom =>
                refine (evaluates_of_evaluate overflow (room - (arguments.length + 2)) found.2
                  (found.1.parameters.zip arguments) found.1.body).imp
                  fun outcome inside hinside hbody ↦
                    ⟨_, ?_, .call hfound hcount harguments hbody⟩
                omega
            · exact .inl rfl
          · simp only [if_neg hcount]
            exact .inl rfl
      | none =>
          cases hbuiltin : Builtin.ofName? name with
          | none => exact .inl rfl
          | some builtin =>
              cases hrefusal : builtin.refusal? operands with
              | some error => exact .inl (by simp only [hrefusal])
              | none =>
                  simp only [hrefusal]
                  obtain ⟨form, hmeans⟩ := Builtin.exists_form? hrefusal
                  have hform := Form.ofName?_eq_some_iff.mpr ⟨builtin, hbuiltin, hmeans⟩
                  refine (applies_of_evaluateForm overflow room environment bindings builtin
                    operands hrefusal hmeans).imp fun outcome depth hle h ↦ ?_
                  exact ⟨depth, hle, .form hfound hform h⟩
  | .pair (.int _) _ | .pair (.pair _ _) _ | .pair .missing _ | .missing =>
      rw [evaluate]
      · exact .inl rfl
      all_goals exact nofun
termination_by (room, sizeOf node, 0)

/-- The same for several nodes. -/
theorem evaluatesAll_of_evaluateAll (overflow : Fault) (room : Nat) (environment : Environment)
    (bindings : Bindings) (nodes : Node) :
    Within overflow room (evaluateAll overflow room environment bindings nodes)
      (EvaluatesAll environment bindings nodes.items) := by
  match nodes with
  | .pair node rest =>
      rw [evaluateAll]
      refine (evaluates_of_evaluate overflow room environment bindings node).bind
        (fun fault depth hle h ↦ .of_le hle (.faults h)) fun value first hfirst hvalue ↦ ?_
      have hpos := hvalue.depth_pos
      refine (evaluatesAll_of_evaluateAll overflow (room - 1) environment bindings rest).bind
        (fun fault depth hle h ↦ ?_) fun values others hothers hvalues ↦ ?_
      · exact .of_le (by omega) (.cons hvalue h)
      · exact .of_le (by omega) (.cons hvalue hvalues)
  | .int _ | .symbol _ | .missing =>
      rw [evaluateAll_of_items_eq_nil rfl]
      exact .of_le (Nat.zero_le _) (.nil _ _)
termination_by (room, sizeOf nodes, 0)

/-- The same for nodes that are joined to a value, which has a slot of its own. -/
theorem joins_of_evaluateJoined (overflow : Fault) (room : Nat) (environment : Environment)
    (bindings : Bindings) (operator : Operator) (left : Word) (nodes : Node) :
    Within overflow (room + 1)
      (evaluateJoined overflow room environment bindings operator left nodes)
      (Joins environment bindings operator.apply left nodes.items) := by
  match nodes with
  | .pair node rest =>
      rw [evaluateJoined]
      refine (evaluates_of_evaluate overflow room environment bindings node).bind
        (fun fault depth hle h ↦ .of_le (by omega) (.faults h)) fun right next hnext hright ↦ ?_
      cases hjoin : operator.apply left right with
      | error fault => exact .of_le (by omega) (.joinFaults hright hjoin)
      | ok value =>
          refine (joins_of_evaluateJoined overflow room environment bindings operator value
            rest).imp fun outcome depth hle h ↦ ?_
          exact ⟨_, by omega, .cons hright hjoin h⟩
  | .int _ | .symbol _ | .missing =>
      rw [evaluateJoined_of_items_eq_nil rfl]
      exact .of_le (by omega) (.nil _ _ _ _)
termination_by (room, sizeOf nodes, 0)

/-- The same for operands that are combined. -/
theorem combines_of_evaluate (overflow : Fault) (room : Nat) (environment : Environment)
    (bindings : Bindings) (operator : Operator) (first rest : Node) :
    Within overflow room
      (do
        let value ← evaluate overflow room environment bindings first
        evaluateJoined overflow (room - 1) environment bindings operator value rest)
      (Combines environment bindings operator.apply (first :: rest.items)) := by
  refine (evaluates_of_evaluate overflow room environment bindings first).bind
    (fun fault depth hle h ↦ .of_le hle (.faults h)) fun value depth hle hvalue ↦ ?_
  have hpos := hvalue.depth_pos
  refine (joins_of_evaluateJoined overflow (room - 1) environment bindings operator value
    rest).imp fun outcome others hothers h ↦ ?_
  exact ⟨_, by omega, .cons hvalue h⟩
termination_by (room, sizeOf (Node.pair first rest), 0)

/-- The same for builtin forms that are not refused. -/
theorem applies_of_evaluateForm (overflow : Fault) (room : Nat) (environment : Environment)
    (bindings : Bindings) (builtin : Builtin) (operands : Node)
    (accepted : builtin.refusal? operands = none) {form : Form}
    (means : builtin.form? = some form) :
    Within overflow room (evaluateForm overflow room environment bindings builtin operands)
      (Applies environment bindings form operands.items) := by
  match builtin, operands, accepted, form, means with
  | .unary operator, .pair operand rest, accepted, _, rfl =>
      have hrest : rest.items = [] := by
        simpa [Builtin.refusal?, Node.length, Node.items] using accepted
      rw [evaluateForm, Node.items, hrest]
      refine (evaluates_of_evaluate overflow room environment bindings operand).bind
        (fun fault depth hle h ↦ .of_le hle (.one h)) fun value depth hle h ↦ ?_
      exact .of_le hle (.one h)
  | .binary operator, .pair first rest, accepted, _, rfl =>
      have hrest : rest.items.length = 1 := by
        simpa [Builtin.refusal?, Node.length, Node.items] using accepted
      obtain ⟨second, hsecond⟩ := List.length_eq_one_iff.mp hrest
      have hcombines :=
        combines_of_evaluate overflow room environment bindings operator first rest
      rw [evaluateForm, Node.items]
      rw [hsecond] at hcombines ⊢
      exact hcombines.imp fun outcome depth hle h ↦ ⟨depth, hle, .two h⟩
  | .fold unit operator, .pair first rest, _, _, rfl =>
      rw [evaluateForm, Node.items]
      refine (combines_of_evaluate overflow room environment bindings operator first rest).imp
        fun outcome depth hle h ↦ ?_
      exact ⟨depth, hle, .any h⟩
  | .foldFrom unit operator, .pair first (.pair second rest), _, _, rfl =>
      rw [evaluateForm, Node.items, Node.items]
      refine (combines_of_evaluate overflow room environment bindings operator first
        (.pair second rest)).imp fun outcome depth hle h ↦ ?_
      exact ⟨depth, hle, .several h⟩
  | .conditional, .pair condition (.pair consequent (.pair alternative rest)), accepted, _,
      rfl =>
      have hrest : rest.items = [] := by
        simpa [Builtin.refusal?, Node.length, Node.items] using accepted
      rw [evaluateForm, Node.items, Node.items, Node.items, hrest]
      refine (evaluates_of_evaluate overflow room environment bindings condition).bind
        (fun fault depth hle h ↦ .of_le hle (.conditionFaults h)) fun value test htest hvalue ↦ ?_
      have hchosen : Within overflow room
          (evaluate overflow room environment bindings
            (if value = 0 then alternative else consequent))
          (Evaluates environment bindings (if value = 0 then alternative else consequent)) := by
        split
        · exact evaluates_of_evaluate overflow room environment bindings alternative
        · exact evaluates_of_evaluate overflow room environment bindings consequent
      rw [← apply_ite (evaluate overflow room environment bindings)]
      refine hchosen.imp fun outcome chosen hle h ↦ ?_
      exact ⟨_, by omega, .choice hvalue h⟩
  | .foldFrom unit operator, .pair operand (.int _), _, _, rfl
  | .foldFrom unit operator, .pair operand (.symbol _), _, _, rfl
  | .foldFrom unit operator, .pair operand .missing, _, _, rfl =>
      rw [evaluateForm_foldFrom_of_items_eq_nil rfl]
      unfold onStack
      split
      · exact .inl rfl
      · refine (joins_of_evaluateJoined overflow (room - 1) environment bindings operator unit
          (.pair operand _)).imp fun outcome depth hle h ↦ ?_
        exact ⟨depth, by omega, .single h⟩
  | .fold unit operator, .int _, _, _, rfl | .fold unit operator, .symbol _, _, _, rfl
  | .fold unit operator, .missing, _, _, rfl =>
      rw [evaluateForm_fold_of_items_eq_nil rfl]
      exact .onStack (.unit _ _ _ _)
termination_by (room, sizeOf operands, 1)

end

end WordLisp
