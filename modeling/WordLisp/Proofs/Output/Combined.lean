import WordLisp.Output.Writer

/-!
# Combined writers act as their leaves

However writers are combined, only the flat list of their leaves counts: `Combined.ofTree?_eq`. What
several leaves do together is said by `Outlet.Serves` without a loop: a write is offered from left
to right up to the first leaf that does not take all of it, and a flush reaches every leaf.
`Outlet.serves_answer` is one call, and `combined_acts_flat` any calls of any combination, in any
world.
-/

namespace WordLisp

namespace Combination

variable {α : Type}

mutual

/-- The leaves of a combination, from left to right. -/
def leaves : Combination α → List α
  | .absent => []
  | .leaf single => [single]
  | .combine parts => leavesOf parts

/-- The leaves of several combinations, from left to right. -/
def leavesOf : List (Combination α) → List α
  | [] => []
  | tree :: rest => tree.leaves ++ leavesOf rest

end

end Combination

namespace Combined

variable {α : Type}

/-- The leaves of what some leaves come to. -/
theorem leaves_ofLeaves? (leaves : List α) :
    (ofLeaves? leaves).elim [] Combined.leaves = leaves := by
  unfold ofLeaves?
  split <;> rfl

mutual

/-- A combination comes to what the flat list of its leaves comes to. -/
theorem ofTree?_eq : (tree : Combination α) → ofTree? tree = ofLeaves? tree.leaves
  | .absent => by rw [ofTree?, Combination.leaves, ofLeaves?]
  | .leaf _ => by rw [ofTree?, Combination.leaves, ofLeaves?]
  | .combine parts => by
      rw [ofTree?, combine?, Combination.leaves, flatMap_ofTrees parts]

/-- The leaves of combinations that are combined once more. -/
theorem flatMap_ofTrees : (parts : List (Combination α)) →
    (ofTrees parts).flatMap (·.elim [] Combined.leaves) = Combination.leavesOf parts
  | [] => by rw [ofTrees, Combination.leavesOf, List.flatMap_nil]
  | tree :: rest => by
      rw [ofTrees, Combination.leavesOf, List.flatMap_cons, ofTree?_eq tree, leaves_ofLeaves?,
        flatMap_ofTrees rest]

end

end Combined

/-! ## What several leaves do together -/

namespace Outlet

/-- What the user of a writer asks of it. -/
inductive Call where
  | write (bytes : ByteArray)
  | flush

/-- What a writer answers. -/
inductive Answer where
  | written (result : WriteResult)
  | flushed (error? : Option String)
  deriving DecidableEq

variable {σ : Type}

/-- Call a writer. -/
def answer (outlet : Outlet σ) (world : σ) : Call → σ × Answer
  | .write bytes => (outlet.write bytes world).map id .written
  | .flush => (outlet.flush world).map id .flushed

/-- Call a writer again and again. -/
def answers (outlet : Outlet σ) (world : σ) : List Call → σ × List Answer
  | [] => (world, [])
  | call :: calls =>
      let (world, answer) := outlet.answer world call
      let (world, rest) := outlet.answers world calls
      (world, answer :: rest)

/-- Bytes are offered to these leaves one after the other, and each takes all of them. -/
inductive TakenBy (bytes : ByteArray) : List (Outlet σ) → σ → σ → Prop where
  | nil {world : σ} : TakenBy bytes [] world world
  | cons {leaf : Outlet σ} {rest : List (Outlet σ)} {world next last : σ} :
      leaf.write bytes world = (next, ⟨bytes.size, none⟩) → TakenBy bytes rest next last →
        TakenBy bytes (leaf :: rest) world last

/-- These leaves are flushed one after the other, each once, and report this. -/
inductive FlushedBy : List (Outlet σ) → σ → σ → List (Option String) → Prop where
  | nil {world : σ} : FlushedBy [] world world []
  | cons {leaf : Outlet σ} {rest : List (Outlet σ)} {world next last : σ} {error? : Option String}
      {errors : List (Option String)} :
      leaf.flush world = (next, error?) → FlushedBy rest next last errors →
        FlushedBy (leaf :: rest) world last (error? :: errors)

/-- What a call of several leaves does and is answered. -/
inductive Serves (leaves : List (Outlet σ)) (world : σ) : Call → σ → Answer → Prop where
  /-- Every leaf takes all that is written. -/
  | whole {bytes : ByteArray} {last : σ} :
      TakenBy bytes leaves world last →
        Serves leaves world (.write bytes) last (.written ⟨bytes.size, none⟩)
  /-- A leaf fails after those before it; the leaves after it are not reached. -/
  | failed {bytes : ByteArray} {before after : List (Outlet σ)} {leaf : Outlet σ}
      {middle last : σ} {count : Nat} {error : String} :
      leaves = before ++ leaf :: after → TakenBy bytes before world middle →
        leaf.write bytes middle = (last, ⟨count, some error⟩) →
          Serves leaves world (.write bytes) last (.written ⟨count, some error⟩)
  /-- So it is if a leaf takes too little and does not say why. -/
  | short {bytes : ByteArray} {before after : List (Outlet σ)} {leaf : Outlet σ}
      {middle last : σ} {count : Nat} :
      leaves = before ++ leaf :: after → TakenBy bytes before world middle →
        leaf.write bytes middle = (last, ⟨count, none⟩) → count ≠ bytes.size →
          Serves leaves world (.write bytes) last (.written ⟨count, some shortWrite⟩)
  /-- Every leaf is flushed, and the first error is reported. -/
  | flushed {last : σ} {errors : List (Option String)} :
      FlushedBy leaves world last errors →
        Serves leaves world .flush last (.flushed (errors.findSome? id))

/-- What calls of several leaves do and are answered, one after the other. -/
inductive ServesEach (leaves : List (Outlet σ)) : σ → List Call → σ → List Answer → Prop where
  | nil {world : σ} : ServesEach leaves world [] world []
  | cons {world next last : σ} {call : Call} {calls : List Call} {answer : Answer}
      {answers : List Answer} :
      Serves leaves world call next answer → ServesEach leaves next calls last answers →
        ServesEach leaves world (call :: calls) last (answer :: answers)

variable {leaf : Outlet σ} {rest : List (Outlet σ)} {world next last : σ} {bytes : ByteArray}

/-- A leaf that takes all comes before the leaves that matter. -/
theorem Serves.cons {answer : Answer} (taken : leaf.write bytes world = (next, ⟨bytes.size, none⟩))
    (h : Serves rest next (.write bytes) last answer) :
    Serves (leaf :: rest) world (.write bytes) last answer := by
  cases h with
  | whole hall => exact .whole (.cons taken hall)
  | failed hsplit hbefore hfailed =>
      exact .failed (hsplit ▸ List.cons_append.symm) (.cons taken hbefore) hfailed
  | short hsplit hbefore hshort hcount =>
      exact .short (hsplit ▸ List.cons_append.symm) (.cons taken hbefore) hshort hcount

/-- A write into several leaves goes from left to right up to the first that does not take it. -/
theorem serves_writeAll (bytes : ByteArray) (leaves : List (Outlet σ)) (world : σ) :
    Serves leaves world (.write bytes) (writeAll bytes leaves world).1
      (.written (writeAll bytes leaves world).2) := by
  induction leaves generalizing world with
  | nil => exact .whole .nil
  | cons leaf rest ih =>
      obtain ⟨next, count, error?, hwrite⟩ : ∃ next count error?,
          leaf.write bytes world = (next, ⟨count, error?⟩) := ⟨_, _, _, rfl⟩
      rw [writeAll, hwrite]
      cases error? with
      | some error => exact .failed (List.nil_append _).symm .nil hwrite
      | none =>
          by_cases hcount : count = bytes.size
          · subst hcount
            simpa using (ih next).cons hwrite
          · simpa [hcount] using Serves.short (List.nil_append _).symm .nil hwrite hcount

/-- A flush of several leaves reaches all of them. -/
theorem flushedBy_flushAll (leaves : List (Outlet σ)) (world : σ) :
    ∃ errors, FlushedBy leaves world (flushAll leaves world).1 errors ∧
      (flushAll leaves world).2 = errors.findSome? id := by
  induction leaves generalizing world with
  | nil => exact ⟨[], .nil, rfl⟩
  | cons leaf rest ih =>
      obtain ⟨errors, hrest, hfirst⟩ := ih (leaf.flush world).1
      refine ⟨(leaf.flush world).2 :: errors, .cons rfl hrest, ?_⟩
      rw [flushAll, List.findSome?_cons]
      cases herror : (leaf.flush world).2 with
      | none => simpa [herror] using hfirst
      | some error => simp [herror]

/-- A call of several leaves is served. -/
theorem serves_answer (leaves : List (Outlet σ)) (world : σ) (call : Call) :
    Serves leaves world call ((Combined.several leaves).outlet.answer world call).1
      ((Combined.several leaves).outlet.answer world call).2 := by
  cases call with
  | write bytes => exact serves_writeAll bytes leaves world
  | flush =>
      obtain ⟨errors, hall, hfirst⟩ := flushedBy_flushAll leaves world
      have hserves := Serves.flushed hall
      rw [← hfirst] at hserves
      exact hserves

/-- So are any calls. -/
theorem servesEach_answers (leaves : List (Outlet σ)) (world : σ) (calls : List Call) :
    ServesEach leaves world calls ((Combined.several leaves).outlet.answers world calls).1
      ((Combined.several leaves).outlet.answers world calls).2 := by
  induction calls generalizing world with
  | nil => exact .nil
  | cons call calls ih => exact .cons (serves_answer leaves world call) (ih _)

end Outlet

/-- Combined writers act as the flat list of their leaves. A combination of any shape comes to
nothing if it has no leaf, and to the leaf itself if it has one. If it has more, any writes and
flushes of what it comes to, in any world, do and are answered what `Outlet.Serves` says of its
leaves. So it does not matter how the leaves are combined. -/
theorem combined_acts_flat {σ : Type} (tree : Combination (Outlet σ)) :
    (Combined.ofTree? tree = none ↔ tree.leaves = []) ∧
      (∀ leaf, tree.leaves = [leaf] →
        (Combined.ofTree? tree).map Combined.outlet = some leaf) ∧
      (2 ≤ tree.leaves.length → ∃ outlet,
        (Combined.ofTree? tree).map Combined.outlet = some outlet ∧
        ∀ world calls, Outlet.ServesEach tree.leaves world calls (outlet.answers world calls).1
          (outlet.answers world calls).2) ∧
      ∀ other : Combination (Outlet σ), other.leaves = tree.leaves →
        Combined.ofTree? other = Combined.ofTree? tree := by
  refine ⟨?_, ?_, ?_, ?_⟩
  · rw [Combined.ofTree?_eq]
    unfold Combined.ofLeaves?
    split <;> simp_all
  · intro leaf hleaf
    rw [Combined.ofTree?_eq, hleaf]
    rfl
  · intro hmany
    obtain ⟨first, second, rest, hleaves⟩ : ∃ first second rest,
        tree.leaves = first :: second :: rest := by
      match tree.leaves, hmany with
      | first :: second :: rest, _ => exact ⟨first, second, rest, rfl⟩
    rw [Combined.ofTree?_eq, hleaves]
    exact ⟨_, rfl, Outlet.servesEach_answers _⟩
  · intro other hsame
    rw [Combined.ofTree?_eq, Combined.ofTree?_eq, hsame]

/-- Of three leaves the second one takes two bytes and does not say why, and cannot be flushed. The
third one is not written to, however the three are nested. -/
theorem combined_acts_flat_nested :
    let tree : Combination (Outlet Writer) := .combine [.absent,
      .combine [.leaf (Writer.place 0), .combine [.absent, .combine []]],
      .combine [.combine [.leaf (Writer.place 1)], .leaf (Writer.place 2)]]
    let flat : Combination (Outlet Writer) :=
      .combine [.leaf (Writer.place 0), .leaf (Writer.place 1), .leaf (Writer.place 2)]
    let world : Writer := ⟨[.memory .empty,
      .flushing (.limited 2 none) 0 fun _ ↦ some "full", .memory .empty]⟩
    let calls : List Outlet.Call := [.write "abc".toUTF8, .flush]
    Combined.ofTree? flat = Combined.ofTree? tree ∧
      ∃ outlet, (Combined.ofTree? tree).map Combined.outlet = some outlet ∧
        Outlet.ServesEach tree.leaves world calls (outlet.answers world calls).1
          [.written ⟨2, some "short write"⟩, .flushed (some "full")] ∧
        (outlet.answers world calls).1.leaves.map (·.taken?.map ByteArray.data) =
          [some "abc".toUTF8.data, some "ab".toUTF8.data, some #[]] := by
  intro tree flat world calls
  have hflat : flat.leaves = tree.leaves := by
    simp [flat, tree, Combination.leaves, Combination.leavesOf]
  obtain ⟨-, -, hmany, hsame⟩ := combined_acts_flat tree
  obtain ⟨outlet, houtlet, hserves⟩ := hmany (by
    simp [tree, Combination.leaves, Combination.leavesOf])
  have hplaces : outlet =
      (Combined.several [Writer.place 0, Writer.place 1, Writer.place 2]).outlet :=
    (Option.some.inj houtlet).symm
  have hanswers : (outlet.answers world calls).2 =
      [.written ⟨2, some "short write"⟩, .flushed (some "full")] := by
    rw [hplaces]
    decide +kernel
  refine ⟨hsame flat hflat, outlet, houtlet, hanswers ▸ hserves world calls, ?_⟩
  rw [hplaces]
  decide +kernel

end WordLisp
