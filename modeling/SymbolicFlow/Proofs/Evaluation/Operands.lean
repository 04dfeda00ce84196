import SymbolicFlow.Proofs.Evaluation.Progress

/-!
# The values at the positions of a statement

Evaluation of a statement is described relative to a way of finding the values of variables.  All
that is needed of it is that a variable is bound afterwards and that the store stays sound
(`Resolver`).  Then the value at each position has the expression `operandTree`, and what a family
makes of its operands has the expression that goes with the family.

Expressions are stated for all `trees` that agree with the store at the end.  A store that agrees
at the end agreed all along, so these statements compose.
-/

set_option autoImplicit false

namespace SymbolicFlow

open Ssa (Statement)

namespace Evaluation

/-- A way of finding the values of the variables that are `ready`. -/
structure Resolver (reading : Ssa.Reading) (resolve : VarId → Evaluation ValueId)
    (ready : VarId → Progress → Prop) : Prop where
  stable : ∀ {var : VarId} {before after : Progress}, ready var before →
    before.store.Extends after.store → ready var after
  resolves : ∀ {var : VarId} {before : Progress}, before.store.Valid → ready var before →
    Yields (resolve var) before fun value after =>
      Next reading before after ∧ after.store.valueOf? var = some value

/-- From one state to another a value was made, or none, as expected. -/
structure Made (reading : Ssa.Reading) (before after : Progress) (result : Option ValueId)
    (expected : (VarId → Tree) → Option Tree) : Prop where
  next : Next reading before after
  inside : ∀ {id : ValueId}, result = some id → id < after.store.arena.size
  tree : ∀ {trees : VarId → Tree}, after.store.Agrees trees →
    result.map (Arena.tree after.store.arena) = expected trees

namespace Made

variable {reading : Ssa.Reading} {before middle after : Progress} {result : Option ValueId}
  {expected : (VarId → Tree) → Option Tree}

theorem extend (made : Made reading before middle result expected)
    (next : Next reading middle after) : Made reading before after result expected where
  next := made.next.trans next
  inside := fun found => next.grows.lt_size (made.inside found)
  tree := by
    intro trees agrees
    rw [← made.tree (next.grows.agrees made.next.valid agrees)]
    cases result with
    | none => rfl
    | some id => exact congrArg some (next.grows.tree (made.inside rfl))

theorem after_next (next : Next reading before middle)
    (made : Made reading middle after result expected) :
    Made reading before after result expected :=
  ⟨next.trans made.next, made.inside, made.tree⟩

theorem here (made : Made reading before after result expected) :
    Made reading after after result expected :=
  ⟨.refl made.next.valid, made.inside, made.tree⟩

theorem congr {other : (VarId → Tree) → Option Tree}
    (made : Made reading before after result expected)
    (same : ∀ trees, result.map (Arena.tree after.store.arena) = expected trees →
      expected trees = other trees) : Made reading before after result other :=
  ⟨made.next, made.inside, fun agrees => (made.tree agrees).trans (same _ (made.tree agrees))⟩

theorem none (valid : before.store.Valid) (nothing : ∀ trees, expected trees = Option.none) :
    Made reading before before Option.none expected :=
  ⟨.refl valid, fun found => (nomatch found), fun _ => (nothing _).symm⟩

end Made

section Values

variable {reading : Ssa.Reading} {before middle : Progress}

theorem yields_leaf (reading : Ssa.Reading) (valid : before.store.Valid) {shape : Shape}
    (leaf : shape.children = []) (loaded : Bool) :
    Yields (alloc shape loaded) before fun id after =>
      Made reading before after (some id) fun _ =>
        some (Node.tree (fun _ => .absent) ⟨shape, loaded⟩) := by
  have children : ∀ child ∈ shape.children, child < before.store.arena.size := by simp [leaf]
  refine (yields_alloc reading valid shape loaded children).imp ?_
  intro id after allocated
  obtain ⟨next, inside, tree⟩ := allocated
  refine ⟨next, fun same => Option.some.inj same ▸ inside, fun _ => ?_⟩
  rw [Option.map_some, tree]
  cases shape with
  | immediate => rfl
  | register => rfl
  | memory => rfl
  | binary => cases leaf
  | unary => cases leaf

theorem yields_immediate (reading : Ssa.Reading) (valid : before.store.Valid) (value : Int64) :
    Yields (immediate value) before fun id after =>
      Made reading before after (some id) fun _ => some (.immediate value false) :=
  yields_leaf reading valid rfl false

theorem yields_binary {left right : ValueId} {expectedLeft expectedRight : (VarId → Tree) → Option Tree}
    (madeLeft : Made reading before middle (some left) expectedLeft)
    (madeRight : Made reading before middle (some right) expectedRight)
    (operator : Operator) (loaded : Bool) :
    Yields (alloc (.binary operator left right) loaded) middle fun id after =>
      Made reading before after (some id) fun trees =>
        match expectedLeft trees, expectedRight trees with
        | some left, some right => some (.binary operator left right loaded)
        | _, _ => none := by
  have children : ∀ child ∈ (Shape.binary operator left right).children,
      child < middle.store.arena.size := by
    intro child member
    simp only [Shape.children, List.mem_cons, List.not_mem_nil, or_false] at member
    rcases member with rfl | rfl
    · exact madeLeft.inside rfl
    · exact madeRight.inside rfl
  refine (yields_alloc reading madeLeft.next.valid _ loaded children).imp ?_
  intro id after allocated
  obtain ⟨next, inside, tree⟩ := allocated
  refine ⟨madeLeft.next.trans next, fun same => Option.some.inj same ▸ inside, ?_⟩
  intro trees agrees
  have agreed := next.grows.agrees madeLeft.next.valid agrees
  rw [← madeLeft.tree agreed, ← madeRight.tree agreed, Option.map_some, tree]
  rfl

theorem yields_unary {operand : ValueId} {expected : (VarId → Tree) → Option Tree}
    (made : Made reading before middle (some operand) expected) (operator : Operator) :
    Yields (unary operator operand) middle fun id after =>
      Made reading before after (some id) fun trees =>
        (expected trees).map fun tree => .unary operator tree false := by
  have children : ∀ child ∈ (Shape.unary operator operand).children,
      child < middle.store.arena.size := by
    intro child member
    rw [Shape.children, List.mem_singleton] at member
    exact member ▸ made.inside rfl
  refine (yields_alloc reading made.next.valid _ false children).imp ?_
  intro id after allocated
  obtain ⟨next, inside, tree⟩ := allocated
  refine ⟨made.next.trans next, fun same => Option.some.inj same ▸ inside, ?_⟩
  intro trees agrees
  rw [← made.tree (next.grows.agrees made.next.valid agrees), Option.map_some, tree]
  rfl

end Values

/-! ## Operands -/

section Operands

variable {reading : Ssa.Reading} {resolve : VarId → Evaluation ValueId}
  {ready : VarId → Progress → Prop} {statement : Statement} {before : Progress}

theorem yields_slot (resolver : Resolver reading resolve ready) (valid : before.store.Valid)
    {slot : Option VarId} (isReady : ∀ var, slot = some var → ready var before) :
    Yields (slot.mapM resolve) before fun result after =>
      Made reading before after result fun trees => slot.map trees := by
  cases slot with
  | none => exact Yields.pure (.none valid fun _ => rfl)
  | some var =>
      refine Yields.mapM_some ((resolver.resolves valid (isReady var rfl)).imp ?_)
      intro value after resolved
      obtain ⟨next, found⟩ := resolved
      refine ⟨next, ?_, ?_⟩
      · exact fun same => Option.some.inj same ▸ next.valid.values found
      · exact fun agrees => congrArg some (agrees var value found)

theorem yields_scaled {start middle : Progress} {index : Option ValueId} {slot : Option VarId}
    (made : Made reading start middle index fun trees => slot.map trees) (scale : UInt8) :
    Yields (index.mapM fun index => do
        let factor ← immediate (Int64.ofNat scale.toNat)
        binary .mul index factor) middle fun result after =>
      Made reading start after result fun trees => slot.map fun index =>
        .binary .mul (trees index) (.immediate (Int64.ofNat scale.toNat) false) false := by
  cases index with
  | none =>
      refine Yields.pure (made.congr fun trees missing => ?_)
      cases slot with
      | none => rfl
      | some var => cases missing
  | some index =>
      refine Yields.mapM_some (Yields.bind (yields_immediate reading made.next.valid _) ?_)
      intro factor second madeFactor
      refine (yields_binary (made.extend madeFactor.next) (madeFactor.after_next made.next) .mul
        false).imp ?_
      intro product last madeProduct
      refine madeProduct.congr fun trees found => ?_
      cases slot with
      | none => cases found
      | some var => rfl

theorem yields_registerPart (resolver : Resolver reading resolve ready)
    (valid : before.store.Valid) (isReady : ∀ used ∈ statement.usedVars, ready used before)
    (position : Nat) (scale : UInt8) :
    Yields (registerPart resolve statement position scale) before fun result after =>
      Made reading before after result fun trees => statement.registerTree trees position scale := by
  have baseReady : ∀ var, statement.operandVar? position = some var → ready var before :=
    fun var found => isReady var (Statement.mem_usedVars_of_slot found)
  refine Yields.bind (yields_slot resolver valid baseReady) fun base first madeBase => ?_
  have indexReady : ∀ var, statement.indexVar? position = some var → ready var first :=
    fun var found => resolver.stable (isReady var (Statement.mem_usedVars_of_slot found))
      madeBase.next.grows
  refine Yields.bind (yields_slot resolver madeBase.next.valid indexReady)
    fun index second madeIndex => ?_
  refine Yields.bind (yields_scaled madeIndex scale) fun scaled third madeScaled => ?_
  have baseKept := madeBase.extend madeScaled.next
  have scaledKept := madeScaled.after_next madeBase.next
  cases base with
  | some base =>
      cases scaled with
      | some scaled =>
          refine Yields.bind (yields_binary baseKept scaledKept .add false) fun sum last made => ?_
          refine Yields.pure (made.congr fun trees found => ?_)
          rw [Statement.registerTree]
          revert found
          cases (statement.operandVar? position).map trees <;>
            cases (statement.indexVar? position).map _ <;> simp
      | none =>
          refine Yields.pure ⟨baseKept.next, baseKept.inside, fun agrees => ?_⟩
          rw [Statement.registerTree, ← baseKept.tree agrees, ← scaledKept.tree agrees]
          rfl
  | none =>
      cases scaled with
      | some scaled =>
          refine Yields.pure ⟨scaledKept.next, scaledKept.inside, fun agrees => ?_⟩
          rw [Statement.registerTree, ← baseKept.tree agrees, ← scaledKept.tree agrees]
          rfl
      | none =>
          refine Yields.pure ⟨baseKept.next, baseKept.inside, fun agrees => ?_⟩
          rw [Statement.registerTree, ← baseKept.tree agrees, ← scaledKept.tree agrees]
          rfl

theorem yields_resolveMemory (resolver : Resolver reading resolve ready)
    (valid : before.store.Valid) (isReady : ∀ used ∈ statement.usedVars, ready used before)
    (instruction : Instruction) (position : Nat) (reference : MemoryReference) :
    Yields (resolveMemory reading.policy resolve statement instruction position reference) before
      fun id after => Made reading before after (some id) fun trees =>
        some (statement.memoryTree reading.policy trees instruction position reference) := by
  rw [resolveMemory]
  split
  · rename_i untracked
    simp only [Statement.memoryTree, if_pos untracked]
    exact yields_leaf reading valid rfl true
  · rename_i tracked
    simp only [Statement.memoryTree, if_neg tracked]
    refine Yields.bind (yields_registerPart resolver valid isReady position reference.scale) ?_
    intro part first madePart
    cases part with
    | some part =>
        refine Yields.bind (yields_immediate reading madePart.next.valid _) ?_
        intro offset second madeOffset
        refine (yields_binary (madeOffset.after_next madePart.next)
          (madePart.extend madeOffset.next) .add true).imp ?_
        intro id last made
        refine made.congr fun trees found => ?_
        revert found
        cases statement.registerTree trees position reference.scale <;> simp
    | none =>
        refine (yields_leaf reading madePart.next.valid rfl true).imp fun id last made => ?_
        refine ⟨madePart.next.trans made.next, made.inside, fun agrees => ?_⟩
        rw [made.tree agrees,
          ← madePart.tree (made.next.grows.agrees madePart.next.valid agrees)]
        rfl

theorem yields_resolveOperand (resolver : Resolver reading resolve ready)
    (valid : before.store.Valid) (isReady : ∀ used ∈ statement.usedVars, ready used before)
    (position : Nat) :
    Yields (resolveOperand reading.policy resolve statement position) before fun result after =>
      Made reading before after result fun trees =>
        statement.operandTree reading.policy trees position := by
  have slot : Yields ((statement.operandVar? position).mapM resolve) before fun result after =>
      Made reading before after result fun trees => (statement.operandVar? position).map trees :=
    yields_slot resolver valid fun var found => isReady var (Statement.mem_usedVars_of_slot found)
  simp only [resolveOperand, Statement.operandTree]
  cases statement.instruction with
  | none => exact Yields.pure (.none valid fun _ => rfl)
  | some instruction =>
      cases found : instruction.operands[position]? with
      | none =>
          by_cases inside : position < statement.positionCount
          · simp only [found, if_pos inside]
            exact slot
          · simp only [found, if_neg inside]
            exact Yields.pure (.none valid fun _ => rfl)
      | some operand =>
          simp only [found]
          cases operand.kind with
          | immediate value =>
              exact Yields.bind (yields_immediate reading valid value)
                fun _ _ made => Yields.pure made
          | register register => exact slot
          | indexedRegister register index => exact slot
          | memory reference =>
              exact Yields.bind (yields_resolveMemory resolver valid isReady instruction position
                reference) fun _ _ made => Yields.pure made
          | relativeMemory reference =>
              exact Yields.bind (yields_resolveMemory resolver valid isReady instruction position
                reference) fun _ _ made => Yields.pure made
          | pointer target => exact Yields.pure (.none valid fun _ => rfl)

/-! ## Families -/

theorem yields_combineOperands (resolver : Resolver reading resolve ready)
    (valid : before.store.Valid) (isReady : ∀ used ∈ statement.usedVars, ready used before)
    (operator : Operator) :
    Yields (combineOperands reading.policy resolve statement operator) before fun result after =>
      Made reading before after result fun trees =>
        statement.combinedTree reading.policy trees operator := by
  rw [combineOperands]
  simp only [Statement.combinedTree]
  split
  · exact Yields.pure (.none valid fun _ => rfl)
  · refine Yields.bind (yields_resolveOperand resolver valid isReady 0) ?_
    intro first middle madeFirst
    cases first with
    | none =>
        refine Yields.pure (madeFirst.congr fun trees missing => ?_)
        rw [← missing]
        rfl
    | some first =>
        have stillReady := fun used reads => resolver.stable (isReady used reads) madeFirst.next.grows
        refine Yields.bind (yields_resolveOperand resolver madeFirst.next.valid stillReady 1) ?_
        intro second last madeSecond
        have firstKept := madeFirst.extend madeSecond.next
        have secondKept := madeSecond.after_next madeFirst.next
        cases second with
        | none =>
            refine Yields.pure (secondKept.congr fun trees missing => ?_)
            rw [← missing]
            cases statement.operandTree reading.policy trees 0 <;> rfl
        | some second =>
            refine Yields.bind (yields_binary secondKept firstKept operator false) ?_
            intro value final made
            refine Yields.pure (made.congr fun trees _ => ?_)
            cases statement.operandTree reading.policy trees 0 <;>
              cases statement.operandTree reading.policy trees 1 <;> rfl

theorem yields_changeOperand (resolver : Resolver reading resolve ready)
    (valid : before.store.Valid) (isReady : ∀ used ∈ statement.usedVars, ready used before)
    {continuation : ValueId → Evaluation (Option ValueId)} {change : Tree → Tree}
    (rest : ∀ {value : ValueId} {middle : Progress},
      Made reading before middle (some value)
        (fun trees => statement.operandTree reading.policy trees 0) →
      Yields (continuation value) middle fun result after =>
        Made reading before after result fun trees =>
          (statement.operandTree reading.policy trees 0).map change) :
    Yields (resolveOperand reading.policy resolve statement 0 >>= fun operand =>
        match operand with
        | none => pure none
        | some value => continuation value) before fun result after =>
      Made reading before after result fun trees =>
        (statement.operandTree reading.policy trees 0).map change := by
  refine Yields.bind (yields_resolveOperand resolver valid isReady 0) ?_
  intro value middle made
  cases value with
  | none =>
      refine Yields.pure (made.congr fun trees missing => ?_)
      rw [← missing]
      rfl
  | some value => exact rest made

theorem yields_stepOperand (resolver : Resolver reading resolve ready)
    (valid : before.store.Valid) (isReady : ∀ used ∈ statement.usedVars, ready used before)
    (delta : Int64) :
    Yields (stepOperand reading.policy resolve statement delta) before fun result after =>
      Made reading before after result fun trees =>
        (statement.operandTree reading.policy trees 0).map fun value =>
          .binary .add (.immediate delta false) value false := by
  refine yields_changeOperand resolver valid isReady fun {value middle} made => ?_
  refine Yields.bind (yields_immediate reading made.next.valid delta) ?_
  intro step second madeStep
  refine Yields.bind (yields_binary (madeStep.after_next made.next) (made.extend madeStep.next)
    .add false) ?_
  intro stepped last madeStepped
  refine Yields.pure (madeStepped.congr fun trees _ => ?_)
  cases statement.operandTree reading.policy trees 0 <;> rfl

theorem yields_rootOperand (resolver : Resolver reading resolve ready)
    (valid : before.store.Valid) (isReady : ∀ used ∈ statement.usedVars, ready used before) :
    Yields (rootOperand reading.policy resolve statement) before fun result after =>
      Made reading before after result fun trees =>
        (statement.operandTree reading.policy trees 0).map fun value => .unary .sqrt value false :=
  yields_changeOperand resolver valid isReady fun made =>
    Yields.bind (yields_unary made .sqrt) fun _ _ madeRoot => Yields.pure madeRoot

theorem yields_unmark {middle : Progress} {value : ValueId}
    {expected : (VarId → Tree) → Option Tree}
    (made : Made reading before middle (some value) expected) :
    Yields (onStore (·.mark value false)) middle fun id after =>
      Made reading before after (some id) fun trees => (expected trees).map (Tree.remarked false) := by
  have valid := made.next.valid
  obtain ⟨⟨shape, loaded⟩, found⟩ : ∃ node, middle.store.arena[value]? = some node :=
    ⟨_, Array.getElem?_eq_getElem (made.inside rfl)⟩
  have tree := Arena.tree_of_node found (valid.nodes found)
  have unmarked : (Arena.tree middle.store.arena value).remarked false =
      Node.tree (Arena.tree middle.store.arena) ⟨shape, false⟩ := by
    rw [tree, Node.remarked_tree]
  cases loaded with
  | false =>
      have same : onStore (·.mark value false) middle = (value, middle) := by
        simp [onStore, Store.mark, Store.remarked?, found]
      refine Yields.of_eq same (Yields.pure ⟨made.next, made.inside, fun agrees => ?_⟩)
      rw [← made.tree agrees]
      exact congrArg some (tree.trans unmarked.symm)
  | true =>
      have shape : onStore (·.mark value false) middle = alloc shape false middle := by
        simp [onStore, Store.mark, Store.remarked?, found, alloc]
      have children := fun child member =>
        Nat.lt_trans (valid.nodes found child member) (made.inside rfl)
      refine Yields.of_eq shape ((yields_alloc reading valid _ false children).imp ?_)
      intro id after allocated
      obtain ⟨next, inside, newTree⟩ := allocated
      refine ⟨made.next.trans next, fun same => Option.some.inj same ▸ inside, fun agrees => ?_⟩
      rw [← made.tree (next.grows.agrees valid agrees)]
      exact congrArg some (newTree.trans unmarked.symm)

theorem yields_addressOperand (resolver : Resolver reading resolve ready)
    (valid : before.store.Valid) (isReady : ∀ used ∈ statement.usedVars, ready used before) :
    Yields (addressOperand reading.policy resolve statement) before fun result after =>
      Made reading before after result fun trees =>
        (statement.operandTree reading.policy trees 0).map (Tree.remarked false) :=
  yields_changeOperand resolver valid isReady fun made =>
    Yields.bind (yields_unmark made) fun _ _ madeAddress => Yields.pure madeAddress

theorem yields_xorOperands (reading : Ssa.Reading) (valid : before.store.Valid)
    (instruction : Instruction) :
    Yields (xorOperands instruction) before fun result after =>
      Made reading before after result fun _ =>
        if Statement.clears instruction then some (.immediate 0 false) else none := by
  have unexpressed : Yields (do report (.unresolvedXor instruction); pure none) before
      fun result after => Made reading before after result fun _ => none :=
    Yields.bind (yields_report reading valid _) fun _ _ reported =>
      Yields.pure ⟨reported.1, fun found => (nomatch found), fun _ => rfl⟩
  rw [xorOperands]
  split
  · rename_i first second foundFirst foundSecond
    have clears : Statement.clears instruction = decide (first = second) := by
      simp only [Statement.clears, foundFirst, foundSecond]
    by_cases same : first = second
    · simp only [clears, same, decide_true, if_true]
      exact Yields.bind (yields_immediate reading valid 0) fun _ _ made => Yields.pure made
    · simpa only [clears, same, decide_false, if_false, Bool.false_eq_true] using unexpressed
  · rename_i unlike
    have clears : Statement.clears instruction = false := by
      rw [Statement.clears]
      split
      · rename_i foundFirst foundSecond
        exact absurd foundSecond (unlike _ _ foundFirst)
      · rfl
    simpa only [clears, Bool.false_eq_true, if_false] using unexpressed

end Operands

end Evaluation

end SymbolicFlow
