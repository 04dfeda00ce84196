import SymbolicFlow.Proofs.Evaluation.Invariants

/-!
# What a statement can give its output

The value of an operand is a new constant, the value of a variable, or something loaded.  A move
binds its output to the operand as it is, a phi that is a copy to the value of its source, and every
other family to a node without a mark.  Shifts are made in one place only, after the amount has been
looked at.

A property of stores that knows about bound values and about shifts is respected by a statement if
it survives these few steps; `Respects.evaluateStatement` goes through the families once for all
such properties.
-/

set_option autoImplicit false

namespace SymbolicFlow

open Ssa (Statement)

def Shape.amount? : Shape → Option ValueId
  | .binary .shiftLeft _ amount | .binary .shiftRight _ amount => some amount
  | _ => none

namespace Ssa.Statement

def LoadsAt (statement : Statement) (position : Nat) : Prop :=
  ∃ instruction operand, statement.instruction = some instruction ∧
    instruction.operands[position]? = some operand ∧ operand.memory?.isSome = true

def ReadsAt (statement : Statement) (position : Nat) (var : VarId) : Prop :=
  ¬ statement.LoadsAt position ∧ statement.operandVar? position = some var

/-- A statement refers to memory by a constant address alone: the slots of the operand are empty,
and the access is not cut short by the policy. -/
def RefersTo (statement : Statement) (policy : Policy) (address : Int64) : Prop :=
  ∃ instruction position operand reference, statement.instruction = some instruction ∧
    instruction.operands[position]? = some operand ∧ operand.memory? = some reference ∧
    reference.offset = address ∧ statement.operandVar? position = none ∧
    statement.indexVar? position = none ∧
    (policy.untrackedMemory && instruction.family != .lea) = false

inductive HasOperand (statement : Statement) (policy : Policy) (position : Nat) (store : Store)
    (value : ValueId) : Prop where
  | constant {number : Int64} (found : store.node? value = some ⟨.immediate number, false⟩)
  | read {var : VarId} (reads : statement.ReadsAt position var)
      (bound : store.valueOf? var = some value)
  | loaded {shape : Shape} (loads : statement.LoadsAt position)
      (found : store.node? value = some ⟨shape, true⟩)
      (refers : ∀ address, shape = .immediate address → statement.RefersTo policy address)

/-- What the output of a statement can be bound to, its placeholder aside. -/
inductive HasResult (statement : Statement) (policy : Policy) (store : Store) (value : ValueId) :
    Prop where
  | made {shape : Shape} (found : store.node? value = some ⟨shape, false⟩)
  | moved (family : statement.family? = some .move)
      (operand : statement.HasOperand policy 0 store value)
  | copied {source : VarId} (isPhi : statement.isPhi = true)
      (single : statement.usedVars = [source]) (bound : store.valueOf? source = some value)

/-- The property survives all that an evaluation of the statement does to a store. -/
structure Respects (statement : Statement) (policy : Policy) (property : Store → Prop) : Prop where
  present : ∀ {store : Store} {var : VarId} {value : ValueId}, property store →
    store.valueOf? var = some value → ∃ node, store.node? value = some node
  alloc : ∀ {store : Store} {node : Node}, node.shape.amount? = none → property store →
    property (store.alloc node).2
  shift : ∀ {store : Store} {operator : Operator} {value amount : ValueId},
    statement.family? ≠ some .lea → statement.HasOperand policy 0 store amount →
    (policy.constantShifts = true → ((store.node? amount).bind Node.immediate?).isSome = true) →
    property store → property (store.alloc ⟨.binary operator value amount, false⟩).2
  unmark : ∀ {store : Store} (value : ValueId), property store →
    property (store.mark value false).2
  bind : ∀ {store : Store} {output : VarId} {value : ValueId}, statement.output? = some output →
    statement.HasResult policy store value → property store →
    property (store.bind output value).2
  placeholder : ∀ {store : Store} (var : VarId), property store →
    property (store.placeholder var).2

theorem HasOperand.mono {statement : Statement} {policy : Policy} {position : Nat}
    {store later : Store} {value : ValueId}
    (operand : statement.HasOperand policy position store value) (grows : store.Extends later) :
    statement.HasOperand policy position later value := by
  cases operand with
  | constant found => exact .constant (grows.node? found)
  | read reads bound => exact .read reads (grows.values bound)
  | loaded loads found refers => exact .loaded loads (grows.node? found) refers

end Ssa.Statement

theorem Store.node?_mark {store : Store} {value : ValueId} {node : Node}
    (found : store.node? value = some node) (loaded : Bool) :
    (store.mark value loaded).2.node? (store.mark value loaded).1 = some ⟨node.shape, loaded⟩ := by
  have look : store.arena[value]? = some node := found
  rw [mark, remarked?, look]
  obtain ⟨shape, marked⟩ := node
  by_cases same : marked = loaded
  · simp only [same, if_true]
    rw [found, same]
  · simp only [same, if_false]
    exact Array.getElem?_push_size

namespace Evaluation

structure Keeps (property : Store → Prop) (before after : Progress) : Prop where
  grows : before.store.Extends after.store
  holds : property after.store

def Gives (property : Store → Prop) (described : Store → ValueId → Prop) (before : Progress)
    (result : Option ValueId) (after : Progress) : Prop :=
  Keeps property before after ∧ ∀ value, result = some value → described after.store value

def Unmarked (store : Store) (value : ValueId) : Prop :=
  ∃ shape, store.node? value = some ⟨shape, false⟩

section Keeping

variable {property : Store → Prop} {described : Store → ValueId → Prop}
  {before middle after : Progress}

theorem Keeps.refl (holds : property before.store) : Keeps property before before :=
  ⟨.refl _, holds⟩

theorem Keeps.trans (first : Keeps property before middle) (second : Keeps property middle after) :
    Keeps property before after :=
  ⟨first.grows.trans second.grows, second.holds⟩

theorem Gives.after_keeps (first : Keeps property before middle) {result : Option ValueId}
    (gives : Gives property described middle result after) :
    Gives property described before result after :=
  ⟨first.trans gives.1, gives.2⟩

theorem Gives.nothing (keeps : Keeps property before after) :
    Gives property described before none after :=
  ⟨keeps, fun _ same => nomatch same⟩

theorem Gives.value (keeps : Keeps property before after) {value : ValueId}
    (found : described after.store value) : Gives property described before (some value) after := by
  refine ⟨keeps, ?_⟩
  intro other same
  cases same
  exact found

theorem keeps_report (holds : property before.store) (event : Event) :
    Yields (report event) before fun _ after => Keeps property before after :=
  ⟨.refl _, holds⟩

theorem Resolving.keeps {resolve : VarId → Evaluation ValueId}
    (resolving : Resolving property resolve) (var : VarId) (holds : property before.store) :
    Yields (resolve var) before fun value after =>
      Keeps property before after ∧ after.store.valueOf? var = some value :=
  ⟨⟨resolving.grows var before, resolving.preserves var before holds⟩,
    resolving.answers var before⟩

end Keeping

section Statements

variable {property : Store → Prop} {policy : Policy} {resolve : VarId → Evaluation ValueId}
  {statement : Statement} {before : Progress} (respects : statement.Respects policy property)
  (resolving : Resolving property resolve) (holds : property before.store)

section Operations

include respects holds

theorem keeps_alloc (shape : Shape) (loaded : Bool) (noShift : shape.amount? = none) :
    Yields (alloc shape loaded) before fun id after =>
      Keeps property before after ∧ after.store.node? id = some ⟨shape, loaded⟩ :=
  ⟨⟨before.store.extends_alloc _, respects.alloc noShift holds⟩, Array.getElem?_push_size⟩

theorem gives_alloc (shape : Shape) (noShift : shape.amount? = none) :
    Yields (alloc shape false >>= fun value => pure (some value)) before
      (Gives property Unmarked before) :=
  Yields.bind (keeps_alloc respects holds shape false noShift)
    fun _ _ made => Yields.pure (.value made.1 ⟨shape, made.2⟩)

theorem keeps_placeholder (var : VarId) :
    Yields (placeholder var) before fun _ after => Keeps property before after :=
  ⟨extends_placeholder before var, respects.placeholder var holds⟩

theorem keeps_placeholderOutput :
    Yields (placeholderOutput statement) before fun _ after => Keeps property before after := by
  rw [placeholderOutput]
  cases statement.output? with
  | none => exact Yields.pure (.refl holds)
  | some output => exact Yields.mapM_some (keeps_placeholder respects holds output)

theorem keeps_bindOutput {result : Option ValueId}
    (given : ∀ value, result = some value → statement.HasResult policy before.store value) :
    Yields (bindOutput statement result) before fun _ after => Keeps property before after := by
  cases result with
  | none => exact Yields.pure (.refl holds)
  | some value =>
      rw [bindOutput]
      cases isOutput : statement.output? with
      | none => exact Yields.pure (.refl holds)
      | some output =>
          exact ⟨before.store.extends_bind output value,
            respects.bind isOutput (given value rfl) holds⟩

theorem keeps_gatherOutput :
    Yields (gatherOutput statement) before fun _ after => Keeps property before after := by
  have single (var : VarId) : Yields (do let _ ← placeholder var; pure ()) before
      fun _ after => Keeps property before after :=
    Yields.bind (keeps_placeholder respects holds var) fun _ _ kept => Yields.pure kept
  rw [gatherOutput]
  split
  · exact Yields.pure (.refl holds)
  · exact single _
  · exact Yields.bind_ask (single _)

theorem gives_xorOperands (instruction : Instruction) :
    Yields (xorOperands instruction) before (Gives property Unmarked before) := by
  have unexpressed : Yields (do report (.unresolvedXor instruction); pure none) before
      (Gives property Unmarked before) :=
    Yields.bind (keeps_report holds _) fun _ _ kept => Yields.pure (.nothing kept)
  rw [xorOperands]
  split
  · split
    · exact gives_alloc respects holds _ rfl
    · exact unexpressed
  · exact unexpressed

end Operations

/-! ## Operands -/

section Operands

include resolving holds

theorem gives_slot (slot : Option VarId) :
    Yields (slot.mapM resolve) before fun result after =>
      Gives property (fun store value => ∃ var, slot = some var ∧ store.valueOf? var = some value)
        before result after ∧ (result = none → slot = none) := by
  cases slot with
  | none => exact Yields.pure ⟨.nothing (.refl holds), fun _ => rfl⟩
  | some var =>
      exact Yields.mapM_some ((resolving.keeps var holds).imp fun _ _ found =>
        ⟨.value found.1 ⟨var, rfl, found.2⟩, fun missing => nomatch missing⟩)

include respects

theorem keeps_registerPart (position : Nat) (scale : UInt8) :
    Yields (registerPart resolve statement position scale) before fun result after =>
      Keeps property before after ∧ (result = none →
        statement.operandVar? position = none ∧ statement.indexVar? position = none) := by
  refine Yields.bind (gives_slot resolving holds (statement.operandVar? position)) ?_
  intro base first gaveBase
  obtain ⟨⟨keptFirst, _⟩, noBase⟩ := gaveBase
  refine Yields.bind (gives_slot resolving keptFirst.holds (statement.indexVar? position)) ?_
  intro index second gaveIndex
  obtain ⟨⟨keptSecond, _⟩, noIndex⟩ := gaveIndex
  have scaled : Yields (index.mapM fun index => do
      let factor ← immediate (Int64.ofNat scale.toNat)
      binary .mul index factor) second fun result after =>
        Keeps property second after ∧ (result = none → index = none) := by
    cases index with
    | none => exact Yields.pure ⟨.refl keptSecond.holds, fun _ => rfl⟩
    | some index =>
        apply Yields.mapM_some
        refine Yields.bind (keeps_alloc respects keptSecond.holds (.immediate _) false rfl) ?_
        intro factor third made
        exact (keeps_alloc respects made.1.holds (.binary .mul index factor) false rfl).imp
          fun _ _ last => ⟨made.1.trans last.1, fun missing => nomatch missing⟩
  refine Yields.bind scaled ?_
  intro scaled third gaveScaled
  obtain ⟨keptThird, noScaled⟩ := gaveScaled
  have kept := (keptFirst.trans keptSecond).trans keptThird
  cases base with
  | none =>
      cases scaled with
      | none => exact Yields.pure ⟨kept, fun _ => ⟨noBase rfl, noIndex (noScaled rfl)⟩⟩
      | some scaled => exact Yields.pure ⟨kept, fun missing => nomatch missing⟩
  | some base =>
      cases scaled with
      | none => exact Yields.pure ⟨kept, fun missing => nomatch missing⟩
      | some scaled =>
          refine Yields.bind
            (keeps_alloc respects kept.holds (.binary .add base scaled) false rfl) ?_
          intro sum last made
          exact Yields.pure ⟨kept.trans made.1, fun missing => nomatch missing⟩

/-- A loaded constant is made only for a reference without registers. -/
theorem gives_resolveMemory {instruction : Instruction} {position : Nat} {operand : Operand}
    {reference : MemoryReference} (machine : statement.instruction = some instruction)
    (listed : instruction.operands[position]? = some operand)
    (refers : operand.memory? = some reference) :
    Yields (resolveMemory policy resolve statement instruction position reference) before
      fun value after => Keeps property before after ∧
        statement.HasOperand policy position after.store value := by
  have loads : statement.LoadsAt position :=
    ⟨instruction, operand, machine, listed, by simp [refers]⟩
  rw [resolveMemory]
  split
  · exact (keeps_alloc respects holds (.memory instruction.address) true rfl).imp
      fun _ _ made => ⟨made.1, .loaded loads made.2 (by simp)⟩
  · rename_i tracked
    refine Yields.bind (keeps_registerPart respects resolving holds position reference.scale) ?_
    intro part middle gave
    obtain ⟨kept, noPart⟩ := gave
    cases part with
    | some part =>
        refine Yields.bind
          (keeps_alloc respects kept.holds (.immediate reference.offset) false rfl) ?_
        intro offset third made
        exact (keeps_alloc respects made.1.holds (.binary .add offset part) true rfl).imp
          fun _ _ last => ⟨(kept.trans made.1).trans last.1, .loaded loads last.2 (by simp)⟩
    | none =>
        obtain ⟨noBase, noIndex⟩ := noPart rfl
        refine (keeps_alloc respects kept.holds (.immediate reference.offset) true rfl).imp ?_
        intro value after made
        refine ⟨kept.trans made.1, .loaded loads made.2 ?_⟩
        intro address same
        cases same
        exact ⟨instruction, position, operand, reference, machine, listed, refers, rfl, noBase,
          noIndex, by simpa using tracked⟩

theorem gives_resolveOperand (position : Nat) :
    Yields (resolveOperand policy resolve statement position) before
      (Gives property (statement.HasOperand policy position) before) := by
  have nothing : Yields (pure none) before
      (Gives property (statement.HasOperand policy position) before) :=
    Yields.pure (.nothing (.refl holds))
  have register (noLoad : ¬ statement.LoadsAt position) :
      Yields ((statement.operandVar? position).mapM resolve) before
        (Gives property (statement.HasOperand policy position) before) := by
    refine (gives_slot resolving holds _).imp fun result after given => ⟨given.1.1, ?_⟩
    intro value isResult
    obtain ⟨var, reads, bound⟩ := given.1.2 value isResult
    exact .read ⟨noLoad, reads⟩ bound
  rw [resolveOperand]
  cases machine : statement.instruction with
  | none => exact nothing
  | some instruction =>
      dsimp only
      cases listed : instruction.operands[position]? with
      | none =>
          dsimp only
          split
          · apply register
            rintro ⟨other, operand, same, otherListed, _⟩
            cases machine.symm.trans same
            cases listed.symm.trans otherListed
          · exact nothing
      | some operand =>
          dsimp only
          have noLoad (noMemory : operand.memory? = none) : ¬ statement.LoadsAt position := by
            rintro ⟨other, otherOperand, same, otherListed, isMemory⟩
            cases machine.symm.trans same
            cases listed.symm.trans otherListed
            simp [noMemory] at isMemory
          have memory (reference : MemoryReference) (refers : operand.memory? = some reference) :
              Yields (do
                let value ← resolveMemory policy resolve statement instruction position reference
                pure (some value)) before
                (Gives property (statement.HasOperand policy position) before) :=
            Yields.bind (gives_resolveMemory respects resolving holds machine listed refers)
              fun _ _ given => Yields.pure (.value given.1 given.2)
          cases kind : operand.kind with
          | immediate constant =>
              exact Yields.bind (keeps_alloc respects holds (.immediate constant) false rfl)
                fun _ _ made => Yields.pure (.value made.1 (.constant made.2))
          | register _ => exact register (noLoad (by simp [Operand.memory?, kind]))
          | indexedRegister _ _ => exact register (noLoad (by simp [Operand.memory?, kind]))
          | memory reference => exact memory reference (by simp [Operand.memory?, kind])
          | relativeMemory reference => exact memory reference (by simp [Operand.memory?, kind])
          | pointer _ => exact nothing

end Operands

/-! ## Families -/

section Families

include respects resolving holds

theorem gives_combineOperands (operator : Operator)
    (noShift : ∀ left right, (Shape.binary operator left right).amount? = none) :
    Yields (combineOperands policy resolve statement operator) before
      (Gives property Unmarked before) := by
  rw [combineOperands]
  split
  · exact Yields.pure (.nothing (.refl holds))
  · refine Yields.bind (gives_resolveOperand respects resolving holds 0) ?_
    intro first middle gaveFirst
    obtain ⟨keptFirst, _⟩ := gaveFirst
    cases first with
    | none => exact Yields.pure (.nothing keptFirst)
    | some first =>
        refine Yields.bind (gives_resolveOperand respects resolving keptFirst.holds 1) ?_
        intro second third gaveSecond
        have kept := keptFirst.trans gaveSecond.1
        cases second with
        | none => exact Yields.pure (.nothing kept)
        | some second =>
            exact (gives_alloc respects kept.holds _ (noShift second first)).imp
              fun _ _ given => given.after_keeps kept

theorem gives_changeOperand {continuation : ValueId → Evaluation (Option ValueId)}
    (rest : ∀ {value : ValueId} {node : Node} {middle : Progress}, property middle.store →
      middle.store.node? value = some node →
      Yields (continuation value) middle (Gives property Unmarked middle)) :
    Yields (resolveOperand policy resolve statement 0 >>= fun operand =>
        match operand with
        | none => pure none
        | some value => continuation value) before (Gives property Unmarked before) := by
  refine Yields.bind (gives_resolveOperand respects resolving holds 0) ?_
  intro operand middle gave
  cases operand with
  | none => exact Yields.pure (.nothing gave.1)
  | some value =>
      have present : ∃ node, middle.store.node? value = some node := by
        cases gave.2 value rfl with
        | constant found => exact ⟨_, found⟩
        | read _ bound => exact respects.present gave.1.holds bound
        | loaded _ found _ => exact ⟨_, found⟩
      obtain ⟨node, found⟩ := present
      exact (rest gave.1.holds found).imp fun _ _ given => given.after_keeps gave.1

/-- The mark is taken off, also if it came with the variable that was read. -/
theorem gives_addressOperand :
    Yields (addressOperand policy resolve statement) before (Gives property Unmarked before) := by
  refine gives_changeOperand respects resolving holds fun {value node middle} kept found => ?_
  have unmarked : Keeps property middle (onStore (·.mark value false) middle).2 :=
    ⟨middle.store.extends_mark value false, respects.unmark value kept⟩
  exact .value unmarked ⟨node.shape, Store.node?_mark found false⟩

theorem gives_stepOperand (delta : Int64) :
    Yields (stepOperand policy resolve statement delta) before
      (Gives property Unmarked before) := by
  refine gives_changeOperand respects resolving holds fun {value node middle} kept _ => ?_
  refine Yields.bind (keeps_alloc respects kept (.immediate delta) false rfl) ?_
  intro step third made
  exact (gives_alloc respects made.1.holds (.binary .add step value) rfl).imp
    fun _ _ given => given.after_keeps made.1

theorem gives_rootOperand :
    Yields (rootOperand policy resolve statement) before (Gives property Unmarked before) :=
  gives_changeOperand respects resolving holds fun kept _ => gives_alloc respects kept _ rfl

/-- Under a policy that wants constant amounts, a shift is made only after its amount was found to
be a constant. -/
theorem keeps_shiftOperands (instruction : Instruction) (computes : statement.family? ≠ some .lea)
    (operator : Operator) :
    Yields (shiftOperands policy resolve statement instruction operator) before
      fun _ after => Keeps property before after := by
  refine Yields.bind (gives_resolveOperand respects resolving holds 0) ?_
  intro amount middle gaveAmount
  refine Yields.bind (gives_resolveOperand respects resolving gaveAmount.1.holds 1) ?_
  intro value third gaveValue
  have kept := gaveAmount.1.trans gaveValue.1
  have unexpressed : Yields (placeholderOutput statement) third
      fun _ after => Keeps property before after :=
    (keeps_placeholderOutput respects kept.holds).imp fun _ _ last => kept.trans last
  cases amount with
  | none => exact unexpressed
  | some amount =>
      cases value with
      | none => exact unexpressed
      | some value =>
          refine Yields.bind_ask ?_
          split
          · refine Yields.bind (keeps_report kept.holds _) ?_
            intro _ fourth reported
            exact (keeps_placeholderOutput respects reported.holds).imp fun _ _ last =>
              (kept.trans reported).trans last
          · rename_i tested
            have constant : policy.constantShifts = true →
                ((third.store.node? amount).bind Node.immediate?).isSome = true := by
              intro strict
              rw [strict, Bool.true_and, Bool.not_eq_true', Bool.not_eq_false] at tested
              exact tested
            have operand := (gaveAmount.2 amount rfl).mono gaveValue.1.grows
            have made : Yields (binary operator value amount) third fun shifted after =>
                Keeps property third after ∧ Unmarked after.store shifted :=
              ⟨⟨third.store.extends_alloc _, respects.shift computes operand constant kept.holds⟩,
                _, Array.getElem?_push_size⟩
            refine Yields.bind made ?_
            rintro shifted fourth ⟨keptShifted, shape, found⟩
            refine (keeps_bindOutput respects keptShifted.holds ?_).imp fun _ _ last =>
              (kept.trans keptShifted).trans last
            intro other same
            cases same
            exact .made found

theorem keeps_evaluateInstruction {instruction : Instruction}
    (machine : statement.instruction = some instruction) :
    Yields (evaluateInstruction policy resolve statement instruction) before
      fun _ after => Keeps property before after := by
  refine Yields.bind_ask ?_
  cases statement.output?.bind before.store.valueOf? with
  | some bound => exact Yields.pure (.refl holds)
  | none =>
      refine Yields.bind (keeps_report holds _) ?_
      intro _ reported kept
      have bound {evaluation : Evaluation (Option ValueId)} {described : Store → ValueId → Prop}
          (result : ∀ {store : Store} {value : ValueId}, described store value →
            statement.HasResult policy store value)
          (gives : Yields evaluation reported (Gives property described reported)) :
          Yields (evaluation >>= bindOutput statement) reported
            fun _ after => Keeps property before after := by
        refine Yields.bind gives ?_
        intro value middle gave
        exact (keeps_bindOutput respects gave.1.holds fun value same =>
          result (gave.2 value same)).imp fun _ _ last => (kept.trans gave.1).trans last
      have made {evaluation : Evaluation (Option ValueId)}
          (gives : Yields evaluation reported (Gives property Unmarked reported)) :
          Yields (evaluation >>= bindOutput statement) reported
            fun _ after => Keeps property before after :=
        bound (fun ⟨_, found⟩ => .made found) gives
      have combined (operator : Operator)
          (noShift : ∀ left right, (Shape.binary operator left right).amount? = none) :=
        made (gives_combineOperands respects resolving kept.holds operator noShift)
      have shifted (operator : Operator) (computes : statement.family? ≠ some .lea) :
          Yields (shiftOperands policy resolve statement instruction operator) reported
            fun _ after => Keeps property before after :=
        (keeps_shiftOperands respects resolving kept.holds instruction computes operator).imp
          fun _ _ last => kept.trans last
      have unexpressed : Yields (placeholderOutput statement) reported
          fun _ after => Keeps property before after :=
        (keeps_placeholderOutput respects kept.holds).imp fun _ _ last => kept.trans last
      have isFamily : statement.family? = some instruction.family := by
        rw [Statement.family?, machine, Option.map_some]
      cases family : instruction.family with
      | move =>
          exact bound (fun operand => .moved (isFamily.trans (congrArg some family)) operand)
            (gives_resolveOperand respects resolving kept.holds 0)
      | add => exact combined .add fun _ _ => rfl
      | sub => exact combined .sub fun _ _ => rfl
      | mul => exact combined .mul fun _ _ => rfl
      | div => exact combined .div fun _ _ => rfl
      | shl => exact shifted .shiftLeft (by simp [isFamily, family])
      | sal => exact shifted .shiftLeft (by simp [isFamily, family])
      | shr => exact shifted .shiftRight (by simp [isFamily, family])
      | sar => exact shifted .shiftRight (by simp [isFamily, family])
      | xor => exact made (gives_xorOperands respects kept.holds instruction)
      | lea => exact made (gives_addressOperand respects resolving kept.holds)
      | inc => exact made (gives_stepOperand respects resolving kept.holds 1)
      | dec => exact made (gives_stepOperand respects resolving kept.holds (-1))
      | sqrt => exact made (gives_rootOperand respects resolving kept.holds)
      | gather =>
          exact Yields.bind (keeps_gatherOutput respects kept.holds)
            fun _ _ last => Yields.pure (kept.trans last)
      | _ => exact unexpressed

theorem keeps_evaluatePhi (isPhi : statement.isPhi = true) :
    Yields (evaluatePhi resolve statement) before fun _ after => Keeps property before after := by
  rw [evaluatePhi]
  cases isOutput : statement.output? with
  | none => exact Yields.pure (.refl holds)
  | some output =>
      refine Yields.bind_ask ?_
      cases before.store.valueOf? output with
      | some bound => exact Yields.pure (.refl holds)
      | none =>
          dsimp only
          split
          · rename_i source single
            refine Yields.bind (resolving.keeps source holds) ?_
            intro value middle found
            have copied : Keeps property middle (Evaluation.bind output value middle).2 :=
              ⟨middle.store.extends_bind output value,
                respects.bind isOutput (.copied isPhi single found.2) found.1.holds⟩
            exact found.1.trans copied
          · exact Yields.bind (keeps_placeholder respects holds output)
              fun _ _ kept => Yields.pure kept

end Families

include resolving in
theorem keeps_resolveAll (vars : List VarId) {before : Progress} (holds : property before.store) :
    Yields (resolveAll resolve vars) before fun _ after => Keeps property before after := by
  induction vars generalizing before with
  | nil => exact Yields.pure (.refl holds)
  | cons var vars ih =>
      refine Yields.bind_ask ?_
      split
      · exact ih holds
      · refine Yields.bind (resolving.keeps var holds) ?_
        intro value middle found
        exact (ih found.1.holds).imp fun _ _ last => found.1.trans last

include respects resolving holds in
theorem keeps_evaluateStatement :
    Yields (evaluateStatement policy resolve statement) before
      fun _ after => Keeps property before after := by
  rw [evaluateStatement]
  cases machine : statement.instruction with
  | none => exact keeps_evaluatePhi respects resolving holds (by simp [Statement.isPhi, machine])
  | some instruction =>
      refine Yields.bind (keeps_evaluateInstruction respects resolving holds machine) ?_
      intro result middle kept
      exact Yields.bind (keeps_resolveAll resolving _ kept.holds)
        fun _ _ last => Yields.pure (kept.trans last)

end Statements

end Evaluation

theorem Setting.upholds_of_respects {setting : Setting} {property : Store → Prop}
    (placeholder : ∀ {store : Store} (var : VarId), property store →
      property (store.placeholder var).2)
    (respects : ∀ {place : Ssa.Location} {statement : Statement},
      setting.form.statement? place = some statement →
      statement.Respects setting.policy property) : setting.Upholds property where
  placeholder := placeholder
  statement := fun placed _ resolving _ holds =>
    (Evaluation.keeps_evaluateStatement (respects placed) resolving holds).holds
  operand := fun placed _ resolving position _ holds =>
    (Evaluation.gives_resolveOperand (respects placed) resolving holds position).1.holds

end SymbolicFlow
