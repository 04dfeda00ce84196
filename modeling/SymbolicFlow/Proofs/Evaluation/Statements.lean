import SymbolicFlow.Proofs.Evaluation.Operands

/-!
# Evaluating a statement

After a statement of the form has been evaluated, its output is bound to the expression that the
definition gives.  An output is left unbound only if the definition cannot be expressed; so a
variable that is still unbound then stands for itself.
-/

set_option autoImplicit false

namespace SymbolicFlow

open Ssa (Statement Location)

/-! ## What an output denotes -/

section Denoting

variable {reading : Ssa.Reading} {statement : Statement} {store : Store}

theorem Ssa.Form.Orderly.definitionTree_of_defined {form : Ssa.Form} (orderly : form.Orderly)
    {var : VarId} (defined : form.definition? var = some statement) (policy : Policy)
    (trees : VarId → Tree) :
    form.definitionTree policy trees var =
      if statement.output? = some var then
        (statement.resultTree policy trees).getD (.register var false)
      else .register var false := by
  have noCounter : form.counterRead? var = none := by
    cases read : form.counterRead? var with
    | none => rfl
    | some next =>
        rw [orderly.counterUndefined read] at defined
        cases defined
  rw [Ssa.Form.definitionTree, noCounter, defined]

/-- Unbound variables can be given the expressions that the recursion gives them. -/
theorem Store.Sound.exists_agrees (sound : store.Sound reading) (orderly : reading.form.Orderly) :
    ∃ trees, store.Agrees trees ∧ ∀ var, reading.Denotes var (trees var) := by
  refine ⟨fun var => ((store.valueOf? var).map (Arena.tree store.arena)).getD
    (reading.form.expression reading.policy var), ?_, ?_⟩
  · intro var value found
    simp only [found, Option.map_some, Option.getD_some]
  · intro var
    cases found : store.valueOf? var with
    | some value =>
        simp only [found, Option.map_some, Option.getD_some]
        exact sound var value found
    | none =>
        simp only [found, Option.map_none, Option.getD_none]
        exact orderly.denotes_expression var

theorem Store.Sound.denotes_output (sound : store.Sound reading) (orderly : reading.form.Orderly)
    {output : VarId} {tree : Tree} (defined : reading.form.definition? output = some statement)
    (isOutput : statement.output? = some output)
    (result : ∀ trees, store.Agrees trees →
      some tree = statement.resultTree reading.policy trees) : reading.Denotes output tree := by
  obtain ⟨trees, agrees, denote⟩ := sound.exists_agrees orderly
  have shape := orderly.definitionTree_of_defined defined reading.policy trees
  rw [if_pos isOutput, ← result trees agrees, Option.getD_some] at shape
  exact shape ▸ .unfold fun used _ => denote used

theorem Store.Sound.denotes_unexpressed (sound : store.Sound reading)
    (orderly : reading.form.Orderly) {var : VarId}
    (defined : reading.form.definition? var = some statement)
    (unexpressed : statement.output? = some var → ∀ trees, store.Agrees trees →
      statement.resultTree reading.policy trees = none) :
    reading.Denotes var (.register var false) := by
  obtain ⟨trees, agrees, denote⟩ := sound.exists_agrees orderly
  have shape : reading.form.definitionTree reading.policy trees var = .register var false := by
    rw [orderly.definitionTree_of_defined defined]
    split
    · rename_i isOutput
      rw [unexpressed isOutput trees agrees]
      rfl
    · rfl
  exact shape ▸ .unfold fun used _ => denote used

end Denoting

namespace Evaluation

structure Evaluated (reading : Ssa.Reading) (statement : Statement) (before after : Progress) :
    Prop where
  next : Next reading before after
  unexpressed : ∀ {output : VarId}, statement.output? = some output →
    after.store.valueOf? output = none → ∀ {trees : VarId → Tree}, after.store.Agrees trees →
    statement.resultTree reading.policy trees = none

namespace Evaluated

variable {reading : Ssa.Reading} {statement : Statement} {before middle after : Progress}

theorem extend (evaluated : Evaluated reading statement before middle)
    (next : Next reading middle after) : Evaluated reading statement before after where
  next := evaluated.next.trans next
  unexpressed := by
    intro output isOutput missing trees agrees
    refine evaluated.unexpressed isOutput ?_ (next.grows.agrees evaluated.next.valid agrees)
    cases found : middle.store.valueOf? output with
    | none => rfl
    | some value =>
        rw [next.grows.values found] at missing
        cases missing

theorem after_next (next : Next reading before middle)
    (evaluated : Evaluated reading statement middle after) :
    Evaluated reading statement before after :=
  ⟨next.trans evaluated.next, evaluated.unexpressed⟩

theorem of_bound (next : Next reading before after)
    (bound : ∀ output, statement.output? = some output →
      ∃ value, after.store.valueOf? output = some value) :
    Evaluated reading statement before after where
  next := next
  unexpressed := by
    intro output isOutput missing
    obtain ⟨value, found⟩ := bound output isOutput
    rw [found] at missing
    cases missing

end Evaluated

section Outputs

variable {reading : Ssa.Reading} {statement : Statement} {place : Location}
  {before middle : Progress}

theorem yields_bindOutput (orderly : reading.form.Orderly)
    (placed : reading.form.statement? place = some statement) {result : Option ValueId}
    (made : Made reading before middle result fun trees =>
      statement.resultTree reading.policy trees) :
    Yields (bindOutput statement result) middle fun _ after =>
      Evaluated reading statement before after := by
  cases result with
  | none => exact Yields.pure ⟨made.next, fun _ _ _ agrees => (made.tree agrees).symm⟩
  | some value =>
      simp only [bindOutput]
      cases isOutput : statement.output? with
      | none => exact Yields.pure (.of_bound made.next (by simp [isOutput]))
      | some output =>
          have defined := orderly.outputDefined placed (List.mem_of_head? isOutput)
          have bound := yields_bind reading made.next.valid (made.inside rfl) fun _ sound _ =>
            sound.denotes_output orderly defined isOutput fun trees agrees => made.tree agrees
          refine Yields.bind bound fun bound after done => Yields.pure ?_
          refine .of_bound (made.next.trans done.1) fun other same => ?_
          cases isOutput.symm.trans same
          exact ⟨bound, done.2⟩

theorem yields_bindMade (orderly : reading.form.Orderly)
    (placed : reading.form.statement? place = some statement)
    {evaluation : Evaluation (Option ValueId)} {expected : (VarId → Tree) → Option Tree}
    (yields : Yields evaluation before fun result after =>
      Made reading before after result expected)
    (family : ∀ trees, statement.resultTree reading.policy trees = expected trees) :
    Yields (evaluation >>= bindOutput statement) before fun _ after =>
      Evaluated reading statement before after :=
  Yields.bind yields fun _ _ made =>
    yields_bindOutput orderly placed (made.congr fun trees _ => (family trees).symm)

theorem yields_placeholderOutput (orderly : reading.form.Orderly)
    (placed : reading.form.statement? place = some statement) (next : Next reading before middle)
    (unexpressed : ∀ trees, middle.store.Agrees trees →
      statement.resultTree reading.policy trees = none) :
    Yields (placeholderOutput statement) middle fun _ after =>
      Evaluated reading statement before after := by
  rw [placeholderOutput]
  cases isOutput : statement.output? with
  | none => exact Yields.pure (.of_bound next (by simp [isOutput]))
  | some output =>
      have defined := orderly.outputDefined placed (List.mem_of_head? isOutput)
      have bound := yields_placeholder reading next.valid output fun _ sound _ =>
        sound.denotes_unexpressed orderly defined fun _ => unexpressed
      refine Yields.mapM_some (bound.imp fun value after done => ?_)
      refine .of_bound (next.trans done.1) fun other same => ?_
      cases isOutput.symm.trans same
      exact ⟨value, done.2⟩

end Outputs

/-! ## Statements -/

section Statements

variable {reading : Ssa.Reading} {resolve : VarId → Evaluation ValueId}
  {ready : VarId → Progress → Prop} {statement : Statement} {place : Location}
  {before : Progress}

theorem yields_shiftOperands (orderly : reading.form.Orderly)
    (placed : reading.form.statement? place = some statement)
    (resolver : Resolver reading resolve ready) (valid : before.store.Valid)
    (isReady : ∀ used ∈ statement.usedVars, ready used before) (instruction : Instruction)
    {operator : Operator}
    (family : ∀ trees, statement.resultTree reading.policy trees =
      statement.shiftedTree reading.policy trees operator) :
    Yields (shiftOperands reading.policy resolve statement instruction operator) before
      fun _ after => Evaluated reading statement before after := by
  refine Yields.bind (yields_resolveOperand resolver valid isReady 0) ?_
  intro amount first madeAmount
  have stillReady := fun used reads => resolver.stable (isReady used reads) madeAmount.next.grows
  refine Yields.bind (yields_resolveOperand resolver madeAmount.next.valid stillReady 1) ?_
  intro value second madeValue
  have amountKept := madeAmount.extend madeValue.next
  have valueKept := madeValue.after_next madeAmount.next
  cases amount with
  | none =>
      refine yields_placeholderOutput orderly placed amountKept.next fun trees agrees => ?_
      rw [family, Statement.shiftedTree, ← amountKept.tree agrees]
      rfl
  | some amount =>
      cases value with
      | none =>
          refine yields_placeholderOutput orderly placed amountKept.next fun trees agrees => ?_
          rw [family, Statement.shiftedTree, ← amountKept.tree agrees, ← valueKept.tree agrees]
          rfl
      | some value =>
          refine Yields.bind_ask ?_
          have constant : ∀ {trees}, second.store.Agrees trees →
              statement.shiftedTree reading.policy trees operator =
                if reading.policy.constantShifts &&
                  !((second.store.node? amount).bind Node.immediate?).isSome then none
                else some (.binary operator (Arena.tree second.store.arena value)
                  (Arena.tree second.store.arena amount) false) := by
            intro trees agrees
            rw [Statement.shiftedTree, ← amountKept.tree agrees, ← valueKept.tree agrees,
              Store.node?, ← Arena.isConstant_tree]
            rfl
          split
          · rename_i refused
            refine Yields.bind (yields_report reading amountKept.next.valid _) ?_
            intro _ third reported
            refine yields_placeholderOutput orderly placed (amountKept.next.trans reported.1) ?_
            intro trees agrees
            rw [reported.2.1] at agrees
            rw [family, constant agrees, if_pos refused]
          · rename_i accepted
            refine Yields.bind (yields_binary valueKept.here amountKept.here operator false) ?_
            intro shifted third made
            refine yields_bindOutput orderly placed
              (.after_next amountKept.next ⟨made.next, made.inside, fun agrees => ?_⟩)
            have earlier := made.next.grows.agrees amountKept.next.valid agrees
            rw [made.tree agrees, family, constant earlier, if_neg accepted,
              ← amountKept.tree earlier, ← valueKept.tree earlier]
            rfl

theorem yields_gatherOutput (orderly : reading.form.Orderly)
    (placed : reading.form.statement? place = some statement) (valid : before.store.Valid)
    (unexpressed : ∀ trees, statement.resultTree reading.policy trees = none) :
    Yields (gatherOutput statement) before fun _ after =>
      Evaluated reading statement before after := by
  have evaluated : ∀ {after}, Next reading before after →
      Evaluated reading statement before after :=
    fun next => ⟨next, fun _ _ _ _ => unexpressed _⟩
  have bound : ∀ output ∈ statement.outputs, Yields (placeholder output) before fun value after =>
      Next reading before after ∧ after.store.valueOf? output = some value := by
    intro output member
    refine yields_placeholder reading valid output fun _ sound _ => ?_
    exact sound.denotes_unexpressed orderly (orderly.outputDefined placed member)
      fun _ trees _ => unexpressed trees
  rw [gatherOutput]
  split
  · exact Yields.pure (evaluated (.refl valid))
  · rename_i first outputs
    exact Yields.bind (bound first (by simp [outputs])) fun _ _ done =>
      Yields.pure (evaluated done.1)
  · rename_i first second rest outputs
    refine Yields.bind_ask ?_
    have member : (if before.store.isBound second then first else second) ∈ statement.outputs := by
      rw [outputs]
      split <;> simp
    exact Yields.bind (bound _ member) fun _ _ done => Yields.pure (evaluated done.1)

theorem yields_evaluateInstruction (orderly : reading.form.Orderly)
    (placed : reading.form.statement? place = some statement)
    (resolver : Resolver reading resolve ready) (valid : before.store.Valid)
    (isReady : ∀ used ∈ statement.usedVars, ready used before) {instruction : Instruction}
    (machine : statement.instruction = some instruction) :
    Yields (evaluateInstruction reading.policy resolve statement instruction) before
      fun _ after => Evaluated reading statement before after := by
  refine Yields.bind_ask ?_
  cases known : statement.output?.bind before.store.valueOf? with
  | some bound =>
      refine Yields.pure (.of_bound (.refl valid) fun output isOutput => ?_)
      rw [isOutput, Option.bind_some] at known
      exact ⟨bound, known⟩
  | none =>
      refine Yields.bind (yields_report reading valid _) ?_
      intro _ first reported
      obtain ⟨next, _, _⟩ := reported
      have valid := next.valid
      have isReady := fun used reads => resolver.stable (isReady used reads) next.grows
      refine Yields.imp (?_ : Yields _ first fun _ after => Evaluated reading statement first after)
        fun _ _ evaluated => evaluated.after_next next
      have result : ∀ trees, statement.resultTree reading.policy trees =
          statement.familyTree reading.policy trees instruction instruction.family := by
        intro trees
        rw [Statement.resultTree, machine]
      generalize instruction.family = family at result
      have operand := yields_resolveOperand resolver valid isReady 0
      have combined := yields_combineOperands resolver valid isReady
      have stepped := yields_stepOperand resolver valid isReady
      cases family with
      | move => exact yields_bindMade orderly placed operand result
      | add => exact yields_bindMade orderly placed (combined .add) result
      | sub => exact yields_bindMade orderly placed (combined .sub) result
      | mul => exact yields_bindMade orderly placed (combined .mul) result
      | div => exact yields_bindMade orderly placed (combined .div) result
      | shl => exact yields_shiftOperands orderly placed resolver valid isReady instruction result
      | sal => exact yields_shiftOperands orderly placed resolver valid isReady instruction result
      | shr => exact yields_shiftOperands orderly placed resolver valid isReady instruction result
      | sar => exact yields_shiftOperands orderly placed resolver valid isReady instruction result
      | xor =>
          exact yields_bindMade orderly placed (yields_xorOperands reading valid instruction) result
      | lea =>
          exact yields_bindMade orderly placed (yields_addressOperand resolver valid isReady) result
      | inc => exact yields_bindMade orderly placed (stepped 1) result
      | dec => exact yields_bindMade orderly placed (stepped (-1)) result
      | sqrt =>
          exact yields_bindMade orderly placed (yields_rootOperand resolver valid isReady) result
      | gather =>
          exact Yields.bind (yields_gatherOutput orderly placed valid result)
            fun _ _ evaluated => Yields.pure evaluated
      | _ =>
          exact yields_placeholderOutput orderly placed (.refl valid) fun trees _ => result trees

/-- Phis of an orderly form are no copies, so every phi stands for itself. -/
theorem yields_evaluatePhi (orderly : reading.form.Orderly)
    (placed : reading.form.statement? place = some statement) (valid : before.store.Valid)
    (isPhi : statement.isPhi = true) :
    Yields (evaluatePhi resolve statement) before fun _ after =>
      Evaluated reading statement before after := by
  have evaluated : ∀ {after}, Next reading before after →
      Evaluated reading statement before after :=
    fun next => ⟨next, fun _ _ _ _ => Statement.resultTree_of_isPhi isPhi⟩
  rw [evaluatePhi]
  cases isOutput : statement.output? with
  | none => exact Yields.pure (evaluated (.refl valid))
  | some output =>
      refine Yields.bind_ask ?_
      cases before.store.valueOf? output with
      | some bound => exact Yields.pure (evaluated (.refl valid))
      | none =>
          have defined := orderly.outputDefined placed (List.mem_of_head? isOutput)
          have bound := yields_placeholder reading valid output fun _ sound _ =>
            sound.denotes_unexpressed orderly defined
              fun _ _ _ => Statement.resultTree_of_isPhi isPhi
          dsimp only
          split
          · rename_i source single
            exact absurd single (orderly.phiMerges placed isPhi source)
          · exact Yields.bind bound fun _ _ done => Yields.pure (evaluated done.1)

theorem yields_resolveAll (resolver : Resolver reading resolve ready) (vars : List VarId)
    (valid : before.store.Valid) (isReady : ∀ var ∈ vars, ready var before) :
    Yields (resolveAll resolve vars) before fun _ after => Next reading before after := by
  induction vars generalizing before with
  | nil => exact Yields.pure (.refl valid)
  | cons var vars ih =>
      have restReady := fun other member => isReady other (List.mem_cons_of_mem var member)
      refine Yields.bind_ask ?_
      split
      · exact ih valid restReady
      · refine Yields.bind (resolver.resolves valid (isReady var List.mem_cons_self)) ?_
        intro value middle resolved
        have stillReady := fun other member =>
          resolver.stable (restReady other member) resolved.1.grows
        exact (ih resolved.1.valid stillReady).imp fun _ _ next => resolved.1.trans next

theorem yields_evaluateStatement (orderly : reading.form.Orderly)
    (placed : reading.form.statement? place = some statement)
    (resolver : Resolver reading resolve ready) (valid : before.store.Valid)
    (isReady : statement.isPhi = false → ∀ used ∈ statement.usedVars, ready used before) :
    Yields (evaluateStatement reading.policy resolve statement) before fun _ after =>
      Evaluated reading statement before after := by
  rw [evaluateStatement]
  cases machine : statement.instruction with
  | none => exact yields_evaluatePhi orderly placed valid (by simp [Statement.isPhi, machine])
  | some instruction =>
      have isReady := isReady (by simp [Statement.isPhi, machine])
      refine Yields.bind
        (yields_evaluateInstruction orderly placed resolver valid isReady machine) ?_
      intro result middle evaluated
      have stillReady := fun used reads =>
        resolver.stable (isReady used reads) evaluated.next.grows
      refine Yields.bind (yields_resolveAll resolver _ evaluated.next.valid stillReady) ?_
      intro _ last next
      exact Yields.pure (evaluated.extend next)

end Statements

end Evaluation

end SymbolicFlow
