import SymbolicFlow.Proofs.Ssa.Orderly
import SymbolicFlow.Proofs.Ssa.PathValues

/-!
# The form is a single-assignment program

Whatever reads a form may rely on its shape: a block is made of its phis and then of the
instructions of the procedure's block, no variable is defined twice, and the table of variables
says of each where it is defined.  `SingleAssignment` collects what this means; the form of every
procedure that can be built has this shape.

The locations are the delicate part, since a phi gets its location before anything else of the
form exists, and an instruction gets its location from the number of phis before it.
-/

set_option autoImplicit false

namespace SymbolicFlow.Ssa

open Naming

/-- The statements of a block are phis, in the order of their registers, and then the
instructions of the procedure's block. -/
structure Form.Translates (form : Form) (code : SymbolicFlow.Block) (block : Block) : Prop where
  parts : block.statements.toList = block.phis ++ block.machineStatements
  phiOutput : ∀ phi ∈ block.phis, ∃ var, phi.outputs = [var]
  ascending : ∃ registers : List Register,
    block.phis.map form.mergedRegister? = registers.map some ∧
      registers.Pairwise (·.number < ·.number)
  instructions : block.machineStatements.map (·.instruction) = code.instructions.toList.map some
  slots : ∀ statement ∈ block.machineStatements, ∀ instruction,
    statement.instruction = some instruction →
      statement.implicitCount = instruction.implicitReads.length ∧
      statement.slots.length = 2 * (instruction.operands.length + instruction.implicitReads.length)

structure Form.SingleAssignment (form : Form) (procedure : Procedure) : Prop where
  blockCount : form.blocks.size = procedure.blockCount
  translated : ∀ {id : NodeId} {code : SymbolicFlow.Block}, procedure.block? id = some code →
    ∃ block, form.block? id = some block ∧ block.id = id ∧ form.Translates code block
  known : ∀ {place : Location} {statement : Statement}, form.statement? place = some statement →
    ∀ var, var ∈ statement.usedVars ∨ var ∈ statement.outputs → var < form.vars.size
  outputsDistinct : ∀ {place : Location} {statement : Statement},
    form.statement? place = some statement → statement.outputs.Nodup
  /-- The location is that of the one statement with this output; a variable without a location
  is no output. -/
  defined : ∀ {var : VarId} {named : Variable}, form.var? var = some named → ∀ {place : Location},
    named.definition = some place ↔
      ∃ statement, form.statement? place = some statement ∧ var ∈ statement.outputs
  onePlace : ∀ {var : VarId} {place other : Location} {statement otherStatement : Statement},
    form.statement? place = some statement → var ∈ statement.outputs →
    form.statement? other = some otherStatement → var ∈ otherStatement.outputs → place = other
  versions : ∀ {var other : VarId} {named otherNamed : Variable},
    form.var? var = some named → form.var? other = some otherNamed →
    named.register = otherNamed.register → named.version = otherNamed.version → var = other

/-! ## Slots -/

theorem length_flatMap_pair {α β : Type} (first second : α → β) (items : List α) :
    (items.flatMap fun item => [first item, second item]).length = 2 * items.length := by
  induction items with
  | nil => rfl
  | cons item items ih =>
      simp only [List.flatMap_cons, List.length_append, List.length_cons, List.length_nil, ih]
      omega

theorem length_slotReads (programCounter : Register) (instruction : Instruction) :
    (instruction.slotReads programCounter).length =
      2 * (instruction.operands.length + instruction.implicitReads.length) := by
  simp only [Instruction.slotReads, List.length_append]
  rw [length_flatMap_pair, length_flatMap_pair]
  omega

theorem getElem?_flatMap_pair {α β : Type} (first second : α → β) (items : List α) (index : Nat) :
    (items.flatMap fun item => [first item, second item])[2 * index]? = items[index]?.map first ∧
      (items.flatMap fun item => [first item, second item])[2 * index + 1]? =
        items[index]?.map second := by
  induction items generalizing index with
  | nil => simp
  | cons item items ih =>
      cases index with
      | zero => simp
      | succ index => simpa [Nat.mul_add] using ih index

theorem getElem?_slotReads (programCounter : Register) {instruction : Instruction} {position : Nat}
    {operand : Operand} (listed : instruction.operands[position]? = some operand) :
    (instruction.slotReads programCounter)[2 * position]? =
        some (operand.slotReads programCounter).1 ∧
      (instruction.slotReads programCounter)[2 * position + 1]? =
        some (operand.slotReads programCounter).2 := by
  have inside : position < instruction.operands.length := (List.getElem?_eq_some_iff.mp listed).1
  obtain ⟨primary, secondary⟩ := getElem?_flatMap_pair (fun operand : Operand =>
    (operand.slotReads programCounter).1) (fun operand => (operand.slotReads programCounter).2)
    instruction.operands position
  rw [listed, Option.map_some] at primary secondary
  constructor
  · rw [Instruction.slotReads, List.getElem?_append_left, primary]
    rw [length_flatMap_pair]
    omega
  · rw [Instruction.slotReads, List.getElem?_append_left, secondary]
    rw [length_flatMap_pair]
    omega

theorem getElem?_slotReads_implicit (programCounter : Register) (instruction : Instruction)
    (number : Nat) :
    (instruction.slotReads programCounter)[2 * (instruction.operands.length + number)]? =
        (instruction.implicitReads[number]?).map some ∧
      (instruction.slotReads programCounter)[2 * (instruction.operands.length + number) + 1]? =
        (instruction.implicitReads[number]?).map fun _ => none := by
  obtain ⟨primary, secondary⟩ := getElem?_flatMap_pair (fun register : Register => some register)
    (fun _ => none) instruction.implicitReads number
  constructor
  · rw [← primary, Instruction.slotReads, List.getElem?_append_right, length_flatMap_pair]
    · congr 1
      omega
    · rw [length_flatMap_pair]
      omega
  · rw [← secondary, Instruction.slotReads, List.getElem?_append_right, length_flatMap_pair]
    · congr 1
      omega
    · rw [length_flatMap_pair]
      omega

section Construction

variable {procedure : Procedure} {form : Form} {phis : PhiTable} {exits : Array Environment}
  {naming : Naming}

theorem BlockRun.exists_renamed {id : NodeId} {body : List Statement}
    (run : BlockRun procedure phis exits naming id body) {statement : Statement}
    (member : statement ∈ body) :
    ∃ place environment earlier instruction written later,
      Renamed procedure.machine.programCounter place environment earlier instruction statement
        written later ∧
      earlier.Valid procedure.machine.programCounter ∧ earlier.Bounds environment ∧
      later.Extends naming := by
  obtain ⟨_, first, last, _, valid, bounds, renames, grows⟩ := run
  obtain ⟨before, after, parts⟩ := List.append_of_mem member
  obtain ⟨_, instruction, here, earlier, written, later, prior, step, kept⟩ := renames.split parts
  exact ⟨_, here, earlier, instruction, written, later, step, prior.valid valid,
    prior.bounds bounds, kept.trans grows⟩

theorem BlockRun.slots {id : NodeId} {body : List Statement}
    (run : BlockRun procedure phis exits naming id body) {statement : Statement}
    (member : statement ∈ body) {instruction : Instruction}
    (same : statement.instruction = some instruction) :
    statement.implicitCount = instruction.implicitReads.length ∧
      statement.slots.length =
        2 * (instruction.operands.length + instruction.implicitReads.length) := by
  obtain ⟨_, _, _, other, _, _, step, _⟩ := run.exists_renamed member
  cases step.same.symm.trans same
  exact ⟨step.implicitCount,
    step.slots.length_eq.symm.trans (length_slotReads _ instruction)⟩

theorem Construction.isSome_slot (construction : Construction procedure form phis exits naming)
    {place : Location} {statement : Statement} (found : form.statement? place = some statement)
    {instruction : Instruction} (machine : statement.instruction = some instruction) (slot : Nat) :
    (statement.slots[slot]?).join.isSome =
      ((instruction.slotReads procedure.machine.programCounter)[slot]?).join.isSome := by
  rcases construction.statement?_cases found with ⟨_, _, _, _, rfl, _⟩ | ⟨body, run, member⟩
  · cases machine
  · obtain ⟨_, _, _, _, _, _, step, _⟩ := run.exists_renamed member
    cases step.same.symm.trans machine
    cases reads : (instruction.slotReads procedure.machine.programCounter)[slot]? with
    | none =>
        have outside := List.getElem?_eq_none_iff.mp reads
        rw [step.slots.length_eq] at outside
        rw [List.getElem?_eq_none_iff.mpr outside]
        rfl
    | some read =>
        obtain ⟨filled, isFilled, supplies⟩ := getElem?_of_forall₂_left step.slots reads
        rw [isFilled]
        cases supplies <;> rfl

/-! ## Known variables -/

theorem BlockRun.bounds_exits {id : NodeId} {body : List Statement}
    (run : BlockRun procedure phis exits naming id body) : naming.Bounds (exits.getD id []) := by
  obtain ⟨_, _, _, _, _, bounds, renames, grows⟩ := run
  exact grows.bounds (renames.bounds bounds)

theorem BlockRun.usedVars_lt {id : NodeId} {body : List Statement}
    (run : BlockRun procedure phis exits naming id body) {statement : Statement}
    (member : statement ∈ body) : ∀ used ∈ statement.usedVars, used < naming.vars.size := by
  obtain ⟨_, _, _, _, _, later, step, valid, bounds, grows⟩ := run.exists_renamed member
  intro used usedHere
  obtain ⟨slot, filled, present⟩ := List.mem_filterMap.mp usedHere
  cases present
  obtain ⟨index, listed⟩ := List.getElem?_of_mem filled
  obtain ⟨_, _, supplies⟩ := getElem?_of_forall₂_right step.slots listed
  have before := lt_of_supplies (step.valid valid) (step.grows.bounds bounds) supplies
  exact Nat.lt_of_lt_of_le before grows.size

/-- Control arrives with nothing at the entry, and otherwise with what a block has left behind. -/
theorem arrivals_cases (wellFormed : procedure.WellFormed) {id : NodeId}
    {environment : Environment}
    (arrives : some environment ∈ arrivals procedure procedure.dominators exits id) :
    environment = [] ∨
      ∃ predecessor < procedure.blockCount, environment = exits.getD predecessor [] := by
  rcases List.mem_append.mp arrives with atEntry | overEdge
  · split at atEntry
    · cases List.mem_singleton.mp atEntry
      exact Or.inl rfl
    · cases atEntry
  · obtain ⟨predecessor, edge, left⟩ := List.mem_map.mp overEdge
    split at left
    · cases left
      have inside : predecessor < procedure.blockCount :=
        (Digraph.lt_of_mem_successors wellFormed.graph
          ((Digraph.mem_predecessors_iff wellFormed.graph).mp edge)).1
      exact Or.inr ⟨predecessor, inside, rfl⟩
    · cases left

theorem Construction.bounds_arrivals (wellFormed : procedure.WellFormed)
    (construction : Construction procedure form phis exits naming) {id : NodeId}
    {environment : Environment}
    (arrives : some environment ∈ arrivals procedure procedure.dominators exits id) :
    naming.Bounds environment := by
  rcases arrivals_cases wellFormed arrives with rfl | ⟨predecessor, inside, rfl⟩
  · intro register var found
    cases found
  · obtain ⟨_, _, _, run⟩ := construction.exists_block inside
    exact run.bounds_exits

theorem Construction.usedVars_lt (wellFormed : procedure.WellFormed)
    (construction : Construction procedure form phis exits naming) {place : Location}
    {statement : Statement} (found : form.statement? place = some statement) :
    ∀ used ∈ statement.usedVars, used < form.vars.size := by
  rw [construction.vars]
  rcases construction.statement?_cases found with ⟨register, var, _, sources, rfl, arrive⟩ |
    ⟨body, run, member⟩
  · intro used usedHere
    obtain ⟨source, filled, present⟩ := List.mem_filterMap.mp usedHere
    cases present
    obtain ⟨index, listed⟩ := List.getElem?_of_mem filled
    obtain ⟨arrival, arrives, holds⟩ := getElem?_of_forall₂_right arrive listed
    cases holds with
    | holds holds =>
        have bounds := construction.bounds_arrivals wellFormed (List.mem_of_getElem? arrives)
        exact construction.valid.lt_of_holds bounds holds
  · exact run.usedVars_lt member

/-! ## Outputs -/

theorem Construction.outputsDistinct (construction : Construction procedure form phis exits naming)
    {place : Location} {statement : Statement} (found : form.statement? place = some statement) :
    statement.outputs.Nodup := by
  rcases construction.statement?_cases found with ⟨_, var, _, sources, rfl, _⟩ |
    ⟨body, run, member⟩
  · exact List.nodup_singleton var
  · obtain ⟨_, _, _, _, _, _, step, _⟩ := run.exists_renamed member
    exact step.ascending.imp Nat.ne_of_lt

theorem Construction.outputs_named (construction : Construction procedure form phis exits naming)
    {place : Location} {statement : Statement} (found : form.statement? place = some statement)
    {instruction : Instruction} (machine : statement.instruction = some instruction) :
    List.Forall₂ (fun register var => (form.var? var).map (·.register) = some register)
      (instruction.writes procedure.machine.programCounter) statement.outputs := by
  rcases construction.statement?_cases found with ⟨_, var, _, sources, rfl, _⟩ |
    ⟨body, run, member⟩
  · cases machine
  · obtain ⟨_, _, _, _, _, _, step, _, _, grows⟩ := run.exists_renamed member
    cases step.same.symm.trans machine
    apply step.outputs.imp
    intro register var named
    obtain ⟨version, known⟩ := named
    rw [construction.within _ _ (grows.vars known)]
    rfl

theorem Construction.defined_iff (construction : Construction procedure form phis exits naming)
    {var : VarId} {named : Variable} (known : form.var? var = some named) {place : Location} :
    named.definition = some place ↔
      ∃ statement, form.statement? place = some statement ∧ var ∈ statement.outputs := by
  rw [← construction.defined, Defined, ← construction.vars]
  constructor
  · intro definition
    exact ⟨named, known, definition⟩
  · intro defined
    obtain ⟨other, found, definition⟩ := defined
    cases found.symm.trans known
    exact definition

theorem Construction.output_lt (construction : Construction procedure form phis exits naming)
    {place : Location} {statement : Statement} (found : form.statement? place = some statement)
    {var : VarId} (output : var ∈ statement.outputs) : var < form.vars.size := by
  obtain ⟨_, known, _⟩ := construction.defined.mpr ⟨statement, found, output⟩
  rw [construction.vars]
  exact lt_size_of_getElem? known

theorem Construction.onePlace (construction : Construction procedure form phis exits naming)
    {var : VarId} {place other : Location} {statement otherStatement : Statement}
    (found : form.statement? place = some statement) (output : var ∈ statement.outputs)
    (otherFound : form.statement? other = some otherStatement)
    (otherOutput : var ∈ otherStatement.outputs) : place = other := by
  obtain ⟨named, known, definition⟩ := construction.defined.mpr ⟨statement, found, output⟩
  obtain ⟨_, alsoKnown, otherDefinition⟩ :=
    construction.defined.mpr ⟨otherStatement, otherFound, otherOutput⟩
  cases known.symm.trans alsoKnown
  exact Option.some.inj (definition.symm.trans otherDefinition)

/-! ## Blocks -/

theorem Construction.map_mergedRegister?
    (construction : Construction procedure form phis exits naming) {id : NodeId}
    {arriving : List (Option Environment)} {statements : List Statement}
    (isPhi : List.Forall₂ (IsPhi naming arriving) (phis.getD id []) statements) :
    statements.map form.mergedRegister? = ((phis.getD id []).map (·.1)).map some := by
  have merged : ∀ phi ∈ phis.getD id [], ∀ sources,
      form.mergedRegister? (Statement.phi phi.2 sources) = some phi.1 :=
    fun _ member => construction.mergedRegister?_phi member
  generalize phis.getD id [] = placed at isPhi merged
  induction isPhi with
  | nil => rfl
  | @cons phi statement phis statements first _ ih =>
      obtain ⟨sources, rfl, _⟩ := first
      rw [List.map_cons, merged phi List.mem_cons_self,
        ih fun other member => merged other (List.mem_cons_of_mem _ member)]
      rfl

theorem Construction.translates (construction : Construction procedure form phis exits naming)
    (ascending : ∀ id, ((phis.getD id []).map (·.1)).Pairwise (·.number < ·.number))
    {id : NodeId} {code : SymbolicFlow.Block} (found : procedure.block? id = some code) :
    ∃ block, form.block? id = some block ∧ block.id = id ∧ form.Translates code block := by
  have inside : id < procedure.blockCount := (Array.getElem?_eq_some_iff.mp found).1
  obtain ⟨block, foundBlock, sameId, parts, isPhi, run⟩ := construction.exists_parts inside
  refine ⟨block, foundBlock, sameId, parts, ?_, ?_, ?_, ?_⟩
  · intro phi member
    obtain ⟨index, listed⟩ := List.getElem?_of_mem member
    obtain ⟨_, _, sources, rfl, _⟩ := getElem?_of_forall₂_right isPhi listed
    exact ⟨_, rfl⟩
  · exact ⟨_, construction.map_mergedRegister? isPhi, ascending id⟩
  · obtain ⟨_, _, _, alsoFound, _, _, renames, _⟩ := run
    cases found.symm.trans alsoFound
    exact renames.instructions_eq
  · intro statement member instruction same
    exact run.slots member same

end Construction

/-- The form of a procedure that can be built is a single-assignment program. -/
theorem ssa_singleAssignment {procedure : Procedure} (built : procedure.Built) :
    procedure.ssa.SingleAssignment procedure := by
  have wellFormed := built.wellFormed
  obtain ⟨exits, naming, construction⟩ := exists_construction_namePhis wellFormed
  refine ⟨construction.size, construction.translates (ascending_namePhis wellFormed), ?_,
    construction.outputsDistinct, construction.defined_iff, construction.onePlace, ?_⟩
  · intro place statement found var occurs
    rcases occurs with used | output
    · exact construction.usedVars_lt wellFormed found var used
    · exact construction.output_lt found output
  · intro var other named otherNamed known otherKnown sameRegister sameVersion
    rw [Form.var?, construction.vars] at known otherKnown
    exact construction.valid.numbered.distinct known otherKnown sameRegister sameVersion

theorem ssa_singleAssignment_countdown :
    Countdown.procedure.Built ∧ Countdown.procedure.ssa.SingleAssignment Countdown.procedure :=
  ⟨Countdown.built, ssa_singleAssignment Countdown.built⟩

/-- The loop merges the counter and the sum, in this order. -/
example : (Countdown.procedure.ssa.block? 1).map
    (·.phis.map Countdown.procedure.ssa.mergedRegister?) = some [some ⟨0⟩, some ⟨2⟩] := by
  decide +kernel

end SymbolicFlow.Ssa
