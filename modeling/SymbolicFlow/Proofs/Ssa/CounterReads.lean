import SymbolicFlow.Proofs.Ssa.Dominance
import SymbolicFlow.Proofs.Ssa.SingleAssignment

/-!
# Reads of the program counter

Each read of the program counter has a variable of its own, since each sees another address, and
the form lists these variables with the addresses.  The list runs through all statements in the
order in which they were renamed, and no variable occurs in it twice; so a variable of the list
belongs to one slot of one statement.

The program counter itself is never written: no output and no phi stands for it.  What a slot reads
from any other register was defined by a statement or is an entry value, and a variable of the list
is neither.  `SeparatesCounter` collects what this means for a form.
-/

set_option autoImplicit false

namespace SymbolicFlow

/-! ## Where an instruction reads the program counter -/

/-- The slots of an instruction in which it reads the program counter. -/
inductive Instruction.ReadsCounterAt (programCounter : Register) (instruction : Instruction) :
    Nat → Prop where
  | register {position : Nat} {access : Access}
      (listed : instruction.operands[position]? = some ⟨.register programCounter, access⟩)
      (reads : access.reads = true) : ReadsCounterAt programCounter instruction (2 * position)
  | indexedRegister {position : Nat} {access : Access} {index : Register}
      (listed : instruction.operands[position]? =
        some ⟨.indexedRegister programCounter index, access⟩)
      (reads : access.reads = true) : ReadsCounterAt programCounter instruction (2 * position)
  | indexOfRegister {position : Nat} {access : Access} {register : Register}
      (listed : instruction.operands[position]? =
        some ⟨.indexedRegister register programCounter, access⟩) :
      ReadsCounterAt programCounter instruction (2 * position + 1)
  | base {position : Nat} {operand : Operand} {reference : MemoryReference}
      (listed : instruction.operands[position]? = some operand)
      (refers : operand.memory? = some reference) (isBase : reference.base = some programCounter) :
      ReadsCounterAt programCounter instruction (2 * position)
  | index {position : Nat} {operand : Operand} {reference : MemoryReference}
      (listed : instruction.operands[position]? = some operand)
      (refers : operand.memory? = some reference)
      (isIndex : reference.index = some programCounter) :
      ReadsCounterAt programCounter instruction (2 * position + 1)
  | relative {position : Nat} {access : Access} {reference : MemoryReference}
      (listed : instruction.operands[position]? = some ⟨.relativeMemory reference, access⟩)
      (noBase : reference.base = none) : ReadsCounterAt programCounter instruction (2 * position)
  | implicit {number : Nat}
      (listed : instruction.implicitReads[number]? = some programCounter) :
      ReadsCounterAt programCounter instruction (2 * (instruction.operands.length + number))

namespace Instruction

variable {programCounter : Register} {instruction : Instruction} {slot : Nat}

theorem ReadsCounterAt.getElem?_slotReads
    (reads : instruction.ReadsCounterAt programCounter slot) :
    (instruction.slotReads programCounter)[slot]? = some (some programCounter) := by
  cases reads with
  | register listed reads =>
      rw [(Ssa.getElem?_slotReads programCounter listed).1]
      simp [Operand.slotReads, reads]
  | indexedRegister listed reads =>
      rw [(Ssa.getElem?_slotReads programCounter listed).1]
      simp [Operand.slotReads, reads]
  | indexOfRegister listed =>
      rw [(Ssa.getElem?_slotReads programCounter listed).2]
      rfl
  | @base _ operand _ listed refers isBase =>
      rw [(Ssa.getElem?_slotReads programCounter listed).1]
      cases kind : operand.kind <;>
        simp_all [Operand.memory?, Operand.slotReads]
  | @index _ operand _ listed refers isIndex =>
      rw [(Ssa.getElem?_slotReads programCounter listed).2]
      cases kind : operand.kind <;>
        simp_all [Operand.memory?, Operand.slotReads]
  | relative listed noBase =>
      rw [(Ssa.getElem?_slotReads programCounter listed).1]
      simp [Operand.slotReads, noBase]
  | @implicit number listed =>
      rw [(Ssa.getElem?_slotReads_implicit programCounter instruction number).1, listed]
      rfl

theorem ReadsCounterAt.of_primary {position : Nat} {operand : Operand}
    (listed : instruction.operands[position]? = some operand)
    (reads : (operand.slotReads programCounter).1 = some programCounter) :
    instruction.ReadsCounterAt programCounter (2 * position) := by
  obtain ⟨kind, access⟩ := operand
  cases kind with
  | immediate => cases reads
  | pointer => cases reads
  | register register =>
      simp only [Operand.slotReads] at reads
      split at reads
      · rename_i isRead
        cases reads
        exact .register listed isRead
      · cases reads
  | indexedRegister register index =>
      simp only [Operand.slotReads] at reads
      split at reads
      · rename_i isRead
        cases reads
        exact .indexedRegister listed isRead
      · cases reads
  | memory reference => exact .base listed rfl reads
  | relativeMemory reference =>
      cases isBase : reference.base with
      | none => exact .relative listed isBase
      | some register =>
          simp only [Operand.slotReads, isBase, Option.getD_some] at reads
          exact .base listed rfl (isBase.trans reads)

theorem ReadsCounterAt.of_secondary {position : Nat} {operand : Operand}
    (listed : instruction.operands[position]? = some operand)
    (reads : (operand.slotReads programCounter).2 = some programCounter) :
    instruction.ReadsCounterAt programCounter (2 * position + 1) := by
  obtain ⟨kind, access⟩ := operand
  cases kind with
  | immediate => cases reads
  | pointer => cases reads
  | register => cases reads
  | indexedRegister register index =>
      cases reads
      exact .indexOfRegister listed
  | memory reference => exact .index listed rfl reads
  | relativeMemory reference => exact .index listed rfl reads

theorem readsCounterAt_iff :
    instruction.ReadsCounterAt programCounter slot ↔
      (instruction.slotReads programCounter)[slot]? = some (some programCounter) := by
  refine ⟨ReadsCounterAt.getElem?_slotReads, ?_⟩
  intro reads
  obtain ⟨position, parity⟩ : ∃ position, slot = 2 * position ∨ slot = 2 * position + 1 :=
    ⟨slot / 2, by omega⟩
  by_cases explicit : position < instruction.operands.length
  · have listed := List.getElem?_eq_getElem explicit
    obtain ⟨primary, secondary⟩ := Ssa.getElem?_slotReads programCounter listed
    rcases parity with rfl | rfl
    · exact .of_primary listed (Option.some.inj (primary.symm.trans reads))
    · exact .of_secondary listed (Option.some.inj (secondary.symm.trans reads))
  · obtain ⟨number, rfl⟩ := Nat.exists_eq_add_of_le (Nat.le_of_not_lt explicit)
    obtain ⟨primary, secondary⟩ :=
      Ssa.getElem?_slotReads_implicit programCounter instruction number
    rcases parity with rfl | rfl
    · rw [primary] at reads
      obtain ⟨register, listed, same⟩ := Option.map_eq_some_iff.mp reads
      cases same
      exact .implicit listed
    · rw [secondary] at reads
      obtain ⟨_, _, same⟩ := Option.map_eq_some_iff.mp reads
      cases same

end Instruction

namespace Ssa

open Naming

/-- How a form keeps the program counter apart from the registers that are assigned. -/
structure Form.SeparatesCounter (form : Form) (procedure : Procedure) : Prop where
  notWritten : ∀ {place : Location} {statement : Statement},
    form.statement? place = some statement → ∀ output ∈ statement.outputs,
      ∃ named, form.var? output = some named ∧
        named.register ≠ procedure.machine.programCounter
  notMerged : ∀ {place : Location} {statement : Statement},
    form.statement? place = some statement → statement.isPhi = true →
      ∃ register, form.mergedRegister? statement = some register ∧
        register ≠ procedure.machine.programCounter
  /-- The variable stands in no other slot, phis included, and is listed once. -/
  ownVariable : ∀ {place : Location} {statement : Statement} {instruction : Instruction}
    {slot : Nat}, form.statement? place = some statement →
    statement.instruction = some instruction →
    instruction.ReadsCounterAt procedure.machine.programCounter slot →
      ∃ var, statement.slots[slot]? = some (some var) ∧
        (var, instruction.nextAddress) ∈ form.counterReads ∧
        (form.counterReads.toList.map (·.1)).count var = 1 ∧
        ∀ {other : Location} {otherStatement : Statement} {otherSlot : Nat},
          form.statement? other = some otherStatement →
          otherStatement.slots[otherSlot]? = some (some var) → other = place ∧ otherSlot = slot
  listed : ∀ pair ∈ form.counterReads, ∃ place statement instruction slot,
    form.statement? place = some statement ∧ statement.instruction = some instruction ∧
      instruction.ReadsCounterAt procedure.machine.programCounter slot ∧
      statement.slots[slot]? = some (some pair.1) ∧ pair.2 = instruction.nextAddress

/-! ## The list

A variable is listed once, so it fixes the block, the statement and the slot in which it is
read. -/

theorem mem_counterReads {programCounter : Register} {statement : Statement} {var : VarId}
    {address : UInt64} :
    (var, address) ∈ statement.counterReads programCounter ↔
      ∃ instruction slot, statement.instruction = some instruction ∧
        instruction.ReadsCounterAt programCounter slot ∧
        statement.slots[slot]? = some (some var) ∧ address = instruction.nextAddress := by
  rw [Statement.counterReads]
  cases statement.instruction with
  | none => simp
  | some instruction =>
      simp only [mem_counterPairs, Instruction.readsCounterAt_iff, Option.some.injEq]
      constructor
      · rintro ⟨same, slot, reads, held⟩
        exact ⟨instruction, slot, rfl, reads, held, same⟩
      · rintro ⟨_, slot, rfl, reads, held, same⟩
        exact ⟨same, slot, reads, held⟩

/-- Where parts of a list have no element in common, an element tells the part. -/
theorem index_eq_of_nodup_flatMap {α β : Type} {part : α → List β} {items : List α}
    (distinct : (items.flatMap part).Nodup) {first second : Nat} {item other : α}
    (found : items[first]? = some item) (otherFound : items[second]? = some other) {element : β}
    (member : element ∈ part item) (otherMember : element ∈ part other) : first = second := by
  have disjoint := List.pairwise_iff_getElem.mp (List.nodup_flatMap.mp distinct).2
  obtain ⟨bound, rfl⟩ := List.getElem?_eq_some_iff.mp found
  obtain ⟨otherBound, rfl⟩ := List.getElem?_eq_some_iff.mp otherFound
  rcases Nat.lt_trichotomy first second with before | same | behind
  · exact absurd otherMember (disjoint first second bound otherBound before member)
  · exact same
  · exact absurd member (disjoint second first otherBound bound behind otherMember)

theorem slot_eq_of_nodup {programCounter : Register} {statement : Statement}
    {instruction : Instruction} (machine : statement.instruction = some instruction)
    (distinct : ((statement.counterReads programCounter).map (·.1)).Nodup) {slot other : Nat}
    {var : VarId} (reads : instruction.ReadsCounterAt programCounter slot)
    (held : statement.slots[slot]? = some (some var))
    (otherReads : instruction.ReadsCounterAt programCounter other)
    (otherHeld : statement.slots[other]? = some (some var)) : slot = other := by
  rw [Statement.counterReads, machine] at distinct
  simp only [counterPairs, List.map_flatMap] at distinct
  have zipped {position : Nat} (readsHere : instruction.ReadsCounterAt programCounter position)
      (heldHere : statement.slots[position]? = some (some var)) :
      ((instruction.slotReads programCounter).zip statement.slots)[position]? =
        some (some programCounter, some var) :=
    List.getElem?_zip_eq_some.mpr ⟨readsHere.getElem?_slotReads, heldHere⟩
  apply index_eq_of_nodup_flatMap distinct (zipped reads held) (zipped otherReads otherHeld)
  · exact List.mem_map.mpr ⟨(var, instruction.nextAddress), by simp, rfl⟩
  · exact List.mem_map.mpr ⟨(var, instruction.nextAddress), by simp, rfl⟩

section Construction

variable {procedure : Procedure} {form : Form} {phis : PhiTable} {exits : Array Environment}
  {naming : Naming}

theorem Construction.mem_counterReads_iff (wellFormed : procedure.WellFormed)
    (construction : Construction procedure form phis exits naming) {pair : VarId × UInt64} :
    pair ∈ form.counterReads ↔ ∃ place statement, form.statement? place = some statement ∧
      pair ∈ statement.counterReads procedure.machine.programCounter := by
  rw [construction.counterReads, ← Array.mem_toList_iff, construction.counters]
  simp only [List.mem_flatMap]
  constructor
  · intro listed
    obtain ⟨block, _, statement, member, reads⟩ := listed
    obtain ⟨index, found⟩ := List.getElem?_of_mem member
    rw [form.getElem?_statementsOf] at found
    exact ⟨_, statement, found, reads⟩
  · intro placed
    obtain ⟨place, statement, found, reads⟩ := placed
    have inside := construction.lt_of_statement? found
    refine ⟨place.block, (mem_renamingOrder wellFormed).mpr inside, statement, ?_, reads⟩
    apply List.mem_of_getElem?
    rw [form.getElem?_statementsOf]
    exact found

theorem Construction.exists_listed (wellFormed : procedure.WellFormed)
    (construction : Construction procedure form phis exits naming) {place : Location}
    {statement : Statement} (found : form.statement? place = some statement)
    {instruction : Instruction} (machine : statement.instruction = some instruction) {slot : Nat}
    (reads : instruction.ReadsCounterAt procedure.machine.programCounter slot) :
    ∃ var, statement.slots[slot]? = some (some var) ∧
      (var, instruction.nextAddress) ∈ form.counterReads := by
  have filled := construction.isSome_slot found machine slot
  rw [reads.getElem?_slotReads] at filled
  obtain ⟨var, isVar⟩ := Option.isSome_iff_exists.mp filled
  have held := Option.join_eq_some_iff.mp isVar
  have read := mem_counterReads.mpr ⟨instruction, slot, machine, reads, held, rfl⟩
  exact ⟨var, held,
    (construction.mem_counterReads_iff wellFormed).mpr ⟨place, statement, found, read⟩⟩

theorem Construction.counter_unique (wellFormed : procedure.WellFormed)
    (construction : Construction procedure form phis exits naming) {place other : Location}
    {statement otherStatement : Statement} (found : form.statement? place = some statement)
    (otherFound : form.statement? other = some otherStatement) {instruction next : Instruction}
    (machine : statement.instruction = some instruction)
    (otherMachine : otherStatement.instruction = some next) {slot otherSlot : Nat} {var : VarId}
    (reads : instruction.ReadsCounterAt procedure.machine.programCounter slot)
    (held : statement.slots[slot]? = some (some var))
    (otherReads : next.ReadsCounterAt procedure.machine.programCounter otherSlot)
    (otherHeld : otherStatement.slots[otherSlot]? = some (some var)) :
    other = place ∧ otherSlot = slot := by
  have distinct := construction.valid.counterDistinct
  rw [construction.counters] at distinct
  simp only [List.map_flatMap] at distinct
  have read : var ∈ (statement.counterReads procedure.machine.programCounter).map (·.1) :=
    List.mem_map.mpr ⟨_, mem_counterReads.mpr ⟨_, _, machine, reads, held, rfl⟩, rfl⟩
  have otherRead :
      var ∈ (otherStatement.counterReads procedure.machine.programCounter).map (·.1) :=
    List.mem_map.mpr ⟨_, mem_counterReads.mpr ⟨_, _, otherMachine, otherReads, otherHeld, rfl⟩, rfl⟩
  have here := found
  have there := otherFound
  rw [← form.getElem?_statementsOf] at here there
  have listed := (mem_renamingOrder wellFormed).mpr (construction.lt_of_statement? found)
  have otherListed := (mem_renamingOrder wellFormed).mpr (construction.lt_of_statement? otherFound)
  -- From the outside in: the block, the statement in it, the slot of the statement.
  have sameBlock : other.block = place.block := by
    obtain ⟨index, atIndex⟩ := List.getElem?_of_mem listed
    obtain ⟨otherIndex, atOther⟩ := List.getElem?_of_mem otherListed
    have same := index_eq_of_nodup_flatMap distinct atOther atIndex
      (List.mem_flatMap.mpr ⟨_, List.mem_of_getElem? there, otherRead⟩)
      (List.mem_flatMap.mpr ⟨_, List.mem_of_getElem? here, read⟩)
    rw [same] at atOther
    exact Option.some.inj (atOther.symm.trans atIndex)
  have inBlock := (List.nodup_flatMap.mp distinct).1 _ listed
  rw [sameBlock] at there
  have sameIndex := index_eq_of_nodup_flatMap inBlock there here otherRead read
  rw [sameIndex] at there
  cases there.symm.trans here
  cases otherMachine.symm.trans machine
  have inStatement := (List.nodup_flatMap.mp inBlock).1 _ (List.mem_of_getElem? here)
  exact ⟨congrArg₂ Location.mk sameBlock sameIndex,
    slot_eq_of_nodup machine inStatement otherReads otherHeld reads held⟩

/-! ## Other slots -/

theorem Construction.not_counter_of_holds
    (construction : Construction procedure form phis exits naming) {environment : Environment}
    (defined : ∀ register var, environment.get? register = some var →
      ∃ place, naming.Defined var place)
    {register : Register} (other : register ≠ procedure.machine.programCounter) {var : VarId}
    (holds : naming.Holds environment register var) (address : UInt64) :
    (var, address) ∉ form.counterReads := by
  intro listed
  rw [construction.counterReads] at listed
  obtain ⟨version, known⟩ := construction.valid.counterFound listed
  rcases holds with inForce | ⟨_, atEntry⟩
  · obtain ⟨_, named, alsoKnown, isDefined⟩ := defined register var inForce
    cases alsoKnown.symm.trans known
    cases isDefined
  · cases (construction.valid.entryFound atEntry).symm.trans known
    exact other rfl

theorem Construction.defined_of_arrivals (wellFormed : procedure.WellFormed)
    (construction : Construction procedure form phis exits naming) {block : NodeId}
    {environment : Environment}
    (arrives : some environment ∈ arrivals procedure procedure.dominators exits block)
    (register : Register) (var : VarId) (held : environment.get? register = some var) :
    ∃ place, naming.Defined var place := by
  rcases arrivals_cases wellFormed arrives with rfl | ⟨predecessor, inside, rfl⟩
  · cases held
  · obtain ⟨place, defined, _⟩ := construction.defined_of_exits wellFormed inside held
    exact ⟨place, defined⟩

theorem Construction.ne_programCounter_of_phi (wellFormed : procedure.WellFormed)
    (construction : Construction procedure form phis exits naming) {block : NodeId}
    {register : Register} {var : VarId} (placed : (register, var) ∈ phis.getD block []) :
    register ≠ procedure.machine.programCounter :=
  ne_programCounter_of_mem_phiBlocks wellFormed (construction.site.mp ⟨var, placed⟩)

theorem Construction.readsCounterAt_of_slot (wellFormed : procedure.WellFormed)
    (construction : Construction procedure form phis exits naming) {place : Location}
    {statement : Statement} (found : form.statement? place = some statement) {slot : Nat}
    {var : VarId} (held : statement.slots[slot]? = some (some var)) {address : UInt64}
    (listed : (var, address) ∈ form.counterReads) :
    ∃ instruction, statement.instruction = some instruction ∧
      instruction.ReadsCounterAt procedure.machine.programCounter slot := by
  rcases construction.statement?_cases found with ⟨register, output, placed, sources, rfl, arrive⟩ |
    ⟨body, run, member⟩
  · obtain ⟨arrival, arrives, source⟩ := getElem?_of_forall₂_right arrive held
    cases source with
    | holds holds =>
        refine absurd listed (construction.not_counter_of_holds ?_
          (construction.ne_programCounter_of_phi wellFormed placed) holds address)
        exact construction.defined_of_arrivals wellFormed (List.mem_of_getElem? arrives)
  · obtain ⟨_, _, _, instruction, _, _, step, _⟩ := run.exists_renamed member
    obtain ⟨environment, slots, before⟩ :=
      construction.exists_environment wellFormed found step.same
    obtain ⟨read, reads, supplies⟩ := getElem?_of_forall₂_right slots held
    refine ⟨instruction, step.same, Instruction.readsCounterAt_iff.mpr ?_⟩
    cases supplies with
    | counter _ => exact reads
    | register other holds =>
        refine absurd listed (construction.not_counter_of_holds ?_ other holds address)
        intro register var inForce
        obtain ⟨earlier, defined, _⟩ := before register var inForce
        exact ⟨earlier, defined⟩

/-! ## Outputs -/

theorem Construction.output_not_counter (wellFormed : procedure.WellFormed)
    (construction : Construction procedure form phis exits naming) {place : Location}
    {statement : Statement} (found : form.statement? place = some statement) {output : VarId}
    (isOutput : output ∈ statement.outputs) :
    ∃ named, form.var? output = some named ∧
      named.register ≠ procedure.machine.programCounter := by
  rcases construction.statement?_cases found with ⟨register, var, placed, sources, rfl, _⟩ |
    ⟨body, run, member⟩
  · cases List.mem_singleton.mp isOutput
    obtain ⟨version, definition, known⟩ := construction.phis_named _ _ placed
    exact ⟨_, construction.within _ _ known,
      construction.ne_programCounter_of_phi wellFormed placed⟩
  · obtain ⟨_, _, _, instruction, _, _, step, _⟩ := run.exists_renamed member
    obtain ⟨index, listed⟩ := List.getElem?_of_mem isOutput
    obtain ⟨register, written, isRegister⟩ :=
      getElem?_of_forall₂_right (construction.outputs_named found step.same) listed
    obtain ⟨named, known, rfl⟩ := Option.map_eq_some_iff.mp isRegister
    refine ⟨named, known, ?_⟩
    have member := List.mem_of_getElem? written
    simp only [Instruction.writes, List.mem_filter] at member
    simpa using member.2

end Construction

/-- The form of every procedure keeps the program counter apart. -/
theorem separatesCounter_ssa {procedure : Procedure} (wellFormed : procedure.WellFormed) :
    procedure.ssa.SeparatesCounter procedure := by
  obtain ⟨phis, exits, naming, construction⟩ := exists_construction wellFormed
  refine ⟨?_, ?_, ?_, ?_⟩
  · intro place statement found output isOutput
    exact construction.output_not_counter wellFormed found isOutput
  · intro place statement found isPhi
    obtain ⟨register, var, placed, sources, rfl, _⟩ := construction.exists_isPhi found isPhi
    exact ⟨register, construction.mergedRegister?_phi placed sources,
      construction.ne_programCounter_of_phi wellFormed placed⟩
  · intro place statement instruction slot found machine reads
    obtain ⟨var, held, listed⟩ := construction.exists_listed wellFormed found machine reads
    refine ⟨var, held, listed, ?_, ?_⟩
    · apply List.count_eq_one_of_mem
      · rw [construction.counterReads]
        exact construction.valid.counterDistinct
      · exact List.mem_map.mpr ⟨_, Array.mem_toList_iff.mpr listed, rfl⟩
    · intro other otherStatement otherSlot otherFound otherHeld
      obtain ⟨_, otherMachine, otherReads⟩ :=
        construction.readsCounterAt_of_slot wellFormed otherFound otherHeld listed
      exact construction.counter_unique wellFormed found otherFound machine otherMachine reads held
        otherReads otherHeld
  · intro pair member
    obtain ⟨place, statement, found, reads⟩ :=
      (construction.mem_counterReads_iff wellFormed).mp member
    obtain ⟨instruction, slot, machine, readsAt, held, same⟩ := mem_counterReads.mp reads
    exact ⟨place, statement, instruction, slot, found, machine, readsAt, held, same⟩

end Ssa

end SymbolicFlow
