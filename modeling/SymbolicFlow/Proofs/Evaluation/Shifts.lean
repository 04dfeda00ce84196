import SymbolicFlow.Machine.X64
import SymbolicFlow.Proofs.Evaluation.Results
import SymbolicFlow.Proofs.Ssa.SingleAssignment

/-!
# Amounts of shifts

Under a policy that wants constant amounts, a shift is made only if its amount is a constant node.
The arena then never holds any other shift: `ShiftsByConstants` is kept by every evaluation,
whatever the amount was copied from.

The test looks at the shape of the amount and not at its mark.  A constant that is marked as loaded
stands for what memory holds at that address, and passes as well.  Such a node is made in one way
only: memory is tracked, and an instruction refers to memory by a constant address alone, without
base and index.  So the invariant also says where a loaded constant comes from.
-/

set_option autoImplicit false

namespace SymbolicFlow

open Ssa (Statement Location)

def Operand.absolute? (operand : Operand) : Option Int64 :=
  match operand.kind with
  | .memory reference =>
      if reference.base.isNone && reference.index.isNone then some reference.offset else none
  | _ => none

/-! ## The invariant -/

namespace Store

variable {absolute : Int64 → Prop} {store later : Store} {value : ValueId}

/-- The value exists, and if it is a constant that was loaded, then from one of the given
addresses. -/
def LoadsOnlyAt (store : Store) (absolute : Int64 → Prop) (value : ValueId) : Prop :=
  ∃ node, store.node? value = some node ∧
    ∀ address, node = ⟨.immediate address, true⟩ → absolute address

def ConstantAt (store : Store) (absolute : Int64 → Prop) (value : ValueId) : Prop :=
  ∃ constant loaded, store.node? value = some ⟨.immediate constant, loaded⟩ ∧
    (loaded = true → absolute constant)

structure ShiftsByConstants (store : Store) (absolute : Int64 → Prop) : Prop where
  bound : ∀ {var : VarId} {value : ValueId}, store.valueOf? var = some value →
    store.LoadsOnlyAt absolute value
  amounts : ∀ {id amount : ValueId} {node : Node}, store.node? id = some node →
    node.shape.amount? = some amount → store.ConstantAt absolute amount

namespace LoadsOnlyAt

theorem mono (loads : store.LoadsOnlyAt absolute value) (grows : store.Extends later) :
    later.LoadsOnlyAt absolute value := by
  obtain ⟨node, found, only⟩ := loads
  exact ⟨node, grows.node? found, only⟩

theorem of_node {shape : Shape} {loaded : Bool} (found : store.node? value = some ⟨shape, loaded⟩)
    (other : loaded = false ∨ ∀ constant, shape ≠ .immediate constant) :
    store.LoadsOnlyAt absolute value := by
  refine ⟨_, found, ?_⟩
  intro address same
  cases same
  rcases other with unloaded | different
  · cases unloaded
  · exact absurd rfl (different address)

theorem constantAt (loads : store.LoadsOnlyAt absolute value)
    (isConstant : ((store.node? value).bind Node.immediate?).isSome = true) :
    store.ConstantAt absolute value := by
  obtain ⟨⟨shape, loaded⟩, found, only⟩ := loads
  rw [found, Option.bind_some] at isConstant
  cases shape with
  | immediate constant =>
      refine ⟨constant, loaded, found, ?_⟩
      intro isLoaded
      exact only constant (by rw [isLoaded])
  | _ => cases isConstant

end LoadsOnlyAt

theorem ConstantAt.mono (constant : store.ConstantAt absolute value)
    (grows : store.Extends later) : later.ConstantAt absolute value := by
  obtain ⟨number, loaded, found, only⟩ := constant
  exact ⟨number, loaded, grows.node? found, only⟩

namespace ShiftsByConstants

theorem alloc (constants : store.ShiftsByConstants absolute) (node : Node)
    (constant : ∀ amount, node.shape.amount? = some amount → store.ConstantAt absolute amount) :
    (store.alloc node).2.ShiftsByConstants absolute := by
  have grows := store.extends_alloc node
  refine ⟨fun found => (constants.bound found).mono grows, ?_⟩
  intro id amount other found isAmount
  have look : (store.arena.push node)[id]? = some other := found
  rw [Array.getElem?_push] at look
  split at look
  · cases look
    exact (constant amount isAmount).mono grows
  · exact (constants.amounts look isAmount).mono grows

theorem bind (constants : store.ShiftsByConstants absolute) (var : VarId)
    (loads : store.LoadsOnlyAt absolute value) :
    (store.bind var value).2.ShiftsByConstants absolute := by
  have grows := store.extends_bind var value
  refine ⟨fun {other bound} found => ?_, fun {id amount node} found isAmount => ?_⟩
  · rcases valueOf?_bind_cases found with old | ⟨_, _, rfl⟩
    · exact (constants.bound old).mono grows
    · exact loads.mono grows
  · rw [node?, arena_bind] at found
    exact (constants.amounts found isAmount).mono grows

theorem unmark (constants : store.ShiftsByConstants absolute) (value : ValueId) :
    (store.mark value false).2.ShiftsByConstants absolute := by
  rcases store.mark_cases value false with same | ⟨shape, found, added⟩
  · rw [same]
    exact constants
  · rw [added]
    exact constants.alloc _ fun amount isAmount => constants.amounts found isAmount

theorem placeholder (constants : store.ShiftsByConstants absolute) (var : VarId) :
    (store.placeholder var).2.ShiftsByConstants absolute := by
  rw [Store.placeholder]
  split
  · exact constants
  · have allocated := constants.alloc ⟨.register var, false⟩ fun _ isAmount => by cases isAmount
    exact allocated.bind var (.of_node Array.getElem?_push_size (.inl rfl))

end ShiftsByConstants

end Store

/-! ## Statements -/

/-- Where an instruction other than an address computation refers to memory by a constant alone,
the address is one of those given. -/
def Ssa.Statement.LoadsWithin (statement : Statement) (policy : Policy) (absolute : Int64 → Prop) :
    Prop :=
  statement.family? ≠ some .lea → ∀ address, statement.RefersTo policy address → absolute address

section Statements

variable {absolute : Int64 → Prop} {store : Store} {policy : Policy} {statement : Statement}

theorem Store.ShiftsByConstants.loadsOnlyAt_operand (constants : store.ShiftsByConstants absolute)
    (within : statement.LoadsWithin policy absolute) (computes : statement.family? ≠ some .lea)
    {position : Nat} {value : ValueId}
    (operand : statement.HasOperand policy position store value) :
    store.LoadsOnlyAt absolute value := by
  cases operand with
  | constant found => exact .of_node found (.inl rfl)
  | read _ bound => exact constants.bound bound
  | loaded _ found refers =>
      refine ⟨_, found, ?_⟩
      intro address same
      cases same
      exact within computes address (refers address rfl)

/-- Here the policy is used: a shift is made only after its amount was found to be a constant. -/
theorem Ssa.Statement.LoadsWithin.respects (within : statement.LoadsWithin policy absolute)
    (strict : policy.constantShifts = true) :
    statement.Respects policy (·.ShiftsByConstants absolute) where
  present := by
    intro store var value constants bound
    obtain ⟨node, found, _⟩ := constants.bound bound
    exact ⟨node, found⟩
  alloc := by
    intro store node noShift constants
    apply constants.alloc
    intro amount isAmount
    cases noShift.symm.trans isAmount
  shift := by
    intro store operator value amount computes operand tested constants
    apply constants.alloc
    intro other isAmount
    have same : other = amount := by
      cases operator <;> simp [Shape.amount?] at isAmount <;> exact isAmount.symm
    rw [same]
    exact (constants.loadsOnlyAt_operand within computes operand).constantAt (tested strict)
  unmark := fun value constants => constants.unmark value
  bind := by
    intro store output value _ result constants
    apply constants.bind
    cases result with
    | made found => exact .of_node found (.inl rfl)
    | moved family operand =>
        exact constants.loadsOnlyAt_operand within (by simp [family]) operand
    | copied _ _ bound => exact constants.bound bound
  placeholder := fun var constants => constants.placeholder var

end Statements

/-! ## Sessions -/

def Procedure.LoadsFrom (procedure : Procedure) (address : Int64) : Prop :=
  ∃ place statement instruction operand, procedure.ssa.statement? place = some statement ∧
    statement.instruction = some instruction ∧ instruction.family ≠ .lea ∧
    operand ∈ instruction.operands ∧ operand.absolute? = some address

theorem Ssa.absolute?_of_empty {procedure : Procedure} (wellFormed : procedure.WellFormed)
    {place : Location} {statement : Statement}
    (placed : procedure.ssa.statement? place = some statement) {instruction : Instruction}
    (machine : statement.instruction = some instruction) {position : Nat} {operand : Operand}
    (listed : instruction.operands[position]? = some operand) {reference : MemoryReference}
    (refers : operand.memory? = some reference)
    (noBase : statement.operandVar? position = none)
    (noIndex : statement.indexVar? position = none) :
    operand.absolute? = some reference.offset := by
  obtain ⟨phis, exits, naming, construction⟩ := Ssa.exists_construction wellFormed
  have base := construction.isSome_slot placed machine (2 * position)
  have index := construction.isSome_slot placed machine (2 * position + 1)
  obtain ⟨primary, secondary⟩ := Ssa.getElem?_slotReads procedure.machine.programCounter listed
  rw [primary, show (statement.slots[2 * position]?).join = none from noBase] at base
  rw [secondary, show (statement.slots[2 * position + 1]?).join = none from noIndex] at index
  unfold Operand.memory? at refers
  split at refers
  · rename_i isMemory
    cases refers
    simp only [Operand.slotReads, isMemory, Option.join_some] at base index
    simp only [Operand.absolute?, isMemory]
    simp_all
  · rename_i isMemory
    simp [Operand.slotReads, isMemory] at base
  · cases refers

theorem Ssa.loadsWithin_ssa {procedure : Procedure} (wellFormed : procedure.WellFormed)
    (policy : Policy) {place : Location} {statement : Statement}
    (placed : procedure.ssa.statement? place = some statement) :
    statement.LoadsWithin policy
      fun address => policy.untrackedMemory = false ∧ procedure.LoadsFrom address := by
  intro computes address refers
  obtain ⟨instruction, position, operand, reference, machine, listed, isMemory, rfl, noBase,
    noIndex, tracked⟩ := refers
  have notLea : instruction.family ≠ .lea := by simpa [Statement.family?, machine] using computes
  constructor
  · simpa [notLea] using tracked
  · exact ⟨place, statement, instruction, operand, placed, machine, notLea,
      List.mem_of_getElem? listed,
      Ssa.absolute?_of_empty wellFormed placed machine listed isMemory noBase noIndex⟩

namespace Session

variable {absolute : Int64 → Prop}

theorem shiftsByConstants_seed (reads : Array (VarId × UInt64)) :
    (seed reads).ShiftsByConstants absolute := by
  have noValue (var : VarId) : Store.empty.valueOf? var = none := by
    simp [Store.empty, Store.valueOf?]
  refine seed_induct (·.ShiftsByConstants absolute) reads ⟨fun found => ?_, fun found => ?_⟩
    fun read _ constants => ?_
  · simp [noValue] at found
  · simp [Store.empty, Store.node?] at found
  · have allocated := constants.alloc ⟨.immediate read.2.toInt64, false⟩
      fun _ isAmount => by cases isAmount
    exact allocated.bind _ (.of_node Array.getElem?_push_size (.inl rfl))

/-- With constant amounts only, every shift is by a constant.  One that was loaded has the address
of an operand that names no register, and only if memory is tracked. -/
theorem reached_shifts_by_constants {procedure : Procedure} (built : procedure.Built)
    {policy : Policy} (strict : policy.constantShifts = true) (requests : List Request)
    {id amount : ValueId} {node : Node}
    (found : (reached procedure policy requests).store.node? id = some node)
    (isShift : node.shape.amount? = some amount) :
    ∃ constant loaded, (reached procedure policy requests).store.node? amount =
        some ⟨.immediate constant, loaded⟩ ∧
      (loaded = true → policy.untrackedMemory = false ∧ procedure.LoadsFrom constant) := by
  have upholds : Setting.Upholds { form := procedure.ssa, policy } (·.ShiftsByConstants
      fun address => policy.untrackedMemory = false ∧ procedure.LoadsFrom address) :=
    Setting.upholds_of_respects (fun var constants => constants.placeholder var)
      fun placed => (Ssa.loadsWithin_ssa built.wellFormed policy placed).respects strict
  have kept := upholds.reached (shiftsByConstants_seed _) requests
  rw [← progress_reached] at kept
  exact kept.amounts found isShift

end Session

/-! ## A shift by what memory holds -/

namespace MemoryShift

open Machine.X64

def count : Instruction where
  address := 4096
  mnemonic := "mov"
  family := .move
  operands := [⟨.immediate 3, .read⟩, ⟨.register rcx, .write⟩]

def byMemory : Instruction where
  address := 4100
  mnemonic := "shl"
  family := .shl
  operands := [⟨.memory { offset := 8192 }, .read⟩, ⟨.register rax, .readWrite⟩]

def byRegister : Instruction where
  address := 4104
  mnemonic := "shr"
  family := .shr
  operands := [⟨.register rcx, .read⟩, ⟨.register rdx, .readWrite⟩]

def procedure : Procedure where
  name := "memory_shift"
  machine := .x64
  entry := 0
  graph :=
    { nodes := #[⟨0, 0, false, #[count, byMemory, byRegister]⟩]
      edges := #[]
      outgoing := #[[]]
      incoming := #[[]] }

theorem built : procedure.Built :=
  ⟨_, .addBlock false #[count, byMemory, byRegister] (.start "memory_shift" .x64), rfl⟩

def strictly : Policy where
  constantShifts := true

end MemoryShift

namespace Session

open MemoryShift

theorem reached_shifts_by_constants_register :
    MemoryShift.procedure.Built ∧ strictly.constantShifts = true ∧
      (reached MemoryShift.procedure strictly [.evaluate ⟨0, 2⟩]).store.node? 2 =
        some ⟨.binary .shiftRight 1 0, false⟩ ∧
      ∃ constant loaded, (reached MemoryShift.procedure strictly [.evaluate ⟨0, 2⟩]).store.node? 0 =
          some ⟨.immediate constant, loaded⟩ ∧
        (loaded = true → strictly.untrackedMemory = false ∧
          MemoryShift.procedure.LoadsFrom constant) := by
  have found : (reached MemoryShift.procedure strictly [.evaluate ⟨0, 2⟩]).store.node? 2 =
      some ⟨.binary .shiftRight 1 0, false⟩ := by decide +kernel
  exact ⟨built, rfl, found, reached_shifts_by_constants built rfl _ found rfl⟩

/-- What memory holds is taken for a constant amount. -/
theorem reached_shifts_by_loaded_constant :
    MemoryShift.procedure.Built ∧ strictly.constantShifts = true ∧
      (reached MemoryShift.procedure strictly [.evaluate ⟨0, 1⟩]).store.node? 2 =
        some ⟨.binary .shiftLeft 1 0, false⟩ ∧
      (reached MemoryShift.procedure strictly [.evaluate ⟨0, 1⟩]).store.node? 0 =
        some ⟨.immediate 8192, true⟩ :=
  ⟨built, rfl, by decide +kernel, by decide +kernel⟩

end Session

end SymbolicFlow
