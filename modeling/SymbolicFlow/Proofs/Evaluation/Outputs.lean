import SymbolicFlow.Machine.X64
import SymbolicFlow.Proofs.Evaluation.Refinement
import SymbolicFlow.Proofs.Ssa.SingleAssignment

/-!
# The outputs that receive no result

The outputs of an instruction are the registers that its operands name as destinations, and behind
them the registers that it writes without naming them.  A result goes to the first output; all
others keep placeholders of their own.  So what an instruction writes on the side is never taken for
its result, as long as it has a destination in a register.

A destination in memory is no output.  If there is no other, a register that is written on the side
moves up to the first place and receives the result: a string store is read as if it copied the
stored value to its pointer.
-/

set_option autoImplicit false

namespace SymbolicFlow

open Ssa (Statement Location)

namespace Instruction

variable (programCounter : Register) (instruction : Instruction)

def destinations : List Register :=
  (instruction.operands.filterMap Operand.writes?).filter (· ≠ programCounter)

/-- The registers that an instruction writes without naming them. -/
def sideWrites : List Register :=
  instruction.implicitWrites.filter (· ≠ programCounter)

theorem writes_eq : instruction.writes programCounter =
    instruction.destinations programCounter ++ instruction.sideWrites programCounter :=
  List.filter_append _ _

end Instruction

/-- The outputs of a statement behind those for the destinations of its instruction. -/
def Ssa.Statement.sideOutputs (programCounter : Register) (statement : Statement) : List VarId :=
  match statement.instruction with
  | none => []
  | some instruction => statement.outputs.drop (instruction.destinations programCounter).length

theorem Ssa.Statement.sideOutputs_eq (programCounter : Register) {statement : Statement}
    {instruction : Instruction} (machine : statement.instruction = some instruction) :
    statement.sideOutputs programCounter =
      statement.outputs.drop (instruction.destinations programCounter).length := by
  rw [Statement.sideOutputs, machine]

section Outputs

variable {procedure : Procedure} {place : Location} {statement : Statement}
  {instruction : Instruction} {var : VarId}

theorem Ssa.exists_sideWrite (wellFormed : procedure.WellFormed)
    (placed : procedure.ssa.statement? place = some statement)
    (machine : statement.instruction = some instruction)
    (onSide : var ∈ statement.sideOutputs procedure.machine.programCounter) :
    ∃ named, procedure.ssa.var? var = some named ∧
      named.register ∈ instruction.sideWrites procedure.machine.programCounter := by
  obtain ⟨phis, exits, naming, construction⟩ := Ssa.exists_construction wellFormed
  have outputs := construction.outputs_named placed machine
  rw [Statement.sideOutputs_eq _ machine] at onSide
  obtain ⟨position, listed⟩ := List.getElem?_of_mem onSide
  rw [List.getElem?_drop] at listed
  obtain ⟨register, written, isRegister⟩ := Ssa.getElem?_of_forall₂_right outputs listed
  rw [Instruction.writes_eq, List.getElem?_append_right (Nat.le_add_right _ _),
    Nat.add_sub_cancel_left] at written
  obtain ⟨named, known, rfl⟩ := Option.map_eq_some_iff.mp isRegister
  exact ⟨named, known, List.mem_of_getElem? written⟩

theorem Ssa.output?_ne_of_destination (wellFormed : procedure.WellFormed)
    (placed : procedure.ssa.statement? place = some statement)
    (machine : statement.instruction = some instruction)
    (destined : instruction.destinations procedure.machine.programCounter ≠ [])
    (onSide : var ∈ statement.sideOutputs procedure.machine.programCounter) :
    statement.output? ≠ some var := by
  obtain ⟨phis, exits, naming, construction⟩ := Ssa.exists_construction wellFormed
  have distinct := construction.outputsDistinct placed
  have present := List.length_pos_iff.mpr destined
  rw [Statement.sideOutputs_eq _ machine] at onSide
  intro first
  rw [Statement.output?] at first
  cases shape : statement.outputs with
  | nil => simp [shape] at onSide
  | cons output others =>
      rw [shape, List.head?_cons, Option.some.injEq] at first
      subst first
      rw [shape] at distinct onSide
      obtain ⟨count, isCount⟩ := Nat.exists_eq_add_of_lt present
      rw [isCount, Nat.zero_add, List.drop_succ_cons] at onSide
      exact (List.nodup_cons.mp distinct).1 (List.mem_of_mem_drop onSide)

theorem Ssa.Reading.Denotes.eq_register {reading : Ssa.Reading} (orderly : reading.form.Orderly)
    {tree : Tree} (placed : reading.form.statement? place = some statement)
    (output : var ∈ statement.outputs) (other : statement.output? ≠ some var)
    (denotes : reading.Denotes var tree) : tree = .register var false := by
  cases denotes with
  | leave => rfl
  | unfold =>
      rw [orderly.definitionTree_of_defined (orderly.outputDefined placed output), if_neg other]

end Outputs

namespace Session

theorem node?_of_not_first {procedure : Procedure} (wellFormed : procedure.WellFormed)
    (policy : Policy) (requests : List Request) {place : Location} {statement : Statement}
    (placed : procedure.ssa.statement? place = some statement) {var : VarId}
    (output : var ∈ statement.outputs) (other : statement.output? ≠ some var) {value : ValueId}
    (bound : (reached procedure policy requests).store.valueOf? var = some value) :
    (reached procedure policy requests).store.node? value = some ⟨.register var, false⟩ := by
  -- Every variable may be left as it is, so nothing is asked of the depth.
  have sound := (reached_sound wellFormed policy (fun _ => True) requests).2 fun _ _ _ => trivial
  have denotes := sound var value bound
  apply Arena.getElem?_of_tree_leaf rfl
  exact denotes.eq_register (Ssa.orderly_ssa wellFormed) placed output other

/-- An output that is written on the side is bound to its placeholder, or else it stands in the
first place because the instruction has no destination in a register. -/
theorem sideOutput_keeps_placeholder {procedure : Procedure} (built : procedure.Built)
    (policy : Policy) (requests : List Request) {place : Location} {statement : Statement}
    {instruction : Instruction} (placed : procedure.ssa.statement? place = some statement)
    (machine : statement.instruction = some instruction) {var : VarId}
    (onSide : var ∈ statement.sideOutputs procedure.machine.programCounter) :
    (∃ named, procedure.ssa.var? var = some named ∧
      named.register ∈ instruction.sideWrites procedure.machine.programCounter) ∧
    ∀ value, (reached procedure policy requests).store.valueOf? var = some value →
      (reached procedure policy requests).store.node? value = some ⟨.register var, false⟩ ∨
        instruction.destinations procedure.machine.programCounter = [] ∧
          statement.output? = some var := by
  have wellFormed := built.wellFormed
  refine ⟨Ssa.exists_sideWrite wellFormed placed machine onSide, ?_⟩
  intro value bound
  have output : var ∈ statement.outputs := by
    rw [Statement.sideOutputs_eq _ machine] at onSide
    exact List.mem_of_mem_drop onSide
  by_cases first : statement.output? = some var
  · right
    refine ⟨?_, first⟩
    by_contra destined
    exact Ssa.output?_ne_of_destination wellFormed placed machine destined onSide first
  · left
    exact node?_of_not_first wellFormed policy requests placed output first bound

end Session

/-! ## A store that advances its pointer -/

namespace StringStore

open Machine.X64

def addition : Instruction where
  address := 4096
  mnemonic := "add"
  family := .add
  operands := [⟨.register rcx, .read⟩, ⟨.register rdx, .readWrite⟩]
  implicitWrites := [rflags]

/-- Stores `rax` at the address in `rdi`, which it then advances. -/
def store : Instruction where
  address := 4100
  mnemonic := "stos"
  family := .move
  operands := [⟨.register rax, .read⟩, ⟨.memory { base := some rdi }, .write⟩]
  implicitWrites := [rdi]

def load : Instruction where
  address := 4112
  mnemonic := "mov"
  family := .move
  operands := [⟨.memory { base := some rdi }, .read⟩, ⟨.register rsi, .write⟩]

def procedure : Procedure where
  name := "string_store"
  machine := .x64
  entry := 0
  graph :=
    { nodes := #[⟨0, 0, false, #[addition, store]⟩, ⟨1, 1, false, #[load]⟩, ⟨2, 2, false, #[]⟩]
      edges := #[⟨0, 1, .fallthrough⟩, ⟨1, 1, .taken⟩, ⟨1, 2, .notTaken⟩]
      outgoing := #[[0], [1, 2], []]
      incoming := #[[], [0, 1], [2]] }

theorem built : procedure.Built := by
  have blocks : Draft.Constructed ((({ name := "string_store", machine := .x64 : Draft}.addBlock
      false #[addition, store]).addBlock false #[load]).addBlock false #[]) :=
    .addBlock false _ (.addBlock false _ (.addBlock false _ (.start _ _)))
  exact ⟨_, .addEdge 1 2 .notTaken (.addEdge 1 1 .taken (.addEdge 0 1 .fallthrough blocks
    rfl) rfl) rfl, rfl⟩

def added : Statement where
  instruction := some addition
  slots := [some 1, none, some 2, none]
  outputs := [3, 4]

def stored : Statement where
  instruction := some store
  slots := [some 5, none, some 6, none]
  outputs := [7]

end StringStore

namespace Session

open StringStore

/-- The flags of an addition stay opaque, in whatever order they are asked for. -/
theorem sideOutput_keeps_placeholder_addition :
    StringStore.procedure.Built ∧ StringStore.procedure.ssa.statement? ⟨0, 0⟩ = some added ∧
      4 ∈ added.sideOutputs Machine.x64.programCounter ∧
      ∃ value, (reached StringStore.procedure {} [.resolve 4, .evaluate ⟨0, 0⟩]).store.valueOf? 4 =
        some value ∧
      (reached StringStore.procedure {} [.resolve 4, .evaluate ⟨0, 0⟩]).store.node? value =
        some ⟨.register 4, false⟩ := by
  have placed : StringStore.procedure.ssa.statement? ⟨0, 0⟩ = some added := by decide +kernel
  have onSide : 4 ∈ added.sideOutputs Machine.x64.programCounter := by decide
  have bound : (reached StringStore.procedure {} [.resolve 4, .evaluate ⟨0, 0⟩]).store.valueOf? 4 =
      some 3 := by decide +kernel
  obtain ⟨_, values⟩ := sideOutput_keeps_placeholder built {} [.resolve 4, .evaluate ⟨0, 0⟩] placed
    rfl onSide
  refine ⟨built, placed, onSide, 3, bound, ?_⟩
  exact (values 3 bound).resolve_right fun exception => absurd exception.1 (by decide)

/-- The pointer of a string store is bound to the stored value. -/
theorem sideOutput_receives_result :
    StringStore.procedure.Built ∧ StringStore.procedure.ssa.statement? ⟨0, 1⟩ = some stored ∧
      (∃ operand ∈ StringStore.store.operands, operand.access.writes = true) ∧
      7 ∈ stored.sideOutputs Machine.x64.programCounter ∧
      ∃ value, (reached StringStore.procedure {} [.evaluate ⟨0, 1⟩]).store.valueOf? 7 =
        some value ∧
      (reached StringStore.procedure {} [.evaluate ⟨0, 1⟩]).store.node? value =
        some ⟨.register 5, false⟩ :=
  ⟨built, by decide +kernel, ⟨_, List.mem_cons_of_mem _ List.mem_cons_self, rfl⟩, by decide, 0,
    by decide +kernel, by decide +kernel⟩

end Session

end SymbolicFlow
