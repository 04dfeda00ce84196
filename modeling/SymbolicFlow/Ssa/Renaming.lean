import SymbolicFlow.Ssa.Naming
import SymbolicFlow.Ssa.Placement

/-!
# Building the single-assignment form

The phis get their variables first, register by register.  Then the blocks are renamed in
reverse postorder: a block starts with what its immediate dominator leaves behind, its own
phis on top, and passes the environment from instruction to instruction.  Unreachable blocks
come last and start with entry values.  When every block has left an environment behind, the
phis read their sources.
-/

set_option autoImplicit false

namespace SymbolicFlow.Ssa

abbrev PhiTable := Array (List (Register × VarId))

def namePhi (state : PhiTable × Naming) (site : Register × NodeId) : PhiTable × Naming :=
  let (phis, naming) := state
  let (register, block) := site
  let (var, named) := naming.define register (some ⟨block, (phis.getD block []).length⟩)
  (phis.modify block (· ++ [(register, var)]), named)

def namePhis (procedure : Procedure) (frontiers : Array (List NodeId)) : PhiTable × Naming :=
  (phiSites procedure frontiers).foldl namePhi
    (Array.replicate procedure.blockCount [], {})

/-- An instruction as a statement: reads come before writes. -/
def renameInstruction (programCounter : Register) (location : Location)
    (environment : Environment) (naming : Naming) (instruction : Instruction) :
    Statement × Environment × Naming :=
  let (slots, read) := Naming.readSlots programCounter instruction.nextAddress environment naming
    (instruction.slotReads programCounter)
  let (outputs, written, named) := Naming.defineAll location read environment
    (instruction.writes programCounter)
  ({ instruction := some instruction
     slots
     outputs
     implicitCount := instruction.implicitReads.length }, written, named)

def renameBody (programCounter : Register) (block : NodeId) (offset : Nat)
    (environment : Environment) (naming : Naming) (instructions : List Instruction) :
    Array Statement × Environment × Naming :=
  instructions.foldl
    (fun (statements, environment, naming) instruction =>
      let location : Location := ⟨block, offset + statements.size⟩
      let (statement, written, named) :=
        renameInstruction programCounter location environment naming instruction
      (statements.push statement, written, named))
    (#[], environment, naming)

/-- What renaming has done so far: the machine statements of each block and the environment
that the block leaves behind. -/
structure Renaming where
  bodies : Array (Array Statement)
  exits : Array Environment
  naming : Naming
  deriving Inhabited

def startEnvironment (tree : DominatorTree) (phis : PhiTable) (exits : Array Environment)
    (block : NodeId) : Environment :=
  let inherited : Environment :=
    match tree.parent? block with
    | none => []
    | some dominator => exits.getD dominator []
  (phis.getD block []).foldl (fun environment (register, var) => environment.set register var)
    inherited

def renameBlock (procedure : Procedure) (tree : DominatorTree) (phis : PhiTable)
    (renamed : Renaming) (block : NodeId) : Renaming :=
  match procedure.block? block with
  | none => renamed
  | some code =>
      let ⟨bodies, exits, naming⟩ := renamed
      let (statements, environment, named) :=
        renameBody procedure.machine.programCounter block (phis.getD block []).length
          (startEnvironment tree phis exits block) naming code.instructions.toList
      { bodies := bodies.setIfInBounds block statements
        exits := exits.setIfInBounds block environment
        naming := named }

/-- Reachable blocks in reverse postorder, then the others in ascending order. -/
def renamingOrder (procedure : Procedure) : List NodeId :=
  let reachable := procedure.graph.reversePostorder procedure.entry
  reachable ++ procedure.graph.nodeIds.filter fun block => !reachable.contains block

def renameBlocks (procedure : Procedure) (tree : DominatorTree) (phis : PhiTable)
    (naming : Naming) : Renaming :=
  (renamingOrder procedure).foldl (renameBlock procedure tree phis)
    { bodies := Array.replicate procedure.blockCount #[]
      exits := Array.replicate procedure.blockCount []
      naming }

/-- The environments with which control arrives at a block: at the entry first the empty one,
then one for each incoming edge, and none over an edge from an unreachable block. -/
def arrivals (procedure : Procedure) (tree : DominatorTree) (exits : Array Environment)
    (block : NodeId) : List (Option Environment) :=
  (if block = procedure.entry then [some []] else []) ++
    (procedure.predecessors block).map fun predecessor =>
      if tree.isReachable predecessor then some (exits.getD predecessor []) else none

def completePhis (arrivals : List (Option Environment)) :
    Naming → List (Register × VarId) → List Statement × Naming
  | naming, [] => ([], naming)
  | naming, (register, var) :: phis =>
      let (sources, read) := Naming.readSources register naming arrivals
      let (statements, named) := completePhis arrivals read phis
      (Statement.phi var sources :: statements, named)

def completeBlock (procedure : Procedure) (tree : DominatorTree) (phis : PhiTable)
    (renamed : Renaming) (state : Array Block × Naming) (block : NodeId) :
    Array Block × Naming :=
  let (blocks, naming) := state
  let (statements, named) := completePhis (arrivals procedure tree renamed.exits block) naming
    (phis.getD block [])
  (blocks.push ⟨block, statements.toArray ++ renamed.bodies.getD block #[]⟩, named)

def Form.ofProcedure (procedure : Procedure) : Form :=
  let tree := procedure.dominators
  let (phis, placed) := namePhis procedure (procedure.graph.frontiers tree)
  let renamed := renameBlocks procedure tree phis placed
  let (blocks, naming) := procedure.graph.nodeIds.foldl
    (completeBlock procedure tree phis renamed) (#[], renamed.naming)
  { blocks
    vars := naming.vars
    counterReads := naming.counterReads }

end SymbolicFlow.Ssa

namespace SymbolicFlow.Procedure

def ssa (procedure : Procedure) : Ssa.Form := Ssa.Form.ofProcedure procedure

end SymbolicFlow.Procedure
