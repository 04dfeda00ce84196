import SymbolicFlow.Procedure

/-!
# Where phis stand

A register needs a phi at every block of its iterated dominance frontier: the frontiers of
the blocks that write it, the frontiers of those blocks, and so on.
-/

set_option autoImplicit false

namespace SymbolicFlow.Ssa

def insertRegister (register : Register) : List Register → List Register
  | [] => [register]
  | first :: rest =>
      if register.number < first.number then register :: first :: rest
      else if register = first then first :: rest
      else first :: insertRegister register rest

def blockWrites (programCounter : Register) (block : SymbolicFlow.Block) : List Register :=
  block.instructions.toList.flatMap (·.writes programCounter)

def writtenRegisters (procedure : Procedure) : List Register :=
  (procedure.blocks.toList.flatMap (blockWrites procedure.machine.programCounter)).foldl
    (fun registers register => insertRegister register registers) []

def writers (procedure : Procedure) (register : Register) : List NodeId :=
  (procedure.blocks.toList.filter fun block =>
    (blockWrites procedure.machine.programCounter block).contains register).map (·.id)

/-- The iterated frontier in the order in which it is found: the block at the top of the stack
`waiting` adds its frontier, and those of the new blocks that are not writers, and thus were
not waiting from the start, go on top. -/
def iterateFrontier (frontier : NodeId → List NodeId) (writers : List NodeId) :
    (steps : Nat) → (waiting placed : List NodeId) → List NodeId
  | 0, _, placed => placed
  | _ + 1, [], placed => placed
  | steps + 1, block :: waiting, placed =>
      let fresh := (frontier block).filter fun target => !placed.contains target
      iterateFrontier frontier writers steps
        ((fresh.filter fun target => !writers.contains target).reverse ++ waiting)
        (placed ++ fresh)

/-- The blocks that get a phi for a register.  Every block waits at most once. -/
def phiBlocks (procedure : Procedure) (frontiers : Array (List NodeId)) (register : Register) :
    List NodeId :=
  let writers := writers procedure register
  iterateFrontier (fun block => frontiers.getD block []) writers procedure.blockCount
    writers.reverse []

def phiSites (procedure : Procedure) (frontiers : Array (List NodeId)) :
    List (Register × NodeId) :=
  (writtenRegisters procedure).flatMap fun register =>
    (phiBlocks procedure frontiers register).map fun block => (register, block)

end SymbolicFlow.Ssa
