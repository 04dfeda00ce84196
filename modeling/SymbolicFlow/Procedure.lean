import SymbolicFlow.Digraph.Frontier
import SymbolicFlow.Digraph.Loops
import SymbolicFlow.Instruction
import SymbolicFlow.Text.Quoted

/-!
# Procedures

A procedure is a graph of basic blocks with an entry.  A `Draft` is a procedure under
construction; `Draft.build` checks it and yields the procedure.
-/

set_option autoImplicit false

namespace SymbolicFlow

/-- A run of instructions that is entered at its start and left at its end.  Padding blocks
hold filler between code and are not waited for. -/
structure Block where
  id : NodeId
  globalId : Nat
  padding : Bool
  instructions : Array Instruction
  deriving DecidableEq, Inhabited

namespace Block

def startAddress? (block : Block) : Option UInt64 :=
  (block.instructions[0]?).map (·.address)

def terminator? (block : Block) : Option Instruction :=
  block.instructions.back?

/-- The first two neighbours of which the later one does not have the higher address. -/
def firstUnordered? : List Instruction → Option (Instruction × Instruction)
  | earlier :: later :: rest =>
      if later.address ≤ earlier.address then some (earlier, later)
      else firstUnordered? (later :: rest)
  | _ => none

def fault? (procedure : String) (block : Block) : Option Fault :=
  (firstUnordered? block.instructions.toList).map fun (earlier, later) =>
    .unordered block.id procedure later.address earlier.address

end Block

inductive Transfer where
  | fallthrough
  | jump
  | taken
  | notTaken
  | indirect
  deriving DecidableEq, Inhabited

namespace Transfer

def all : List Transfer := [.fallthrough, .jump, .taken, .notTaken, .indirect]

def name : Transfer → String
  | fallthrough => "fall"
  | jump => "jump"
  | taken => "taken"
  | notTaken => "not"
  | indirect => "ind"

def ofName? (text : String) : Option Transfer :=
  all.find? (·.name == text)

end Transfer

structure Procedure where
  name : String
  machine : Machine
  entry : NodeId
  graph : Digraph Block Transfer

namespace Procedure

def blockCount (procedure : Procedure) : Nat := procedure.graph.nodeCount

def blocks (procedure : Procedure) : Array Block := procedure.graph.nodes

def block? (procedure : Procedure) (block : NodeId) : Option Block :=
  procedure.graph.node? block

def instructionCount (procedure : Procedure) : Nat :=
  procedure.blocks.foldl (fun count block => count + block.instructions.size) 0

def successors (procedure : Procedure) (block : NodeId) : List NodeId :=
  procedure.graph.successors block

def predecessors (procedure : Procedure) (block : NodeId) : List NodeId :=
  procedure.graph.predecessors block

def dominators (procedure : Procedure) : DominatorTree :=
  procedure.graph.dominatorTree procedure.entry

def frontiers (procedure : Procedure) : Array (List NodeId) :=
  procedure.graph.frontiers procedure.dominators

def loops (procedure : Procedure) : LoopForest :=
  procedure.graph.loopForest procedure.dominators

def summary (procedure : Procedure) : String :=
  "Function \x7b name: " ++ Text.quoted procedure.name ++
    ", arch: " ++ Text.quoted procedure.machine.name ++
    ", entry: NodeId(" ++ toString procedure.entry ++
    "), blocks: " ++ toString procedure.blockCount ++
    ", edges: " ++ toString procedure.graph.edgeCount ++ " \x7d"

end Procedure

/-- A procedure under construction.  Block ids count from zero, global ids from
`globalBase`. -/
structure Draft where
  name : String
  machine : Machine
  globalBase : Nat := 0
  entry : Option NodeId := none
  graph : Digraph Block Transfer := {}

namespace Draft

def addBlock (draft : Draft) (padding : Bool) (instructions : Array Instruction) : Draft :=
  let index := draft.graph.nodeCount
  { draft with
    graph := draft.graph.addNode ⟨index, draft.globalBase + index, padding, instructions⟩ }

def pushInstruction (draft : Draft) (block : NodeId) (instruction : Instruction) :
    Except Fault Draft :=
  if block < draft.graph.nodeCount then
    .ok { draft with
      graph := draft.graph.modifyNode block fun data =>
        { data with instructions := data.instructions.push instruction } }
  else .error (.missingBlock block)

def addEdge (draft : Draft) (source target : NodeId) (transfer : Transfer) :
    Except Fault Draft :=
  match draft.graph.addEdge source target transfer with
  | .ok graph => .ok { draft with graph }
  | .error fault => .error fault

def setEntry (draft : Draft) (entry : NodeId) : Draft :=
  { draft with entry := some entry }

/-- The finished procedure.  There must be a block; the entry, the first block unless set,
must exist; and addresses must ascend inside every block.  The first of these that fails is
reported. -/
def build (draft : Draft) : Except Fault Procedure :=
  let entry := draft.entry.getD 0
  if draft.graph.isEmpty then .error .noBlocks
  else if draft.graph.nodeCount ≤ entry then .error (.missingEntry entry)
  else
    match draft.graph.nodes.toList.findSome? (Block.fault? draft.name) with
    | some fault => .error fault
    | none => .ok ⟨draft.name, draft.machine, entry, draft.graph⟩

end Draft

end SymbolicFlow
