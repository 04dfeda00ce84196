import SymbolicFlow.Event
import SymbolicFlow.Procedure

/-!
# The order of blocks

A schedule hands out the blocks of a procedure one by one, the entry first.  A block is ready
once every predecessor has been visited or leads to it over a back edge.  Ready blocks are
queued in breadth-first order; they are looked for whenever the queue is empty.  If there are
none although a block that is not padding is left, one successor of a visited block is forced.
-/

set_option autoImplicit false

namespace SymbolicFlow

inductive Status where
  | unvisited
  | ready
  | visited
  deriving DecidableEq, Inhabited

def Status.letter : Status → String
  | unvisited => "U"
  | ready => "R"
  | visited => "V"

structure Schedule where
  status : Array Status
  queue : List NodeId
  order : Array NodeId := #[]
  /-- The number of blocks that were forced. -/
  fallbacks : Nat := 0
  deriving DecidableEq, Inhabited

namespace Schedule

def start (procedure : Procedure) : Schedule where
  status := (Array.replicate procedure.blockCount .unvisited).setIfInBounds procedure.entry .ready
  queue := if procedure.entry < procedure.blockCount then [procedure.entry] else []

def status? (schedule : Schedule) (block : NodeId) : Option Status := schedule.status[block]?

def isUnvisited (schedule : Schedule) (block : NodeId) : Bool :=
  schedule.status? block = some .unvisited

def isVisited (schedule : Schedule) (block : NodeId) : Bool :=
  schedule.status? block = some .visited

def enqueue (schedule : Schedule) (blocks : List NodeId) : Schedule :=
  { schedule with
    status := blocks.foldl (fun status block => status.setIfInBounds block .ready) schedule.status
    queue := schedule.queue ++ blocks }

def isReady (procedure : Procedure) (forest : LoopForest) (schedule : Schedule)
    (block : NodeId) : Bool :=
  (procedure.predecessors block).all fun predecessor =>
    schedule.isVisited predecessor || forest.isBackEdge predecessor block

def candidates (procedure : Procedure) (forest : LoopForest) (schedule : Schedule) :
    List NodeId :=
  (procedure.graph.breadthFirst procedure.entry).filter fun block =>
    schedule.isUnvisited block && schedule.isReady procedure forest block

def hasPending (procedure : Procedure) (schedule : Schedule) : Bool :=
  procedure.blocks.toList.any fun block => !block.padding && schedule.isUnvisited block.id

/-- The first unvisited successor of the first visited block, padding aside, that has one. -/
def forcible? (procedure : Procedure) (schedule : Schedule) : Option NodeId :=
  (procedure.blocks.toList.filter fun block =>
      !block.padding && schedule.isVisited block.id).findSome? fun block =>
    (procedure.successors block.id).find? schedule.isUnvisited

/-- Fills an empty queue, by force if need be. -/
def refill (procedure : Procedure) (forest : LoopForest) (schedule : Schedule) :
    Schedule × List Event :=
  match schedule.candidates procedure forest with
  | [] =>
      if schedule.hasPending procedure then
        match schedule.forcible? procedure with
        | none => (schedule, [])
        | some block =>
            ({ schedule.enqueue [block] with fallbacks := schedule.fallbacks + 1 },
              [.forced procedure.name block])
      else (schedule, [])
  | ready => (schedule.enqueue ready, [.ready procedure.name ready.length])

def pop (schedule : Schedule) : Option NodeId × Schedule :=
  match schedule.queue with
  | [] => (none, schedule)
  | block :: queue =>
      (some block,
        { status := schedule.status.setIfInBounds block .visited
          queue
          order := schedule.order.push block
          fallbacks := schedule.fallbacks })

def next (procedure : Procedure) (forest : LoopForest) (schedule : Schedule) :
    Option NodeId × Schedule × List Event :=
  let (filled, events) :=
    if schedule.queue.isEmpty then schedule.refill procedure forest else (schedule, [])
  let (block, rest) := filled.pop
  (block, rest, events)

end Schedule

end SymbolicFlow
