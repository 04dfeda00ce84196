import SymbolicFlow.Digraph.Dominators

/-!
# Natural loops

An edge from `s` to `h` closes a loop if `s` is reachable and `h` dominates `s`.  All such
edges to the same `h` form one loop with header `h`; their sources are its latches, and its
body is what reaches a latch without running through the header.  The edges are taken one by one:
each adds to the body of its loop what is not there yet.

Loops are numbered by ascending header.  The parent of a loop is the smallest other loop
whose body holds its header, so that loops form a forest.
-/

set_option autoImplicit false

namespace SymbolicFlow

structure Loop where
  id : Nat
  header : NodeId
  latches : List NodeId
  body : List NodeId
  parent : Option Nat
  children : List Nat
  depth : Nat
  deriving DecidableEq, Inhabited

namespace Loop

/-- The blocks through which control enters: a natural loop has its header only. -/
def entries (loop : Loop) : List NodeId := [loop.header]

def contains (loop : Loop) (block : NodeId) : Bool := loop.body.contains block

def isEntry (loop : Loop) (block : NodeId) : Bool := loop.entries.contains block

def isInnermost (loop : Loop) : Bool := loop.children.isEmpty

def size (loop : Loop) : Nat := loop.body.length

end Loop

structure LoopForest where
  loops : Array Loop := #[]
  innermost : Array (Option Nat) := #[]
  deriving DecidableEq, Inhabited

namespace LoopForest

structure Outline where
  header : NodeId
  latches : List NodeId
  body : List NodeId
  deriving DecidableEq, Inhabited

def bodySize (outlines : Array Outline) (loop : Nat) : Nat :=
  (outlines.getD loop default).body.length

/-- Of two loops, the smaller one; the earlier of two equally large. -/
def smaller (outlines : Array Outline) (best : Option Nat) (loop : Nat) : Option Nat :=
  match best with
  | none => some loop
  | some other => if bodySize outlines loop < bodySize outlines other then some loop else best

/-- The first of the smallest loops, other than `loop`, that hold its header. -/
def enclosing? (outlines : Array Outline) (loop : Nat) : Option Nat :=
  match outlines[loop]? with
  | none => none
  | some inner =>
      ((List.range outlines.size).filter fun other =>
        other != loop && (outlines.getD other default).body.contains inner.header).foldl
          (smaller outlines) none

def chainWithin (parent? : Nat → Option Nat) : (steps : Nat) → Nat → List Nat
  | 0, _ => []
  | steps + 1, loop =>
      loop :: match parent? loop with
        | none => []
        | some parent => chainWithin parent? steps parent

def deeper (loops : Array Loop) (best : Option Nat) (loop : Loop) : Option Nat :=
  match best with
  | none => some loop.id
  | some other => if (loops.getD other default).depth ≥ loop.depth then best else some loop.id

def ofOutlines (count : Nat) (outlines : Array Outline) : LoopForest :=
  let ids := List.range outlines.size
  let parents := (ids.map (enclosing? outlines)).toArray
  let parent? (id : Nat) : Option Nat := (parents[id]?).join
  let loops := (ids.map fun id =>
    let outline := outlines.getD id default
    { id
      header := outline.header
      latches := outline.latches
      body := outline.body
      parent := parent? id
      children := ids.filter fun child => parent? child = some id
      depth := (chainWithin parent? outlines.size id).length - 1 : Loop }).toArray
  { loops
    innermost := ((List.range count).map fun block =>
      (loops.toList.filter (·.contains block)).foldl (deeper loops) none).toArray }

def loop? (forest : LoopForest) (id : Nat) : Option Loop := forest.loops[id]?

def innermostLoop? (forest : LoopForest) (block : NodeId) : Option Loop :=
  (forest.innermost[block]?).join.bind forest.loop?

def ancestors (forest : LoopForest) (id : Nat) : List Loop :=
  (chainWithin (fun id => (forest.loop? id).bind (·.parent)) forest.loops.size id).filterMap
    forest.loop?

def innermostLoops (forest : LoopForest) : List Loop :=
  forest.loops.toList.filter (·.isInnermost)

def depthOf (forest : LoopForest) (block : NodeId) : Nat :=
  match forest.innermostLoop? block with
  | none => 0
  | some loop => loop.depth + 1

/-- Whether an edge from `source` to `target` would lead back to the entry of a loop that
holds both. -/
def isBackEdge (forest : LoopForest) (source target : NodeId) : Bool :=
  match forest.innermostLoop? target with
  | none => false
  | some innermost =>
      (forest.ancestors innermost.id).any fun loop => loop.isEntry target && loop.contains source

end LoopForest

namespace Digraph

variable {α β : Type}

open LoopForest

def backEdges (graph : Digraph α β) (tree : DominatorTree) : List (NodeId × NodeId) :=
  (graph.nodeIds.filter tree.isReachable).flatMap fun node =>
    ((graph.successors node).filter fun successor => tree.dominates successor node).map (node, ·)

/-- Takes nodes from a stack, at most `steps` of them.  A node that the body lacks is added, and
its predecessors are put on the stack, except the header and what the body has. -/
def growBody (graph : Digraph α β) (header : NodeId) :
    (steps : Nat) → (stack body : List NodeId) → List NodeId
  | 0, _, body => body
  | _ + 1, [], body => body
  | steps + 1, node :: stack, body =>
      if body.contains node then graph.growBody header steps stack body
      else
        let grown := node :: body
        let found := (graph.predecessors node).filter fun other =>
          other != header && !grown.contains other
        graph.growBody header steps (found.reverse ++ stack) grown

/-- Every edge puts at most one node on the stack, beside the latch itself. -/
def addLatch (graph : Digraph α β) (latch : NodeId) (outline : Outline) : Outline where
  header := outline.header
  latches := if outline.latches.contains latch then outline.latches else outline.latches ++ [latch]
  body := graph.growBody outline.header (graph.edgeCount + 1) [latch] outline.body

def openLoop (outlines : List Outline) (header : NodeId) : List Outline :=
  if outlines.any (·.header == header) then outlines else outlines ++ [⟨header, [], [header]⟩]

def addBackEdge (graph : Digraph α β) (outlines : List Outline) (edge : NodeId × NodeId) :
    List Outline :=
  (openLoop outlines edge.2).map fun outline =>
    if outline.header = edge.2 then graph.addLatch edge.1 outline else outline

def insertByHeader (outline : Outline) : List Outline → List Outline
  | [] => [outline]
  | first :: rest =>
      if outline.header ≤ first.header then outline :: first :: rest
      else first :: insertByHeader outline rest

def loopOutlines (graph : Digraph α β) (tree : DominatorTree) : Array Outline :=
  let found := (graph.backEdges tree).foldl graph.addBackEdge []
  ((found.foldr insertByHeader []).map fun outline =>
    { outline with body := graph.nodeIds.filter outline.body.contains }).toArray

def loopForest (graph : Digraph α β) (tree : DominatorTree) : LoopForest :=
  LoopForest.ofOutlines graph.nodeCount (graph.loopOutlines tree)

end Digraph

end SymbolicFlow
