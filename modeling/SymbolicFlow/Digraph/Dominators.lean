import SymbolicFlow.Digraph.Search

/-!
# Dominators

Node `a` dominates node `b` if every path from the entry to `b` runs through `a`.  The
dominator tree records for each reachable node its immediate dominator, the strict
dominator nearest to it.

The tree is found by refining a table of candidates.  A pass goes through the nodes in
reverse postorder and sets each candidate to the nearest common ancestor of the
predecessors that have one.  A changed candidate moves towards the entry, so the passes
end; their number is at most the square of the number of nodes and one more.
-/

set_option autoImplicit false

namespace SymbolicFlow

/-- For every node, the candidate for its immediate dominator.  The entry has itself; a node
that is not reached has none. -/
abbrev ParentTable := Array (Option NodeId)

structure DominatorTree where
  entry : NodeId
  parents : ParentTable
  deriving DecidableEq, Inhabited

namespace ParentTable

def parent? (table : ParentTable) (node : NodeId) : Option NodeId :=
  (table[node]?).join

/-- The nearest common ancestor of two nodes: whichever stands later in the order `rank`
moves to its parent, at most `steps` times. -/
def nearestCommon (rank : NodeId → Nat) (table : ParentTable) :
    (steps : Nat) → NodeId → NodeId → NodeId
  | 0, left, _ => left
  | steps + 1, left, right =>
      if left = right then left
      else if rank right < rank left then
        match table.parent? left with
        | some parent => if parent = left then right else nearestCommon rank table steps parent right
        | none => right
      else
        match table.parent? right with
        | some parent => if parent = right then left else nearestCommon rank table steps left parent
        | none => left

def meetAll (rank : NodeId → Nat) (table : ParentTable) : List NodeId → Option NodeId
  | [] => none
  | first :: rest =>
      some (rest.foldl
        (fun common node => nearestCommon rank table (rank node + rank common) node common) first)

end ParentTable

namespace Digraph

variable {α β : Type}

/-- Positions of the nodes in an order; a node that does not occur comes behind all others. -/
def ranks (graph : Digraph α β) (order : List NodeId) : Array Nat :=
  order.zipIdx.foldl (fun ranks (node, position) => ranks.setIfInBounds node position)
    (Array.replicate graph.nodeCount graph.nodeCount)

def refineParent (graph : Digraph α β) (rank : NodeId → Nat) (table : ParentTable)
    (node : NodeId) : ParentTable :=
  match table.meetAll rank
      ((graph.predecessors node).filter fun predecessor => (table.parent? predecessor).isSome) with
  | none => table
  | some parent => table.setIfInBounds node (some parent)

def refineParents (graph : Digraph α β) (rank : NodeId → Nat) (order : List NodeId)
    (table : ParentTable) : ParentTable :=
  order.tail.foldl (graph.refineParent rank) table

def settleParents (graph : Digraph α β) (rank : NodeId → Nat) (order : List NodeId) :
    (passes : Nat) → ParentTable → ParentTable
  | 0, table => table
  | passes + 1, table =>
      let refined := graph.refineParents rank order table
      if refined = table then table else graph.settleParents rank order passes refined

def initialParents (graph : Digraph α β) (entry : NodeId) : ParentTable :=
  (Array.replicate graph.nodeCount none).setIfInBounds entry (some entry)

def dominatorTree (graph : Digraph α β) (entry : NodeId) : DominatorTree :=
  let order := graph.reversePostorder entry
  let ranks := graph.ranks order
  { entry
    parents := graph.settleParents (fun node => ranks.getD node graph.nodeCount) order
      (graph.nodeCount * graph.nodeCount + 1) (graph.initialParents entry) }

end Digraph

namespace DominatorTree

/-- The immediate dominator; the entry and unreachable nodes have none. -/
def parent? (tree : DominatorTree) (node : NodeId) : Option NodeId :=
  if node = tree.entry then none else tree.parents.parent? node

def isReachable (tree : DominatorTree) (node : NodeId) : Bool :=
  (tree.parents.parent? node).isSome

def ancestorsWithin (tree : DominatorTree) : (steps : Nat) → NodeId → List NodeId
  | 0, _ => []
  | steps + 1, node =>
      match tree.parent? node with
      | none => []
      | some parent => parent :: tree.ancestorsWithin steps parent

def strictDominators (tree : DominatorTree) (node : NodeId) : List NodeId :=
  tree.ancestorsWithin tree.parents.size node

def dominates (tree : DominatorTree) (a b : NodeId) : Bool :=
  a == b || (tree.strictDominators b).contains a

def strictlyDominates (tree : DominatorTree) (a b : NodeId) : Bool :=
  a != b && tree.dominates a b

def depth (tree : DominatorTree) (node : NodeId) : Nat :=
  (tree.strictDominators node).length

def children (tree : DominatorTree) (node : NodeId) : List NodeId :=
  (List.range tree.parents.size).filter fun child =>
    tree.parents.parent? child = some node && child != node

end DominatorTree

end SymbolicFlow
