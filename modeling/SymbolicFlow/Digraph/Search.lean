import SymbolicFlow.Digraph

/-!
# Searching a graph

`explore` collects what can be reached from a list of nodes by any neighbour function,
nearest nodes first.  Breadth-first order is the case of successors.  `reversePostorder` is the
depth-first order used by the dominator computation: a node stands before everything that is
finished earlier.

Every node is met once, so the number of nodes bounds the first search, and the number
of nodes and edges together bounds the second.
-/

set_option autoImplicit false

namespace SymbolicFlow

namespace Search

def meet (order : Array NodeId) (nodes : List NodeId) : Array NodeId :=
  nodes.foldl (fun order node => if order.contains node then order else order.push node) order

/-- Looks at the neighbours of the nodes from position `cursor` on, at most `steps` of them.
The list grows while it is read: what stands before the cursor is done, the rest waits. -/
def explore (next : NodeId → List NodeId) : (steps cursor : Nat) → Array NodeId → Array NodeId
  | 0, _, order => order
  | steps + 1, cursor, order =>
      match order[cursor]? with
      | none => order
      | some node => explore next steps (cursor + 1) (meet order (next node))

structure Frame where
  node : NodeId
  untried : List NodeId
  deriving DecidableEq, Inhabited

/-- A node is met once it is on the path or finished. -/
def isMet (path : List Frame) (finished : List NodeId) (node : NodeId) : Bool :=
  path.any (·.node == node) || finished.contains node

/-- Depth-first search, at most `steps` steps of it.  A step tries one successor of the last
node on the path, or finishes that node.  The node finished last stands first. -/
def depthFirst (next : NodeId → List NodeId) :
    (steps : Nat) → (path : List Frame) → (finished : List NodeId) → List NodeId
  | 0, _, finished => finished
  | _ + 1, [], finished => finished
  | steps + 1, ⟨node, []⟩ :: path, finished => depthFirst next steps path (node :: finished)
  | steps + 1, ⟨node, successor :: untried⟩ :: path, finished =>
      if isMet (⟨node, untried⟩ :: path) finished successor then
        depthFirst next steps (⟨node, untried⟩ :: path) finished
      else
        depthFirst next steps (⟨successor, next successor⟩ :: ⟨node, untried⟩ :: path) finished

end Search

namespace Digraph

variable {α β : Type}

def breadthFirst (graph : Digraph α β) (start : NodeId) : List NodeId :=
  if start < graph.nodeCount then
    (Search.explore graph.successors graph.nodeCount 0 #[start]).toList
  else []

/-- The nodes reachable from `start`, each before those that a depth-first search finishes
earlier; none if the graph lacks `start`. -/
def reversePostorder (graph : Digraph α β) (start : NodeId) : List NodeId :=
  if start < graph.nodeCount then
    Search.depthFirst graph.successors (graph.nodeCount + graph.edgeCount)
      [⟨start, graph.successors start⟩] []
  else []

def postorder (graph : Digraph α β) (start : NodeId) : List NodeId :=
  (graph.reversePostorder start).reverse

end Digraph

end SymbolicFlow
