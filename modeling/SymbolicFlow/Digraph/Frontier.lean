import SymbolicFlow.Digraph.Dominators

/-!
# Dominance frontiers

The frontier of a node holds the nodes at which its dominance ends: those with a
predecessor that it dominates, but which it does not strictly dominate.
-/

set_option autoImplicit false

namespace SymbolicFlow

namespace Digraph

variable {α β : Type}

/-- The nodes that have `node` in their frontier: from each reachable predecessor up the
tree, as far as the immediate dominator of `node`. -/
def frontierOwners (graph : Digraph α β) (tree : DominatorTree) (node : NodeId) : List NodeId :=
  if tree.isReachable node then
    ((graph.predecessors node).filter tree.isReachable).flatMap fun predecessor =>
      (predecessor :: tree.strictDominators predecessor).takeWhile
        fun runner => some runner != tree.parent? node
  else []

def frontiers (graph : Digraph α β) (tree : DominatorTree) : Array (List NodeId) :=
  let owners := graph.nodeIds.map fun node => (node, graph.frontierOwners tree node)
  (graph.nodeIds.map fun owner =>
    owners.filterMap fun (node, its) => if its.contains owner then some node else none).toArray

end Digraph

end SymbolicFlow
