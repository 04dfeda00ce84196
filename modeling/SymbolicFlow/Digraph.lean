import SymbolicFlow.Fault

/-!
# Directed graphs

Nodes and edges carry labels and are known by their position in order of insertion.
Beside the edges a graph keeps, for every node, the edges that leave it and the edges
that enter it, both in order of insertion.  Parallel edges and self-loops are allowed.
-/

set_option autoImplicit false

namespace SymbolicFlow

abbrev NodeId := Nat
abbrev EdgeId := Nat

structure Edge (β : Type) where
  source : NodeId
  target : NodeId
  label : β
  deriving DecidableEq

structure Digraph (α β : Type) where
  nodes : Array α := #[]
  edges : Array (Edge β) := #[]
  outgoing : Array (List EdgeId) := #[]
  incoming : Array (List EdgeId) := #[]

namespace Digraph

variable {α β : Type}

def empty : Digraph α β := {}

def nodeCount (graph : Digraph α β) : Nat := graph.nodes.size

def edgeCount (graph : Digraph α β) : Nat := graph.edges.size

def isEmpty (graph : Digraph α β) : Bool := graph.nodes.isEmpty

def nodeIds (graph : Digraph α β) : List NodeId := List.range graph.nodeCount

def node? (graph : Digraph α β) (node : NodeId) : Option α := graph.nodes[node]?

def edge? (graph : Digraph α β) (edge : EdgeId) : Option (Edge β) := graph.edges[edge]?

def addNode (graph : Digraph α β) (label : α) : Digraph α β where
  nodes := graph.nodes.push label
  edges := graph.edges
  outgoing := graph.outgoing.push []
  incoming := graph.incoming.push []

/-- Changes the label of a node; a node that does not exist is left alone. -/
def modifyNode (graph : Digraph α β) (node : NodeId) (change : α → α) : Digraph α β :=
  { graph with nodes := graph.nodes.modify node change }

/-- Adds an edge, which gets the number of edges so far as its id.  The source is checked
before the target. -/
def addEdge (graph : Digraph α β) (source target : NodeId) (label : β) :
    Except Fault (Digraph α β) :=
  if graph.nodeCount ≤ source then
    .error (.missingEndpoint .source source graph.nodeCount)
  else if graph.nodeCount ≤ target then
    .error (.missingEndpoint .target target graph.nodeCount)
  else
    .ok {
      nodes := graph.nodes
      edges := graph.edges.push ⟨source, target, label⟩
      outgoing := graph.outgoing.modify source (· ++ [graph.edgeCount])
      incoming := graph.incoming.modify target (· ++ [graph.edgeCount]) }

/-- Adds edges with the same label one after the other, up to the first that fails; the ones
before it stay. -/
def addEdges (graph : Digraph α β) (label : β) :
    List (NodeId × NodeId) → Digraph α β × Option Fault
  | [] => (graph, none)
  | (source, target) :: rest =>
      match graph.addEdge source target label with
      | .ok extended => extended.addEdges label rest
      | .error fault => (graph, some fault)

def outgoingEdges (graph : Digraph α β) (node : NodeId) : List (EdgeId × Edge β) :=
  (graph.outgoing.getD node []).filterMap fun edge => graph.edges[edge]?.map (edge, ·)

def incomingEdges (graph : Digraph α β) (node : NodeId) : List (EdgeId × Edge β) :=
  (graph.incoming.getD node []).filterMap fun edge => graph.edges[edge]?.map (edge, ·)

/-- Targets of the outgoing edges; a node occurs once for every edge that leads to it. -/
def successors (graph : Digraph α β) (node : NodeId) : List NodeId :=
  (graph.outgoingEdges node).map (·.2.target)

def predecessors (graph : Digraph α β) (node : NodeId) : List NodeId :=
  (graph.incomingEdges node).map (·.2.source)

def hasNode (graph : Digraph α β) (node : NodeId) : Bool :=
  node < graph.nodeCount

end Digraph

end SymbolicFlow
