import Mathlib.Algebra.BigOperators.Group.Finset.Piecewise
import Mathlib.Data.List.Perm.Subperm
import Mathlib.Algebra.Order.BigOperators.Group.Finset
import SymbolicFlow.Digraph

/-!
# How a graph keeps its edges

A graph that was made by its own operations keeps every edge three times: in the table of
edges, in the list of its source, and in the list of its target.  `WellFormed` says that the
three agree; every operation preserves it.  From it follow the laws that the algorithms on
graphs use: successors and predecessors mirror each other, both exist, and there are as many
entries in all successor lists together as there are edges.
-/

set_option autoImplicit false

namespace SymbolicFlow.Digraph

variable {α β : Type}

def edgesWith (graph : Digraph α β) (property : Edge β → Bool) : List EdgeId :=
  (List.range graph.edgeCount).filter fun id => (graph.edges[id]?).any property

/-- The graphs that can be made, starting from the empty graph. -/
inductive Constructed : Digraph α β → Prop where
  | empty : Constructed empty
  | addNode {graph : Digraph α β} (label : α) :
      Constructed graph → Constructed (graph.addNode label)
  | addEdge {graph extended : Digraph α β} (source target : NodeId) (label : β) :
      Constructed graph → graph.addEdge source target label = .ok extended →
        Constructed extended
  | modifyNode {graph : Digraph α β} (node : NodeId) (change : α → α) :
      Constructed graph → Constructed (graph.modifyNode node change)

structure WellFormed (graph : Digraph α β) : Prop where
  outgoingSize : graph.outgoing.size = graph.nodeCount
  incomingSize : graph.incoming.size = graph.nodeCount
  endpoints : ∀ edge ∈ graph.edges,
    edge.source < graph.nodeCount ∧ edge.target < graph.nodeCount
  outgoingExact : ∀ node,
    graph.outgoing.getD node [] = graph.edgesWith fun edge => edge.source = node
  incomingExact : ∀ node,
    graph.incoming.getD node [] = graph.edgesWith fun edge => edge.target = node

/-! ## What the operations preserve -/

theorem edgesWith_congr (graph other : Digraph α β) (property : Edge β → Bool)
    (same : graph.edges = other.edges) :
    graph.edgesWith property = other.edgesWith property := by
  simp only [edgesWith, edgeCount, same]

theorem edgesWith_push (graph extended : Digraph α β) (edge : Edge β) (property : Edge β → Bool)
    (pushed : extended.edges = graph.edges.push edge) :
    extended.edgesWith property =
      graph.edgesWith property ++ if property edge then [graph.edgeCount] else [] := by
  have old : ∀ id ∈ List.range graph.edgeCount,
      (((graph.edges.push edge)[id]?).any property) = (graph.edges[id]?).any property := by
    intro id member
    have bound : id < graph.edges.size := List.mem_range.mp member
    rw [Array.getElem?_push_lt bound, Array.getElem?_eq_getElem bound]
  simp only [edgesWith, edgeCount, pushed, Array.size_push, List.range_succ, List.filter_append]
  congr 1
  · exact List.filter_congr old
  · by_cases has : property edge <;> simp [has]

theorem wellFormed_empty : (empty : Digraph α β).WellFormed where
  outgoingSize := rfl
  incomingSize := rfl
  endpoints := by intro edge member; simp [empty] at member
  outgoingExact := by intro node; rfl
  incomingExact := by intro node; rfl

theorem WellFormed.addNode {graph : Digraph α β} (wellFormed : graph.WellFormed) (label : α) :
    (graph.addNode label).WellFormed := by
  have grown : (graph.addNode label).nodeCount = graph.nodeCount + 1 := by
    simp [Digraph.addNode, nodeCount]
  have sameEdges : ∀ property,
      (graph.addNode label).edgesWith property = graph.edgesWith property :=
    fun property => edgesWith_congr _ _ property rfl
  -- The list of the new node is empty, as is what `getD` yields for a node that is missing.
  have lists : ∀ (table : Array (List EdgeId)) (node : NodeId),
      (table.push []).getD node [] = table.getD node [] := by
    intro table node
    simp only [Array.getD_eq_getD_getElem?, Array.getElem?_push]
    split
    · rename_i last
      simp [last]
    · rfl
  refine ⟨?_, ?_, ?_, ?_, ?_⟩
  · rw [grown, ← wellFormed.outgoingSize]
    simp [Digraph.addNode]
  · rw [grown, ← wellFormed.incomingSize]
    simp [Digraph.addNode]
  · intro edge member
    obtain ⟨source, target⟩ := wellFormed.endpoints edge member
    exact ⟨by lia, by lia⟩
  · intro node
    rw [sameEdges, ← wellFormed.outgoingExact]
    exact lists graph.outgoing node
  · intro node
    rw [sameEdges, ← wellFormed.incomingExact]
    exact lists graph.incoming node

theorem WellFormed.modifyNode {graph : Digraph α β} (wellFormed : graph.WellFormed)
    (node : NodeId) (change : α → α) : (graph.modifyNode node change).WellFormed := by
  have same : (graph.modifyNode node change).nodeCount = graph.nodeCount := by
    simp [Digraph.modifyNode, nodeCount]
  refine ⟨?_, ?_, ?_, wellFormed.outgoingExact, wellFormed.incomingExact⟩
  · rw [same]
    exact wellFormed.outgoingSize
  · rw [same]
    exact wellFormed.incomingSize
  · rw [same]
    exact wellFormed.endpoints

theorem modifyNode_of_missing (graph : Digraph α β) {node : NodeId} (change : α → α)
    (missing : graph.nodeCount ≤ node) : graph.modifyNode node change = graph := by
  have same : graph.nodes.modify node change = graph.nodes := by
    apply Array.ext_getElem?
    intro position
    rw [Array.getElem?_modify]
    split
    · rename_i atNode
      rw [Array.getElem?_eq_none (atNode ▸ missing)]
      rfl
    · rfl
  rw [Digraph.modifyNode, same]

theorem addEdge_ok {graph extended : Digraph α β} {source target : NodeId} {label : β}
    (success : graph.addEdge source target label = .ok extended) :
    source < graph.nodeCount ∧ target < graph.nodeCount ∧
      extended = {
        nodes := graph.nodes
        edges := graph.edges.push ⟨source, target, label⟩
        outgoing := graph.outgoing.modify source (· ++ [graph.edgeCount])
        incoming := graph.incoming.modify target (· ++ [graph.edgeCount]) } := by
  unfold Digraph.addEdge at success
  split at success
  · cases success
  · rename_i sourceExists
    split at success
    · cases success
    · rename_i targetExists
      exact ⟨by lia, by lia, (Except.ok.inj success).symm⟩

theorem addEdge_error_iff (graph : Digraph α β) (source target : NodeId) (label : β) :
    (∃ fault, graph.addEdge source target label = .error fault) ↔
      graph.nodeCount ≤ source ∨ graph.nodeCount ≤ target := by
  rw [Digraph.addEdge]
  split
  · rename_i missing
    simp [missing]
  · rename_i sourceExists
    split
    · rename_i missing
      simp [missing]
    · rename_i targetExists
      simp [sourceExists, targetExists]

private theorem getD_modify_append (table : Array (List EdgeId)) (changed node : NodeId)
    (edge : EdgeId) (bound : changed < table.size) :
    (table.modify changed (· ++ [edge])).getD node [] =
      table.getD node [] ++ if changed = node then [edge] else [] := by
  simp only [Array.getD_eq_getD_getElem?, Array.getElem?_modify]
  by_cases same : changed = node
  · subst same
    simp [Array.getElem?_eq_getElem bound]
  · simp [same]

theorem WellFormed.addEdge {graph extended : Digraph α β} (wellFormed : graph.WellFormed)
    {source target : NodeId} {label : β}
    (success : graph.addEdge source target label = .ok extended) : extended.WellFormed := by
  obtain ⟨sourceExists, targetExists, shape⟩ := addEdge_ok success
  have pushed : extended.edges = graph.edges.push ⟨source, target, label⟩ := by rw [shape]
  have sameNodes : extended.nodeCount = graph.nodeCount := by rw [shape]; rfl
  refine ⟨?_, ?_, ?_, ?_, ?_⟩
  · rw [sameNodes, ← wellFormed.outgoingSize, shape]
    simp
  · rw [sameNodes, ← wellFormed.incomingSize, shape]
    simp
  · intro edge member
    rw [sameNodes]
    rw [pushed] at member
    rcases Array.mem_push.mp member with old | rfl
    · exact wellFormed.endpoints edge old
    · exact ⟨sourceExists, targetExists⟩
  · intro node
    rw [edgesWith_push graph extended _ _ pushed, ← wellFormed.outgoingExact, shape]
    rw [getD_modify_append _ _ _ _ (by rw [wellFormed.outgoingSize]; exact sourceExists)]
    simp
  · intro node
    rw [edgesWith_push graph extended _ _ pushed, ← wellFormed.incomingExact, shape]
    rw [getD_modify_append _ _ _ _ (by rw [wellFormed.incomingSize]; exact targetExists)]
    simp

theorem Constructed.wellFormed {graph : Digraph α β} (constructed : graph.Constructed) :
    graph.WellFormed := by
  induction constructed with
  | empty => exact wellFormed_empty
  | addNode label _ previous => exact previous.addNode label
  | addEdge source target label _ success previous => exact previous.addEdge success
  | modifyNode node change _ previous => exact previous.modifyNode node change

theorem Constructed.addEdges {graph : Digraph α β} (label : β) (ends : List (NodeId × NodeId))
    (constructed : graph.Constructed) : (graph.addEdges label ends).1.Constructed := by
  induction ends generalizing graph with
  | nil => exact constructed
  | cons pair rest ih =>
      rw [Digraph.addEdges]
      cases outcome : graph.addEdge pair.1 pair.2 label with
      | ok extended => exact ih (constructed.addEdge pair.1 pair.2 label outcome)
      | error fault => exact constructed

/-! ## Successors and predecessors -/

section Neighbours

variable {graph : Digraph α β}

theorem mem_edgesWith {property : Edge β → Bool} {id : EdgeId} :
    id ∈ graph.edgesWith property ↔ ∃ edge, graph.edges[id]? = some edge ∧ property edge := by
  simp only [edgesWith, List.mem_filter, List.mem_range, edgeCount, Option.any_eq_true]
  constructor
  · rintro ⟨_, edge, found, has⟩
    exact ⟨edge, found, has⟩
  · rintro ⟨edge, found, has⟩
    obtain ⟨bound, _⟩ := Array.getElem?_eq_some_iff.mp found
    exact ⟨bound, edge, found, has⟩

theorem pairwise_edgesWith (property : Edge β → Bool) :
    (graph.edgesWith property).Pairwise (· < ·) :=
  List.pairwise_lt_range.filter _

theorem count_edgesWith {property : Edge β → Bool} {id : EdgeId} {edge : Edge β}
    (found : graph.edges[id]? = some edge) :
    (graph.edgesWith property).count id = if property edge then 1 else 0 := by
  have distinct : (graph.edgesWith property).Nodup := List.nodup_range.filter _
  have member : id ∈ graph.edgesWith property ↔ property edge := by
    rw [mem_edgesWith, found]
    simp
  rw [distinct.count]
  simp only [member]

theorem filterMap_edgesWith (property : Edge β → Bool) :
    (graph.edgesWith property).filterMap (graph.edges[·]?) =
      graph.edges.toList.filter property := by
  have listed : (List.range graph.edgeCount).map (graph.edges[·]?) =
      graph.edges.toList.map some := by
    apply List.ext_getElem <;> simp [edgeCount]
  have all : (List.range graph.edgeCount).filterMap (graph.edges[·]?) = graph.edges.toList := by
    simpa [List.filterMap_map] using congrArg (List.filterMap id) listed
  rw [← all, List.filter_filterMap, edgesWith, List.filterMap_filter]
  congr
  funext id
  cases graph.edges[id]? with
  | none => rfl
  | some edge => by_cases has : property edge <;> simp [Option.filter, has]

theorem map_filterMap_edgesWith (property : Edge β → Bool) (shown : Edge β → NodeId) :
    ((graph.edgesWith property).filterMap fun id => graph.edges[id]?.map (id, ·)).map
        (fun listed => shown listed.2) =
      (graph.edges.toList.filter property).map shown := by
  rw [← filterMap_edgesWith, List.map_filterMap, List.map_filterMap]
  simp [Function.comp_def]

theorem successors_eq (wellFormed : graph.WellFormed) (node : NodeId) :
    graph.successors node =
      (graph.edges.toList.filter fun edge => edge.source = node).map (·.target) := by
  rw [successors, outgoingEdges, wellFormed.outgoingExact]
  exact map_filterMap_edgesWith _ Edge.target

theorem predecessors_eq (wellFormed : graph.WellFormed) (node : NodeId) :
    graph.predecessors node =
      (graph.edges.toList.filter fun edge => edge.target = node).map (·.source) := by
  rw [predecessors, incomingEdges, wellFormed.incomingExact]
  exact map_filterMap_edgesWith _ Edge.source

theorem mem_successors (wellFormed : graph.WellFormed) {source target : NodeId} :
    target ∈ graph.successors source ↔
      ∃ edge ∈ graph.edges, edge.source = source ∧ edge.target = target := by
  simp only [successors_eq wellFormed, List.mem_map, List.mem_filter, Array.mem_toList_iff,
    decide_eq_true_iff, and_assoc]

theorem mem_predecessors (wellFormed : graph.WellFormed) {source target : NodeId} :
    source ∈ graph.predecessors target ↔
      ∃ edge ∈ graph.edges, edge.source = source ∧ edge.target = target := by
  simp only [predecessors_eq wellFormed, List.mem_map, List.mem_filter, Array.mem_toList_iff,
    decide_eq_true_iff]
  grind

theorem mem_predecessors_iff (wellFormed : graph.WellFormed) {source target : NodeId} :
    source ∈ graph.predecessors target ↔ target ∈ graph.successors source := by
  rw [mem_predecessors wellFormed, mem_successors wellFormed]

theorem count_successors (wellFormed : graph.WellFormed) (source target : NodeId) :
    (graph.successors source).count target = (graph.predecessors target).count source := by
  rw [successors_eq wellFormed, predecessors_eq wellFormed, List.count, List.count,
    List.countP_map, List.countP_map, List.countP_filter, List.countP_filter]
  congr 1
  funext edge
  simp only [Function.comp_apply, beq_eq_decide, Bool.and_comm]

theorem lt_of_mem_successors (wellFormed : graph.WellFormed) {source target : NodeId}
    (joined : target ∈ graph.successors source) :
    source < graph.nodeCount ∧ target < graph.nodeCount := by
  obtain ⟨edge, member, rfl, rfl⟩ := (mem_successors wellFormed).mp joined
  exact wellFormed.endpoints edge member

/-- An edge ends at one node only. -/
theorem sum_length_filter_le (finish : Edge β → NodeId) (count : Nat) (edges : List (Edge β)) :
    ∑ node ∈ Finset.range count, (edges.filter fun edge => finish edge = node).length ≤
      edges.length := by
  induction edges with
  | nil => simp
  | cons edge rest ih =>
      have once : ∑ node ∈ Finset.range count, (if finish edge = node then 1 else 0) ≤ 1 := by
        rw [Finset.sum_ite_eq]
        split <;> simp
      have first : ∀ node, ((edge :: rest).filter fun edge => finish edge = node).length =
          (if finish edge = node then 1 else 0) +
            (rest.filter fun edge => finish edge = node).length := by
        intro node
        by_cases ends : finish edge = node
        · simp [ends, Nat.add_comm]
        · simp [ends]
      simp only [first, Finset.sum_add_distrib, List.length_cons]
      omega

theorem sum_length_successors_le (wellFormed : graph.WellFormed) :
    ∑ node ∈ Finset.range graph.nodeCount, (graph.successors node).length ≤
      graph.edgeCount := by
  simp only [successors_eq wellFormed, List.length_map]
  exact sum_length_filter_le Edge.source graph.nodeCount graph.edges.toList

theorem sum_length_predecessors_le (wellFormed : graph.WellFormed) :
    ∑ node ∈ Finset.range graph.nodeCount, (graph.predecessors node).length ≤
      graph.edgeCount := by
  simp only [predecessors_eq wellFormed, List.length_map]
  exact sum_length_filter_le Edge.target graph.nodeCount graph.edges.toList

end Neighbours

end SymbolicFlow.Digraph
