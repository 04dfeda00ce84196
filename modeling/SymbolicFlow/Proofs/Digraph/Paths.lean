import Mathlib.Logic.Relation
import SymbolicFlow.Proofs.Digraph.Representation

/-!
# Paths and dominance

A path lists the nodes that are met on the way from its start to its end, both included; it
may come back to a node.  A node dominates another if every path from the entry to the other
runs through it.

`Leads` is the same notion without the list: it only says that a path exists all of whose
nodes after the first have some property.  Such paths compose, which lists of nodes do less
readily, and paths that avoid a node are the case of interest.
-/

set_option autoImplicit false

namespace SymbolicFlow.Digraph

variable {α β : Type}

/-- `graph.Path start nodes last`: the nodes lead from `start` to `last` along edges. -/
inductive Path (graph : Digraph α β) (start : NodeId) : List NodeId → NodeId → Prop where
  | single : Path graph start [start] start
  | step {nodes : List NodeId} {last next : NodeId} :
      Path graph start nodes last → next ∈ graph.successors last →
        Path graph start (nodes ++ [next]) next

def Reachable (graph : Digraph α β) (start node : NodeId) : Prop :=
  ∃ nodes, graph.Path start nodes node

def Dominates (graph : Digraph α β) (entry dominator node : NodeId) : Prop :=
  ∀ nodes, graph.Path entry nodes node → dominator ∈ nodes

def StrictlyDominates (graph : Digraph α β) (entry dominator node : NodeId) : Prop :=
  dominator ≠ node ∧ graph.Dominates entry dominator node

/-- There is a path from one node to another on which every node but the first has the
property. -/
def Leads (graph : Digraph α β) (property : NodeId → Prop) : NodeId → NodeId → Prop :=
  Relation.ReflTransGen fun source target =>
    target ∈ graph.successors source ∧ property target

section Laws

variable {graph : Digraph α β} {start entry : NodeId}

theorem Path.start_mem {nodes : List NodeId} {last : NodeId}
    (path : graph.Path start nodes last) : start ∈ nodes := by
  induction path with
  | single => exact List.mem_singleton_self start
  | step _ _ previous => exact List.mem_append_left _ previous

theorem Path.last_mem {nodes : List NodeId} {last : NodeId}
    (path : graph.Path start nodes last) : last ∈ nodes := by
  cases path with
  | single => exact List.mem_singleton_self start
  | step _ _ => simp

theorem Reachable.refl (graph : Digraph α β) (start : NodeId) : graph.Reachable start start :=
  ⟨[start], .single⟩

theorem Path.reachable_of_mem {nodes : List NodeId} {last node : NodeId}
    (path : graph.Path start nodes last) (member : node ∈ nodes) : graph.Reachable start node := by
  induction path with
  | single =>
      rw [List.mem_singleton.mp member]
      exact .refl graph start
  | @step nodes last next path edge previous =>
      rcases List.mem_append.mp member with before | atEnd
      · exact previous before
      · rw [List.mem_singleton.mp atEnd]
        exact ⟨_, path.step edge⟩

theorem Reachable.step {last next : NodeId} (reachable : graph.Reachable start last)
    (edge : next ∈ graph.successors last) : graph.Reachable start next := by
  obtain ⟨nodes, path⟩ := reachable
  exact ⟨nodes ++ [next], path.step edge⟩

theorem Reachable.induct (property : NodeId → Prop) (atStart : property start)
    (handedOn : ∀ {last next : NodeId}, property last → next ∈ graph.successors last →
      property next) {node : NodeId} (reachable : graph.Reachable start node) :
    property node := by
  obtain ⟨nodes, path⟩ := reachable
  induction path with
  | single => exact atStart
  | step _ edge previous => exact handedOn previous edge

theorem Reachable.lt (wellFormed : graph.WellFormed) (inRange : start < graph.nodeCount)
    {node : NodeId} (reachable : graph.Reachable start node) : node < graph.nodeCount :=
  reachable.induct (· < graph.nodeCount) inRange
    fun _ edge => (lt_of_mem_successors wellFormed edge).2

/-! ## Paths with a property -/

theorem Leads.mono {property weaker : NodeId → Prop} {source target : NodeId}
    (leads : graph.Leads property source target)
    (implied : ∀ node, property node → weaker node) : graph.Leads weaker source target :=
  Relation.ReflTransGen.mono (fun _ _ edge => ⟨edge.1, implied _ edge.2⟩) _ _ leads

/-- A path avoids a node from which its end cannot be reached in the same way. -/
theorem Leads.aside {property : NodeId → Prop} {avoided source target : NodeId}
    (leads : graph.Leads property source target)
    (missed : ¬ graph.Leads property avoided target) :
    source ≠ avoided ∧ graph.Leads (· ≠ avoided) source target := by
  induction leads using Relation.ReflTransGen.head_induction_on with
  | refl => exact ⟨fun same => missed (same ▸ .refl), .refl⟩
  | head edge rest previous =>
      refine ⟨fun same => ?_, previous.2.head ⟨edge.1, previous.1⟩⟩
      subst same
      exact missed (rest.head edge)

theorem exists_path_avoiding_iff {avoided node : NodeId} :
    (∃ nodes, graph.Path start nodes node ∧ avoided ∉ nodes) ↔
      start ≠ avoided ∧ graph.Leads (· ≠ avoided) start node := by
  constructor
  · rintro ⟨nodes, path, avoids⟩
    refine ⟨fun same => avoids (same ▸ path.start_mem), ?_⟩
    induction path with
    | single => exact .refl
    | @step nodes last next path edge previous =>
        have before : avoided ∉ nodes := fun member => avoids (List.mem_append_left _ member)
        have different : next ≠ avoided := fun same => avoids (by simp [same])
        exact (previous before).tail ⟨edge, different⟩
  · rintro ⟨different, leads⟩
    induction leads with
    | refl => exact ⟨[start], .single, by simpa using Ne.symm different⟩
    | tail _ edge previous =>
        obtain ⟨nodes, path, avoids⟩ := previous
        refine ⟨nodes ++ [_], path.step edge.1, ?_⟩
        simpa using ⟨avoids, Ne.symm edge.2⟩

theorem not_dominates_iff {dominator node : NodeId} :
    ¬ graph.Dominates entry dominator node ↔
      entry ≠ dominator ∧ graph.Leads (· ≠ dominator) entry node := by
  rw [← exists_path_avoiding_iff]
  simp only [Dominates, not_forall, exists_prop]

/-! ## Dominance -/

theorem Dominates.of_successor {dominator last next : NodeId}
    (dominates : graph.Dominates entry dominator next) (different : dominator ≠ next)
    (edge : next ∈ graph.successors last) : graph.Dominates entry dominator last := by
  intro nodes path
  have member := dominates _ (path.step edge)
  rcases List.mem_append.mp member with before | atEnd
  · exact before
  · exact absurd (List.mem_singleton.mp atEnd) different

/-- A detour that avoids the dominator would be missed by it. -/
theorem Dominates.of_leads {dominator between node : NodeId}
    (dominates : graph.Dominates entry dominator node)
    (leads : graph.Leads (· ≠ dominator) between node) :
    graph.Dominates entry dominator between := by
  by_contra missed
  obtain ⟨different, reaches⟩ := not_dominates_iff.mp missed
  exact not_dominates_iff.mpr ⟨different, reaches.trans leads⟩ dominates

theorem Dominates.refl (graph : Digraph α β) (entry node : NodeId) :
    graph.Dominates entry node node :=
  fun _ path => path.last_mem

theorem Dominates.leads {dominator node : NodeId} (reachable : graph.Reachable entry node)
    (dominates : graph.Dominates entry dominator node) :
    graph.Leads (· ≠ dominator) dominator node := by
  obtain ⟨nodes, path⟩ := reachable
  have member := dominates nodes path
  clear dominates
  induction path with
  | single =>
      rw [List.mem_singleton.mp member]
      exact .refl
  | @step nodes last next path edge previous =>
      by_cases same : next = dominator
      · rw [same]
        exact .refl
      · have before : dominator ∈ nodes := by
          rcases List.mem_append.mp member with before | atEnd
          · exact before
          · exact absurd (List.mem_singleton.mp atEnd).symm same
        exact (previous before).tail ⟨edge, same⟩

end Laws

end SymbolicFlow.Digraph
