import SymbolicFlow.Proofs.Digraph.Dominators

/-!
# Laws of the postorder

The nodes on the path of a depth-first search lead to each other, from the bottom of the path to
its top.  When a node is finished, each of its successors is finished already or still on the path;
in the second case the successor leads back to the node.  So an edge to a node that is finished
later closes a cycle, and in reverse postorder every other edge runs forward.

The start comes first in reverse postorder, and a path through ever later nodes leads from it to
each node.  This path runs through all dominators of the node, which is why they come before it.
-/

set_option autoImplicit false

namespace SymbolicFlow.Digraph

open Search

variable {α β : Type} {graph : Digraph α β} {start : NodeId}

/-! ## Where edges lead back -/

structure Retraced (graph : Digraph α β) (path : List Frame) (finished : List NodeId) : Prop where
  climbs : path.Pairwise fun upper lower => graph.Reachable lower.node upper.node
  /-- A successor of a finished node was finished before it or leads back to it. -/
  returns : ∀ node ∈ finished, ∀ successor ∈ graph.successors node,
    [node, successor].Sublist finished ∨ graph.Reachable successor node

theorem retraced_start (graph : Digraph α β) (start : NodeId) :
    graph.Retraced [⟨start, graph.successors start⟩] [] :=
  ⟨List.pairwise_singleton _ _, fun _ member => by cases member⟩

theorem Retraced.finish {node : NodeId} {path : List Frame} {finished : List NodeId}
    (searched : graph.Searched start (⟨node, []⟩ :: path) finished)
    (retraced : graph.Retraced (⟨node, []⟩ :: path) finished) :
    graph.Retraced path (node :: finished) := by
  obtain ⟨below, climbs⟩ := List.pairwise_cons.mp retraced.climbs
  refine ⟨climbs, ?_⟩
  intro other member successor edge
  rcases List.mem_cons.mp member with rfl | member
  · rcases searched.tried _ List.mem_cons_self successor edge with waits | met
    · cases waits
    · rcases List.mem_append.mp met with onPath | done
      · obtain ⟨frame, listed, rfl⟩ := List.mem_map.mp (List.mem_reverse.mp onPath)
        right
        rcases List.mem_cons.mp listed with rfl | lower
        · exact .refl graph _
        · exact below frame lower
      · exact Or.inl ((List.singleton_sublist.mpr done).cons_cons other)
  · exact (retraced.returns other member successor edge).imp_left fun stands => stands.cons node

theorem Retraced.skip {node successor : NodeId} {untried : List NodeId} {path : List Frame}
    {finished : List NodeId}
    (retraced : graph.Retraced (⟨node, successor :: untried⟩ :: path) finished) :
    graph.Retraced (⟨node, untried⟩ :: path) finished := by
  obtain ⟨below, climbs⟩ := List.pairwise_cons.mp retraced.climbs
  exact ⟨List.pairwise_cons.mpr ⟨below, climbs⟩, retraced.returns⟩

theorem Retraced.enter {node successor : NodeId} {untried : List NodeId} {path : List Frame}
    {finished : List NodeId}
    (searched : graph.Searched start (⟨node, successor :: untried⟩ :: path) finished)
    (retraced : graph.Retraced (⟨node, successor :: untried⟩ :: path) finished) :
    graph.Retraced (⟨successor, graph.successors successor⟩ :: ⟨node, untried⟩ :: path)
      finished := by
  have edge : successor ∈ graph.successors node :=
    searched.untried _ List.mem_cons_self successor List.mem_cons_self
  obtain ⟨below, _⟩ := List.pairwise_cons.mp retraced.climbs
  refine ⟨List.pairwise_cons.mpr ⟨?_, retraced.skip.climbs⟩, retraced.returns⟩
  intro lower member
  rcases List.mem_cons.mp member with rfl | member
  · exact (Reachable.refl graph node).step edge
  · exact (below lower member).step edge

theorem retraced_reversePostorder (wellFormed : graph.WellFormed)
    (inRange : start < graph.nodeCount) :
    graph.Retraced [] (graph.reversePostorder start) := by
  refine (reversePostorder_induct wellFormed inRange
    (fun path finished => graph.Searched start path finished ∧ graph.Retraced path finished)
    ?_ ?_ ?_ ⟨searched_start graph start, retraced_start graph start⟩).2
  · exact fun known => ⟨known.1.finish, known.2.finish known.1⟩
  · exact fun met known => ⟨known.1.skip met, known.2.skip⟩
  · exact fun new known => ⟨known.1.enter new, known.2.enter known.1⟩

/-! ## Positions -/

section Rank

variable (wellFormed : graph.WellFormed) (inRange : start < graph.nodeCount)
include wellFormed inRange

/-- Only an edge that closes a cycle leads to a lower rank. -/
theorem rankFrom_lt_of_not_reachable {source target : NodeId}
    (reachable : graph.Reachable start source) (edge : target ∈ graph.successors source)
    (apart : ¬ graph.Reachable target source) :
    graph.rankFrom start source < graph.rankFrom start target := by
  have listed := (mem_reversePostorder wellFormed inRange).mpr reachable
  have stands := ((retraced_reversePostorder wellFormed inRange).returns source listed target
    edge).resolve_right apart
  rw [rankFrom_eq_idxOf wellFormed inRange reachable,
    rankFrom_eq_idxOf wellFormed inRange (reachable.step edge)]
  exact idxOf_lt_of_sublist (nodup_reversePostorder wellFormed inRange) stands

theorem exists_path_rankFrom_lt {node : NodeId} (reachable : graph.Reachable start node) :
    ∃ nodes, graph.Path start nodes node ∧
      ∀ other ∈ nodes, other = node ∨ graph.rankFrom start other < graph.rankFrom start node := by
  -- A predecessor of lower rank has such a path, by induction on the rank.
  induction ranked : graph.rankFrom start node using Nat.strongRecOn generalizing node with
  | ind _ ih =>
      subst ranked
      by_cases atStart : node = start
      · subst atStart
        exact ⟨[node], .single, fun other member => Or.inl (List.mem_singleton.mp member)⟩
      · obtain ⟨earlier, earlierReachable, edge, lower⟩ :=
          exists_predecessor_rankFrom_lt wellFormed inRange reachable atStart
        obtain ⟨nodes, path, before⟩ := ih _ lower earlierReachable rfl
        refine ⟨nodes ++ [node], path.step edge, ?_⟩
        intro other member
        rcases List.mem_append.mp member with onPath | atEnd
        · rcases before other onPath with rfl | below
          · exact Or.inr lower
          · exact Or.inr (Nat.lt_trans below lower)
        · exact Or.inl (List.mem_singleton.mp atEnd)

theorem rankFrom_lt_of_strictlyDominates {dominator node : NodeId}
    (reachable : graph.Reachable start node)
    (strict : graph.StrictlyDominates start dominator node) :
    graph.rankFrom start dominator < graph.rankFrom start node := by
  obtain ⟨nodes, path, before⟩ := exists_path_rankFrom_lt wellFormed inRange reachable
  exact (before dominator (strict.2 nodes path)).resolve_left strict.1

theorem getElem?_rankFrom {node : NodeId} (reachable : graph.Reachable start node) :
    (graph.reversePostorder start)[graph.rankFrom start node]? = some node := by
  have listed := (mem_reversePostorder wellFormed inRange).mpr reachable
  rw [rankFrom_eq_idxOf wellFormed inRange reachable]
  exact List.getElem?_idxOf listed

end Rank

/-! ## The laws -/

structure PostorderLaws (graph : Digraph α β) (start : NodeId) (order : List NodeId) : Prop where
  distinct : order.Nodup
  members : ∀ node, node ∈ order ↔ ∃ nodes, graph.Path start nodes node
  startLast : order.getLast? = some start
  returns : ∀ {early late : Nat} {source target : NodeId}, order[early]? = some source →
    order[late]? = some target → target ∈ graph.successors source → early < late →
    graph.Reachable target source

structure ReversePostorderLaws (graph : Digraph α β) (start : NodeId) (order : List NodeId) :
    Prop where
  forward : ∀ {early late : Nat} {source target : NodeId}, order[early]? = some source →
    order[late]? = some target → target ∈ graph.successors source →
    ¬ graph.Reachable target source → early < late
  led : ∀ {position : Nat} {node : NodeId}, order[position]? = some node → node ≠ start →
    ∃ (earlier : Nat) (predecessor : NodeId), earlier < position ∧
      order[earlier]? = some predecessor ∧ predecessor ∈ graph.predecessors node
  dominated : ∀ {position : Nat} {node dominator : NodeId}, order[position]? = some node →
    graph.StrictlyDominates start dominator node →
    ∃ earlier < position, order[earlier]? = some dominator

section Laws

variable (wellFormed : graph.WellFormed) (inRange : start < graph.nodeCount)
include wellFormed inRange

theorem reversePostorderLaws : graph.ReversePostorderLaws start (graph.reversePostorder start) := by
  have rank : ∀ {position : Nat} {node : NodeId},
      (graph.reversePostorder start)[position]? = some node →
      graph.rankFrom start node = position :=
    fun listed => rankFrom_getElem wellFormed inRange listed
  have reached : ∀ {position : Nat} {node : NodeId},
      (graph.reversePostorder start)[position]? = some node → graph.Reachable start node :=
    fun listed => (mem_reversePostorder wellFormed inRange).mp (List.mem_of_getElem? listed)
  refine ⟨?_, ?_, ?_⟩
  · intro early late source target sourceListed targetListed edge apart
    rw [← rank sourceListed, ← rank targetListed]
    exact rankFrom_lt_of_not_reachable wellFormed inRange (reached sourceListed) edge apart
  · intro position node listed other
    obtain ⟨predecessor, predecessorReached, edge, lower⟩ :=
      exists_predecessor_rankFrom_lt wellFormed inRange (reached listed) other
    rw [rank listed] at lower
    exact ⟨_, predecessor, lower, getElem?_rankFrom wellFormed inRange predecessorReached,
      (mem_predecessors_iff wellFormed).mpr edge⟩
  · intro position node dominator listed strict
    have lower := rankFrom_lt_of_strictlyDominates wellFormed inRange (reached listed) strict
    rw [rank listed] at lower
    obtain ⟨nodes, path⟩ := reached listed
    have dominatorReached := path.reachable_of_mem (strict.2 nodes path)
    exact ⟨_, lower, getElem?_rankFrom wellFormed inRange dominatorReached⟩

theorem postorderLaws : graph.PostorderLaws start (graph.postorder start) := by
  have reversed := reversePostorderLaws wellFormed inRange
  refine ⟨?_, ?_, ?_, ?_⟩
  · exact List.nodup_reverse.mpr (nodup_reversePostorder wellFormed inRange)
  · intro node
    exact List.mem_reverse.trans (mem_reversePostorder wellFormed inRange)
  · rw [postorder, List.getLast?_reverse]
    exact head?_reversePostorder wellFormed inRange
  · intro early late source target sourceListed targetListed edge later
    by_contra apart
    obtain ⟨sourceInside, _⟩ := List.getElem?_eq_some_iff.mp sourceListed
    obtain ⟨targetInside, _⟩ := List.getElem?_eq_some_iff.mp targetListed
    rw [postorder, List.length_reverse] at sourceInside targetInside
    rw [postorder, List.getElem?_reverse sourceInside] at sourceListed
    rw [postorder, List.getElem?_reverse targetInside] at targetListed
    have := reversed.forward sourceListed targetListed edge apart
    omega

end Laws

/-- The postorder lists exactly the reachable nodes, each once and the start last, and an edge to a
later node lies on a cycle.  In the reverse order every other edge runs forward, and each node but
the start comes behind one of its predecessors and behind all its strict dominators. -/
theorem postorder_lawful {graph : Digraph α β} (constructed : graph.Constructed) {start : NodeId}
    (inRange : start < graph.nodeCount) :
    graph.PostorderLaws start (graph.postorder start) ∧
      graph.reversePostorder start = (graph.postorder start).reverse ∧
      graph.ReversePostorderLaws start (graph.reversePostorder start) :=
  ⟨postorderLaws constructed.wellFormed inRange, (List.reverse_reverse _).symm,
    reversePostorderLaws constructed.wellFormed inRange⟩

/-- Of the two edges on the cycle, the one back is found by its position. -/
theorem postorder_lawful_twoEntryCycle :
    0 < twoEntryCycle.nodeCount ∧ twoEntryCycle.postorder 0 = [2, 1, 0] ∧
      twoEntryCycle.PostorderLaws 0 [2, 1, 0] ∧ twoEntryCycle.ReversePostorderLaws 0 [0, 1, 2] ∧
      twoEntryCycle.Reachable 1 2 := by
  have inRange : 0 < twoEntryCycle.nodeCount := by decide
  have order : twoEntryCycle.postorder 0 = [2, 1, 0] := by decide
  have first : [2, 1, 0][0]? = some 2 := rfl
  have second : [2, 1, 0][1]? = some 1 := rfl
  obtain ⟨laws, reverses, reversed⟩ := postorder_lawful constructed_twoEntryCycle inRange
  rw [reverses] at reversed
  rw [order] at laws reversed
  exact ⟨inRange, order, laws, reversed, laws.returns first second (by decide) Nat.one_pos⟩

end SymbolicFlow.Digraph
