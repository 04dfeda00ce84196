import Mathlib.Data.List.TakeWhile
import SymbolicFlow.Digraph.Frontier
import SymbolicFlow.Proofs.Digraph.Dominators

/-!
# Dominance frontiers

The runner that starts at a predecessor of a node goes up the tree as far as the node's
immediate dominator.  What it meets are the dominators of the predecessor that do not strictly
dominate the node; `mem_frontiers` states this for the finished table, and `frontiers_exact` with
dominance as it stands on paths.
-/

set_option autoImplicit false

namespace SymbolicFlow.Digraph

open ParentTable DominatorTree

variable {α β : Type} {graph : Digraph α β} {entry : NodeId}

private theorem mem_takeWhile_ne {rank : NodeId → Nat} {chain : List NodeId} {stop node : NodeId}
    (falling : chain.Pairwise fun nearer farther => rank farther < rank nearer)
    (listed : stop ∈ chain) :
    (node ∈ chain.takeWhile fun runner => some runner != some stop) ↔
      node ∈ chain ∧ rank stop < rank node := by
  induction chain with
  | nil => cases listed
  | cons first rest ih =>
      obtain ⟨lower, restFalling⟩ := List.pairwise_cons.mp falling
      by_cases same : first = stop
      · subst same
        simp only [bne_self_eq_false, Bool.false_eq_true, not_false_eq_true,
          List.takeWhile_cons_of_neg, List.not_mem_nil, false_iff, not_and, Nat.not_lt]
        intro member
        rcases List.mem_cons.mp member with rfl | member
        · exact Nat.le_refl _
        · exact Nat.le_of_lt (lower node member)
      · have later : stop ∈ rest := (List.mem_cons.mp listed).resolve_left (Ne.symm same)
        have goesOn : (some first != some stop) = true := by simpa using same
        rw [List.takeWhile_cons, if_pos goesOn, List.mem_cons, List.mem_cons, ih restFalling later]
        constructor
        · rintro (rfl | ⟨member, higher⟩)
          · exact ⟨Or.inl rfl, lower stop later⟩
          · exact ⟨Or.inr member, higher⟩
        · rintro ⟨rfl | member, higher⟩
          · exact Or.inl rfl
          · exact Or.inr ⟨member, higher⟩

section Frontier

variable (wellFormed : graph.WellFormed) (inRange : entry < graph.nodeCount)
include wellFormed inRange

theorem mem_cons_strictDominators {node ancestor : NodeId} :
    ancestor ∈ node :: (graph.dominatorTree entry).strictDominators node ↔
      (graph.dominatorTree entry).parents.Above ancestor node := by
  rw [List.mem_cons, mem_strictDominators wellFormed inRange]
  constructor
  · rintro (rfl | ⟨above, _⟩)
    · exact .self
    · exact above
  · intro above
    by_cases same : ancestor = node
    · exact Or.inl same
    · exact Or.inr ⟨above, same⟩

theorem pairwise_cons_strictDominators {node : NodeId} (reachable : graph.Reachable entry node) :
    (node :: (graph.dominatorTree entry).strictDominators node).Pairwise
      fun nearer farther => graph.rankFrom entry farther < graph.rankFrom entry nearer := by
  have rooted := rooted_dominatorTree wellFormed inRange
  refine List.pairwise_cons.mpr ⟨?_, pairwise_ancestorsWithin rooted _
    (rankFrom_le_size wellFormed inRange reachable)⟩
  intro farther member
  obtain ⟨above, different⟩ := (mem_strictDominators wellFormed inRange).mp member
  exact (rooted.eq_or_rank_lt above).resolve_left different

/-- From a predecessor upwards, the runner stops where strict dominance of the node begins. -/
theorem mem_takeWhile_strictDominators {node owner predecessor : NodeId}
    (reachable : graph.Reachable entry node) (edge : node ∈ graph.successors predecessor)
    (predecessorReachable : graph.Reachable entry predecessor) :
    (owner ∈ (predecessor :: (graph.dominatorTree entry).strictDominators predecessor).takeWhile
        fun runner => some runner != (graph.dominatorTree entry).parent? node) ↔
      (graph.dominatorTree entry).parents.Above owner predecessor ∧
        ¬ ((graph.dominatorTree entry).parents.Above owner node ∧ owner ≠ node) := by
  have rooted := rooted_dominatorTree wellFormed inRange
  by_cases atEntry : node = entry
  · subst atEntry
    have noStop : (graph.dominatorTree node).parent? node = none := by
      simp [DominatorTree.parent?, dominatorTree]
    have all : (predecessor ::
        (graph.dominatorTree node).strictDominators predecessor).takeWhile
          (fun runner => some runner != none) =
        predecessor :: (graph.dominatorTree node).strictDominators predecessor :=
      List.takeWhile_eq_self_iff.mpr fun _ _ => rfl
    rw [noStop, all, mem_cons_strictDominators wellFormed inRange]
    constructor
    · intro above
      refine ⟨above, fun strict => ?_⟩
      exact strict.2 (rooted.eq_entry_of_above strict.1)
    · exact fun both => both.1
  · obtain ⟨stop, found, exact⟩ :=
      exists_parent_dominatorTree wellFormed inRange reachable atEntry
    have stopAbove := (exact stop).mp .self predecessor edge predecessorReachable
    have falling := pairwise_cons_strictDominators wellFormed inRange predecessorReachable
    have listed := (mem_cons_strictDominators wellFormed inRange).mpr stopAbove
    rw [parent?_eq_some_iff.mpr ⟨atEntry, found⟩, mem_takeWhile_ne falling listed,
      mem_cons_strictDominators wellFormed inRange]
    refine and_congr_right fun above => ?_
    constructor
    · intro higher strict
      have below := rooted.rank_le (strict.1.of_ne strict.2 found)
      omega
    · intro notStrict
      by_contra lower
      have aboveStop := rooted.above_of_rank_le above stopAbove (Nat.le_of_not_lt lower)
      have falls := rooted.descends found atEntry
      have below := rooted.rank_le aboveStop
      refine notStrict ⟨.up found aboveStop, ?_⟩
      intro same
      subst same
      omega

theorem mem_frontierOwners {node owner : NodeId} :
    owner ∈ graph.frontierOwners (graph.dominatorTree entry) node ↔
      graph.Reachable entry node ∧
      (∃ predecessor, node ∈ graph.successors predecessor ∧
        graph.Reachable entry predecessor ∧
        (graph.dominatorTree entry).parents.Above owner predecessor) ∧
      ¬ ((graph.dominatorTree entry).parents.Above owner node ∧ owner ≠ node) := by
  rw [frontierOwners]
  by_cases reachable : graph.Reachable entry node
  · rw [if_pos ((isReachable_dominatorTree wellFormed inRange).mpr reachable)]
    simp only [List.mem_flatMap, List.mem_filter, mem_predecessors_iff wellFormed,
      isReachable_dominatorTree wellFormed inRange, reachable, true_and]
    constructor
    · rintro ⟨predecessor, ⟨edge, predecessorReachable⟩, met⟩
      obtain ⟨above, notStrict⟩ := (mem_takeWhile_strictDominators wellFormed inRange reachable
        edge predecessorReachable).mp met
      exact ⟨⟨predecessor, edge, predecessorReachable, above⟩, notStrict⟩
    · rintro ⟨⟨predecessor, edge, predecessorReachable, above⟩, notStrict⟩
      exact ⟨predecessor, ⟨edge, predecessorReachable⟩,
        (mem_takeWhile_strictDominators wellFormed inRange reachable edge
          predecessorReachable).mpr ⟨above, notStrict⟩⟩
  · have answer := mt (isReachable_dominatorTree wellFormed inRange).mp reachable
    rw [if_neg answer]
    simp [reachable]

omit wellFormed inRange in
private theorem filterMap_frontierOwners {tree : DominatorTree} (owner : NodeId)
    (nodes : List NodeId) :
    ((nodes.map fun node => (node, graph.frontierOwners tree node)).filterMap
      fun (node, its) => if its.contains owner then some node else none) =
    nodes.filter fun node => (graph.frontierOwners tree node).contains owner := by
  induction nodes with
  | nil => rfl
  | cons first rest ih =>
      rw [List.map_cons, List.filterMap_cons, List.filter_cons, ih]
      dsimp only
      cases (graph.frontierOwners tree first).contains owner <;> rfl

omit wellFormed inRange in
private theorem getD_frontiers {tree : DominatorTree} (owner : NodeId) :
    (graph.frontiers tree).getD owner [] =
      if owner < graph.nodeCount then
        graph.nodeIds.filter fun node => (graph.frontierOwners tree node).contains owner
      else [] := by
  simp only [frontiers, Array.getD_eq_getD_getElem?, List.getElem?_toArray, List.getElem?_map]
  by_cases inside : owner < graph.nodeCount
  · rw [nodeIds, List.getElem?_range inside, if_pos inside]
    exact filterMap_frontierOwners owner _
  · have outside : graph.nodeIds[owner]? = none := by
      rw [nodeIds, List.getElem?_eq_none_iff, List.length_range]
      exact Nat.le_of_not_lt inside
    rw [outside, if_neg inside]
    rfl

omit wellFormed inRange in
theorem mem_frontiers {tree : DominatorTree} {node owner : NodeId} :
    node ∈ (graph.frontiers tree).getD owner [] ↔
      owner < graph.nodeCount ∧ node < graph.nodeCount ∧
        owner ∈ graph.frontierOwners tree node := by
  rw [getD_frontiers]
  split
  · rename_i inside
    simp only [List.mem_filter, nodeIds, List.mem_range, List.contains_iff_mem, inside, true_and]
  · rename_i outside
    simp [outside]

omit wellFormed inRange in
theorem pairwise_frontiers (tree : DominatorTree) (owner : NodeId) :
    ((graph.frontiers tree).getD owner []).Pairwise (· < ·) := by
  rw [getD_frontiers]
  split
  · exact List.pairwise_lt_range.filter _
  · exact List.Pairwise.nil

omit wellFormed inRange in
theorem nodup_frontiers (tree : DominatorTree) (owner : NodeId) :
    ((graph.frontiers tree).getD owner []).Nodup :=
  (pairwise_frontiers tree owner).imp Nat.ne_of_lt

theorem mem_frontiers_dominatorTree (owner node : NodeId) :
    node ∈ (graph.frontiers (graph.dominatorTree entry)).getD owner [] ↔
      graph.Reachable entry owner ∧ graph.Reachable entry node ∧
      (∃ predecessor ∈ graph.predecessors node,
        graph.Reachable entry predecessor ∧ graph.Dominates entry owner predecessor) ∧
      ¬ graph.StrictlyDominates entry owner node := by
  have above {owner node : NodeId} (reachable : graph.Reachable entry node) :=
    above_dominatorTree_iff wellFormed inRange reachable owner
  rw [mem_frontiers, mem_frontierOwners wellFormed inRange]
  constructor
  · rintro ⟨-, -, reachable, ⟨predecessor, edge, met, upward⟩, notStrict⟩
    have dominates := (above met).mp upward
    obtain ⟨nodes, path⟩ := met
    refine ⟨path.reachable_of_mem (dominates nodes path), reachable,
      ⟨predecessor, (mem_predecessors_iff wellFormed).mpr edge, ⟨nodes, path⟩, dominates⟩, ?_⟩
    intro strict
    exact notStrict ⟨(above reachable).mpr strict.2, strict.1⟩
  · rintro ⟨ownerReachable, reachable, ⟨predecessor, edge, met, dominates⟩, notStrict⟩
    refine ⟨ownerReachable.lt wellFormed inRange, reachable.lt wellFormed inRange, reachable,
      ⟨predecessor, (mem_predecessors_iff wellFormed).mp edge, met, (above met).mpr dominates⟩, ?_⟩
    intro strict
    exact notStrict ⟨strict.2, (above reachable).mp strict.1⟩

end Frontier

theorem not_strictlyDominates_entry (owner : NodeId) :
    ¬ graph.StrictlyDominates entry owner entry := by
  intro strict
  have member := strict.2 [entry] .single
  exact strict.1 (List.mem_singleton.mp member)

/-- A table of frontiers that says where dominance ends. -/
structure ExactFrontiers (graph : Digraph α β) (entry : NodeId)
    (frontiers : Array (List NodeId)) : Prop where
  size : frontiers.size = graph.nodeCount
  mem_iff : ∀ owner node, node ∈ frontiers.getD owner [] ↔
    graph.Reachable entry owner ∧ graph.Reachable entry node ∧
    (∃ predecessor ∈ graph.predecessors node,
      graph.Reachable entry predecessor ∧ graph.Dominates entry owner predecessor) ∧
    ¬ graph.StrictlyDominates entry owner node
  ascending : ∀ owner, (frontiers.getD owner []).Pairwise (· < ·)
  /-- Nothing strictly dominates the entry, so every edge back to it counts. -/
  loopsToEntry : ∀ predecessor ∈ graph.predecessors entry, graph.Reachable entry predecessor →
    ∀ owner, graph.Dominates entry owner predecessor → entry ∈ frontiers.getD owner []
  unreachable : ∀ node, ¬ graph.Reachable entry node →
    frontiers.getD node [] = [] ∧ ∀ owner, node ∉ frontiers.getD owner []

/-- The runners from the predecessors of the joins enumerate the frontiers. -/
theorem frontiers_exact (constructed : graph.Constructed) (inRange : entry < graph.nodeCount) :
    graph.ExactFrontiers entry (graph.frontiers (graph.dominatorTree entry)) := by
  have wellFormed := constructed.wellFormed
  have mem_iff := mem_frontiers_dominatorTree wellFormed inRange
  refine ⟨?_, mem_iff, pairwise_frontiers _, ?_, ?_⟩
  · simp [frontiers, nodeIds]
  · intro predecessor edge reachable owner dominates
    obtain ⟨nodes, path⟩ := reachable
    apply (mem_iff owner entry).mpr
    exact ⟨path.reachable_of_mem (dominates nodes path), .refl graph entry,
      ⟨predecessor, edge, ⟨nodes, path⟩, dominates⟩, not_strictlyDominates_entry owner⟩
  · intro node unreachable
    constructor
    · apply List.eq_nil_iff_forall_not_mem.mpr
      intro other member
      exact unreachable ((mem_iff node other).mp member).1
    · intro owner member
      exact unreachable ((mem_iff owner node).mp member).2.1

/-- A graph with a doubled edge, a self-loop, an edge back to its entry and a node that leads into
it from outside. -/
def doubledLoop : Digraph Unit Unit :=
  (((Digraph.empty.addNode ()).addNode ()).addNode ()).addEdges ()
    [(0, 1), (0, 1), (1, 1), (1, 0), (2, 1), (2, 0)] |>.1

theorem constructed_doubledLoop : doubledLoop.Constructed :=
  .addEdges () _ (.addNode () (.addNode () (.addNode () .empty)))

theorem frontiers_exact_doubledLoop :
    0 < doubledLoop.nodeCount ∧
      doubledLoop.ExactFrontiers 0 (doubledLoop.frontiers (doubledLoop.dominatorTree 0)) :=
  ⟨by decide, frontiers_exact constructed_doubledLoop (by decide)⟩

example : doubledLoop.frontiers (doubledLoop.dominatorTree 0) = #[[0], [0, 1], []] := by
  decide

end SymbolicFlow.Digraph
