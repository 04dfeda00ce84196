import Mathlib.Data.Set.Card
import SymbolicFlow.Proofs.Digraph.Settling

/-!
# The dominator tree is exact

In a settled table every candidate is the nearest common ancestor of all reachable
predecessors.  Hence what is above a node lies on every path to it, and the other inclusion
was kept through the passes.  The functions of the tree read the table, so they answer what
the paths of the graph say.
-/

set_option autoImplicit false

namespace SymbolicFlow

open ParentTable

variable {α β : Type}

namespace Digraph

variable {graph : Digraph α β} {entry : NodeId}

/-! ## The settled table -/

section Table

variable (wellFormed : graph.WellFormed) (inRange : entry < graph.nodeCount)
include wellFormed inRange

theorem settling_dominatorTree :
    graph.Settling entry (graph.reversePostorder entry).length
      (graph.dominatorTree entry).parents :=
  (settled_dominatorTree wellFormed inRange).settling

theorem rooted_dominatorTree :
    (graph.dominatorTree entry).parents.Rooted (graph.rankFrom entry) entry :=
  (settling_dominatorTree wellFormed inRange).rooted

theorem size_dominatorTree : (graph.dominatorTree entry).parents.size = graph.nodeCount :=
  (settling_dominatorTree wellFormed inRange).size

theorem recorded_dominatorTree_iff {node : NodeId} :
    (graph.dominatorTree entry).parents.Recorded node ↔ graph.Reachable entry node := by
  have settling := settling_dominatorTree wellFormed inRange
  constructor
  · exact settling.reachable
  · intro reachable
    refine settling.filled reachable ?_
    rw [rankFrom_eq_idxOf wellFormed inRange reachable]
    exact List.idxOf_lt_length_of_mem ((mem_reversePostorder wellFormed inRange).mpr reachable)

theorem exists_parent_dominatorTree {node : NodeId} (reachable : graph.Reachable entry node)
    (notEntry : node ≠ entry) :
    ∃ parent, (graph.dominatorTree entry).parents.parent? node = some parent ∧
      ∀ ancestor, (graph.dominatorTree entry).parents.Above ancestor parent ↔
        ∀ predecessor, node ∈ graph.successors predecessor →
          graph.Reachable entry predecessor →
          (graph.dominatorTree entry).parents.Above ancestor predecessor := by
  have settled := settled_dominatorTree wellFormed inRange
  have listed := (mem_reversePostorder wellFormed inRange).mpr reachable
  have inside : node < (graph.dominatorTree entry).parents.size := by
    rw [size_dominatorTree wellFormed inRange]
    exact reachable.lt wellFormed inRange
  have turn : graph.rankFrom entry node ≤ (graph.reversePostorder entry).length := by
    rw [rankFrom_eq_idxOf wellFormed inRange reachable]
    exact Nat.le_of_lt (List.idxOf_lt_length_of_mem listed)
  have behind : node ∈ (graph.reversePostorder entry).tail := by
    have first := head?_reversePostorder wellFormed inRange
    cases whole : graph.reversePostorder entry with
    | nil => simp [whole] at listed
    | cons head rest =>
        rw [whole] at first listed
        cases first
        exact (List.mem_cons.mp listed).resolve_left notEntry
  obtain ⟨parent, candidate⟩ := settled.settling.exists_candidate wellFormed inRange reachable
    notEntry turn
  refine ⟨parent, ?_, ?_⟩
  · have found := candidate.parent?_refined inside node
    rw [settled.fixed node behind, if_pos rfl] at found
    exact found
  · intro ancestor
    rw [candidate.exact]
    simp only [recorded_dominatorTree_iff wellFormed inRange]

theorem above_dominatorTree_iff {node : NodeId} (reachable : graph.Reachable entry node)
    (ancestor : NodeId) :
    (graph.dominatorTree entry).parents.Above ancestor node ↔
      graph.Dominates entry ancestor node := by
  have rooted := rooted_dominatorTree wellFormed inRange
  constructor
  · -- Follow the path: what is above a node is above the node before it on the path.
    intro above nodes path
    clear reachable
    induction path with
    | single =>
        rw [rooted.eq_entry_of_above above]
        exact List.mem_singleton_self entry
    | @step nodes last next path edge previous =>
        by_cases atEntry : next = entry
        · subst atEntry
          rw [rooted.eq_entry_of_above above]
          exact List.mem_append_left _ path.start_mem
        · by_cases same : ancestor = next
          · simp [same]
          · obtain ⟨parent, found, exact⟩ := exists_parent_dominatorTree wellFormed inRange
              (Reachable.step ⟨nodes, path⟩ edge) atEntry
            have onward := (exact ancestor).mp (above.of_ne same found) last edge ⟨nodes, path⟩
            exact List.mem_append_left _ (previous onward)
  · exact (settling_dominatorTree wellFormed inRange).dominators
      ((recorded_dominatorTree_iff wellFormed inRange).mpr reachable)

end Table

end Digraph

/-! ## Reading the table -/

namespace DominatorTree

variable {tree : DominatorTree} {rank : NodeId → Nat} {node parent ancestor : NodeId}

theorem parent?_eq_some_iff :
    tree.parent? node = some parent ↔
      node ≠ tree.entry ∧ tree.parents.parent? node = some parent := by
  rw [parent?]
  split <;> simp_all

theorem mem_ancestorsWithin (rooted : tree.parents.Rooted rank tree.entry) (steps : Nat)
    (enough : rank node ≤ steps) :
    ancestor ∈ tree.ancestorsWithin steps node ↔
      tree.parents.Above ancestor node ∧ ancestor ≠ node := by
  induction steps generalizing node with
  | zero =>
      simp only [ancestorsWithin, List.not_mem_nil, false_iff, not_and, not_not]
      intro above
      rcases rooted.eq_or_rank_lt above with same | lower
      · exact same
      · omega
  | succ steps ih =>
      rw [ancestorsWithin]
      cases found : tree.parent? node with
      | none =>
          simp only [List.not_mem_nil, false_iff, not_and, not_not]
          intro above
          by_cases atEntry : node = tree.entry
          · subst atEntry
            exact rooted.eq_entry_of_above above
          · cases above with
            | self => rfl
            | up onward _ =>
                have := parent?_eq_some_iff.mpr ⟨atEntry, onward⟩
                rw [found] at this
                cases this
      | some parent =>
          obtain ⟨notEntry, onward⟩ := parent?_eq_some_iff.mp found
          have falls := rooted.descends onward notEntry
          rw [List.mem_cons, ih (by omega)]
          constructor
          · rintro (rfl | ⟨above, _⟩)
            · exact ⟨.up onward .self, fun same => by rw [same] at falls; omega⟩
            · refine ⟨.up onward above, fun same => ?_⟩
              have := rooted.rank_le above
              rw [same] at this
              omega
          · rintro ⟨above, different⟩
            have aboveParent := above.of_ne different onward
            by_cases same : ancestor = parent
            · exact Or.inl same
            · exact Or.inr ⟨aboveParent, same⟩

theorem pairwise_ancestorsWithin (rooted : tree.parents.Rooted rank tree.entry) (steps : Nat)
    (enough : rank node ≤ steps) :
    (tree.ancestorsWithin steps node).Pairwise fun nearer farther => rank farther < rank nearer := by
  induction steps generalizing node with
  | zero => exact List.Pairwise.nil
  | succ steps ih =>
      rw [ancestorsWithin]
      cases found : tree.parent? node with
      | none => exact List.Pairwise.nil
      | some parent =>
          obtain ⟨notEntry, onward⟩ := parent?_eq_some_iff.mp found
          have falls := rooted.descends onward notEntry
          refine List.pairwise_cons.mpr ⟨?_, ih (by omega)⟩
          intro farther member
          obtain ⟨above, different⟩ := (mem_ancestorsWithin rooted steps (by omega)).mp member
          exact (rooted.eq_or_rank_lt above).resolve_left different

theorem eq_of_above_of_not_recorded (missing : ¬ tree.parents.Recorded node)
    (above : tree.parents.Above ancestor node) : ancestor = node := by
  cases above with
  | self => rfl
  | up found _ => exact absurd (.of_parent found) missing

theorem parent?_of_not_recorded (missing : ¬ tree.parents.Recorded node) :
    tree.parent? node = none := by
  cases found : tree.parent? node with
  | none => rfl
  | some parent => exact absurd (.of_parent (parent?_eq_some_iff.mp found).2) missing

theorem strictDominators_of_parent?_none (none : tree.parent? node = none) :
    tree.strictDominators node = [] := by
  rw [strictDominators]
  cases tree.parents.size with
  | zero => rfl
  | succ steps => rw [ancestorsWithin, none]

end DominatorTree

/-! ## What the tree says -/

namespace Digraph

open DominatorTree

variable {graph : Digraph α β} {entry : NodeId}

section Tree

variable (wellFormed : graph.WellFormed) (inRange : entry < graph.nodeCount)
include wellFormed inRange

theorem isReachable_dominatorTree {node : NodeId} :
    (graph.dominatorTree entry).isReachable node = true ↔ graph.Reachable entry node :=
  recorded_dominatorTree_iff wellFormed inRange

theorem rankFrom_le_size {node : NodeId} (reachable : graph.Reachable entry node) :
    graph.rankFrom entry node ≤ (graph.dominatorTree entry).parents.size := by
  rw [size_dominatorTree wellFormed inRange]
  exact Nat.le_of_lt (rankFrom_lt wellFormed inRange reachable)

theorem mem_strictDominators {node ancestor : NodeId} :
    ancestor ∈ (graph.dominatorTree entry).strictDominators node ↔
      (graph.dominatorTree entry).parents.Above ancestor node ∧ ancestor ≠ node := by
  by_cases reachable : graph.Reachable entry node
  · exact mem_ancestorsWithin (rooted_dominatorTree wellFormed inRange) _
      (rankFrom_le_size wellFormed inRange reachable)
  · have missing := mt (recorded_dominatorTree_iff wellFormed inRange).mp reachable
    rw [strictDominators_of_parent?_none (parent?_of_not_recorded missing)]
    simp only [List.not_mem_nil, false_iff, not_and, not_not]
    exact eq_of_above_of_not_recorded missing

theorem dominates_dominatorTree_iff {node ancestor : NodeId} :
    (graph.dominatorTree entry).dominates ancestor node = true ↔
      (graph.dominatorTree entry).parents.Above ancestor node := by
  simp only [DominatorTree.dominates, Bool.or_eq_true, beq_iff_eq, List.contains_iff_mem,
    mem_strictDominators wellFormed inRange]
  constructor
  · rintro (rfl | ⟨above, _⟩)
    · exact .self
    · exact above
  · intro above
    by_cases same : ancestor = node
    · exact Or.inl same
    · exact Or.inr ⟨above, same⟩

theorem nodup_strictDominators {node : NodeId} :
    ((graph.dominatorTree entry).strictDominators node).Nodup := by
  by_cases reachable : graph.Reachable entry node
  · refine (pairwise_ancestorsWithin (rooted_dominatorTree wellFormed inRange) _
      (rankFrom_le_size wellFormed inRange reachable)).imp ?_
    rintro nearer farther lower rfl
    exact Nat.lt_irrefl _ lower
  · have missing := mt (recorded_dominatorTree_iff wellFormed inRange).mp reachable
    rw [strictDominators_of_parent?_none (parent?_of_not_recorded missing)]
    exact List.nodup_nil

theorem ncard_strictDominators {node : NodeId} (reachable : graph.Reachable entry node) :
    {dominator | graph.StrictlyDominates entry dominator node}.ncard =
      (graph.dominatorTree entry).depth node := by
  have same : {dominator | graph.StrictlyDominates entry dominator node} =
      ((graph.dominatorTree entry).strictDominators node).toFinset := by
    ext dominator
    simp only [StrictlyDominates, Set.mem_ofPred_eq, List.coe_toFinset,
      mem_strictDominators wellFormed inRange,
      above_dominatorTree_iff wellFormed inRange reachable]
    exact and_comm
  rw [same, Set.ncard_coe_finset,
    List.toFinset_card_of_nodup (nodup_strictDominators wellFormed inRange)]
  rfl

theorem mem_children_dominatorTree {node child : NodeId} :
    child ∈ (graph.dominatorTree entry).children node ↔
      (graph.dominatorTree entry).parent? child = some node := by
  have rooted := rooted_dominatorTree wellFormed inRange
  rw [parent?_eq_some_iff]
  simp only [children, List.mem_filter, List.mem_range, Bool.and_eq_true, decide_eq_true_eq,
    bne_iff_ne]
  constructor
  · rintro ⟨_, found, different⟩
    refine ⟨?_, found⟩
    rintro rfl
    cases rooted.root.symm.trans found
    exact different rfl
  · rintro ⟨notEntry, found⟩
    have reachable := (recorded_dominatorTree_iff wellFormed inRange).mp (.of_parent found)
    have falls := rooted.descends found notEntry
    refine ⟨?_, found, ?_⟩
    · rw [size_dominatorTree wellFormed inRange]
      exact reachable.lt wellFormed inRange
    · rintro rfl
      exact Nat.lt_irrefl _ falls

theorem immediate_dominatorTree {node : NodeId} (reachable : graph.Reachable entry node)
    (notEntry : node ≠ entry) :
    ∃ parent, (graph.dominatorTree entry).parent? node = some parent ∧
      graph.StrictlyDominates entry parent node ∧
      ∀ other, graph.StrictlyDominates entry other node → graph.Dominates entry other parent := by
  obtain ⟨parent, found, _⟩ := exists_parent_dominatorTree wellFormed inRange reachable notEntry
  have rooted := rooted_dominatorTree wellFormed inRange
  have parentReachable : graph.Reachable entry parent :=
    (recorded_dominatorTree_iff wellFormed inRange).mp (rooted.closed found)
  have onward := above_dominatorTree_iff wellFormed inRange reachable
  refine ⟨parent, parent?_eq_some_iff.mpr ⟨notEntry, found⟩, ⟨?_, ?_⟩, ?_⟩
  · intro same
    subst same
    exact Nat.lt_irrefl _ (rooted.descends found notEntry)
  · exact (onward parent).mp (.up found .self)
  · intro other strict
    refine (above_dominatorTree_iff wellFormed inRange parentReachable other).mp ?_
    exact ((onward other).mpr strict.2).of_ne strict.1 found

end Tree

end Digraph

/-- The answers of a tree are the facts about paths from the entry. -/
structure DominatorTree.Exact (tree : DominatorTree) (graph : Digraph α β) (entry : NodeId) :
    Prop where
  reachable : ∀ node, tree.isReachable node = true ↔ ∃ nodes, graph.Path entry nodes node
  dominates : ∀ node, graph.Reachable entry node → ∀ dominator,
    tree.dominates dominator node = true ↔ ∀ nodes, graph.Path entry nodes node → dominator ∈ nodes
  unreachable : ∀ node, ¬ graph.Reachable entry node → ∀ dominator,
    tree.dominates dominator node = true ↔ dominator = node
  /-- The immediate dominator is the strict dominator that all other ones dominate. -/
  immediate : ∀ node, graph.Reachable entry node → node ≠ entry →
    ∃ parent, tree.parent? node = some parent ∧ graph.StrictlyDominates entry parent node ∧
      ∀ other, graph.StrictlyDominates entry other node → other ≠ parent →
        graph.Dominates entry other parent
  noParent : ∀ node, node = entry ∨ ¬ graph.Reachable entry node → tree.parent? node = none
  depth : ∀ node, graph.Reachable entry node →
    tree.depth node = {dominator | graph.StrictlyDominates entry dominator node}.ncard
  noDepth : ∀ node, ¬ graph.Reachable entry node → tree.depth node = 0
  childrenAscend : ∀ node, (tree.children node).Pairwise (· < ·)
  children : ∀ node child, child ∈ tree.children node ↔ tree.parent? child = some node

open SymbolicFlow.Digraph DominatorTree in
/-- The dominator tree answers exactly what the paths of the graph say. -/
theorem dominatorTree_exact {graph : Digraph α β} (constructed : graph.Constructed)
    {entry : NodeId} (inRange : entry < graph.nodeCount) :
    (graph.dominatorTree entry).Exact graph entry := by
  have wellFormed := constructed.wellFormed
  have missing : ∀ {node}, ¬ graph.Reachable entry node →
      (graph.dominatorTree entry).parent? node = none := fun unreachable =>
    parent?_of_not_recorded (mt (recorded_dominatorTree_iff wellFormed inRange).mp unreachable)
  refine ⟨?_, ?_, ?_, ?_, ?_, ?_, ?_, ?_, ?_⟩
  · intro node
    exact isReachable_dominatorTree wellFormed inRange
  · intro node reachable dominator
    rw [dominates_dominatorTree_iff wellFormed inRange]
    exact above_dominatorTree_iff wellFormed inRange reachable dominator
  · intro node unreachable dominator
    rw [dominates_dominatorTree_iff wellFormed inRange]
    constructor
    · exact eq_of_above_of_not_recorded
        (mt (recorded_dominatorTree_iff wellFormed inRange).mp unreachable)
    · rintro rfl
      exact .self
  · intro node reachable notEntry
    obtain ⟨parent, found, strict, last⟩ :=
      immediate_dominatorTree wellFormed inRange reachable notEntry
    exact ⟨parent, found, strict, fun other isStrict _ => last other isStrict⟩
  · rintro node (rfl | unreachable)
    · simp [DominatorTree.parent?, dominatorTree]
    · exact missing unreachable
  · intro node reachable
    exact (ncard_strictDominators wellFormed inRange reachable).symm
  · intro node unreachable
    rw [DominatorTree.depth, strictDominators_of_parent?_none (missing unreachable)]
    rfl
  · intro node
    exact List.pairwise_lt_range.filter _
  · intro node child
    exact mem_children_dominatorTree wellFormed inRange

/-- A cycle that is entered at two nodes, and a node outside that leads into it. -/
def twoEntryCycle : Digraph Unit Unit :=
  (((((Digraph.empty.addNode ()).addNode ()).addNode ()).addNode ()).addEdges ()
    [(0, 1), (0, 2), (1, 2), (2, 1), (3, 1)]).1

theorem constructed_twoEntryCycle : twoEntryCycle.Constructed :=
  .addEdges () _ (.addNode () (.addNode () (.addNode () (.addNode () .empty))))

theorem dominatorTree_exact_twoEntryCycle :
    0 < twoEntryCycle.nodeCount ∧ (twoEntryCycle.dominatorTree 0).Exact twoEntryCycle 0 :=
  ⟨by decide, dominatorTree_exact constructed_twoEntryCycle (by decide)⟩

example : (twoEntryCycle.dominatorTree 0).parents = #[some 0, some 0, some 0, none] := by
  decide

end SymbolicFlow
