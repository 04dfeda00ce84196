import SymbolicFlow.Proofs.Digraph.LoopNesting

/-!
# The loops that are found

There is one loop for every node to which an edge leads back from a reachable node that it
dominates.  `NaturalLoop` says of one loop, on paths, what its latches and its blocks are, and
`ExactLoops` of a whole forest that its loops are these and how they are numbered.

A header dominates every reachable block of its loop.  The search for the blocks goes against the
edges and does not ask what is reachable.  So it also collects code out of reach that jumps into
the loop, and the header does not dominate such code.  A loop is free of it just when nothing out
of reach leads to a block of it other than the header.
-/

set_option autoImplicit false

namespace SymbolicFlow.Digraph

open LoopForest

variable {α β : Type} {graph : Digraph α β} {entry : NodeId}

structure NaturalLoop (graph : Digraph α β) (entry : NodeId) (loop : Loop) : Prop where
  closed : ∃ latch, graph.Closes entry latch loop.header
  latchesOnce : loop.latches.Nodup
  latches : ∀ node, node ∈ loop.latches ↔ graph.Closes entry node loop.header
  ascending : loop.body.Pairwise (· < ·)
  /-- The body is the header and whatever has a path to a latch on which the header does not
  occur. -/
  body : ∀ node, node ∈ loop.body ↔ node = loop.header ∨
    ∃ latch ∈ loop.latches, ∃ nodes, graph.Path node nodes latch ∧ loop.header ∉ nodes

structure ExactLoops (graph : Digraph α β) (entry : NodeId) (forest : LoopForest) : Prop where
  natural : ∀ loop ∈ forest.loops, graph.NaturalLoop entry loop
  one : ∀ {latch header : NodeId}, graph.Closes entry latch header →
    ∃! loop, loop ∈ forest.loops ∧ loop.header = header
  numbered : ∀ {id : Nat} {loop : Loop}, forest.loop? id = some loop → loop.id = id
  ascending : forest.loops.toList.Pairwise fun earlier later => earlier.header < later.header

/-! ## Loops and paths -/

theorem Closes.inLoop_iff {latch header node : NodeId} (closes : graph.Closes entry latch header) :
    graph.InLoop entry header node ↔ node = header ∨ ∃ latch, graph.Closes entry latch header ∧
      ∃ nodes, graph.Path node nodes latch ∧ header ∉ nodes := by
  constructor
  · intro holds
    obtain ⟨other, otherCloses, atHeader | aside⟩ := holds
    · exact Or.inl atHeader
    · exact Or.inr ⟨other, otherCloses, exists_path_avoiding_iff.mpr aside⟩
  · intro way
    rcases way with atHeader | ⟨other, otherCloses, path⟩
    · exact ⟨latch, closes, Or.inl atHeader⟩
    · exact ⟨other, otherCloses, Or.inr (exists_path_avoiding_iff.mp path)⟩

/-- Against an edge one stays in the loop, except at its header. -/
theorem InLoop.predecessor {header node predecessor : NodeId}
    (holds : graph.InLoop entry header node) (different : node ≠ header)
    (edge : node ∈ graph.successors predecessor) : graph.InLoop entry header predecessor := by
  obtain ⟨latch, closes, atHeader | ⟨_, leads⟩⟩ := holds
  · exact absurd atHeader different
  · by_cases atHeader : predecessor = header
    · exact ⟨latch, closes, Or.inl atHeader⟩
    · exact ⟨latch, closes, Or.inr ⟨atHeader, leads.head ⟨edge, different⟩⟩⟩

/-- A loop is reachable as a whole unless something out of reach leads into it. -/
theorem InLoop.reachable {header node : NodeId} (holds : graph.InLoop entry header node)
    (entered : ∀ block, graph.InLoop entry header block → block ≠ header →
      ∀ predecessor, block ∈ graph.successors predecessor → graph.Reachable entry predecessor) :
    graph.Reachable entry node := by
  obtain ⟨latch, closes, rfl | ⟨notHeader, leads⟩⟩ := holds
  · exact closes.header_reachable
  · -- From the latch, which is reachable, back to the node.
    induction leads using Relation.ReflTransGen.head_induction_on with
    | refl => exact closes.reachable
    | @head between next edge rest _ =>
        have nextHeld : graph.InLoop entry header next := ⟨latch, closes, Or.inr ⟨edge.2, rest⟩⟩
        exact entered next nextHeld edge.2 between edge.1

theorem NaturalLoop.mem_body_iff {loop : Loop} (natural : graph.NaturalLoop entry loop)
    {node : NodeId} : node ∈ loop.body ↔ graph.InLoop entry loop.header node := by
  obtain ⟨latch, closes⟩ := natural.closed
  rw [natural.body, closes.inLoop_iff]
  simp only [natural.latches]

/-! ## The loops of the forest -/

section Forest

variable (wellFormed : graph.WellFormed) (inRange : entry < graph.nodeCount)
include wellFormed inRange

theorem naturalLoop_placed {id : Nat}
    (bound : id < (graph.loopOutlines (graph.dominatorTree entry)).size) :
    graph.NaturalLoop entry (placed (graph.loopOutlines (graph.dominatorTree entry)) id) := by
  have member := getD_mem_loopOutlines bound
  obtain ⟨latch, closes⟩ := exists_closes_outline wellFormed inRange member
  refine ⟨⟨latch, closes⟩, ?_, ?_, ascending_body member, ?_⟩
  · exact ((scanned_loopOutlines wellFormed _).gathered _ member).latchesOnce
  · exact fun node => mem_latches_outline wellFormed inRange member
  · intro node
    refine (mem_body_outline wellFormed inRange member).trans ?_
    rw [closes.inLoop_iff]
    simp only [placed, headerOf, mem_latches_outline wellFormed inRange member]

theorem naturalLoop_of_mem {loop : Loop}
    (member : loop ∈ (graph.loopForest (graph.dominatorTree entry)).loops) :
    graph.NaturalLoop entry loop := by
  obtain ⟨id, bound, rfl⟩ := mem_loops_ofOutlines.mp member
  exact naturalLoop_placed wellFormed inRange bound

theorem existsUnique_loop {latch header : NodeId} (closes : graph.Closes entry latch header) :
    ∃! loop, loop ∈ (graph.loopForest (graph.dominatorTree entry)).loops ∧
      loop.header = header := by
  have outlined := outlined_loopOutlines wellFormed inRange
  obtain ⟨id, bound, isHeader⟩ := outlined.complete closes
  refine ⟨placed _ id, ⟨mem_loops_ofOutlines.mpr ⟨id, bound, rfl⟩, isHeader⟩, ?_⟩
  intro other found
  obtain ⟨member, otherHeader⟩ := found
  obtain ⟨otherId, otherBound, rfl⟩ := mem_loops_ofOutlines.mp member
  rw [outlined.headers otherBound bound (otherHeader.trans isHeader.symm)]

end Forest

theorem id_of_loop? {tree : DominatorTree} {id : Nat} {loop : Loop}
    (found : (graph.loopForest tree).loop? id = some loop) : loop.id = id := by
  obtain ⟨_, rfl⟩ := loop?_ofOutlines_eq_some_iff.mp found
  rfl

theorem pairwise_loops (wellFormed : graph.WellFormed) (tree : DominatorTree) :
    (graph.loopForest tree).loops.toList.Pairwise fun earlier later =>
      earlier.header < later.header := by
  rw [loopForest, loops_ofOutlines, List.pairwise_map]
  apply List.pairwise_lt_range.imp_of_mem
  intro earlier later _ inside before
  exact headerOf_loopOutlines_lt wellFormed before (List.mem_range.mp inside)

/-- The forest of a graph has its natural loops, one for each header, numbered by ascending
header. -/
theorem loops_exact (constructed : graph.Constructed) (inRange : entry < graph.nodeCount) :
    graph.ExactLoops entry (graph.loopForest (graph.dominatorTree entry)) := by
  have wellFormed := constructed.wellFormed
  refine ⟨?_, ?_, id_of_loop?, pairwise_loops wellFormed _⟩
  · intro loop member
    exact naturalLoop_of_mem wellFormed inRange member
  · intro latch header closes
    exact existsUnique_loop wellFormed inRange closes

/-- Two latches share the header 1, one of them inside what the other one reaches, and one has
two edges to it; the inner one also loops on itself.  Node 4 is out of reach and leads into the
loop. -/
def sharedHeader : Digraph Unit Unit :=
  ((((((Digraph.empty.addNode ()).addNode ()).addNode ()).addNode ()).addNode ()).addNode
    ()).addEdges () [(0, 1), (1, 2), (2, 1), (2, 3), (3, 1), (3, 1), (3, 3), (4, 2), (0, 5)] |>.1

theorem constructed_sharedHeader : sharedHeader.Constructed :=
  .addEdges () _ (.addNode () (.addNode () (.addNode () (.addNode () (.addNode () (.addNode ()
    .empty))))))

theorem loops_exact_sharedHeader :
    0 < sharedHeader.nodeCount ∧
      sharedHeader.ExactLoops 0 (sharedHeader.loopForest (sharedHeader.dominatorTree 0)) :=
  ⟨by decide, loops_exact constructed_sharedHeader (by decide)⟩

example : (sharedHeader.loopForest (sharedHeader.dominatorTree 0)).loops.toList.map
    (fun loop => (loop.header, loop.latches, loop.body)) =
      [(1, [2, 3], [1, 2, 3, 4]), (3, [3], [3])] := by
  decide +kernel

/-! ## What the header dominates -/

theorem InLoop.dominates_iff_reachable (wellFormed : graph.WellFormed)
    (inRange : entry < graph.nodeCount) {header node : NodeId}
    (holds : graph.InLoop entry header node) :
    (graph.dominatorTree entry).dominates header node = true ↔ graph.Reachable entry node := by
  rw [dominates_dominatorTree_iff wellFormed inRange]
  constructor
  · intro above
    by_contra unreachable
    have missing := mt (recorded_dominatorTree_iff wellFormed inRange).mp unreachable
    have same := DominatorTree.eq_of_above_of_not_recorded missing above
    exact unreachable (same ▸ holds.header_reachable)
  · intro reachable
    exact (above_dominatorTree_iff wellFormed inRange reachable header).mpr holds.dominates

/-- Of the blocks of a loop the header dominates exactly the reachable ones, and all of them are
reachable just when nothing out of reach leads to a block other than the header. -/
theorem header_dominates_reachable (constructed : graph.Constructed)
    (inRange : entry < graph.nodeCount) {loop : Loop}
    (found : loop ∈ (graph.loopForest (graph.dominatorTree entry)).loops) :
    (∀ node ∈ loop.body, graph.Dominates entry loop.header node ∧
      ((graph.dominatorTree entry).dominates loop.header node = true ↔
        graph.Reachable entry node)) ∧
    ((∀ node ∈ loop.body, graph.Reachable entry node) ↔
      ∀ node ∈ loop.body, node ≠ loop.header →
        ∀ predecessor ∈ graph.predecessors node, graph.Reachable entry predecessor) := by
  have wellFormed := constructed.wellFormed
  have natural := naturalLoop_of_mem wellFormed inRange found
  simp only [natural.mem_body_iff, mem_predecessors_iff wellFormed]
  refine ⟨?_, ?_, ?_⟩
  · intro node holds
    exact ⟨holds.dominates, holds.dominates_iff_reachable wellFormed inRange⟩
  · intro whole node holds different predecessor edge
    exact whole predecessor (holds.predecessor different edge)
  · intro entered node holds
    exact holds.reachable entered

/-- Nodes 1 and 2 loop, and node 3, which is out of reach, jumps to node 2. -/
def deadJump : Digraph Unit Unit :=
  ((((Digraph.empty.addNode ()).addNode ()).addNode ()).addNode ()).addEdges ()
    [(0, 1), (1, 2), (2, 1), (3, 2)] |>.1

theorem constructed_deadJump : deadJump.Constructed :=
  .addEdges () _ (.addNode () (.addNode () (.addNode () (.addNode () .empty))))

def deadJumpLoop : Loop where
  id := 0
  header := 1
  latches := [2]
  body := [1, 2, 3]
  parent := none
  children := []
  depth := 0

theorem deadJumpLoop_mem :
    deadJumpLoop ∈ (deadJump.loopForest (deadJump.dominatorTree 0)).loops := by
  decide +kernel

theorem header_dominates_reachable_deadJump :
    deadJumpLoop ∈ (deadJump.loopForest (deadJump.dominatorTree 0)).loops ∧
      ((deadJump.dominatorTree 0).dominates 1 2 = true ↔ deadJump.Reachable 0 2) ∧
      ((∀ node ∈ [1, 2, 3], deadJump.Reachable 0 node) ↔
        ∀ node ∈ [1, 2, 3], node ≠ 1 →
          ∀ predecessor ∈ deadJump.predecessors node, deadJump.Reachable 0 predecessor) := by
  obtain ⟨dominated, whole⟩ :=
    header_dominates_reachable constructed_deadJump (by decide) deadJumpLoop_mem
  exact ⟨deadJumpLoop_mem, (dominated 2 (by decide)).2, whole⟩

/-- The jump makes node 3 part of the loop, although the entry does not reach it and the header
does not dominate it. -/
theorem body_holds_unreachable :
    deadJump.Constructed ∧ 0 < deadJump.nodeCount ∧
      ∃ loop ∈ (deadJump.loopForest (deadJump.dominatorTree 0)).loops, 3 ∈ loop.body ∧
        ¬ deadJump.Reachable 0 3 ∧
        (deadJump.dominatorTree 0).dominates loop.header 3 = false := by
  refine ⟨constructed_deadJump, by decide, deadJumpLoop, deadJumpLoop_mem, by decide, ?_,
    by decide⟩
  rw [← isReachable_dominatorTree constructed_deadJump.wellFormed (by decide)]
  decide

end SymbolicFlow.Digraph
