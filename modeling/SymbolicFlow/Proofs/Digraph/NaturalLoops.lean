import SymbolicFlow.Digraph.Loops
import SymbolicFlow.Proofs.Digraph.Dominators

/-!
# Natural loops

An edge from a reachable node to one of its dominators closes a loop.  `InLoop` says on paths
which nodes the loop of a header holds.

A header dominates what its loop holds, although a loop may also hold nodes that the entry does
not reach.  Hence two loops with different headers are nested as soon as one holds the header of
the other, and of two loops that share a reachable node one holds the header of the other.
-/

set_option autoImplicit false

namespace SymbolicFlow.Digraph

variable {α β : Type} {graph : Digraph α β} {entry : NodeId}

/-- The edge from `latch` to `header` leads from a reachable node back to a dominator of it. -/
structure Closes (graph : Digraph α β) (entry latch header : NodeId) : Prop where
  reachable : graph.Reachable entry latch
  edge : header ∈ graph.successors latch
  dominates : graph.Dominates entry header latch

/-- The loop of `header` holds `node`: a latch is reached from it without running through the
header. -/
def InLoop (graph : Digraph α β) (entry header node : NodeId) : Prop :=
  ∃ latch, graph.Closes entry latch header ∧
    (node = header ∨ node ≠ header ∧ graph.Leads (· ≠ header) node latch)

/-! ## Dominators of one node -/

section Dominance

variable (wellFormed : graph.WellFormed) (inRange : entry < graph.nodeCount)
include wellFormed inRange

theorem Dominates.antisymm {a b : NodeId} (first : graph.Dominates entry a b)
    (second : graph.Dominates entry b a) (aReachable : graph.Reachable entry a)
    (bReachable : graph.Reachable entry b) : a = b := by
  have rooted := rooted_dominatorTree wellFormed inRange
  have above := (above_dominatorTree_iff wellFormed inRange bReachable a).mpr first
  have below := (above_dominatorTree_iff wellFormed inRange aReachable b).mpr second
  rcases rooted.eq_or_rank_lt above with same | lower
  · exact same
  · have := rooted.rank_le below
    omega

theorem Dominates.comparable {a b node : NodeId} (first : graph.Dominates entry a node)
    (second : graph.Dominates entry b node) (aReachable : graph.Reachable entry a)
    (bReachable : graph.Reachable entry b) (reachable : graph.Reachable entry node) :
    graph.Dominates entry a b ∨ graph.Dominates entry b a := by
  have aAbove := (above_dominatorTree_iff wellFormed inRange reachable a).mpr first
  have bAbove := (above_dominatorTree_iff wellFormed inRange reachable b).mpr second
  rw [← above_dominatorTree_iff wellFormed inRange bReachable,
    ← above_dominatorTree_iff wellFormed inRange aReachable]
  exact aAbove.comparable bAbove

end Dominance

/-! ## What a loop holds -/

section Laws

variable {header inner outer node latch : NodeId}

theorem Closes.header_reachable (closes : graph.Closes entry latch header) :
    graph.Reachable entry header :=
  closes.reachable.step closes.edge

theorem Closes.inLoop_header (closes : graph.Closes entry latch header) :
    graph.InLoop entry header header :=
  ⟨latch, closes, Or.inl rfl⟩

theorem Closes.inLoop_latch (closes : graph.Closes entry latch header) :
    graph.InLoop entry header latch := by
  by_cases same : latch = header
  · exact ⟨latch, closes, Or.inl same⟩
  · exact ⟨latch, closes, Or.inr ⟨same, .refl⟩⟩

theorem InLoop.header_reachable (holds : graph.InLoop entry header node) :
    graph.Reachable entry header := by
  obtain ⟨latch, closes, _⟩ := holds
  exact closes.header_reachable

theorem InLoop.inLoop_header (holds : graph.InLoop entry header node) :
    graph.InLoop entry header header := by
  obtain ⟨latch, closes, _⟩ := holds
  exact closes.inLoop_header

theorem InLoop.dominates (holds : graph.InLoop entry header node) :
    graph.Dominates entry header node := by
  obtain ⟨latch, closes, rfl | ⟨_, leads⟩⟩ := holds
  · exact .refl graph entry node
  · exact closes.dominates.of_leads leads

section Nesting

variable (wellFormed : graph.WellFormed) (inRange : entry < graph.nodeCount)
include wellFormed inRange

theorem InLoop.header_eq (first : graph.InLoop entry outer inner)
    (second : graph.InLoop entry inner outer) : inner = outer :=
  second.dominates.antisymm wellFormed inRange first.dominates second.header_reachable
    first.header_reachable

/-- A loop that holds the header of another one holds all of it. -/
theorem InLoop.of_inner (around : graph.InLoop entry outer inner) (different : inner ≠ outer)
    (holds : graph.InLoop entry inner node) : graph.InLoop entry outer node := by
  have outerReachable := around.header_reachable
  have innerReachable := holds.header_reachable
  obtain ⟨innerLatch, innerCloses, atHeader | ⟨_, innerLeads⟩⟩ := holds
  · rw [atHeader]
    exact around
  · have aboveInner := around.dominates
    obtain ⟨outerLatch, outerCloses, same | ⟨_, outerLeads⟩⟩ := around
    · exact absurd same different
    · -- Otherwise the inner header would dominate the outer one, which dominates it.
      have missed : ¬ graph.Leads (· ≠ inner) outer innerLatch := fun leads =>
        different ((innerCloses.dominates.of_leads leads).antisymm wellFormed inRange aboveInner
          innerReachable outerReachable)
      obtain ⟨notOuter, toLatch⟩ := innerLeads.aside missed
      have toHeader := toLatch.tail ⟨innerCloses.edge, different⟩
      exact ⟨outerLatch, outerCloses, Or.inr ⟨notOuter, toHeader.trans outerLeads⟩⟩

/-- Of two loops that share a node, the one whose header dominates the other's holds it. -/
theorem InLoop.inner_of_dominates (inInner : graph.InLoop entry inner node)
    (inOuter : graph.InLoop entry outer node) (different : inner ≠ outer)
    (reachable : graph.Reachable entry node) (above : graph.Dominates entry outer inner) :
    graph.InLoop entry outer inner := by
  have innerReachable := inInner.header_reachable
  have outerReachable := inOuter.header_reachable
  have notBelow : ¬ graph.Dominates entry inner outer := fun below =>
    different (below.antisymm wellFormed inRange above innerReachable outerReachable)
  have dominates := inInner.dominates
  obtain ⟨latch, closes, rfl | ⟨_, leads⟩⟩ := inOuter
  · exact absurd dominates notBelow
  · have missed : ¬ graph.Leads (· ≠ inner) outer node := fun through =>
      notBelow (dominates.of_leads through)
    obtain ⟨_, toNode⟩ := (dominates.leads reachable).aside missed
    exact ⟨latch, closes, Or.inr ⟨different, toNode.trans leads⟩⟩

theorem InLoop.comparable (first : graph.InLoop entry inner node)
    (second : graph.InLoop entry outer node) (different : inner ≠ outer)
    (reachable : graph.Reachable entry node) :
    graph.InLoop entry outer inner ∨ graph.InLoop entry inner outer := by
  rcases first.dominates.comparable wellFormed inRange second.dominates first.header_reachable
    second.header_reachable reachable with below | above
  · exact Or.inr (second.inner_of_dominates wellFormed inRange first (Ne.symm different)
      reachable below)
  · exact Or.inl (first.inner_of_dominates wellFormed inRange second different reachable above)

end Nesting

end Laws

end SymbolicFlow.Digraph
