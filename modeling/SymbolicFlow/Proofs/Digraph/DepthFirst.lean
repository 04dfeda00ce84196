import Mathlib.Algebra.BigOperators.Group.List.Basic
import Mathlib.Algebra.GroupWithZero.Nat
import SymbolicFlow.Digraph.Dominators
import SymbolicFlow.Proofs.Digraph.Paths

/-!
# Depth-first search

A search is described by its path and the nodes that it has finished.  What is still to do is
counted by `work`: one step for each successor that waits and one for each node that is not
finished.  Every step does one unit of it, so a search with as many steps as nodes and edges
comes to its end; `depthFirst_induct` is the resulting induction principle.

Read from the bottom of the path to its top and then along the finished nodes, the nodes met
form a list that only ever has nodes inserted between its two parts.  At the end this list is
the reverse postorder: every reachable node once, the start first, and every other node behind
one of its predecessors.
-/

set_option autoImplicit false

namespace SymbolicFlow

namespace Search

/-- The nodes met, from the bottom of the path to its top and then as they were finished, the
last one first. -/
def metOrder (path : List Frame) (finished : List NodeId) : List NodeId :=
  (path.map (·.node)).reverse ++ finished

theorem isMet_iff {path : List Frame} {finished : List NodeId} {node : NodeId} :
    isMet path finished node = true ↔ node ∈ metOrder path finished := by
  simp only [isMet, metOrder, Bool.or_eq_true, List.any_eq_true, beq_iff_eq,
    List.contains_iff_mem, List.mem_append, List.mem_reverse, List.mem_map]

theorem metOrder_finish (frame : Frame) (path : List Frame) (finished : List NodeId) :
    metOrder path (frame.node :: finished) = metOrder (frame :: path) finished := by
  simp [metOrder]

theorem metOrder_untried (node : NodeId) (untried others : List NodeId) (path : List Frame)
    (finished : List NodeId) :
    metOrder (⟨node, untried⟩ :: path) finished = metOrder (⟨node, others⟩ :: path) finished := by
  simp [metOrder]

/-! ## The number of steps -/

def unmet (count : Nat) (path : List Frame) (finished : List NodeId) : Finset NodeId :=
  (Finset.range count).filter fun node => node ∉ metOrder path finished

/-- The number of steps that a search on nodes below `count` still has to do. -/
def work (next : NodeId → List NodeId) (count : Nat) (path : List Frame)
    (finished : List NodeId) : Nat :=
  (path.map fun frame => frame.untried.length + 1).sum +
    ∑ node ∈ unmet count path finished, ((next node).length + 1)

variable {next : NodeId → List NodeId} {count : Nat}

theorem work_finish (node : NodeId) (path : List Frame) (finished : List NodeId) :
    work next count (⟨node, []⟩ :: path) finished =
      work next count path (node :: finished) + 1 := by
  have same := metOrder_finish ⟨node, []⟩ path finished
  simp only [work, unmet, same, List.map_cons, List.sum_cons, List.length_nil]
  omega

theorem work_skip (node successor : NodeId) (untried : List NodeId) (path : List Frame)
    (finished : List NodeId) :
    work next count (⟨node, successor :: untried⟩ :: path) finished =
      work next count (⟨node, untried⟩ :: path) finished + 1 := by
  have same := metOrder_untried node (successor :: untried) untried path finished
  simp only [work, unmet, same, List.map_cons, List.sum_cons, List.length_cons]
  omega

theorem work_enter {node successor : NodeId} {untried : List NodeId} {path : List Frame}
    {finished : List NodeId} (bound : successor < count)
    (new : successor ∉ metOrder (⟨node, untried⟩ :: path) finished) :
    work next count (⟨node, successor :: untried⟩ :: path) finished =
      work next count (⟨successor, next successor⟩ :: ⟨node, untried⟩ :: path) finished + 1 := by
  have waits : successor ∈ unmet count (⟨node, untried⟩ :: path) finished :=
    Finset.mem_filter.mpr ⟨Finset.mem_range.mpr bound, new⟩
  have rest : unmet count (⟨successor, next successor⟩ :: ⟨node, untried⟩ :: path) finished =
      (unmet count (⟨node, untried⟩ :: path) finished).erase successor := by
    ext other
    simp only [unmet, metOrder, Finset.mem_filter, Finset.mem_erase, List.map_cons,
      List.reverse_cons, List.mem_append, List.mem_singleton]
    tauto
  have split := Finset.add_sum_erase _ (fun node => (next node).length + 1) waits
  rw [work_skip]
  simp only [work, rest, List.map_cons, List.sum_cons]
  omega

/-- Induction over the steps of a search: what every step preserves holds when the path has
become empty, if there are enough steps. -/
theorem depthFirst_induct (invariant : List Frame → List NodeId → Prop)
    (bounded : ∀ node, ∀ successor ∈ next node, successor < count)
    (finish : ∀ {node path finished}, invariant (⟨node, []⟩ :: path) finished →
      invariant path (node :: finished))
    (skip : ∀ {node successor untried path finished},
      successor ∈ metOrder (⟨node, untried⟩ :: path) finished →
      invariant (⟨node, successor :: untried⟩ :: path) finished →
      invariant (⟨node, untried⟩ :: path) finished)
    (enter : ∀ {node successor untried path finished},
      successor ∉ metOrder (⟨node, untried⟩ :: path) finished →
      invariant (⟨node, successor :: untried⟩ :: path) finished →
      invariant (⟨successor, next successor⟩ :: ⟨node, untried⟩ :: path) finished)
    (steps : Nat) (path : List Frame) (finished : List NodeId)
    (inside : ∀ frame ∈ path, ∀ successor ∈ frame.untried, successor < count)
    (enough : work next count path finished ≤ steps) (start : invariant path finished) :
    invariant [] (depthFirst next steps path finished) := by
  induction steps generalizing path finished with
  | zero =>
      cases path with
      | nil => exact start
      | cons frame path =>
          simp only [work, List.map_cons, List.sum_cons] at enough
          omega
  | succ steps ih =>
      match path with
      | [] => exact start
      | ⟨node, []⟩ :: path =>
          rw [depthFirst]
          rw [work_finish] at enough
          exact ih path (node :: finished)
            (fun frame member => inside frame (List.mem_cons_of_mem _ member))
            (by omega) (finish start)
      | ⟨node, successor :: untried⟩ :: path =>
          have below : ∀ frame ∈ (⟨node, untried⟩ : Frame) :: path,
              ∀ other ∈ frame.untried, other < count := by
            intro frame member other waits
            rcases List.mem_cons.mp member with rfl | member
            · exact inside _ List.mem_cons_self other (List.mem_cons_of_mem _ waits)
            · exact inside frame (List.mem_cons_of_mem _ member) other waits
          rw [depthFirst]
          by_cases met : successor ∈ metOrder (⟨node, untried⟩ :: path) finished
          · rw [if_pos (isMet_iff.mpr met)]
            rw [work_skip] at enough
            exact ih _ _ below (by omega) (skip met start)
          · rw [if_neg (fun known => met (isMet_iff.mp known))]
            have bound : successor < count :=
              inside _ List.mem_cons_self successor List.mem_cons_self
            rw [work_enter bound met] at enough
            refine ih _ _ ?_ (by omega) (enter met start)
            intro frame member other waits
            rcases List.mem_cons.mp member with rfl | member
            · exact bounded successor other waits
            · exact below frame member other waits

end Search

namespace Digraph

open Search

variable {α β : Type} {graph : Digraph α β} {start : NodeId}

/-! ## What a search from `start` knows -/

structure Searched (graph : Digraph α β) (start : NodeId) (path : List Frame)
    (finished : List NodeId) : Prop where
  distinct : (metOrder path finished).Nodup
  startsFirst : (metOrder path finished).head? = some start
  reached : ∀ node ∈ metOrder path finished, graph.Reachable start node
  led : ∀ node ∈ metOrder path finished, node = start ∨
    ∃ earlier, node ∈ graph.successors earlier ∧ [earlier, node].Sublist (metOrder path finished)
  closed : ∀ node ∈ finished, ∀ successor ∈ graph.successors node,
    successor ∈ metOrder path finished
  tried : ∀ frame ∈ path, ∀ successor ∈ graph.successors frame.node,
    successor ∈ frame.untried ∨ successor ∈ metOrder path finished
  untried : ∀ frame ∈ path, ∀ successor ∈ frame.untried, successor ∈ graph.successors frame.node

theorem searched_start (graph : Digraph α β) (start : NodeId) :
    graph.Searched start [⟨start, graph.successors start⟩] [] := by
  have only : ∀ frame ∈ [(⟨start, graph.successors start⟩ : Frame)],
      frame = ⟨start, graph.successors start⟩ := fun frame member => List.mem_singleton.mp member
  refine ⟨by simp [metOrder], by simp [metOrder], ?_, ?_, by simp, ?_, ?_⟩
  · intro node member
    have same : node = start := by simpa [metOrder] using member
    rw [same]
    exact Reachable.refl graph start
  · intro node member
    exact Or.inl (by simpa [metOrder] using member)
  · intro frame member successor edge
    rw [only frame member] at edge ⊢
    exact Or.inl edge
  · intro frame member successor waits
    rw [only frame member] at waits ⊢
    exact waits

theorem Searched.finish {node : NodeId} {path : List Frame} {finished : List NodeId}
    (searched : graph.Searched start (⟨node, []⟩ :: path) finished) :
    graph.Searched start path (node :: finished) := by
  have same := metOrder_finish ⟨node, []⟩ path finished
  dsimp only at same
  refine ⟨?_, ?_, ?_, ?_, ?_, ?_, ?_⟩
  · rw [same]
    exact searched.distinct
  · rw [same]
    exact searched.startsFirst
  · rw [same]
    exact searched.reached
  · rw [same]
    exact searched.led
  · intro other member successor edge
    rw [same]
    rcases List.mem_cons.mp member with rfl | member
    · -- All successors of the finished node have been tried.
      rcases searched.tried _ List.mem_cons_self successor edge with waits | met
      · cases waits
      · exact met
    · exact searched.closed other member successor edge
  · intro frame member
    rw [same]
    exact searched.tried frame (List.mem_cons_of_mem _ member)
  · intro frame member
    exact searched.untried frame (List.mem_cons_of_mem _ member)

theorem Searched.skip {node successor : NodeId} {untried : List NodeId} {path : List Frame}
    {finished : List NodeId} (met : successor ∈ metOrder (⟨node, untried⟩ :: path) finished)
    (searched : graph.Searched start (⟨node, successor :: untried⟩ :: path) finished) :
    graph.Searched start (⟨node, untried⟩ :: path) finished := by
  have same := metOrder_untried node untried (successor :: untried) path finished
  refine ⟨?_, ?_, ?_, ?_, ?_, ?_, ?_⟩
  · rw [same]
    exact searched.distinct
  · rw [same]
    exact searched.startsFirst
  · rw [same]
    exact searched.reached
  · rw [same]
    exact searched.led
  · rw [same]
    exact searched.closed
  · intro frame member other edge
    rcases List.mem_cons.mp member with rfl | member
    · rcases searched.tried _ List.mem_cons_self other edge with waits | known
      · rcases List.mem_cons.mp waits with rfl | waits
        · exact Or.inr met
        · exact Or.inl waits
      · exact Or.inr (same ▸ known)
    · rw [same]
      exact searched.tried frame (List.mem_cons_of_mem _ member) other edge
  · intro frame member other waits
    rcases List.mem_cons.mp member with rfl | member
    · exact searched.untried _ List.mem_cons_self other (List.mem_cons_of_mem _ waits)
    · exact searched.untried frame (List.mem_cons_of_mem _ member) other waits

theorem Searched.enter {node successor : NodeId} {untried : List NodeId} {path : List Frame}
    {finished : List NodeId} (new : successor ∉ metOrder (⟨node, untried⟩ :: path) finished)
    (searched : graph.Searched start (⟨node, successor :: untried⟩ :: path) finished) :
    graph.Searched start (⟨successor, graph.successors successor⟩ :: ⟨node, untried⟩ :: path)
      finished := by
  let known := ((node :: path.map (·.node)).reverse : List NodeId)
  have before : metOrder (⟨node, untried⟩ :: path) finished = known ++ finished := by
    simp [metOrder, known]
  have same : metOrder (⟨node, successor :: untried⟩ :: path) finished = known ++ finished := by
    simp [metOrder, known]
  have after : metOrder (⟨successor, graph.successors successor⟩ :: ⟨node, untried⟩ :: path)
      finished = known ++ successor :: finished := by
    simp [metOrder, known]
  have edge : successor ∈ graph.successors node :=
    searched.untried _ List.mem_cons_self successor List.mem_cons_self
  have grows : (known ++ finished).Sublist (known ++ successor :: finished) :=
    List.Sublist.append (List.Sublist.refl known) (List.sublist_cons_self successor finished)
  have onPath : node ∈ known := by simp [known]
  have fresh : successor ∉ known ++ finished := before ▸ new
  have members : ∀ other, other ∈ known ++ successor :: finished ↔
      other = successor ∨ other ∈ known ++ finished := by
    intro other
    simp only [List.mem_append, List.mem_cons]
    tauto
  refine ⟨?_, ?_, ?_, ?_, ?_, ?_, ?_⟩
  · rw [after]
    exact (List.nodup_middle).mpr (List.nodup_cons.mpr ⟨fresh, same ▸ searched.distinct⟩)
  · have first := searched.startsFirst
    have nonempty : known ≠ [] := List.ne_nil_of_mem onPath
    rw [same, List.head?_append_of_ne_nil _ nonempty] at first
    rw [after, List.head?_append_of_ne_nil _ nonempty, first]
  · intro other member
    rw [after] at member
    rcases (members other).mp member with rfl | old
    · exact (searched.reached node (same ▸ List.mem_append_left _ onPath)).step edge
    · exact searched.reached other (same ▸ old)
  · intro other member
    rw [after] at member ⊢
    rcases (members other).mp member with rfl | old
    · refine Or.inr ⟨node, edge, ?_⟩
      exact List.Sublist.append (List.singleton_sublist.mpr onPath)
        (List.singleton_sublist.mpr List.mem_cons_self)
    · rcases searched.led other (same ▸ old) with isStart | ⟨earlier, joined, stands⟩
      · exact Or.inl isStart
      · exact Or.inr ⟨earlier, joined, (same ▸ stands).trans grows⟩
  · intro other member target joined
    rw [after]
    exact grows.subset (same ▸ searched.closed other member target joined)
  · intro frame member target joined
    rw [after]
    rcases List.mem_cons.mp member with rfl | member
    · exact Or.inl joined
    · rcases List.mem_cons.mp member with rfl | member
      · rcases searched.tried _ List.mem_cons_self target joined with waits | met
        · rcases List.mem_cons.mp waits with rfl | waits
          · exact Or.inr ((members _).mpr (Or.inl rfl))
          · exact Or.inl waits
        · exact Or.inr (grows.subset (same ▸ met))
      · rcases searched.tried frame (List.mem_cons_of_mem _ member) target joined with waits | met
        · exact Or.inl waits
        · exact Or.inr (grows.subset (same ▸ met))
  · intro frame member target waits
    rcases List.mem_cons.mp member with rfl | member
    · exact waits
    · rcases List.mem_cons.mp member with rfl | member
      · exact searched.untried _ List.mem_cons_self target (List.mem_cons_of_mem _ waits)
      · exact searched.untried frame (List.mem_cons_of_mem _ member) target waits

/-! ## Reverse postorder -/

/-- What holds of the start alone and is preserved by every step of the search holds of the whole
order. -/
theorem reversePostorder_induct (wellFormed : graph.WellFormed) (inRange : start < graph.nodeCount)
    (invariant : List Frame → List NodeId → Prop)
    (finish : ∀ {node path finished}, invariant (⟨node, []⟩ :: path) finished →
      invariant path (node :: finished))
    (skip : ∀ {node successor untried path finished},
      successor ∈ metOrder (⟨node, untried⟩ :: path) finished →
      invariant (⟨node, successor :: untried⟩ :: path) finished →
      invariant (⟨node, untried⟩ :: path) finished)
    (enter : ∀ {node successor untried path finished},
      successor ∉ metOrder (⟨node, untried⟩ :: path) finished →
      invariant (⟨node, successor :: untried⟩ :: path) finished →
      invariant (⟨successor, graph.successors successor⟩ :: ⟨node, untried⟩ :: path) finished)
    (atStart : invariant [⟨start, graph.successors start⟩] []) :
    invariant [] (graph.reversePostorder start) := by
  have bounded : ∀ node, ∀ successor ∈ graph.successors node, successor < graph.nodeCount :=
    fun _ _ edge => (lt_of_mem_successors wellFormed edge).2
  rw [reversePostorder, if_pos inRange]
  refine depthFirst_induct invariant bounded finish skip enter _ _ _ ?_ ?_ atStart
  · intro frame member successor waits
    rw [List.mem_singleton.mp member] at waits
    exact bounded start successor waits
  · -- Every node and every edge still has its step before it.
    let steps (node : NodeId) : Nat := (graph.successors node).length + 1
    have member : start ∈ Finset.range graph.nodeCount := Finset.mem_range.mpr inRange
    have rest : unmet graph.nodeCount [⟨start, graph.successors start⟩] [] =
        (Finset.range graph.nodeCount).erase start := by
      ext other
      simp [unmet, metOrder, and_comm]
    calc work graph.successors graph.nodeCount [⟨start, graph.successors start⟩] []
        = steps start + ∑ node ∈ (Finset.range graph.nodeCount).erase start, steps node := by
          simp [work, rest, steps]
      _ = ∑ node ∈ Finset.range graph.nodeCount, steps node :=
          Finset.add_sum_erase _ steps member
      _ = ∑ node ∈ Finset.range graph.nodeCount, (graph.successors node).length +
            graph.nodeCount := by
          simp [steps, Finset.sum_add_distrib]
      _ ≤ graph.nodeCount + graph.edgeCount := by
          have edges := sum_length_successors_le wellFormed
          omega

theorem searched_reversePostorder (wellFormed : graph.WellFormed)
    (inRange : start < graph.nodeCount) :
    graph.Searched start [] (graph.reversePostorder start) :=
  reversePostorder_induct wellFormed inRange (graph.Searched start) Searched.finish Searched.skip
    Searched.enter (searched_start graph start)

section Order

variable (wellFormed : graph.WellFormed) (inRange : start < graph.nodeCount)
include wellFormed inRange

theorem nodup_reversePostorder : (graph.reversePostorder start).Nodup :=
  (searched_reversePostorder wellFormed inRange).distinct

theorem head?_reversePostorder : (graph.reversePostorder start).head? = some start :=
  (searched_reversePostorder wellFormed inRange).startsFirst

theorem mem_reversePostorder {node : NodeId} :
    node ∈ graph.reversePostorder start ↔ graph.Reachable start node := by
  have searched := searched_reversePostorder wellFormed inRange
  constructor
  · exact searched.reached node
  · intro reachable
    refine reachable.induct (· ∈ graph.reversePostorder start) ?_ ?_
    · exact List.mem_of_head? searched.startsFirst
    · intro last next member edge
      exact searched.closed last member next edge

end Order

/-! ## Ranks -/

def rankFrom (graph : Digraph α β) (start node : NodeId) : Nat :=
  (graph.ranks (graph.reversePostorder start)).getD node graph.nodeCount

private theorem getD_foldl_zipIdx (order : List NodeId) (offset other : Nat) (node : NodeId)
    (ranks : Array Nat) (distinct : order.Nodup) (inside : ∀ node ∈ order, node < ranks.size) :
    ((order.zipIdx offset).foldl (fun ranks (node, position) => ranks.setIfInBounds node position)
      ranks).getD node other =
      if node ∈ order then offset + order.idxOf node else ranks.getD node other := by
  induction order generalizing offset ranks with
  | nil => rfl
  | cons first rest ih =>
      obtain ⟨notLater, restDistinct⟩ := List.nodup_cons.mp distinct
      have bound : first < ranks.size := inside first List.mem_cons_self
      have restInside : ∀ node ∈ rest, node < (ranks.setIfInBounds first offset).size := by
        intro other member
        rw [Array.size_setIfInBounds]
        exact inside other (List.mem_cons_of_mem _ member)
      rw [List.zipIdx_cons, List.foldl_cons, ih _ _ restDistinct restInside]
      by_cases same : node = first
      · subst same
        simp [notLater, Array.getD_eq_getD_getElem?, bound]
      · have swapped : first ≠ node := Ne.symm same
        simp only [List.mem_cons, same, false_or, List.idxOf_cons_ne _ swapped,
          Array.getD_eq_getD_getElem?, Array.getElem?_setIfInBounds_ne swapped]
        split
        · omega
        · rfl

theorem idxOf_lt_of_sublist {earlier later : NodeId} {order : List NodeId}
    (distinct : order.Nodup) (stands : [earlier, later].Sublist order) :
    order.idxOf earlier < order.idxOf later := by
  induction order with
  | nil => cases stands
  | cons first rest ih =>
      obtain ⟨notLater, restDistinct⟩ := List.nodup_cons.mp distinct
      cases stands with
      | cons _ inRest =>
          have earlierMember : earlier ∈ rest := inRest.subset (by simp)
          have laterMember : later ∈ rest := inRest.subset (by simp)
          have earlierOther : first ≠ earlier := fun same => notLater (same ▸ earlierMember)
          have laterOther : first ≠ later := fun same => notLater (same ▸ laterMember)
          rw [List.idxOf_cons_ne _ earlierOther, List.idxOf_cons_ne _ laterOther]
          exact Nat.succ_lt_succ (ih restDistinct inRest)
      | cons_cons _ inRest =>
          have laterMember : later ∈ rest := inRest.subset (by simp)
          have laterOther : earlier ≠ later := fun same => notLater (same ▸ laterMember)
          rw [List.idxOf_cons_self, List.idxOf_cons_ne _ laterOther]
          exact Nat.succ_pos _

section Rank

variable (wellFormed : graph.WellFormed) (inRange : start < graph.nodeCount)
include wellFormed inRange

theorem rankFrom_eq_idxOf {node : NodeId} (reachable : graph.Reachable start node) :
    graph.rankFrom start node = (graph.reversePostorder start).idxOf node := by
  have member := (mem_reversePostorder wellFormed inRange).mpr reachable
  have inside : ∀ node ∈ graph.reversePostorder start,
      node < (Array.replicate graph.nodeCount graph.nodeCount).size := by
    intro other listed
    rw [Array.size_replicate]
    exact ((mem_reversePostorder wellFormed inRange).mp listed).lt wellFormed inRange
  rw [rankFrom, ranks, getD_foldl_zipIdx _ 0 _ _ _ (nodup_reversePostorder wellFormed inRange)
    inside, if_pos member, Nat.zero_add]

theorem rankFrom_getElem {position : Nat} {node : NodeId}
    (listed : (graph.reversePostorder start)[position]? = some node) :
    graph.rankFrom start node = position := by
  have distinct := nodup_reversePostorder wellFormed inRange
  obtain ⟨bound, rfl⟩ := List.getElem?_eq_some_iff.mp listed
  have reachable := (mem_reversePostorder wellFormed inRange).mp (List.getElem_mem bound)
  rw [rankFrom_eq_idxOf wellFormed inRange reachable, distinct.idxOf_getElem]

theorem rankFrom_start : graph.rankFrom start start = 0 := by
  have first := head?_reversePostorder wellFormed inRange
  rw [List.head?_eq_getElem?] at first
  exact rankFrom_getElem wellFormed inRange first

theorem rankFrom_inj {node other : NodeId} (reachable : graph.Reachable start node)
    (otherReachable : graph.Reachable start other)
    (same : graph.rankFrom start node = graph.rankFrom start other) : node = other := by
  rw [rankFrom_eq_idxOf wellFormed inRange reachable,
    rankFrom_eq_idxOf wellFormed inRange otherReachable] at same
  exact (List.idxOf_inj ((mem_reversePostorder wellFormed inRange).mpr reachable)).mp same

theorem rankFrom_lt {node : NodeId} (reachable : graph.Reachable start node) :
    graph.rankFrom start node < graph.nodeCount := by
  have subset : graph.reversePostorder start ⊆ List.range graph.nodeCount := by
    intro other listed
    have reached := (mem_reversePostorder wellFormed inRange).mp listed
    exact List.mem_range.mpr (reached.lt wellFormed inRange)
  have short : (graph.reversePostorder start).length ≤ graph.nodeCount := by
    have contained := (nodup_reversePostorder wellFormed inRange).subperm subset
    simpa using contained.length_le
  have listed := (mem_reversePostorder wellFormed inRange).mpr reachable
  rw [rankFrom_eq_idxOf wellFormed inRange reachable]
  exact Nat.lt_of_lt_of_le (List.idxOf_lt_length_of_mem listed) short

theorem exists_predecessor_rankFrom_lt {node : NodeId} (reachable : graph.Reachable start node)
    (other : node ≠ start) :
    ∃ earlier, graph.Reachable start earlier ∧ node ∈ graph.successors earlier ∧
      graph.rankFrom start earlier < graph.rankFrom start node := by
  have searched := searched_reversePostorder wellFormed inRange
  have listed := (mem_reversePostorder wellFormed inRange).mpr reachable
  rcases searched.led node listed with isStart | ⟨earlier, edge, stands⟩
  · exact absurd isStart other
  · have earlierReachable : graph.Reachable start earlier :=
      searched.reached earlier (stands.subset List.mem_cons_self)
    refine ⟨earlier, earlierReachable, edge, ?_⟩
    rw [rankFrom_eq_idxOf wellFormed inRange reachable,
      rankFrom_eq_idxOf wellFormed inRange earlierReachable]
    exact idxOf_lt_of_sublist searched.distinct stands

end Rank

end Digraph

end SymbolicFlow
