import SymbolicFlow.Digraph.Search
import SymbolicFlow.Proofs.Digraph.Paths

/-!
# Breadth-first search

A search reads its own list: what stands before the cursor has had its neighbours met, and the
list never holds a node twice.  It is therefore no longer than there are nodes, and the search
comes to the end of it.  The list then holds exactly what can be reached from the nodes with
which the search began.

This is stated for any neighbour function; breadth-first order is the case of successors.
-/

set_option autoImplicit false

namespace SymbolicFlow

namespace Search

def Connects (next : NodeId → List NodeId) : NodeId → NodeId → Prop :=
  Relation.ReflTransGen fun source target => target ∈ next source

theorem mem_meet {order : Array NodeId} {nodes : List NodeId} {node : NodeId} :
    node ∈ meet order nodes ↔ node ∈ order ∨ node ∈ nodes := by
  induction nodes generalizing order with
  | nil => simp [meet]
  | cons first rest ih =>
      have onward : meet order (first :: rest) =
          meet (if order.contains first then order else order.push first) rest := rfl
      rw [onward, ih]
      by_cases listed : first ∈ order
      · simp only [Array.contains_iff_mem, listed, if_true, List.mem_cons]
        constructor
        · intro known
          exact known.imp_right Or.inr
        · rintro (known | rfl | later)
          · exact Or.inl known
          · exact Or.inl listed
          · exact Or.inr later
      · simp [listed, Array.mem_push, or_assoc]

theorem forall_mem_meet {property : NodeId → Prop} {order : Array NodeId} {nodes : List NodeId}
    (old : ∀ node ∈ order, property node) (new : ∀ node ∈ nodes, property node) :
    ∀ node ∈ meet order nodes, property node := by
  intro node member
  rcases mem_meet.mp member with listed | given
  · exact old node listed
  · exact new node given

theorem prefix_meet (order : Array NodeId) (nodes : List NodeId) :
    order.toList <+: (meet order nodes).toList := by
  induction nodes generalizing order with
  | nil => exact List.prefix_refl _
  | cons first rest ih =>
      have longer : order.toList <+:
          (if order.contains first then order else order.push first).toList := by
        split
        · exact List.prefix_refl _
        · simp
      exact longer.trans (ih _)

theorem nodup_meet {order : Array NodeId} (nodes : List NodeId) (distinct : order.toList.Nodup) :
    (meet order nodes).toList.Nodup := by
  induction nodes generalizing order with
  | nil => exact distinct
  | cons first rest ih =>
      apply ih
      by_cases listed : first ∈ order
      · simpa [listed] using distinct
      · simp only [Array.contains_iff_mem, listed, if_false, Array.toList_push]
        exact distinct.append (List.nodup_singleton first)
          (List.disjoint_singleton.mpr (by simpa using listed))

/-- What holds while a search that began with `seeds` reads its list. -/
structure Exploring (next : NodeId → List NodeId) (seeds : Array NodeId) (cursor : Nat)
    (order : Array NodeId) : Prop where
  distinct : order.toList.Nodup
  grown : seeds.toList <+: order.toList
  found : ∀ node ∈ order, ∃ seed ∈ seeds, Connects next seed node
  done : ∀ node ∈ order.toList.take cursor, ∀ neighbour ∈ next node, neighbour ∈ order

variable {next : NodeId → List NodeId} {seeds order : Array NodeId} {cursor count : Nat}

theorem exploring_start (distinct : seeds.toList.Nodup) : Exploring next seeds 0 seeds where
  distinct := distinct
  grown := List.prefix_refl _
  found := fun node member => ⟨node, member, .refl⟩
  done := by simp

theorem Exploring.step (exploring : Exploring next seeds cursor order) {node : NodeId}
    (atCursor : order[cursor]? = some node) :
    Exploring next seeds (cursor + 1) (meet order (next node)) := by
  have listed : node ∈ order := Array.mem_of_getElem? atCursor
  have longer := prefix_meet order (next node)
  refine ⟨nodup_meet _ exploring.distinct, exploring.grown.trans longer, ?_, ?_⟩
  · intro other member
    rcases mem_meet.mp member with old | new
    · exact exploring.found other old
    · obtain ⟨seed, isSeed, connected⟩ := exploring.found node listed
      exact ⟨seed, isSeed, connected.tail new⟩
  · obtain ⟨fresh, extended⟩ := longer
    obtain ⟨bound, _⟩ := Array.getElem?_eq_some_iff.mp atCursor
    have reaches : order.toList[cursor]? = some node := by simpa using atCursor
    have readSoFar : (meet order (next node)).toList.take (cursor + 1) =
        order.toList.take cursor ++ [node] := by
      rw [← extended, List.take_append_of_le_length (by simpa using Nat.succ_le_of_lt bound),
        List.take_add_one, reaches]
      rfl
    intro other member neighbour isNeighbour
    rw [readSoFar] at member
    rcases List.mem_append.mp member with earlier | now
    · exact mem_meet.mpr (Or.inl (exploring.done other earlier neighbour isNeighbour))
    · rw [List.mem_singleton.mp now] at isNeighbour
      exact mem_meet.mpr (Or.inr isNeighbour)

theorem Exploring.size_le (exploring : Exploring next seeds cursor order)
    (bounded : ∀ node ∈ order, node < count) : order.size ≤ count := by
  have subset : order.toList ⊆ List.range count := by
    intro node member
    exact List.mem_range.mpr (bounded node (by simpa using member))
  simpa using (exploring.distinct.subperm subset).length_le

theorem Exploring.finish (exploring : Exploring next seeds cursor order)
    (passed : order.size ≤ cursor) : Exploring next seeds order.size order := by
  refine { exploring with done := ?_ }
  intro node member
  apply exploring.done node
  rw [List.take_of_length_le (by simpa using passed)]
  exact List.mem_of_mem_take member

theorem Exploring.closed (explored : Exploring next seeds order.size order) {node : NodeId}
    (member : node ∈ order) : ∀ neighbour ∈ next node, neighbour ∈ order := by
  apply explored.done node
  rw [List.take_of_length_le (by simp)]
  simpa using member

/-- With `count` steps a search on nodes below `count` reads its list to the end. -/
theorem Exploring.explore (steps : Nat) (exploring : Exploring next seeds cursor order)
    (inside : ∀ node ∈ order, node < count)
    (bounded : ∀ node, ∀ neighbour ∈ next node, neighbour < count)
    (enough : count ≤ steps + cursor) :
    Exploring next seeds (explore next steps cursor order).size
      (explore next steps cursor order) := by
  induction steps generalizing cursor order with
  | zero =>
      have short := exploring.size_le inside
      exact exploring.finish (by omega)
  | succ steps ih =>
      rw [Search.explore]
      cases atCursor : order[cursor]? with
      | none => exact exploring.finish (Array.getElem?_eq_none_iff.mp atCursor)
      | some node =>
          exact ih (exploring.step atCursor) (forall_mem_meet inside (bounded node)) (by omega)

theorem exploring_explore (distinct : seeds.toList.Nodup) (inside : ∀ node ∈ seeds, node < count)
    (bounded : ∀ node, ∀ neighbour ∈ next node, neighbour < count) :
    Exploring next seeds (explore next count 0 seeds).size (explore next count 0 seeds) :=
  (exploring_start distinct).explore count inside bounded (by omega)

theorem mem_explore (distinct : seeds.toList.Nodup) (inside : ∀ node ∈ seeds, node < count)
    (bounded : ∀ node, ∀ neighbour ∈ next node, neighbour < count) {node : NodeId} :
    node ∈ explore next count 0 seeds ↔ ∃ seed ∈ seeds, Connects next seed node := by
  have explored := exploring_explore distinct inside bounded
  constructor
  · exact explored.found node
  · rintro ⟨seed, isSeed, connected⟩
    induction connected with
    | refl => simpa using explored.grown.subset (by simpa using isSeed)
    | tail _ edge listed => exact explored.closed listed _ edge

end Search

namespace Digraph

variable {α β : Type} {graph : Digraph α β} {start : NodeId}

theorem reachable_iff_connects {node : NodeId} :
    graph.Reachable start node ↔ Search.Connects graph.successors start node := by
  constructor
  · intro reachable
    exact reachable.induct (Search.Connects graph.successors start) .refl
      fun connected edge => connected.tail edge
  · intro connected
    induction connected with
    | refl => exact .refl graph start
    | tail _ edge reachable => exact reachable.step edge

section Order

variable (wellFormed : graph.WellFormed) (inRange : start < graph.nodeCount)
include wellFormed inRange

theorem nodup_breadthFirst : (graph.breadthFirst start).Nodup := by
  rw [breadthFirst, if_pos inRange]
  exact (Search.exploring_explore (by simp) (by simpa using inRange)
    fun _ _ edge => (lt_of_mem_successors wellFormed edge).2).distinct

theorem mem_breadthFirst {node : NodeId} :
    node ∈ graph.breadthFirst start ↔ graph.Reachable start node := by
  rw [breadthFirst, if_pos inRange, Array.mem_toList_iff,
    Search.mem_explore (by simp) (by simpa using inRange)
      (fun _ _ edge => (lt_of_mem_successors wellFormed edge).2)]
  simp [reachable_iff_connects]

end Order

end Digraph

end SymbolicFlow
