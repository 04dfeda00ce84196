import Mathlib.Data.Nat.Find
import Mathlib.Order.Bounds.Basic
import SymbolicFlow.Proofs.Digraph.BreadthFirst

/-!
# Distances in breadth-first order

A search writes behind its list and reads it from the front.  So of two nodes the one that is
written earlier was also found earlier: when a node is read that leads to the later one, a node that
leads to the earlier one has been read already.  `Queued` says so; one turn of the search preserves
it.

It follows that the list is sorted by distance.  Take any path to the later node, and the node
before its end; where that one is read, the earlier node has been found, from a node that stands no
later.  Going back along the path in this way gives a path to the earlier node that is not longer.
-/

set_option autoImplicit false

namespace SymbolicFlow

namespace Search

variable {next : NodeId → List NodeId} {seeds order : Array NodeId} {cursor count : Nat}

/-! ## One turn after the other -/

/-- Asked for one node after the other, a search answers with the nodes listed and then has no
more.  The nodes from the cursor on are those that wait. -/
inductive Yields (next : NodeId → List NodeId) : Nat → Array NodeId → List NodeId → Prop where
  | done {cursor : Nat} {order : Array NodeId} :
      order[cursor]? = none → Yields next cursor order []
  | turn {cursor : Nat} {order : Array NodeId} {node : NodeId} {rest : List NodeId} :
      order[cursor]? = some node → Yields next (cursor + 1) (meet order (next node)) rest →
        Yields next cursor order (node :: rest)

theorem prefix_explore (next : NodeId → List NodeId) (steps cursor : Nat) (order : Array NodeId) :
    order.toList <+: (explore next steps cursor order).toList := by
  induction steps generalizing cursor order with
  | zero => exact List.prefix_refl _
  | succ steps ih =>
      rw [explore]
      cases order[cursor]? with
      | none => exact List.prefix_refl _
      | some node => exact (prefix_meet order (next node)).trans (ih _ _)

/-- With steps for all nodes a search stops because nothing waits, not for want of steps. -/
theorem Exploring.yields (steps : Nat) (exploring : Exploring next seeds cursor order)
    (inside : ∀ node ∈ order, node < count)
    (bounded : ∀ node, ∀ neighbour ∈ next node, neighbour < count)
    (enough : count ≤ steps + cursor) :
    Yields next cursor order ((Search.explore next steps cursor order).toList.drop cursor) := by
  have ended : ∀ {cursor : Nat} {order : Array NodeId}, order[cursor]? = none →
      Yields next cursor order (order.toList.drop cursor) := by
    intro cursor order passed
    rw [List.drop_of_length_le (by simpa using passed)]
    exact .done passed
  induction steps generalizing cursor order with
  | zero =>
      have short := exploring.size_le inside
      exact ended (Array.getElem?_eq_none_iff.mpr (by omega))
  | succ steps ih =>
      rw [Search.explore]
      cases atCursor : order[cursor]? with
      | none => exact ended atCursor
      | some node =>
          have longer :=
            (prefix_meet order (next node)).trans (prefix_explore next steps (cursor + 1) _)
          obtain ⟨cursorBound, isNode⟩ := Array.getElem?_eq_some_iff.mp atCursor
          have listed := List.prefix_iff_getElem?.mp longer cursor (by simpa using cursorBound)
          obtain ⟨bound, same⟩ := List.getElem?_eq_some_iff.mp listed
          rw [List.drop_eq_getElem_cons bound, same, Array.getElem_toList, isNode]
          exact .turn atCursor
            (ih (exploring.step atCursor) (forall_mem_meet inside (bounded node)) (by omega))

/-! ## First found, first written -/

def LeadsAt (next : NodeId → List NodeId) (order : Array NodeId) (source target : Nat) : Prop :=
  ∃ reader found, order[source]? = some reader ∧ order[target]? = some found ∧ found ∈ next reader

/-- Each node behind the seeds was found from a node that has been read, and no node that was read
before leads to it or to a node behind it. -/
def Queued (next : NodeId → List NodeId) (seeds : Array NodeId) (cursor : Nat)
    (order : Array NodeId) : Prop :=
  ∀ position, seeds.size ≤ position → position < order.size →
    ∃ finder < cursor, LeadsAt next order finder position ∧
      ∀ earlier < finder, ∀ later, position ≤ later → ¬ LeadsAt next order earlier later

theorem queued_start (next : NodeId → List NodeId) (seeds : Array NodeId) :
    Queued next seeds 0 seeds :=
  fun _ behind inside => absurd inside (Nat.not_lt.mpr behind)

theorem getElem?_meet_of_lt {nodes : List NodeId} {position : Nat} (bound : position < order.size) :
    (meet order nodes)[position]? = order[position]? := by
  obtain ⟨fresh, extended⟩ := prefix_meet order nodes
  rw [← Array.getElem?_toList, ← extended, List.getElem?_append_left (by simpa using bound),
    Array.getElem?_toList]

theorem of_getElem?_meet {nodes : List NodeId} {position : Nat} {node : NodeId}
    (distinct : order.toList.Nodup) (behind : order.size ≤ position)
    (written : (meet order nodes)[position]? = some node) : node ∈ nodes ∧ node ∉ order := by
  obtain ⟨fresh, extended⟩ := prefix_meet order nodes
  have isFresh : node ∈ fresh := by
    rw [← Array.getElem?_toList, ← extended,
      List.getElem?_append_right (by simpa using behind)] at written
    exact List.mem_of_getElem? written
  have unlisted : node ∉ order := by
    have apart := nodup_meet nodes distinct
    rw [← extended] at apart
    intro listed
    exact (List.nodup_append.mp apart).2.2 node (by simpa using listed) node isFresh rfl
  exact ⟨(mem_meet.mp (Array.mem_of_getElem? written)).resolve_left unlisted, unlisted⟩

theorem leadsAt_meet {nodes : List NodeId} {source target : Nat} (sourceBound : source < order.size)
    (targetBound : target < order.size) :
    LeadsAt next (meet order nodes) source target ↔ LeadsAt next order source target := by
  simp only [LeadsAt, getElem?_meet_of_lt sourceBound, getElem?_meet_of_lt targetBound]

theorem Queued.step (exploring : Exploring next seeds cursor order)
    (queued : Queued next seeds cursor order) {node : NodeId}
    (atCursor : order[cursor]? = some node) :
    Queued next seeds (cursor + 1) (meet order (next node)) := by
  obtain ⟨cursorBound, _⟩ := Array.getElem?_eq_some_iff.mp atCursor
  -- All neighbours of a node that was read before are listed, so none of them is written now.
  have settled : ∀ earlier < cursor, ∀ later, order.size ≤ later →
      ¬ LeadsAt next (meet order (next node)) earlier later := by
    rintro earlier before later behind ⟨reader, found, isReader, isFound, edge⟩
    rw [getElem?_meet_of_lt (by omega), ← Array.getElem?_toList] at isReader
    have read : reader ∈ order.toList.take cursor := by
      rw [← List.getElem?_take_of_lt before] at isReader
      exact List.mem_of_getElem? isReader
    exact (of_getElem?_meet exploring.distinct behind isFound).2
      (exploring.done reader read found edge)
  intro position behind inside
  by_cases old : position < order.size
  · obtain ⟨finder, wasRead, leads, first⟩ := queued position behind old
    refine ⟨finder, by omega, (leadsAt_meet (by omega) old).mpr leads, ?_⟩
    intro earlier before later after
    by_cases listed : later < order.size
    · rw [leadsAt_meet (by omega) listed]
      exact first earlier before later after
    · exact settled earlier (by omega) later (by omega)
  · obtain ⟨new, isNew⟩ : ∃ new, (meet order (next node))[position]? = some new :=
      ⟨_, Array.getElem?_eq_getElem inside⟩
    have edge := (of_getElem?_meet exploring.distinct (by omega) isNew).1
    refine ⟨cursor, by omega, ⟨node, new, ?_, isNew, edge⟩, ?_⟩
    · rw [getElem?_meet_of_lt cursorBound]
      exact atCursor
    · intro earlier before later after
      exact settled earlier before later (by omega)

theorem Queued.explore (steps : Nat) (exploring : Exploring next seeds cursor order)
    (queued : Queued next seeds cursor order) :
    ∃ reached, Queued next seeds reached (explore next steps cursor order) := by
  induction steps generalizing cursor order with
  | zero => exact ⟨cursor, queued⟩
  | succ steps ih =>
      rw [Search.explore]
      cases atCursor : order[cursor]? with
      | none => exact ⟨cursor, queued⟩
      | some node => exact ih (exploring.step atCursor) (queued.step exploring atCursor)

end Search

namespace Digraph

variable {α β : Type} {graph : Digraph α β} {start : NodeId}

def Distance (graph : Digraph α β) (start node : NodeId) (length : Nat) : Prop :=
  IsLeast {length | ∃ nodes, graph.Path start nodes node ∧ nodes.length = length + 1} length

theorem Path.length_pos {nodes : List NodeId} {last : NodeId} (path : graph.Path start nodes last) :
    0 < nodes.length :=
  List.length_pos_of_mem path.start_mem

theorem Reachable.exists_distance {node : NodeId} (reachable : graph.Reachable start node) :
    ∃ length, graph.Distance start node length := by
  classical
  obtain ⟨nodes, path⟩ := reachable
  have measured : ∃ length nodes, graph.Path start nodes node ∧ nodes.length = length + 1 :=
    ⟨_, nodes, path, (Nat.sub_add_cancel path.length_pos).symm⟩
  exact ⟨Nat.find measured, Nat.find_spec measured,
    fun _ other => Nat.find_min' measured other⟩

/-- If a node leads to the later of two, then one that stands no further back leads to the
earlier. -/
theorem exists_finder (inRange : start < graph.nodeCount) {early late reader : Nat}
    {near far source : NodeId} (nearListed : (graph.breadthFirst start)[early]? = some near)
    (farListed : (graph.breadthFirst start)[late]? = some far)
    (sourceListed : (graph.breadthFirst start)[reader]? = some source)
    (behindStart : 0 < early) (ordered : early ≤ late) (edge : far ∈ graph.successors source) :
    ∃ finder ≤ reader, ∃ parent, (graph.breadthFirst start)[finder]? = some parent ∧
      near ∈ graph.successors parent := by
  simp only [breadthFirst, if_pos inRange, Array.getElem?_toList]
    at nearListed farListed sourceListed ⊢
  obtain ⟨_, queued⟩ := (Search.queued_start graph.successors #[start]).explore graph.nodeCount
    (Search.exploring_start (by simp))
  obtain ⟨inside, _⟩ := Array.getElem?_eq_some_iff.mp nearListed
  obtain ⟨finder, _, ⟨parent, found, isParent, isFound, leads⟩, first⟩ :=
    queued early behindStart inside
  cases nearListed.symm.trans isFound
  refine ⟨finder, ?_, parent, isParent, leads⟩
  by_contra later
  exact first reader (by omega) late ordered ⟨source, far, sourceListed, farListed, edge⟩

section Order

variable (wellFormed : graph.WellFormed) (inRange : start < graph.nodeCount)
include wellFormed inRange

theorem yields_breadthFirst :
    Search.Yields graph.successors 0 #[start] (graph.breadthFirst start) := by
  rw [breadthFirst, if_pos inRange]
  have exploring : Search.Exploring graph.successors #[start] 0 #[start] :=
    Search.exploring_start (by simp)
  exact exploring.yields graph.nodeCount (by simpa using inRange)
    (fun _ _ edge => (lt_of_mem_successors wellFormed edge).2) (by omega)

theorem getElem?_zero_breadthFirst : (graph.breadthFirst start)[0]? = some start := by
  have yields := yields_breadthFirst wellFormed inRange
  generalize graph.breadthFirst start = order at yields ⊢
  cases yields with
  | done passed => simp at passed
  | turn first _ => simpa using first.symm

theorem exists_path_length_le {early late : Nat} {near far : NodeId}
    (nearListed : (graph.breadthFirst start)[early]? = some near)
    (farListed : (graph.breadthFirst start)[late]? = some far) (ordered : early ≤ late)
    {nodes : List NodeId} (path : graph.Path start nodes far) :
    ∃ others, graph.Path start others near ∧ others.length ≤ nodes.length := by
  have startListed := getElem?_zero_breadthFirst wellFormed inRange
  have atStart : ∀ {position : Nat} {node : NodeId},
      (graph.breadthFirst start)[position]? = some node → position = 0 → node = start := by
    rintro position node listed rfl
    exact Option.some.inj (listed.symm.trans startListed)
  induction path generalizing early late near with
  | single =>
      have first : late = 0 := by
        obtain ⟨bound, _⟩ := List.getElem?_eq_some_iff.mp farListed
        exact (List.getElem?_inj bound (nodup_breadthFirst wellFormed inRange)).mp
          (farListed.trans startListed.symm)
      cases atStart nearListed (by omega)
      exact ⟨[start], .single, Nat.le_refl _⟩
  | @step nodes last far path edge previous =>
      by_cases first : early = 0
      · cases atStart nearListed first
        exact ⟨[start], .single, by simp⟩
      · have reached := (mem_breadthFirst wellFormed inRange).mpr ⟨nodes, path⟩
        obtain ⟨reader, lastListed⟩ := List.getElem?_of_mem reached
        obtain ⟨finder, notLater, parent, parentListed, leads⟩ :=
          exists_finder inRange nearListed farListed lastListed
            (Nat.pos_of_ne_zero first) ordered edge
        obtain ⟨others, shorter, length⟩ := previous parentListed lastListed notLater
        exact ⟨others ++ [near], shorter.step leads, by simpa using length⟩

end Order

/-! ## The laws -/

structure BreadthFirstLaws (graph : Digraph α β) (start : NodeId) (order : List NodeId) : Prop where
  /-- The search stops by itself, and these are the nodes that it yields until then. -/
  ends : Search.Yields graph.successors 0 #[start] order
  distinct : order.Nodup
  members : ∀ node, node ∈ order ↔ ∃ nodes, graph.Path start nodes node
  startFirst : order.head? = some start
  nearestFirst : ∃ distances : List Nat,
    List.Forall₂ (graph.Distance start) order distances ∧ distances.Pairwise (· ≤ ·)

theorem nearestFirst_breadthFirst (wellFormed : graph.WellFormed)
    (inRange : start < graph.nodeCount) :
    ∃ distances : List Nat,
      List.Forall₂ (graph.Distance start) (graph.breadthFirst start) distances ∧
        distances.Pairwise (· ≤ ·) := by
  have measured : ∀ node, ∃ length, node ∈ graph.breadthFirst start →
      graph.Distance start node length := by
    intro node
    by_cases listed : node ∈ graph.breadthFirst start
    · obtain ⟨length, isDistance⟩ :=
        ((mem_breadthFirst wellFormed inRange).mp listed).exists_distance
      exact ⟨length, fun _ => isDistance⟩
    · exact ⟨0, fun member => absurd member listed⟩
  choose distance isDistance using measured
  refine ⟨(graph.breadthFirst start).map distance, ?_, ?_⟩
  · rw [List.forall₂_map_right_iff, List.forall₂_same]
    exact isDistance
  · rw [List.pairwise_map, List.pairwise_iff_getElem]
    intro early late earlyBound lateBound ordered
    obtain ⟨⟨nodes, path, length⟩, _⟩ := isDistance _ (List.getElem_mem lateBound)
    obtain ⟨others, shorter, notLonger⟩ := exists_path_length_le wellFormed inRange
      (List.getElem?_eq_getElem earlyBound) (List.getElem?_eq_getElem lateBound)
      (Nat.le_of_lt ordered) path
    have positive := shorter.length_pos
    have least := (isDistance _ (List.getElem_mem earlyBound)).2
      ⟨others, shorter, (Nat.sub_add_cancel positive).symm⟩
    omega

/-- Breadth-first search stops by itself.  It yields exactly the reachable nodes, each once, the
start first and then by distance; a start that the graph lacks yields nothing. -/
theorem breadthFirst_lawful {graph : Digraph α β} (constructed : graph.Constructed)
    (start : NodeId) :
    (start < graph.nodeCount → graph.BreadthFirstLaws start (graph.breadthFirst start)) ∧
      (graph.nodeCount ≤ start → graph.breadthFirst start = []) := by
  have wellFormed := constructed.wellFormed
  constructor
  · intro inRange
    refine ⟨yields_breadthFirst wellFormed inRange, nodup_breadthFirst wellFormed inRange, ?_, ?_,
      nearestFirst_breadthFirst wellFormed inRange⟩
    · intro node
      exact mem_breadthFirst wellFormed inRange
    · rw [List.head?_eq_getElem?]
      exact getElem?_zero_breadthFirst wellFormed inRange
  · intro missing
    rw [breadthFirst, if_neg (Nat.not_lt.mpr missing)]

/-- Two levels behind the start, with a doubled edge, a way back to the start, a self-loop and a
node that leads in from outside. -/
def twoLevels : Digraph Unit Unit :=
  (((((((empty.addNode ()).addNode ()).addNode ()).addNode ()).addNode ()).addNode ()).addEdges ()
    [(0, 2), (0, 1), (0, 2), (2, 3), (3, 0), (1, 3), (1, 4), (4, 4), (5, 1)]).1

theorem constructed_twoLevels : twoLevels.Constructed :=
  .addEdges () _ (.addNode () (.addNode () (.addNode () (.addNode () (.addNode () (.addNode ()
    .empty))))))

theorem breadthFirst_lawful_twoLevels :
    (0 < twoLevels.nodeCount ∧ twoLevels.BreadthFirstLaws 0 [0, 2, 1, 3, 4] ∧
      ¬ twoLevels.Reachable 0 5) ∧ twoLevels.nodeCount ≤ 6 ∧ twoLevels.breadthFirst 6 = [] := by
  have inRange : 0 < twoLevels.nodeCount := by decide
  have order : twoLevels.breadthFirst 0 = [0, 2, 1, 3, 4] := by decide +kernel
  have outside : twoLevels.nodeCount ≤ 6 := by decide
  have laws := (breadthFirst_lawful constructed_twoLevels 0).1 inRange
  rw [order] at laws
  refine ⟨⟨inRange, laws, ?_⟩, outside, (breadthFirst_lawful constructed_twoLevels 6).2 outside⟩
  intro reachable
  have listed := (laws.members 5).mpr reachable
  revert listed
  decide

end Digraph

end SymbolicFlow
