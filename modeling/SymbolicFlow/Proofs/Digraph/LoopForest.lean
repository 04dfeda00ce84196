import SymbolicFlow.Proofs.Digraph.LoopBodies
import SymbolicFlow.Proofs.Procedure

/-!
# Loops lie inside each other

Loops are placed by headers, sizes and depths: the parent of a loop is the smallest other loop that
holds its header, and the innermost loop of a block is the deepest that holds it.  `WellNested` says
what this comes to in terms of bodies.  Of two loops one lies inside the other or they share no
reachable block, parents and children are the neighbours in this order, a depth is a number of loops
around, and the loops above the innermost loop of a reachable block are those that hold it.

Code out of reach may lie in two loops that have nothing else in common.  It does not disturb the
order of the loops: a loop that holds the header of another one also holds the code out of reach
that the other one has collected.

With the order of the loops, a back edge can be told in two ways: by the loops around its target,
and by dominance.
-/

set_option autoImplicit false

namespace SymbolicFlow

/-- All blocks of a loop belong to another one, which has more. -/
def Loop.Inside (inner outer : Loop) : Prop :=
  inner.body ⊆ outer.body ∧ ¬ outer.body ⊆ inner.body

instance (inner outer : Loop) : Decidable (inner.Inside outer) :=
  inferInstanceAs (Decidable (_ ∧ _))

namespace LoopForest

def climb (forest : LoopForest) (current : Option Nat) : Option Nat :=
  current.bind fun id => (forest.loop? id).bind (·.parent)

def around (forest : LoopForest) (block : NodeId) : List Loop :=
  match forest.innermostLoop? block with
  | none => []
  | some loop => forest.ancestors loop.id

/-- Of the other loops that hold all blocks of a loop, `outer` is smaller than the rest. -/
structure SmallestAround (forest : LoopForest) (loop outer : Loop) : Prop where
  other : outer ≠ loop
  holds : loop.body ⊆ outer.body
  smallest : ∀ third ∈ forest.loops, third ≠ loop → third ≠ outer → loop.body ⊆ third.body →
    outer.size < third.size

structure WellNested (forest : LoopForest) (reached : NodeId → Prop) : Prop where
  inside : ∀ inner ∈ forest.loops, ∀ outer ∈ forest.loops, inner ≠ outer →
    inner.header ∈ outer.body → inner.Inside outer
  apart : ∀ first ∈ forest.loops, ∀ second ∈ forest.loops, first.header ∉ second.body →
    second.header ∉ first.body → ∀ block, reached block → block ∈ first.body → block ∉ second.body
  parent : ∀ loop ∈ forest.loops, ∀ id, loop.parent = some id ↔
    ∃ outer, forest.loop? id = some outer ∧ forest.SmallestAround loop outer
  outermost : ∀ loop ∈ forest.loops, loop.parent = none ↔
    ∀ other ∈ forest.loops, other ≠ loop → ¬ loop.body ⊆ other.body
  childrenOnce : ∀ loop ∈ forest.loops, loop.children.Nodup
  children : ∀ loop ∈ forest.loops, ∀ id, id ∈ loop.children ↔
    ∃ child, forest.loop? id = some child ∧ child.parent = some loop.id
  rounds : ∀ loop ∈ forest.loops, ∀ count, forest.climb^[count] loop.parent = none ↔
    loop.depth ≤ count
  depth : ∀ loop ∈ forest.loops, loop.depth = forest.loops.toList.countP (loop.Inside ·)
  around : ∀ block, reached block → ∀ loop, loop ∈ forest.around block ↔
    loop ∈ forest.loops ∧ block ∈ loop.body
  ascending : ∀ block, reached block →
    (forest.around block).Pairwise fun nearer farther => nearer.size < farther.size
  depthOf : ∀ block, reached block →
    forest.depthOf block = forest.loops.toList.countP (block ∈ ·.body)

/-! ## The order of the loops -/

section Order

variable {outlines : Array Outline} {property : NodeId → Prop} {count : Nat}

theorem placed_inj {id other : Nat} : placed outlines id = placed outlines other ↔ id = other :=
  ⟨congrArg Loop.id, congrArg _⟩

theorem countP_loops (test : Loop → Prop) [DecidablePred test] :
    (ofOutlines count outlines).loops.toList.countP (test ·) =
      ((Finset.range outlines.size).filter fun id => test (placed outlines id)).card := by
  rw [loops_ofOutlines, List.countP_map, List.countP_eq_length_filter]
  rfl

theorem countP_holding (block : NodeId) :
    (ofOutlines count outlines).loops.toList.countP (block ∈ ·.body) =
      (holders outlines block).card :=
  countP_loops (block ∈ ·.body)

variable (nested : Nested outlines property)
include nested

theorem Nested.body_subset_iff {inner outer : Nat} (innerBound : inner < outlines.size)
    (outerBound : outer < outlines.size) :
    (placed outlines inner).body ⊆ (placed outlines outer).body ↔
      outer ∈ holders outlines (headerOf outlines inner) := by
  constructor
  · intro subset
    have own := (mem_holders.mp (nested.own innerBound)).2
    exact mem_holders.mpr ⟨outerBound, subset own⟩
  · intro holds block member
    have inInner : inner ∈ holders outlines block := mem_holders.mpr ⟨innerBound, member⟩
    exact (mem_holders.mp (nested.within inInner holds)).2

theorem Nested.inside_iff {inner outer : Nat} (innerBound : inner < outlines.size)
    (outerBound : outer < outlines.size) :
    (placed outlines inner).Inside (placed outlines outer) ↔
      outer ≠ inner ∧ outer ∈ holders outlines (headerOf outlines inner) := by
  rw [Loop.Inside, nested.body_subset_iff innerBound outerBound,
    nested.body_subset_iff outerBound innerBound, and_comm]
  refine and_congr_left fun holds => ?_
  constructor
  · rintro notBack rfl
    exact notBack holds
  · intro different back
    have smaller := nested.smaller innerBound holds different
    have larger := nested.smaller outerBound back (Ne.symm different)
    omega

theorem Nested.apart {first second : Nat} (firstBound : first < outlines.size)
    (secondBound : second < outlines.size)
    (notFirst : headerOf outlines first ∉ (placed outlines second).body)
    (notSecond : headerOf outlines second ∉ (placed outlines first).body) {block : NodeId}
    (has : property block) (inFirst : block ∈ (placed outlines first).body) :
    block ∉ (placed outlines second).body := by
  intro inSecond
  have different : first ≠ second := by
    rintro rfl
    exact notFirst (mem_holders.mp (nested.own firstBound)).2
  rcases nested.comparable has (mem_holders.mpr ⟨firstBound, inFirst⟩)
    (mem_holders.mpr ⟨secondBound, inSecond⟩) different with outer | inner
  · exact notSecond (mem_holders.mp outer).2
  · exact notFirst (mem_holders.mp inner).2

/-! ## Parents -/

theorem Nested.enclosing?_eq_some_iff {loop outer : Nat} (bound : loop < outlines.size)
    (outerBound : outer < outlines.size) :
    enclosing? outlines loop = some outer ↔
      (ofOutlines count outlines).SmallestAround (placed outlines loop)
        (placed outlines outer) := by
  constructor
  · intro found
    obtain ⟨_, outside, split⟩ := nested.holders_parent bound found
    have own := nested.own outerBound
    have different : outer ≠ loop := by
      rintro rfl
      exact outside own
    refine ⟨mt placed_inj.mp different, ?_, ?_⟩
    · rw [nested.body_subset_iff bound outerBound, split]
      exact Finset.mem_insert_of_mem own
    · intro third member notLoop notOuter subset
      obtain ⟨id, idBound, rfl⟩ := mem_loops_ofOutlines.mp member
      rw [nested.body_subset_iff bound idBound, split, Finset.mem_insert] at subset
      have above := subset.resolve_left (mt placed_inj.mpr notLoop)
      exact nested.smaller outerBound above (mt placed_inj.mpr notOuter)
  · intro smallest
    have holds := (nested.body_subset_iff bound outerBound).mp smallest.holds
    have different := mt placed_inj.mpr smallest.other
    rcases enclosing?_cases bound with ⟨_, alone⟩ | ⟨parent, found, around, notLoop, least⟩
    · exact absurd (alone outer holds) different
    · -- The parent is not larger than `outer`, and any other loop around is.
      have parentBound := (mem_holders.mp around).1
      by_contra other
      have notOuter : parent ≠ outer := fun same => other (same ▸ found)
      have larger := smallest.smallest _ (mem_loops_ofOutlines.mpr ⟨parent, parentBound, rfl⟩)
        (mt placed_inj.mp notLoop) (mt placed_inj.mp notOuter)
        ((nested.body_subset_iff bound parentBound).mpr around)
      exact Nat.not_le_of_lt larger (least outer holds different)

theorem Nested.enclosing?_eq_none_iff {loop : Nat} (bound : loop < outlines.size) :
    enclosing? outlines loop = none ↔ ∀ other ∈ (ofOutlines count outlines).loops,
      other ≠ placed outlines loop → ¬ (placed outlines loop).body ⊆ other.body := by
  constructor
  · intro top other member different subset
    obtain ⟨id, idBound, rfl⟩ := mem_loops_ofOutlines.mp member
    rw [nested.body_subset_iff bound idBound] at subset
    rcases enclosing?_cases bound with ⟨_, alone⟩ | ⟨parent, found, _⟩
    · exact different (placed_inj.mpr (alone id subset))
    · cases top.symm.trans found
  · intro alone
    rcases enclosing?_cases bound with ⟨top, _⟩ | ⟨parent, _, around, notLoop, _⟩
    · exact top
    · have parentBound := (mem_holders.mp around).1
      exact absurd ((nested.body_subset_iff bound parentBound).mpr around)
        (alone _ (mem_loops_ofOutlines.mpr ⟨parent, parentBound, rfl⟩)
          (mt placed_inj.mp notLoop))

/-! ## Depths -/

theorem Nested.depth_top {loop : Nat} (bound : loop < outlines.size)
    (top : enclosing? outlines loop = none) : (placed outlines loop).depth = 0 := by
  have depth := nested.depth_placed bound
  rw [nested.holders_top bound top, Finset.card_singleton] at depth
  omega

theorem Nested.depth_parent {loop parent : Nat} (bound : loop < outlines.size)
    (found : enclosing? outlines loop = some parent) :
    (placed outlines loop).depth = (placed outlines parent).depth + 1 := by
  obtain ⟨parentBound, outside, split⟩ := nested.holders_parent bound found
  have depth := nested.depth_placed bound
  rw [split, Finset.card_insert_of_notMem outside, ← nested.depth_placed parentBound] at depth
  omega

/-- Every round of counting goes one parent up, so the last round is at the depth. -/
theorem Nested.climb_eq_none_iff {loop : Nat} (bound : loop < outlines.size) (rounds : Nat) :
    (ofOutlines count outlines).climb^[rounds] (enclosing? outlines loop) = none ↔
      (placed outlines loop).depth ≤ rounds := by
  induction rounds generalizing loop with
  | zero =>
      cases found : enclosing? outlines loop with
      | none => simp [nested.depth_top bound found]
      | some parent => simp [nested.depth_parent bound found]
  | succ rounds ih =>
      cases found : enclosing? outlines loop with
      | none =>
          have stays : (ofOutlines count outlines).climb none = none := rfl
          simp [nested.depth_top bound found, Function.iterate_fixed stays]
      | some parent =>
          have parentBound := (nested.holders_parent bound found).1
          have above : (ofOutlines count outlines).climb (some parent) =
              enclosing? outlines parent := congrFun (parent?_ofOutlines count outlines) parent
          rw [Function.iterate_succ_apply, above, ih parentBound,
            nested.depth_parent bound found, Nat.succ_le_succ_iff]

theorem Nested.depth_eq_countP {loop : Nat} (bound : loop < outlines.size) :
    (placed outlines loop).depth =
      (ofOutlines count outlines).loops.toList.countP ((placed outlines loop).Inside ·) := by
  have others : (Finset.range outlines.size).filter
      (fun other => (placed outlines loop).Inside (placed outlines other)) =
        (holders outlines (headerOf outlines loop)).erase loop := by
    ext other
    rw [Finset.mem_filter, Finset.mem_range, Finset.mem_erase]
    constructor
    · rintro ⟨otherBound, inside⟩
      exact (nested.inside_iff bound otherBound).mp inside
    · rintro ⟨different, holds⟩
      have otherBound := (mem_holders.mp holds).1
      exact ⟨otherBound, (nested.inside_iff bound otherBound).mpr ⟨different, holds⟩⟩
  have depth := nested.depth_placed bound
  rw [countP_loops, others, Finset.card_erase_of_mem (nested.own bound)]
  omega

/-! ## The loops around a block -/

theorem Nested.pairwise_chainWithin (steps : Nat) {loop : Nat} (bound : loop < outlines.size)
    (enough : (holders outlines (headerOf outlines loop)).card ≤ steps) :
    (chainWithin (enclosing? outlines) steps loop).Pairwise fun nearer farther =>
      bodySize outlines nearer < bodySize outlines farther := by
  induction steps generalizing loop with
  | zero => exact .nil
  | succ steps ih =>
      rw [chainWithin]
      cases found : enclosing? outlines loop with
      | none => exact List.pairwise_singleton _ _
      | some parent =>
          obtain ⟨parentBound, outside, split⟩ := nested.holders_parent bound found
          rw [split, Finset.card_insert_of_notMem outside] at enough
          have fewer : (holders outlines (headerOf outlines parent)).card ≤ steps := by omega
          refine List.pairwise_cons.mpr ⟨?_, ih parentBound fewer⟩
          intro other member
          have above := ((nested.chainWithin_spec steps parentBound fewer).2 other).mp member
          apply nested.smaller bound
          · rw [split]
            exact Finset.mem_insert_of_mem above
          · rintro rfl
            exact outside above

section Around

variable {block : NodeId} (has : property block) (inRange : block < count)
include has inRange

theorem Nested.mem_around_iff (loop : Loop) :
    loop ∈ (ofOutlines count outlines).around block ↔
      loop ∈ (ofOutlines count outlines).loops ∧ block ∈ loop.body := by
  have listed : (loop ∈ (ofOutlines count outlines).loops ∧ block ∈ loop.body) ↔
      ∃ id ∈ holders outlines block, placed outlines id = loop := by
    rw [mem_loops_ofOutlines]
    constructor
    · rintro ⟨⟨id, bound, rfl⟩, member⟩
      exact ⟨id, mem_holders.mpr ⟨bound, member⟩, rfl⟩
    · rintro ⟨id, holds, rfl⟩
      obtain ⟨bound, member⟩ := mem_holders.mp holds
      exact ⟨⟨id, bound, rfl⟩, member⟩
  rw [listed, around]
  rcases nested.innermostLoop?_cases has inRange with ⟨none, found⟩ | ⟨id, bound, found, same⟩
  · simp [found, none]
  · rw [found, ← same]
    exact nested.mem_ancestors bound

theorem Nested.pairwise_around :
    ((ofOutlines count outlines).around block).Pairwise fun nearer farther =>
      nearer.size < farther.size := by
  rw [around]
  rcases nested.innermostLoop?_cases has inRange with ⟨_, found⟩ | ⟨id, bound, found, _⟩
  · rw [found]
    exact .nil
  · rw [found]
    change ((ofOutlines count outlines).ancestors id).Pairwise _
    rw [nested.ancestors_ofOutlines bound, List.pairwise_map]
    exact nested.pairwise_chainWithin outlines.size bound (card_holders_le _ _)

theorem Nested.depthOf_eq_countP :
    (ofOutlines count outlines).depthOf block =
      (ofOutlines count outlines).loops.toList.countP (block ∈ ·.body) := by
  rw [countP_holding, depthOf]
  rcases nested.innermostLoop?_cases has inRange with ⟨none, found⟩ | ⟨id, bound, found, same⟩
  · rw [found, none]
    rfl
  · rw [found, ← same]
    exact nested.depth_placed bound

end Around

/-- What is nested by headers and sizes is nested by bodies. -/
theorem Nested.wellNested (inRange : ∀ block, property block → block < count) :
    (ofOutlines count outlines).WellNested property where
  inside := by
    intro inner isInner outer isOuter different holds
    obtain ⟨innerId, innerBound, rfl⟩ := mem_loops_ofOutlines.mp isInner
    obtain ⟨outerId, outerBound, rfl⟩ := mem_loops_ofOutlines.mp isOuter
    rw [nested.inside_iff innerBound outerBound]
    exact ⟨fun same => different (placed_inj.mpr same.symm), mem_holders.mpr ⟨outerBound, holds⟩⟩
  apart := by
    intro first isFirst second isSecond notFirst notSecond block has
    obtain ⟨firstId, firstBound, rfl⟩ := mem_loops_ofOutlines.mp isFirst
    obtain ⟨secondId, secondBound, rfl⟩ := mem_loops_ofOutlines.mp isSecond
    exact nested.apart firstBound secondBound notFirst notSecond has
  parent := by
    intro loop isLoop id
    obtain ⟨loopId, bound, rfl⟩ := mem_loops_ofOutlines.mp isLoop
    constructor
    · intro found
      have outerBound := (nested.holders_parent bound found).1
      exact ⟨_, loop?_ofOutlines_eq_some_iff.mpr ⟨outerBound, rfl⟩,
        (nested.enclosing?_eq_some_iff bound outerBound).mp found⟩
    · rintro ⟨outer, known, smallest⟩
      obtain ⟨outerBound, rfl⟩ := loop?_ofOutlines_eq_some_iff.mp known
      exact (nested.enclosing?_eq_some_iff bound outerBound).mpr smallest
  outermost := by
    intro loop isLoop
    obtain ⟨loopId, bound, rfl⟩ := mem_loops_ofOutlines.mp isLoop
    exact nested.enclosing?_eq_none_iff bound
  childrenOnce := by
    intro loop isLoop
    obtain ⟨loopId, bound, rfl⟩ := mem_loops_ofOutlines.mp isLoop
    exact List.nodup_range.filter _
  children := by
    intro loop isLoop id
    obtain ⟨loopId, bound, rfl⟩ := mem_loops_ofOutlines.mp isLoop
    simp only [placed, List.mem_filter, List.mem_range, decide_eq_true_eq]
    constructor
    · rintro ⟨childBound, found⟩
      exact ⟨_, loop?_ofOutlines_eq_some_iff.mpr ⟨childBound, rfl⟩, found⟩
    · rintro ⟨child, known, found⟩
      obtain ⟨childBound, rfl⟩ := loop?_ofOutlines_eq_some_iff.mp known
      exact ⟨childBound, found⟩
  rounds := by
    intro loop isLoop
    obtain ⟨loopId, bound, rfl⟩ := mem_loops_ofOutlines.mp isLoop
    exact nested.climb_eq_none_iff bound
  depth := by
    intro loop isLoop
    obtain ⟨loopId, bound, rfl⟩ := mem_loops_ofOutlines.mp isLoop
    exact nested.depth_eq_countP bound
  around := fun block has => nested.mem_around_iff has (inRange block has)
  ascending := fun block has => nested.pairwise_around has (inRange block has)
  depthOf := fun block has => nested.depthOf_eq_countP has (inRange block has)

end Order

end LoopForest

/-! ## The forest of a graph -/

namespace Digraph

variable {α β : Type} {graph : Digraph α β} {entry : NodeId}

theorem loops_nested (constructed : graph.Constructed) (inRange : entry < graph.nodeCount) :
    (graph.loopForest (graph.dominatorTree entry)).WellNested (graph.Reachable entry) := by
  have wellFormed := constructed.wellFormed
  have outlined := outlined_loopOutlines wellFormed inRange
  apply (outlined.nested wellFormed inRange).wellNested
  intro block reachable
  exact reachable.lt wellFormed inRange

/-- The loop of 2 and 3 lies inside the loop of 1, and the loop of 5 and 6 follows.  Node 7 is out
of reach and leads into both of them. -/
def loopInLoop : Digraph Unit Unit :=
  ((((((((Digraph.empty.addNode ()).addNode ()).addNode ()).addNode ()).addNode ()).addNode
    ()).addNode ()).addNode ()).addEdges ()
      [(0, 1), (1, 2), (2, 3), (3, 2), (3, 4), (4, 1), (4, 5), (5, 6), (6, 5), (7, 3), (7, 6)] |>.1

theorem constructed_loopInLoop : loopInLoop.Constructed :=
  .addEdges () _ (.addNode () (.addNode () (.addNode () (.addNode () (.addNode () (.addNode ()
    (.addNode () (.addNode () .empty))))))))

theorem loops_nested_loopInLoop :
    loopInLoop.Constructed ∧ 0 < loopInLoop.nodeCount ∧
      (loopInLoop.loopForest (loopInLoop.dominatorTree 0)).WellNested
        (loopInLoop.Reachable 0) :=
  ⟨constructed_loopInLoop, by decide, loops_nested constructed_loopInLoop (by decide)⟩

example : (loopInLoop.loopForest (loopInLoop.dominatorTree 0)).loops.toList.map
    (fun loop => (loop.body, loop.parent, loop.children, loop.depth)) =
      [([1, 2, 3, 4, 7], none, [1], 0), ([2, 3, 7], some 0, [], 1), ([5, 6, 7], none, [], 0)] := by
  decide +kernel

end Digraph

/-! ## Back edges -/

/-- Whether an edge leads back is said alike by the loops around its target, by the dominator tree,
and by the paths from the entry. -/
theorem Procedure.backEdge_eq_dominates {procedure : Procedure} (built : procedure.Built)
    {source target : NodeId} (edge : target ∈ procedure.successors source)
    (reachable : procedure.graph.Reachable procedure.entry source) :
    procedure.loops.isBackEdge source target = procedure.dominators.dominates target source ∧
      (procedure.loops.isBackEdge source target = true ↔
        procedure.graph.Dominates procedure.entry target source) := by
  have wellFormed := built.wellFormed
  have byLoops : procedure.loops.isBackEdge source target = true ↔ _ :=
    Digraph.isBackEdge_iff_dominates wellFormed.graph wellFormed.entryExists reachable edge
  have byTree : procedure.dominators.dominates target source = true ↔ _ :=
    (Digraph.dominates_dominatorTree_iff wellFormed.graph wellFormed.entryExists).trans
      (Digraph.above_dominatorTree_iff wellFormed.graph wellFormed.entryExists reachable target)
  exact ⟨Bool.eq_iff_iff.mpr (byLoops.trans byTree.symm), byLoops⟩

/-- An edge that closes a loop, and one on a cycle that is entered at two blocks. -/
theorem Procedure.backEdge_eq_dominates_sideDoor :
    Countdown.procedure.loops.isBackEdge 1 1 = true ∧
      Countdown.procedure.graph.Dominates 0 1 1 ∧
    SideDoor.procedure.loops.isBackEdge 2 1 = false ∧
      SideDoor.procedure.dominators.dominates 1 2 = false := by
  have entered : Countdown.procedure.graph.Reachable 0 1 :=
    (Digraph.Reachable.refl _ 0).step (by decide)
  have again : 1 ∈ Countdown.procedure.successors 1 := by decide
  have loops : Countdown.procedure.loops.isBackEdge 1 1 = true := by decide +kernel
  have crossed : SideDoor.procedure.graph.Reachable 0 2 :=
    (Digraph.Reachable.refl _ 0).step (by decide)
  have back : 1 ∈ SideDoor.procedure.successors 2 := by decide
  have misses : SideDoor.procedure.loops.isBackEdge 2 1 = false := by decide +kernel
  exact ⟨loops, (backEdge_eq_dominates Countdown.built again entered).2.mp loops, misses,
    (backEdge_eq_dominates SideDoor.built back crossed).1.symm.trans misses⟩

end SymbolicFlow
