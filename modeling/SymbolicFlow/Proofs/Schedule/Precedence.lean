import Mathlib.Order.WellFoundedSet
import SymbolicFlow.Proofs.Digraph.LoopNesting
import SymbolicFlow.Proofs.Schedule.Run

/-!
# What is visited before what

A block is punctual if all its predecessors were visited, those aside that lead to it over a back
edge.  The queue holds punctual blocks only, except for a forced one, which is taken out at once.
So the number of forced blocks is the number of blocks that stand in the order before one of their
forward predecessors.

Every block but the entry is visited after one of its predecessors: a punctual block has a forward
predecessor, and a forced one follows a visited block.  So the visited blocks are connected to the
entry among themselves, and all dominators of a block come before it.

Over forward edges alone a reducible graph has no cycle.  Then a block is left that waits for
nothing as long as any is left, and none is forced.
-/

set_option autoImplicit false

namespace SymbolicFlow

namespace Digraph

variable {α β : Type}

/-- An edge from a reachable node to a target that does not dominate it. -/
def ForwardEdge (graph : Digraph α β) (entry source target : NodeId) : Prop :=
  graph.Reachable entry source ∧ target ∈ graph.successors source ∧
    ¬ graph.Dominates entry target source

/-- Without the edges to dominators no cycle is left. -/
def Reducible (graph : Digraph α β) (entry : NodeId) : Prop :=
  ∀ node, ¬ Relation.TransGen (graph.ForwardEdge entry) node node

variable {graph : Digraph α β} {entry : NodeId}

theorem ForwardEdge.ne_entry {source target : NodeId}
    (forward : graph.ForwardEdge entry source target) : target ≠ entry := by
  rintro rfl
  exact forward.2.2 fun _ path => path.start_mem

theorem Reducible.induct (wellFormed : graph.WellFormed) (inRange : entry < graph.nodeCount)
    (reducible : graph.Reducible entry) (property : NodeId → Prop)
    (handedOn : ∀ node, graph.Reachable entry node →
      (∀ earlier, graph.ForwardEdge entry earlier node → property earlier) → property node)
    {node : NodeId} (reachable : graph.Reachable entry node) : property node := by
  have strict : IsStrictOrder NodeId (Relation.TransGen (graph.ForwardEdge entry)) :=
    { irrefl := reducible
      trans := fun _ _ _ => Relation.TransGen.trans }
  have finite : {node | graph.Reachable entry node}.Finite :=
    (Set.finite_lt_nat graph.nodeCount).subset fun _ reached => reached.lt wellFormed inRange
  apply finite.wellFoundedOn.induction (r := Relation.TransGen (graph.ForwardEdge entry)) reachable
  intro node reached previous
  apply handedOn node reached
  intro earlier forward
  exact previous earlier forward.1 (.single forward)

end Digraph

def Procedure.forwardPredecessors (procedure : Procedure) (block : NodeId) : List NodeId :=
  (procedure.predecessors block).filter fun predecessor =>
    !procedure.loops.isBackEdge predecessor block

/-- No block out of reach leads to one in reach. -/
def Procedure.Enclosed (procedure : Procedure) : Prop :=
  ∀ block, procedure.graph.Reachable procedure.entry block →
    ∀ predecessor ∈ procedure.predecessors block,
      procedure.graph.Reachable procedure.entry predecessor

namespace Procedure

variable {procedure : Procedure} {block predecessor : NodeId}

theorem mem_forwardPredecessors :
    predecessor ∈ procedure.forwardPredecessors block ↔
      predecessor ∈ procedure.predecessors block ∧
        procedure.loops.isBackEdge predecessor block = false := by
  simp [forwardPredecessors]

theorem mem_forwardPredecessors_iff_forwardEdge (wellFormed : procedure.WellFormed)
    (reachable : procedure.graph.Reachable procedure.entry predecessor) :
    predecessor ∈ procedure.forwardPredecessors block ↔
      procedure.graph.ForwardEdge procedure.entry predecessor block := by
  rw [mem_forwardPredecessors, predecessors, Digraph.mem_predecessors_iff wellFormed.graph,
    Digraph.ForwardEdge]
  constructor
  · rintro ⟨edge, forward⟩
    refine ⟨reachable, edge, fun dominates => ?_⟩
    have back := (Digraph.isBackEdge_iff_dominates wellFormed.graph wellFormed.entryExists
      reachable edge).mpr dominates
    exact Bool.false_ne_true (forward.symm.trans back)
  · rintro ⟨_, edge, missed⟩
    refine ⟨edge, Bool.eq_false_iff.mpr fun back => missed ?_⟩
    exact (Digraph.isBackEdge_iff_dominates wellFormed.graph wellFormed.entryExists
      reachable edge).mp back

theorem exists_mem_forwardPredecessors (wellFormed : procedure.WellFormed)
    (reachable : procedure.graph.Reachable procedure.entry block)
    (notEntry : block ≠ procedure.entry) :
    ∃ earlier, earlier ∈ procedure.forwardPredecessors block := by
  obtain ⟨earlier, reached, edge, before⟩ := Digraph.exists_predecessor_rankFrom_lt
    wellFormed.graph wellFormed.entryExists reachable notEntry
  refine ⟨earlier, (mem_forwardPredecessors_iff_forwardEdge wellFormed reached).mpr
    ⟨reached, edge, fun dominates => ?_⟩⟩
  have above := (Digraph.above_dominatorTree_iff wellFormed.graph wellFormed.entryExists
    reached block).mpr dominates
  have notAfter := (Digraph.rooted_dominatorTree wellFormed.graph
    wellFormed.entryExists).rank_le above
  omega

theorem isBackEdge_entry (wellFormed : procedure.WellFormed)
    (reachable : procedure.graph.Reachable procedure.entry predecessor)
    (listed : predecessor ∈ procedure.predecessors procedure.entry) :
    procedure.loops.isBackEdge predecessor procedure.entry = true := by
  have edge := (Digraph.mem_predecessors_iff wellFormed.graph).mp listed
  apply (Digraph.isBackEdge_iff_dominates wellFormed.graph wellFormed.entryExists
    reachable edge).mpr
  exact fun _ path => path.start_mem

end Procedure

namespace Schedule

/-- A block other than the entry that does not stand behind all its forward predecessors.  What is
not in the order counts as standing at its end. -/
def Premature (procedure : Procedure) (order : List NodeId) (block : NodeId) : Prop :=
  block ≠ procedure.entry ∧
    ∃ predecessor ∈ procedure.forwardPredecessors block,
      order.idxOf block ≤ order.idxOf predecessor

instance (procedure : Procedure) (order : List NodeId) :
    DecidablePred (Premature procedure order) :=
  fun block => inferInstanceAs (Decidable (block ≠ procedure.entry ∧
    ∃ predecessor ∈ procedure.forwardPredecessors block,
      order.idxOf block ≤ order.idxOf predecessor))

/-- The block waits for no predecessor; nor does the entry. -/
def Punctual (procedure : Procedure) (visited : List NodeId) (block : NodeId) : Prop :=
  block ≠ procedure.entry → ∀ predecessor ∈ procedure.forwardPredecessors block,
    predecessor ∈ visited

variable {procedure : Procedure} {schedule : Schedule}

theorem premature_append_of_mem {order : List NodeId} {block : NodeId} (listed : block ∈ order)
    (last : NodeId) :
    Premature procedure (order ++ [last]) block ↔ Premature procedure order block := by
  have inside := List.idxOf_lt_length_of_mem listed
  have same : ∀ predecessor, (order ++ [last]).idxOf block ≤ (order ++ [last]).idxOf predecessor ↔
      order.idxOf block ≤ order.idxOf predecessor := by
    intro predecessor
    rw [List.idxOf_append_of_mem listed]
    by_cases before : predecessor ∈ order
    · rw [List.idxOf_append_of_mem before]
    · have outside := List.idxOf_eq_length_iff.mpr before
      rw [List.idxOf_append_of_notMem before]
      omega
  simp only [Premature, same]

theorem premature_append_self {order : List NodeId} {block : NodeId} (new : block ∉ order) :
    Premature procedure (order ++ [block]) block ↔ ¬ Punctual procedure order block := by
  have same : ∀ predecessor,
      (order ++ [block]).idxOf block ≤ (order ++ [block]).idxOf predecessor ↔
        predecessor ∉ order := by
    intro predecessor
    rw [List.idxOf_append_of_notMem new, List.idxOf_cons_self]
    by_cases before : predecessor ∈ order
    · have inside := List.idxOf_lt_length_of_mem before
      rw [List.idxOf_append_of_mem before]
      simp [before, inside]
    · rw [List.idxOf_append_of_notMem before]
      simp [before]
  simp only [Premature, Punctual, same, Classical.not_imp, not_forall]

theorem countP_premature_append (procedure : Procedure) (order : List NodeId) (block : NodeId) :
    (order ++ [block]).countP (Premature procedure (order ++ [block]) ·) =
      order.countP (Premature procedure order ·) +
        if Premature procedure (order ++ [block]) block then 1 else 0 := by
  rw [List.countP_append, List.countP_singleton]
  congr 1
  · apply List.countP_congr
    intro other listed
    simp only [decide_eq_true_eq, premature_append_of_mem listed]
  · simp only [decide_eq_true_eq]

theorem Punctual.mono {visited later : List NodeId} {block : NodeId}
    (punctual : Punctual procedure visited block) (grown : visited ⊆ later) :
    Punctual procedure later block :=
  fun notEntry predecessor listed => grown (punctual notEntry predecessor listed)

/-! ## One request -/

theorem Consistent.ne_entry (consistent : schedule.Consistent procedure) {block : NodeId}
    (unvisited : schedule.status? block = some .unvisited) : block ≠ procedure.entry := by
  rintro rfl
  have listed := List.mem_of_head? consistent.first
  rcases List.mem_append.mp listed with visited | waits
  · have known := (consistent.visited procedure.entry).mpr (Array.mem_toList_iff.mp visited)
    simp [unvisited] at known
  · have known := (consistent.ready procedure.entry).mpr waits
    simp [unvisited] at known

theorem Consistent.mem_candidates_iff (wellFormed : procedure.WellFormed)
    (consistent : schedule.Consistent procedure) {block : NodeId}
    (reachable : procedure.graph.Reachable procedure.entry block)
    (unvisited : schedule.status? block = some .unvisited) :
    block ∈ schedule.candidates procedure procedure.loops ↔
      Punctual procedure schedule.order.toList block := by
  have notEntry := consistent.ne_entry unvisited
  simp only [mem_candidates wellFormed, reachable, unvisited, true_and, Punctual, ne_eq, notEntry,
    not_false_eq_true, forall_const, Procedure.mem_forwardPredecessors, Array.mem_toList_iff,
    ← consistent.visited]
  constructor
  · rintro waits predecessor ⟨listed, forward⟩
    exact (waits predecessor listed).resolve_right (by simp [forward])
  · intro visited predecessor listed
    by_cases back : procedure.loops.isBackEdge predecessor block = true
    · exact Or.inr back
    · exact Or.inl (visited predecessor ⟨listed, Bool.eq_false_iff.mpr back⟩)

theorem Fills.punctual_or_forced (wellFormed : procedure.WellFormed)
    (consistent : schedule.Consistent procedure) {newcomers : List NodeId} {forced : Nat}
    (fills : Fills procedure schedule newcomers forced)
    (punctual : ∀ block ∈ schedule.queue, Punctual procedure schedule.order.toList block) :
    (forced = 0 ∧
      ∀ block ∈ schedule.queue ++ newcomers, Punctual procedure schedule.order.toList block) ∨
    (forced = 1 ∧ ∃ block, schedule.queue ++ newcomers = [block] ∧
      ¬ Punctual procedure schedule.order.toList block ∧
      ∃ owner ∈ schedule.order, block ∈ procedure.successors owner) := by
  have fresh := fills.fresh wellFormed consistent
  cases fills with
  | waiting _ =>
      left
      simpa using punctual
  | swept empty _ =>
      left
      refine ⟨rfl, fun block listed => ?_⟩
      rw [empty, List.nil_append] at listed
      exact (consistent.mem_candidates_iff wellFormed (fresh.reachable block listed)
        (fresh.unvisited block listed)).mp listed
  | @forced block empty none found =>
      right
      obtain ⟨unvisited, owner, visited, edge⟩ := forcible?_eq_some found
      refine ⟨rfl, block, by simp [empty], fun punctual => ?_, owner,
        (consistent.visited owner).mp visited, edge⟩
      have listed := (consistent.mem_candidates_iff wellFormed
        (fresh.reachable block (List.mem_singleton_self block)) unvisited).mpr punctual
      rw [none] at listed
      cases listed

theorem Fills.follows (wellFormed : procedure.WellFormed)
    (consistent : schedule.Consistent procedure) {newcomers rest : List NodeId} {forced : Nat}
    {block : NodeId} (fills : Fills procedure schedule newcomers forced)
    (punctual : ∀ block ∈ schedule.queue, Punctual procedure schedule.order.toList block)
    (queued : schedule.queue ++ newcomers = block :: rest)
    (reachable : procedure.graph.Reachable procedure.entry block) :
    block = procedure.entry ∨
      ∃ owner ∈ schedule.order, block ∈ procedure.successors owner := by
  by_cases isEntry : block = procedure.entry
  · exact Or.inl isEntry
  · right
    have cases := fills.punctual_or_forced wellFormed consistent punctual
    rw [queued] at cases
    rcases cases with ⟨_, punctual⟩ | ⟨_, only, single, _, owner⟩
    · obtain ⟨earlier, forward⟩ :=
        Procedure.exists_mem_forwardPredecessors wellFormed reachable isEntry
      have visited := punctual block List.mem_cons_self isEntry earlier forward
      have listed := (Procedure.mem_forwardPredecessors.mp forward).1
      exact ⟨earlier, Array.mem_toList_iff.mp visited,
        (Digraph.mem_predecessors_iff wellFormed.graph).mp listed⟩
    · rw [(List.cons.inj single).1]
      exact owner

structure Paced (procedure : Procedure) (schedule : Schedule) : Prop where
  punctual : ∀ block ∈ schedule.queue, Punctual procedure schedule.order.toList block
  counted : schedule.fallbacks =
    schedule.order.toList.countP (Premature procedure schedule.order.toList ·)
  connected : ∀ block ∈ schedule.order,
    procedure.graph.Leads (· ∈ schedule.order) procedure.entry block

theorem paced_start (procedure : Procedure) : (start procedure).Paced procedure := by
  refine ⟨?_, rfl, by simp [start]⟩
  intro block waits notEntry
  have isEntry : procedure.entry < procedure.blockCount ∧ block = procedure.entry := by
    simpa [start] using waits
  exact absurd isEntry.2 notEntry

theorem Paced.visit (wellFormed : procedure.WellFormed) (consistent : schedule.Consistent procedure)
    (paced : schedule.Paced procedure) {newcomers rest : List NodeId} {forced : Nat}
    {block : NodeId} (fills : Fills procedure schedule newcomers forced)
    (queued : schedule.queue ++ newcomers = block :: rest) :
    (schedule.visit newcomers forced block rest).Paced procedure := by
  have later := consistent.visit (fills.fresh wellFormed consistent) queued forced
  have order : (schedule.visit newcomers forced block rest).order.toList =
      schedule.order.toList ++ [block] := Array.toList_push
  have total : (schedule.visit newcomers forced block rest).fallbacks =
      schedule.fallbacks + forced := rfl
  have new : block ∉ schedule.order.toList := by
    have distinct := later.distinct.of_append_left
    rw [order, List.nodup_append_comm, List.singleton_append] at distinct
    exact (List.nodup_cons.mp distinct).1
  have cases := fills.punctual_or_forced wellFormed consistent paced.punctual
  rw [queued] at cases
  refine ⟨?_, ?_, ?_⟩
  · intro other waits
    rw [order]
    rcases cases with ⟨_, punctual⟩ | ⟨_, only, single, _⟩
    · exact (punctual other (List.mem_cons_of_mem _ waits)).mono (List.subset_append_left _ _)
    · rw [(List.cons.inj single).2] at waits
      cases waits
  · rw [total, order, countP_premature_append, ← paced.counted]
    rcases cases with ⟨none, punctual⟩ | ⟨one, only, single, late, _⟩
    · rw [none, if_neg]
      rw [premature_append_self new]
      exact not_not.mpr (punctual block List.mem_cons_self)
    · rw [one, if_pos]
      rw [premature_append_self new, (List.cons.inj single).1]
      exact late
  · have kept : ∀ other ∈ schedule.order, procedure.graph.Leads
        (· ∈ (schedule.visit newcomers forced block rest).order) procedure.entry other :=
      fun other listed => (paced.connected other listed).mono
        fun node visited => Array.mem_push_of_mem block visited
    intro other listed
    rcases Array.mem_push.mp listed with old | rfl
    · exact kept other old
    · rcases fills.follows wellFormed consistent paced.punctual queued
        (later.reachable other (by simp [order])) with isEntry | ⟨owner, visited, edge⟩
      · rw [isEntry]
        exact .refl
      · exact (kept owner visited).tail ⟨edge, listed⟩

/-! ## A run -/

theorem paced_after (wellFormed : procedure.WellFormed) (requests : Nat) :
    (after procedure requests).Paced procedure := by
  induction requests with
  | zero => exact paced_start procedure
  | succ requests ih =>
      rw [after]
      rcases next_cases procedure (after procedure requests) with
        ⟨_, _, same⟩ | ⟨newcomers, forced, block, rest, fills, queued, _, same⟩
      · rw [same]
        exact ih
      · rw [same]
        exact ih.visit wellFormed (consistent_after wellFormed requests) fills queued

theorem Paced.idxOf_lt (paced : schedule.Paced procedure) (unforced : schedule.fallbacks = 0)
    {block predecessor : NodeId} (listed : block ∈ schedule.order)
    (notEntry : block ≠ procedure.entry)
    (forward : predecessor ∈ procedure.forwardPredecessors block) :
    schedule.order.toList.idxOf predecessor < schedule.order.toList.idxOf block := by
  have none := List.countP_eq_zero.mp (paced.counted.symm.trans unforced) block
    (Array.mem_toList_iff.mpr listed)
  by_contra late
  apply none
  exact decide_eq_true ⟨notEntry, predecessor, forward, Nat.le_of_not_lt late⟩

/-- The forced blocks are those that come before one of their forward predecessors. -/
theorem fallbacks_count_premature (built : procedure.Built) :
    (∀ requests, (after procedure requests).fallbacks =
      (after procedure requests).order.toList.countP
        (Premature procedure (after procedure requests).order.toList ·)) ∧
    (∀ predecessor ∈ procedure.predecessors procedure.entry,
      procedure.graph.Reachable procedure.entry predecessor →
        procedure.loops.isBackEdge predecessor procedure.entry = true) ∧
    (∀ requests, (after procedure requests).fallbacks = 0 →
      ∀ block ∈ (after procedure requests).order, block ≠ procedure.entry →
        ∀ predecessor ∈ procedure.forwardPredecessors block,
          (after procedure requests).order.toList.idxOf predecessor <
            (after procedure requests).order.toList.idxOf block) := by
  have wellFormed := built.wellFormed
  refine ⟨fun requests => (paced_after wellFormed requests).counted, ?_, ?_⟩
  · exact fun predecessor listed reachable =>
      Procedure.isBackEdge_entry wellFormed reachable listed
  · exact fun requests unforced block listed notEntry predecessor forward =>
      (paced_after wellFormed requests).idxOf_lt unforced listed notEntry forward

theorem fallbacks_count_premature_sideDoor :
    SideDoor.procedure.Built ∧
      (after SideDoor.procedure 5).order.toList.countP
        (Premature SideDoor.procedure (after SideDoor.procedure 5).order.toList ·) = 1 := by
  refine ⟨SideDoor.built, ?_⟩
  rw [← (fallbacks_count_premature SideDoor.built).1 5]
  decide +kernel

theorem mem_order_of_dominates (wellFormed : procedure.WellFormed) {requests : Nat}
    {block dominator : NodeId} (visited : block ∈ (after procedure requests).order)
    (dominates : procedure.graph.Dominates procedure.entry dominator block) :
    dominator ∈ (after procedure requests).order := by
  have asked : 0 < requests := by
    by_contra none
    obtain rfl : requests = 0 := by omega
    exact Array.not_mem_empty block visited
  have leads := (paced_after wellFormed requests).connected block visited
  have entryVisited : procedure.entry ∈ (after procedure requests).order :=
    Array.mem_toList_iff.mp (List.mem_of_head? (head?_order_after wellFormed asked))
  by_contra missed
  have avoids : ∀ node ∈ (after procedure requests).order, node ≠ dominator :=
    fun node listed same => missed (same ▸ listed)
  exact Digraph.not_dominates_iff.mpr
    ⟨avoids procedure.entry entryVisited, leads.mono avoids⟩ dominates

/-- All strict dominators of a block are handed out before it. -/
theorem dominators_before (built : procedure.Built) {request : Nat} {block dominator : NodeId}
    (handed : answer procedure request = some block)
    (strict : procedure.graph.StrictlyDominates procedure.entry dominator block) :
    ∃ earlier < request, answer procedure earlier = some dominator := by
  have order := order_after procedure (request + 1)
  have visited : block ∈ (after procedure (request + 1)).order := by
    rw [← Array.mem_toList_iff, order]
    exact List.mem_filterMap.mpr ⟨request, by simp, handed⟩
  have before := mem_order_of_dominates built.wellFormed visited strict.2
  rw [← Array.mem_toList_iff, order] at before
  obtain ⟨earlier, asked, same⟩ := List.mem_filterMap.mp before
  have different : earlier ≠ request := by
    rintro rfl
    rw [handed] at same
    exact strict.1 (Option.some.inj same).symm
  have asked := List.mem_range.mp asked
  exact ⟨earlier, by omega, same⟩

-- Block 2 leads to block 4 through padding; it follows a block that was forced.
theorem dominators_before_sideDoor :
    answer SideDoor.procedure 4 = some 4 ∧
      SideDoor.procedure.graph.StrictlyDominates SideDoor.procedure.entry 2 4 ∧
      ∃ earlier < 4, answer SideDoor.procedure earlier = some 2 := by
  have wellFormed := SideDoor.built.wellFormed
  have handed : answer SideDoor.procedure 4 = some 4 := by decide +kernel
  have reachable : SideDoor.procedure.graph.Reachable SideDoor.procedure.entry 4 :=
    (Digraph.isReachable_dominatorTree wellFormed.graph wellFormed.entryExists).mp
      (by decide +kernel)
  have above := (Digraph.dominates_dominatorTree_iff wellFormed.graph wellFormed.entryExists).mp
    (by decide +kernel : (SideDoor.procedure.graph.dominatorTree
      SideDoor.procedure.entry).dominates 2 4 = true)
  have strict : SideDoor.procedure.graph.StrictlyDominates SideDoor.procedure.entry 2 4 :=
    ⟨by decide, (Digraph.above_dominatorTree_iff wellFormed.graph wellFormed.entryExists
      reachable 2).mp above⟩
  exact ⟨handed, strict, dominators_before SideDoor.built handed strict⟩

/-! ## Reducible graphs -/

theorem Consistent.visited_of_reducible (wellFormed : procedure.WellFormed)
    (consistent : schedule.Consistent procedure)
    (reducible : procedure.graph.Reducible procedure.entry)
    (enclosed : procedure.Enclosed) (empty : schedule.queue = [])
    (none : schedule.candidates procedure procedure.loops = []) {block : NodeId}
    (reachable : procedure.graph.Reachable procedure.entry block) :
    schedule.status? block = some .visited := by
  apply reducible.induct wellFormed.graph wellFormed.entryExists
    (fun block => schedule.status? block = some .visited) _ reachable
  intro block reached earlier
  apply consistent.visited_of_not_unvisited empty
    (reached.lt wellFormed.graph wellFormed.entryExists)
  intro unvisited
  have punctual : Punctual procedure schedule.order.toList block := by
    intro _ predecessor forward
    have listed := (Procedure.mem_forwardPredecessors.mp forward).1
    have forwardEdge := (Procedure.mem_forwardPredecessors_iff_forwardEdge wellFormed
      (enclosed block reached predecessor listed)).mp forward
    rw [Array.mem_toList_iff, ← consistent.visited]
    exact earlier predecessor forwardEdge
  have listed := (consistent.mem_candidates_iff wellFormed reached unvisited).mpr punctual
  rw [none] at listed
  cases listed

theorem fallbacks_after_of_reducible (wellFormed : procedure.WellFormed)
    (reducible : procedure.graph.Reducible procedure.entry)
    (enclosed : procedure.Enclosed) (requests : Nat) :
    (after procedure requests).fallbacks = 0 := by
  induction requests with
  | zero => rfl
  | succ requests ih =>
      have consistent := consistent_after wellFormed requests
      rw [after]
      rcases next_cases procedure (after procedure requests) with
        ⟨_, _, same⟩ | ⟨newcomers, forced, block, rest, fills, _, _, same⟩
      · rw [same]
        exact ih
      · rw [same]
        have fresh := fills.fresh wellFormed consistent
        cases fills with
        | waiting _ => exact ih
        | swept _ _ => exact ih
        | forced empty none _ =>
            have visited := consistent.visited_of_reducible wellFormed reducible enclosed empty none
              (fresh.reachable _ (List.mem_singleton_self _))
            rw [fresh.unvisited _ (List.mem_singleton_self _)] at visited
            cases visited

theorem Paced.reducible (wellFormed : procedure.WellFormed) (paced : schedule.Paced procedure)
    (unforced : schedule.fallbacks = 0)
    (complete : ∀ block, procedure.graph.Reachable procedure.entry block →
      block ∈ schedule.order) : procedure.graph.Reducible procedure.entry := by
  have rises : ∀ {source target : NodeId},
      procedure.graph.ForwardEdge procedure.entry source target →
        schedule.order.toList.idxOf source < schedule.order.toList.idxOf target := by
    intro source target forward
    exact paced.idxOf_lt unforced (complete target (forward.1.step forward.2.1)) forward.ne_entry
      ((Procedure.mem_forwardPredecessors_iff_forwardEdge wellFormed forward.1).mpr forward)
  intro node cycle
  have below : ∀ {target : NodeId},
      Relation.TransGen (procedure.graph.ForwardEdge procedure.entry) node target →
        schedule.order.toList.idxOf node < schedule.order.toList.idxOf target := by
    intro target walk
    induction walk with
    | single forward => exact rises forward
    | tail _ forward previous => exact previous.trans (rises forward)
  exact Nat.lt_irrefl _ (below cycle)

theorem mem_order_of_reachable (wellFormed : procedure.WellFormed)
    (noPadding : ∀ block ∈ procedure.blocks, block.padding = false) {request : Nat}
    (nothing : answer procedure request = none) {block : NodeId}
    (reachable : procedure.graph.Reachable procedure.entry block) :
    block ∈ (after procedure request).order := by
  obtain ⟨nodes, path⟩ := reachable
  apply mem_order_of_path wellFormed nothing path
  intro node member
  have inside : node < procedure.graph.nodes.size :=
    (path.reachable_of_mem member).lt wellFormed.graph wellFormed.entryExists
  exact ⟨procedure.graph.nodes[node], Array.getElem?_eq_getElem inside,
    noPadding _ (Array.getElem_mem inside)⟩

/-- If there is no padding and nothing out of reach leads into the graph, blocks are forced just
when the graph is not reducible. -/
theorem fallbacks_eq_zero_iff_reducible (built : procedure.Built)
    (noPadding : ∀ block ∈ procedure.blocks, block.padding = false)
    (enclosed : procedure.Enclosed) :
    (∃ request ≤ procedure.blockCount, answer procedure request = none) ∧
    ∀ request, answer procedure request = none →
      ((after procedure request).fallbacks = 0 ↔
        procedure.graph.Reducible procedure.entry) := by
  have wellFormed := built.wellFormed
  constructor
  · obtain ⟨request, bound, _, nothing⟩ := exists_answer_none wellFormed
    exact ⟨request, bound, nothing⟩
  · intro request nothing
    constructor
    · intro unforced
      exact (paced_after wellFormed request).reducible wellFormed unforced
        fun block reachable => mem_order_of_reachable wellFormed noPadding nothing reachable
    · intro reducible
      exact fallbacks_after_of_reducible wellFormed reducible enclosed request

theorem enclosed_twoDoors : TwoDoors.procedure.Enclosed := by
  have wellFormed := TwoDoors.built.wellFormed
  have all : ∀ block < 3, block ∈ TwoDoors.procedure.graph.breadthFirst 0 := by decide +kernel
  intro block _ predecessor listed
  have edge := (Digraph.mem_predecessors_iff wellFormed.graph).mp listed
  exact (Digraph.mem_breadthFirst wellFormed.graph wellFormed.entryExists).mp
    (all predecessor (Digraph.lt_of_mem_successors wellFormed.graph edge).1)

theorem not_reducible_twoDoors :
    TwoDoors.procedure.Built ∧ (∀ block ∈ TwoDoors.procedure.blocks, block.padding = false) ∧
      TwoDoors.procedure.Enclosed ∧
      ¬ TwoDoors.procedure.graph.Reducible TwoDoors.procedure.entry := by
  have noPadding : ∀ block ∈ TwoDoors.procedure.blocks, block.padding = false := by decide
  have drained : answer TwoDoors.procedure 3 = none := by decide +kernel
  have forced : (after TwoDoors.procedure 3).fallbacks = 1 := by decide +kernel
  refine ⟨TwoDoors.built, noPadding, enclosed_twoDoors, fun reducible => ?_⟩
  have unforced := ((fallbacks_eq_zero_iff_reducible TwoDoors.built noPadding
    enclosed_twoDoors).2 3 drained).mpr reducible
  omega

end Schedule

end SymbolicFlow
