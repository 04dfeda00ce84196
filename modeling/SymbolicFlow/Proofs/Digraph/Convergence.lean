import Mathlib.Logic.Relation
import SymbolicFlow.Proofs.Digraph.Dominators

/-!
# The dominator computation comes to its end

The functions of the computation count their steps.  Here the same loops stand without a count:
`MeetsAt` climbs from two nodes to a common ancestor, `ParentFound` does so for all predecessors of
a node, `Stage.Next` goes through the nodes pass by pass as long as something changes, and
`ChainUp` follows the candidates of a table to the entry.  All of them come to an end, with what the
counting functions yield.

The reason is the same everywhere: in every table of a run, the candidate of a node has a lower rank
than the node.  The passes end because candidates move towards the entry only, so the chain of a
node never gains another node.
-/

set_option autoImplicit false

namespace SymbolicFlow

namespace ParentTable

/-! ## Common ancestors -/

/-- Climbing from two nodes ends at the last one.  The node of higher rank moves to its parent
until the two are the same; if it has nowhere to go, the other node is the answer.  Two different
nodes of the same rank would be climbed from forever. -/
inductive MeetsAt (rank : NodeId → Nat) (table : ParentTable) : NodeId → NodeId → NodeId → Prop where
  | same (node : NodeId) : MeetsAt rank table node node node
  | left {left right parent common : NodeId} : rank right < rank left →
      table.parent? left = some parent → parent ≠ left → MeetsAt rank table parent right common →
      MeetsAt rank table left right common
  | leftStops {left right : NodeId} : rank right < rank left →
      (∀ parent, table.parent? left = some parent → parent = left) →
      MeetsAt rank table left right right
  | right {left right parent common : NodeId} : rank left < rank right →
      table.parent? right = some parent → parent ≠ right → MeetsAt rank table left parent common →
      MeetsAt rank table left right common
  | rightStops {left right : NodeId} : rank left < rank right →
      (∀ parent, table.parent? right = some parent → parent = right) →
      MeetsAt rank table left right left

inductive MeetsAllAt (rank : NodeId → Nat) (table : ParentTable) :
    NodeId → List NodeId → NodeId → Prop where
  | done (common : NodeId) : MeetsAllAt rank table common [] common
  | next {common node closer result : NodeId} {rest : List NodeId} :
      MeetsAt rank table node common closer → MeetsAllAt rank table closer rest result →
      MeetsAllAt rank table common (node :: rest) result

inductive ChainUp (table : ParentTable) (entry : NodeId) : NodeId → List NodeId → Prop where
  | atEntry : ChainUp table entry entry [entry]
  | up {node parent : NodeId} {nodes : List NodeId} : node ≠ entry →
      table.parent? node = some parent → ChainUp table entry parent nodes →
      ChainUp table entry node (node :: nodes)

section Rooted

variable {table : ParentTable} {rank : NodeId → Nat} {entry : NodeId}
  (rooted : table.Rooted rank entry)
include rooted

theorem Rooted.eq_entry_of_rank_eq_zero {node : NodeId} (recorded : table.Recorded node)
    (lowest : rank node = 0) : node = entry := by
  rcases rooted.eq_or_rank_lt (rooted.entry_above recorded) with same | lower
  · exact same.symm
  · omega

theorem Rooted.meetsAt_nearestCommon
    (injective : ∀ {a b}, table.Recorded a → table.Recorded b → rank a = rank b → a = b)
    (steps : Nat) {left right : NodeId} (leftRecorded : table.Recorded left)
    (rightRecorded : table.Recorded right) (enough : rank left + rank right ≤ steps) :
    MeetsAt rank table left right (table.nearestCommon rank steps left right) := by
  induction steps generalizing left right with
  | zero =>
      rw [rooted.eq_entry_of_rank_eq_zero leftRecorded (by omega),
        rooted.eq_entry_of_rank_eq_zero rightRecorded (by omega)]
      exact .same entry
  | succ steps ih =>
      rw [nearestCommon]
      by_cases same : left = right
      · subst same
        rw [if_pos rfl]
        exact .same left
      rw [if_neg same]
      by_cases later : rank right < rank left
      · have notAbove : ¬ table.Above left right := by
          intro above
          have := rooted.rank_le above
          omega
        obtain ⟨parent, found, moved, falls, parentRecorded, _⟩ :=
          rooted.exists_climb leftRecorded rightRecorded notAbove
        simp only [if_pos later, found, if_neg moved]
        exact .left later found moved (ih parentRecorded rightRecorded (by omega))
      · have earlier : rank left < rank right := by
          have different : rank left ≠ rank right :=
            fun equal => same (injective leftRecorded rightRecorded equal)
          omega
        have notAbove : ¬ table.Above right left := by
          intro above
          have := rooted.rank_le above
          omega
        obtain ⟨parent, found, moved, falls, parentRecorded, _⟩ :=
          rooted.exists_climb rightRecorded leftRecorded notAbove
        simp only [if_neg later, found, if_neg moved]
        exact .right earlier found moved (ih leftRecorded parentRecorded (by omega))

theorem Rooted.meetsAllAt_meetAll
    (injective : ∀ {a b}, table.Recorded a → table.Recorded b → rank a = rank b → a = b)
    (first : NodeId) (rest : List NodeId)
    (recorded : ∀ node ∈ first :: rest, table.Recorded node) :
    ∃ common, table.meetAll rank (first :: rest) = some common ∧
      MeetsAllAt rank table first rest common := by
  rw [meetAll]
  have firstRecorded := recorded first List.mem_cons_self
  have restRecorded : ∀ node ∈ rest, table.Recorded node :=
    fun node member => recorded node (List.mem_cons_of_mem _ member)
  clear recorded
  induction rest generalizing first with
  | nil => exact ⟨first, rfl, .done first⟩
  | cons next rest ih =>
      have nextRecorded := restRecorded next List.mem_cons_self
      have meets := rooted.meetsAt_nearestCommon injective (rank next + rank first) nextRecorded
        firstRecorded (Nat.le_refl _)
      obtain ⟨closerRecorded, _⟩ := rooted.nearestCommon_spec (rank next + rank first)
        nextRecorded firstRecorded (Nat.le_refl _)
      obtain ⟨common, found, others⟩ := ih _ closerRecorded
        fun node member => restRecorded node (List.mem_cons_of_mem _ member)
      exact ⟨common, found, .next meets others⟩

/-! ## Chains -/

theorem Rooted.exists_chainUp {node : NodeId} (recorded : table.Recorded node) :
    ∃ nodes, table.ChainUp entry node nodes := by
  induction ranked : rank node using Nat.strongRecOn generalizing node with
  | ind _ ih =>
      subst ranked
      by_cases isEntry : node = entry
      · subst isEntry
        exact ⟨[node], .atEntry⟩
      · obtain ⟨parent, found⟩ := recorded.exists_parent
        obtain ⟨nodes, chain⟩ := ih _ (rooted.descends found isEntry) (rooted.closed found) rfl
        exact ⟨node :: nodes, .up isEntry found chain⟩

theorem Rooted.mem_chainUp {node : NodeId} {nodes : List NodeId}
    (chain : table.ChainUp entry node nodes) {ancestor : NodeId} :
    ancestor ∈ nodes ↔ table.Above ancestor node := by
  induction chain with
  | atEntry =>
      rw [List.mem_singleton]
      constructor
      · rintro rfl
        exact .self
      · exact rooted.eq_entry_of_above
  | @up node parent nodes _ found _ previous =>
      rw [List.mem_cons, previous]
      constructor
      · rintro (rfl | above)
        · exact .self
        · exact .up found above
      · intro above
        by_cases same : ancestor = node
        · exact Or.inl same
        · exact Or.inr (above.of_ne same found)

end Rooted

end ParentTable

theorem DominatorTree.chainUp_ancestorsWithin {tree : DominatorTree} {rank : NodeId → Nat}
    (rooted : tree.parents.Rooted rank tree.entry) (steps : Nat) {node : NodeId}
    (recorded : tree.parents.Recorded node) (enough : rank node ≤ steps) :
    tree.parents.ChainUp tree.entry node (node :: tree.ancestorsWithin steps node) := by
  induction steps generalizing node with
  | zero =>
      rw [rooted.eq_entry_of_rank_eq_zero recorded (by omega)]
      exact .atEntry
  | succ steps ih =>
      rw [ancestorsWithin]
      by_cases isEntry : node = tree.entry
      · have none : tree.parent? node = none := by rw [parent?, if_pos isEntry]
        rw [none, isEntry]
        exact .atEntry
      · obtain ⟨parent, found⟩ := recorded.exists_parent
        have falls := rooted.descends found isEntry
        rw [parent?_eq_some_iff.mpr ⟨isEntry, found⟩]
        exact .up isEntry found (ih (rooted.closed found) (by omega))

namespace Digraph

open ParentTable Relation

variable {α β : Type}

def ParentFound (graph : Digraph α β) (rank : NodeId → Nat) (table : ParentTable)
    (node parent : NodeId) : Prop :=
  ∃ first rest, (graph.predecessors node).filter (fun other => (table.parent? other).isSome) =
    first :: rest ∧ MeetsAllAt rank table first rest parent

/-! ## Runs -/

/-- How far the computation is: the next position of the order, whether something has changed in
this pass, and the table. -/
structure Stage where
  position : Nat
  changed : Bool
  table : ParentTable

namespace Stage

def start (graph : Digraph α β) (entry : NodeId) : Stage :=
  ⟨1, false, graph.initialParents entry⟩

/-- The node at the position is refined, or a pass that has changed something is followed by
another one. -/
inductive Next (graph : Digraph α β) (entry : NodeId) : Stage → Stage → Prop where
  | refine {position : Nat} {changed : Bool} {table : ParentTable} {node : NodeId} :
      (graph.reversePostorder entry)[position]? = some node →
      Next graph entry ⟨position, changed, table⟩
        ⟨position + 1,
          changed || decide (graph.refineParent (graph.rankFrom entry) table node ≠ table),
          graph.refineParent (graph.rankFrom entry) table node⟩
  | again {table : ParentTable} :
      Next graph entry ⟨(graph.reversePostorder entry).length, true, table⟩ ⟨1, false, table⟩

def IsLast (graph : Digraph α β) (entry : NodeId) (stage : Stage) : Prop :=
  stage.position = (graph.reversePostorder entry).length ∧ stage.changed = false

abbrev Reached (graph : Digraph α β) (entry : NodeId) (stage : Stage) : Prop :=
  ReflTransGen (Next graph entry) (start graph entry) stage

variable {graph : Digraph α β} {entry : NodeId} {stage : Stage}

theorem IsLast.not_next (isLast : stage.IsLast graph entry) (later : Stage) :
    ¬ Next graph entry stage later := by
  obtain ⟨atEnd, unchanged⟩ := isLast
  intro step
  cases step with
  | refine listed =>
      rw [List.getElem?_eq_none (Nat.le_of_eq atEnd.symm)] at listed
      cases listed
  | again => cases unchanged

theorem Next.unique {first second : Stage} (one : Next graph entry stage first)
    (other : Next graph entry stage second) : first = second := by
  cases one with
  | refine listed =>
      cases other with
      | refine again =>
          cases listed.symm.trans again
          rfl
      | again =>
          rw [List.getElem?_eq_none (Nat.le_refl _)] at listed
          cases listed
  | again =>
      cases other with
      | refine listed =>
          rw [List.getElem?_eq_none (Nat.le_refl _)] at listed
          cases listed
      | again => rfl

/-- A run that comes to its last stage is the only one, so there is no infinite run. -/
theorem acc_of_run {last : Stage} (run : ReflTransGen (Next graph entry) stage last)
    (isLast : last.IsLast graph entry) :
    Acc (fun later earlier => Next graph entry earlier later) stage := by
  induction run using ReflTransGen.head_induction_on with
  | refl => exact ⟨_, fun later step => absurd step (isLast.not_next later)⟩
  | head step _ rest =>
      refine ⟨_, fun later other => ?_⟩
      rw [← step.unique other]
      exact rest

end Stage

open Stage

section Runs

variable {graph : Digraph α β} {entry : NodeId} (wellFormed : graph.WellFormed)
  (inRange : entry < graph.nodeCount)
include wellFormed inRange

theorem Settling.next {earlier later : Stage} (step : Next graph entry earlier later)
    (begun : 0 < earlier.position)
    (settling : graph.Settling entry earlier.position earlier.table) :
    0 < later.position ∧ graph.Settling entry later.position later.table := by
  cases step with
  | refine listed =>
      obtain ⟨_, _, _, _, refined⟩ := settling.refine_next wellFormed inRange begun listed
      exact ⟨Nat.succ_pos _, refined⟩
  | again => exact ⟨Nat.one_pos, settling.restart wellFormed inRange⟩

theorem settling_reached {stage : Stage} (reached : Reached graph entry stage) :
    0 < stage.position ∧ graph.Settling entry stage.position stage.table := by
  induction reached with
  | refl => exact ⟨Nat.one_pos, settling_initialParents wellFormed inRange⟩
  | tail _ step known => exact known.2.next wellFormed inRange step known.1

theorem Settling.parentFound {position : Nat} {table : ParentTable} {node : NodeId}
    (settling : graph.Settling entry position table) (begun : 0 < position)
    (listed : (graph.reversePostorder entry)[position]? = some node) :
    ∃ parent, graph.ParentFound (graph.rankFrom entry) table node parent ∧
      graph.refineParent (graph.rankFrom entry) table node =
        table.setIfInBounds node (some parent) := by
  have injective : ∀ {a b}, table.Recorded a → table.Recorded b →
      graph.rankFrom entry a = graph.rankFrom entry b → a = b := fun first second =>
    rankFrom_inj wellFormed inRange (settling.reachable first) (settling.reachable second)
  have reachable : graph.Reachable entry node :=
    (mem_reversePostorder wellFormed inRange).mp (List.mem_of_getElem? listed)
  obtain ⟨notEntry, _⟩ := settling.refine_next wellFormed inRange begun listed
  obtain ⟨earlier, edge, earlierRecorded, _⟩ := settling.exists_earlier wellFormed inRange
    reachable notEntry (Nat.le_of_eq (rankFrom_getElem wellFormed inRange listed))
  have present : earlier ∈ (graph.predecessors node).filter
      (fun other => (table.parent? other).isSome) :=
    List.mem_filter.mpr ⟨(mem_predecessors_iff wellFormed).mpr edge, earlierRecorded⟩
  cases known : (graph.predecessors node).filter (fun other => (table.parent? other).isSome) with
  | nil =>
      rw [known] at present
      cases present
  | cons first rest =>
      have recorded : ∀ other ∈ first :: rest, table.Recorded other := by
        intro other member
        rw [← known] at member
        exact (List.mem_filter.mp member).2
      obtain ⟨parent, found, meets⟩ :=
        settling.rooted.meetsAllAt_meetAll injective first rest recorded
      refine ⟨parent, ⟨first, rest, known, meets⟩, ?_⟩
      rw [refineParent, known, found]

/-- What one step does to the chains: nothing is forgotten, and no chain gains a node. -/
theorem above_of_next {earlier later : Stage} (reached : Reached graph entry earlier)
    (step : Next graph entry earlier later) {node : NodeId}
    (recorded : earlier.table.Recorded node) :
    later.table.Recorded node ∧
      ∀ {ancestor}, later.table.Above ancestor node → earlier.table.Above ancestor node := by
  obtain ⟨begun, settling⟩ := settling_reached wellFormed inRange reached
  cases step with
  | refine listed =>
      obtain ⟨notEntry, inside, _, candidate, _⟩ :=
        settling.refine_next wellFormed inRange begun listed
      exact ⟨(candidate.recorded_refined_iff inside).mpr (Or.inr recorded),
        fun above => candidate.above_of_refined inside settling notEntry recorded above⟩
  | again => exact ⟨recorded, fun above => above⟩

theorem above_of_run {earlier later : Stage} (reached : Reached graph entry earlier)
    (run : ReflTransGen (Next graph entry) earlier later) {node : NodeId}
    (recorded : earlier.table.Recorded node) :
    later.table.Recorded node ∧
      ∀ {ancestor}, later.table.Above ancestor node → earlier.table.Above ancestor node := by
  induction run with
  | refl => exact ⟨recorded, fun above => above⟩
  | tail soFar step ih =>
      obtain ⟨stays, kept⟩ := above_of_next wellFormed inRange (reached.trans soFar) step ih.1
      exact ⟨stays, fun above => ih.2 (kept above)⟩

/-! ## The end -/

theorem Settling.run_pass (rest : List NodeId) {position : Nat} {table : ParentTable}
    (remaining : (graph.reversePostorder entry).drop position = rest) (begun : 0 < position)
    (settling : graph.Settling entry position table) (changed : Bool) :
    ReflTransGen (Next graph entry) ⟨position, changed, table⟩
      ⟨position + rest.length,
        changed || decide (rest.foldl (graph.refineParent (graph.rankFrom entry)) table ≠ table),
        rest.foldl (graph.refineParent (graph.rankFrom entry)) table⟩ := by
  induction rest generalizing position table changed with
  | nil =>
      have same : (changed || decide (table ≠ table)) = changed := by simp
      change ReflTransGen (Next graph entry) ⟨position, changed, table⟩
        ⟨position, changed || decide (table ≠ table), table⟩
      rw [same]
  | cons node rest ih =>
      obtain ⟨listed, onward⟩ := next_of_drop remaining
      obtain ⟨notEntry, inside, parent, candidate, refined⟩ :=
        settling.refine_next wellFormed inRange begun listed
      have step : Next graph entry ⟨position, changed, table⟩ _ := .refine listed
      have later := ih onward (Nat.succ_pos position) refined
        (changed || decide (graph.refineParent (graph.rankFrom entry) table node ≠ table))
      obtain ⟨_, outcome⟩ := refined.refine_all wellFormed inRange rest onward
        (Nat.succ_pos position)
      have progress := candidate.eq_or_candidateRanks_lt wellFormed inRange settling notEntry
        inside
      rw [List.foldl_cons]
      generalize graph.refineParent (graph.rankFrom entry) table node = middle at *
      generalize rest.foldl (graph.refineParent (graph.rankFrom entry)) middle = final at *
      -- A change is never undone: the ranks fall with it and do not rise again.
      have flags : ((changed || decide (middle ≠ table)) || decide (final ≠ middle)) =
          (changed || decide (final ≠ table)) := by
        rcases progress with rfl | fell
        · simp
        · have moved : middle ≠ table := by
            rintro rfl
            exact Nat.lt_irrefl _ fell
          have apart : final ≠ table := by
            rintro rfl
            rcases outcome with ⟨same, _⟩ | fellAgain
            · exact moved same.symm
            · omega
          simp [moved, apart]
      have shifted : position + 1 + rest.length = position + (node :: rest).length := by
        simp only [List.length_cons]
        omega
      rw [flags, shifted] at later
      exact later.head step

theorem Settling.run_refineParents {table : ParentTable}
    (settling : graph.Settling entry 1 table) :
    ReflTransGen (Next graph entry) ⟨1, false, table⟩
      ⟨(graph.reversePostorder entry).length,
        decide (graph.refineParents (graph.rankFrom entry) (graph.reversePostorder entry) table ≠
          table),
        graph.refineParents (graph.rankFrom entry) (graph.reversePostorder entry) table⟩ := by
  have listed := (mem_reversePostorder wellFormed inRange).mpr (Reachable.refl graph entry)
  have length : 1 + (graph.reversePostorder entry).tail.length =
      (graph.reversePostorder entry).length := by
    have := List.length_pos_of_mem listed
    rw [List.length_tail]
    omega
  have whole := settling.run_pass wellFormed inRange (graph.reversePostorder entry).tail
    List.drop_one Nat.one_pos false
  rw [length, Bool.false_or] at whole
  exact whole

theorem Settling.run_settleParents (passes : Nat) {table : ParentTable}
    (settling : graph.Settling entry 1 table)
    (enough : graph.candidateRanks entry table < passes) :
    ReflTransGen (Next graph entry) ⟨1, false, table⟩
      ⟨(graph.reversePostorder entry).length, false,
        graph.settleParents (graph.rankFrom entry) (graph.reversePostorder entry) passes table⟩ := by
  induction passes generalizing table with
  | zero => omega
  | succ passes ih =>
      obtain ⟨passed, outcome⟩ := settling.pass wellFormed inRange
      have run := settling.run_refineParents wellFormed inRange
      simp only [settleParents]
      split
      · rename_i same
        rw [same] at run
        simpa using run
      · rename_i changed
        rcases outcome with ⟨same, _⟩ | fell
        · exact absurd same changed
        · have rest := ih (passed.restart wellFormed inRange) (by omega)
          rw [decide_eq_true changed] at run
          exact (run.tail .again).trans rest

theorem run_dominatorTree :
    Reached graph entry ⟨(graph.reversePostorder entry).length, false,
      (graph.dominatorTree entry).parents⟩ :=
  (settling_initialParents wellFormed inRange).run_settleParents wellFormed inRange _
    (candidateRanks_initialParents_lt wellFormed inRange)

end Runs

/-! ## What holds throughout -/

structure Converges (graph : Digraph α β) (entry : NodeId) : Prop where
  terminates : Acc (fun later earlier => Next graph entry earlier later) (start graph entry)
  ends : ∃ last, Reached graph entry last ∧ last.IsLast graph entry ∧
    last.table = (graph.dominatorTree entry).parents
  falls : ∀ {stage : Stage} {node parent : NodeId}, Reached graph entry stage →
    stage.table.parent? node = some parent → node ≠ entry →
    graph.rankFrom entry parent < graph.rankFrom entry node
  refines : ∀ {stage : Stage} {node : NodeId}, Reached graph entry stage →
    (graph.reversePostorder entry)[stage.position]? = some node →
    ∃ parent, graph.ParentFound (graph.rankFrom entry) stage.table node parent ∧
      graph.refineParent (graph.rankFrom entry) stage.table node =
        stage.table.setIfInBounds node (some parent)
  chains : ∀ {stage : Stage} {node : NodeId}, Reached graph entry stage →
    stage.table.Recorded node → ∃ nodes, stage.table.ChainUp entry node nodes
  shrinks : ∀ {earlier later : Stage} {node : NodeId} {before : List NodeId},
    Reached graph entry earlier → ReflTransGen (Next graph entry) earlier later →
    earlier.table.ChainUp entry node before →
    ∃ after, later.table.ChainUp entry node after ∧ after ⊆ before
  /-- The strict dominators are a whole chain, not one that was cut off. -/
  walks : ∀ {node : NodeId}, graph.Reachable entry node →
    (graph.dominatorTree entry).parents.ChainUp entry node
      (node :: (graph.dominatorTree entry).strictDominators node)

theorem recorded_of_chainUp {table : ParentTable} {rank : NodeId → Nat} {entry node : NodeId}
    (rooted : table.Rooted rank entry) {nodes : List NodeId}
    (chain : table.ChainUp entry node nodes) : table.Recorded node := by
  cases chain with
  | atEntry => exact .of_parent rooted.root
  | up _ found _ => exact .of_parent found

/-- The dominator computation ends: ranks fall along the candidates of every table on the way, so
that all climbing ends at the entry, and the chain of a node never gains a node. -/
theorem dominators_converge {graph : Digraph α β} (constructed : graph.Constructed)
    {entry : NodeId} (inRange : entry < graph.nodeCount) : graph.Converges entry := by
  have wellFormed := constructed.wellFormed
  have rooted : ∀ {stage : Stage}, Reached graph entry stage →
      stage.table.Rooted (graph.rankFrom entry) entry :=
    fun reached => (settling_reached wellFormed inRange reached).2.rooted
  refine ⟨?_, ?_, ?_, ?_, ?_, ?_, ?_⟩
  · exact acc_of_run (run_dominatorTree wellFormed inRange) ⟨rfl, rfl⟩
  · exact ⟨_, run_dominatorTree wellFormed inRange, ⟨rfl, rfl⟩, rfl⟩
  · intro stage node parent reached found notEntry
    exact (rooted reached).descends found notEntry
  · intro stage node reached listed
    obtain ⟨begun, settling⟩ := settling_reached wellFormed inRange reached
    exact settling.parentFound wellFormed inRange begun listed
  · intro stage node reached recorded
    exact (rooted reached).exists_chainUp recorded
  · intro earlier later node before reached run chain
    have recorded := recorded_of_chainUp (rooted reached) chain
    obtain ⟨stays, kept⟩ := above_of_run wellFormed inRange reached run recorded
    have laterRooted := rooted (reached.trans run)
    obtain ⟨after, laterChain⟩ := laterRooted.exists_chainUp stays
    refine ⟨after, laterChain, fun ancestor member => ?_⟩
    exact ((rooted reached).mem_chainUp chain).mpr
      (kept ((laterRooted.mem_chainUp laterChain).mp member))
  · intro node reachable
    exact DominatorTree.chainUp_ancestorsWithin (rooted_dominatorTree wellFormed inRange) _
      ((recorded_dominatorTree_iff wellFormed inRange).mpr reachable)
      (rankFrom_le_size wellFormed inRange reachable)

/-- A cycle whose second entry is seen only after its first node was refined. -/
def lateEntry : Digraph Unit Unit :=
  (((((empty.addNode ()).addNode ()).addNode ()).addNode ()).addEdges ()
    [(0, 1), (1, 2), (2, 3), (3, 2), (0, 3)]).1

theorem constructed_lateEntry : lateEntry.Constructed :=
  .addEdges () _ (.addNode () (.addNode () (.addNode () (.addNode () .empty))))

/-- After the first pass node 1 is still above node 2, after the second one no longer. -/
theorem dominators_converge_lateEntry :
    0 < lateEntry.nodeCount ∧ lateEntry.Converges 0 ∧
      ∃ earlier later, Reached lateEntry 0 earlier ∧
        ReflTransGen (Next lateEntry 0) earlier later ∧
        earlier.table.ChainUp 0 2 [2, 1, 0] ∧ later.table.ChainUp 0 2 [2, 0] := by
  have inRange : 0 < lateEntry.nodeCount := by decide
  have wellFormed := constructed_lateEntry.wellFormed
  have settling := settling_initialParents wellFormed inRange
  have first : lateEntry.refineParents (lateEntry.rankFrom 0) (lateEntry.reversePostorder 0)
      (lateEntry.initialParents 0) = #[some 0, some 0, some 1, some 0] := by decide
  have second : lateEntry.refineParents (lateEntry.rankFrom 0) (lateEntry.reversePostorder 0)
      #[some 0, some 0, some 1, some 0] = #[some 0, some 0, some 0, some 0] := by decide
  have run := settling.run_refineParents wellFormed inRange
  rw [first] at run
  have reached : Reached lateEntry 0 ⟨1, false, #[some 0, some 0, some 1, some 0]⟩ :=
    run.tail .again
  have onward := (settling_reached wellFormed inRange reached).2.run_refineParents wellFormed
    inRange
  rw [second] at onward
  have atOne : ParentTable.ChainUp #[some 0, some 0, some 1, some 0] 0 1 [1, 0] :=
    .up (by decide) rfl .atEntry
  exact ⟨inRange, dominators_converge constructed_lateEntry inRange, _, _, reached, onward,
    .up (by decide) rfl atOne, .up (by decide) rfl .atEntry⟩

end Digraph

end SymbolicFlow
