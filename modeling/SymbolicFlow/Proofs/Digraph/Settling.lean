import SymbolicFlow.Proofs.Digraph.Ancestry
import SymbolicFlow.Proofs.Digraph.DepthFirst

/-!
# The passes of the dominator computation

`Settling` is what a table of candidates satisfies in the middle of a pass, when the nodes of
rank below `position` have been refined in this pass.  The three fields that make it work:

* `dominators`: a node has all its dominators above it.  A replaced candidate also changes
  what is above the nodes below it; `detour` is why nothing is lost there.
* `steady`: what is above a node that was not refined yet in this pass is, from `position` on,
  still above those predecessors that come before it in reverse postorder.
* `shrinking`: refining a node can only move its candidate towards the entry.  With `steady`
  this survives replacements elsewhere.

By `shrinking` a pass that changes anything lowers the sum of the candidates' ranks, so the
passes come to an end within their number.
-/

set_option autoImplicit false

namespace SymbolicFlow.Digraph

open ParentTable

variable {α β : Type}

structure Settling (graph : Digraph α β) (entry : NodeId) (position : Nat)
    (table : ParentTable) : Prop where
  size : table.size = graph.nodeCount
  rooted : table.Rooted (graph.rankFrom entry) entry
  reachable : ∀ {node}, table.Recorded node → graph.Reachable entry node
  filled : ∀ {node}, graph.Reachable entry node → graph.rankFrom entry node < position →
    table.Recorded node
  /-- A candidate leads to its node through nodes of higher rank than its own. -/
  detour : ∀ {node parent}, table.parent? node = some parent → node ≠ entry →
    graph.Leads (fun other => graph.rankFrom entry parent < graph.rankFrom entry other) parent node
  dominators : ∀ {dominator node}, table.Recorded node →
    graph.Dominates entry dominator node → table.Above dominator node
  steady : ∀ {node earlier ancestor}, table.Recorded node → node ≠ entry →
    node ∈ graph.successors earlier → graph.Reachable entry earlier →
    graph.rankFrom entry earlier < graph.rankFrom entry node →
    table.Above ancestor node → ancestor ≠ node →
    (graph.rankFrom entry node < position ∨ position ≤ graph.rankFrom entry ancestor) →
    table.Above ancestor earlier
  shrinking : ∀ {node parent ancestor}, table.parent? node = some parent → node ≠ entry →
    (∀ predecessor, node ∈ graph.successors predecessor → table.Recorded predecessor →
      table.Above ancestor predecessor) →
    table.Above ancestor parent

/-- The candidate that refining `node` finds. -/
structure Candidate (graph : Digraph α β) (entry : NodeId) (table : ParentTable)
    (node parent : NodeId) : Prop where
  refined : graph.refineParent (graph.rankFrom entry) table node =
    table.setIfInBounds node (some parent)
  recorded : table.Recorded parent
  falls : graph.rankFrom entry parent < graph.rankFrom entry node
  exact : ∀ ancestor, table.Above ancestor parent ↔ ∀ predecessor,
    node ∈ graph.successors predecessor → table.Recorded predecessor →
      table.Above ancestor predecessor

section Step

variable {graph : Digraph α β} {entry : NodeId} {position : Nat} {table : ParentTable}
  {node parent : NodeId}

theorem Settling.exists_earlier (settling : graph.Settling entry position table)
    (wellFormed : graph.WellFormed) (inRange : entry < graph.nodeCount)
    (reachable : graph.Reachable entry node) (notEntry : node ≠ entry)
    (turn : graph.rankFrom entry node ≤ position) :
    ∃ earlier, node ∈ graph.successors earlier ∧ table.Recorded earlier ∧
      graph.rankFrom entry earlier < graph.rankFrom entry node := by
  obtain ⟨earlier, earlierReachable, edge, lower⟩ :=
    exists_predecessor_rankFrom_lt wellFormed inRange reachable notEntry
  exact ⟨earlier, edge, settling.filled earlierReachable (by omega), lower⟩

theorem Settling.exists_candidate (settling : graph.Settling entry position table)
    (wellFormed : graph.WellFormed) (inRange : entry < graph.nodeCount)
    (reachable : graph.Reachable entry node) (notEntry : node ≠ entry)
    (turn : graph.rankFrom entry node ≤ position) :
    ∃ parent, graph.Candidate entry table node parent := by
  obtain ⟨earlier, edge, earlierRecorded, lower⟩ :=
    settling.exists_earlier wellFormed inRange reachable notEntry turn
  have members : ∀ predecessor,
      predecessor ∈ (graph.predecessors node).filter
        (fun predecessor => (table.parent? predecessor).isSome) ↔
      node ∈ graph.successors predecessor ∧ table.Recorded predecessor := by
    intro predecessor
    rw [List.mem_filter, mem_predecessors_iff wellFormed]
    rfl
  cases listed : (graph.predecessors node).filter
      (fun predecessor => (table.parent? predecessor).isSome) with
  | nil =>
      have present := (members earlier).mpr ⟨edge, earlierRecorded⟩
      rw [listed] at present
      cases present
  | cons first rest =>
      rw [listed] at members
      obtain ⟨parent, found, recorded, exact⟩ := settling.rooted.meetAll_spec first rest
        fun predecessor member => ((members predecessor).mp member).2
      have exact' : ∀ ancestor, table.Above ancestor parent ↔ ∀ predecessor,
          node ∈ graph.successors predecessor → table.Recorded predecessor →
            table.Above ancestor predecessor := by
        intro ancestor
        rw [exact]
        constructor
        · intro all predecessor joined known
          exact all predecessor ((members predecessor).mpr ⟨joined, known⟩)
        · intro all predecessor member
          obtain ⟨joined, known⟩ := (members predecessor).mp member
          exact all predecessor joined known
      have falls : graph.rankFrom entry parent < graph.rankFrom entry node := by
        have above := (exact' parent).mp .self earlier edge earlierRecorded
        exact Nat.lt_of_le_of_lt (settling.rooted.rank_le above) lower
      refine ⟨parent, ?_, recorded, falls, exact'⟩
      rw [refineParent, listed, found]

section Replaced

variable (inside : node < table.size) (candidate : graph.Candidate entry table node parent)
include inside candidate

theorem Candidate.parent?_refined (other : NodeId) :
    parent? (graph.refineParent (graph.rankFrom entry) table node) other =
      if other = node then some parent else table.parent? other := by
  rw [candidate.refined]
  exact parent?_setIfInBounds inside parent other

theorem Candidate.recorded_refined_iff {other : NodeId} :
    Recorded (graph.refineParent (graph.rankFrom entry) table node) other ↔
      other = node ∨ table.Recorded other := by
  rw [Recorded, candidate.parent?_refined inside]
  by_cases same : other = node
  · simp [same]
  · simp [same, Recorded]

variable (settling : graph.Settling entry position table)
include settling

theorem Candidate.above_refined_iff {ancestor other : NodeId} :
    Above (graph.refineParent (graph.rankFrom entry) table node) ancestor other ↔
      (table.Above ancestor other ∧ (table.Above node other →
        graph.rankFrom entry node ≤ graph.rankFrom entry ancestor)) ∨
      (table.Above node other ∧ table.Above ancestor parent) := by
  rw [candidate.refined]
  exact settling.rooted.above_set_iff inside candidate.falls

theorem Candidate.above_refined_iff_of_lower {ancestor other : NodeId}
    (lower : graph.rankFrom entry other < graph.rankFrom entry node) :
    Above (graph.refineParent (graph.rankFrom entry) table node) ancestor other ↔
      table.Above ancestor other := by
  have aside : ¬ table.Above node other := by
    intro below
    have := settling.rooted.rank_le below
    omega
  rw [candidate.above_refined_iff inside settling]
  tauto

theorem Candidate.above_refined_self_iff {ancestor : NodeId} (different : ancestor ≠ node) :
    Above (graph.refineParent (graph.rankFrom entry) table node) ancestor node ↔
      table.Above ancestor parent := by
  rw [candidate.above_refined_iff inside settling]
  constructor
  · rintro (⟨above, later⟩ | ⟨_, above⟩)
    · rcases settling.rooted.eq_or_rank_lt above with same | lower
      · exact absurd same different
      · have := later .self
        omega
    · exact above
  · intro above
    exact Or.inr ⟨.self, above⟩

variable (notEntry : node ≠ entry)
include notEntry

/-- No node comes to stand above another by refinement. -/
theorem Candidate.above_of_refined {ancestor other : NodeId} (recorded : table.Recorded other)
    (above : Above (graph.refineParent (graph.rankFrom entry) table node) ancestor other) :
    table.Above ancestor other := by
  rcases (candidate.above_refined_iff inside settling).mp above with ⟨old, _⟩ | ⟨below, new⟩
  · exact old
  · obtain ⟨previous, found⟩ :=
      (settling.rooted.recorded_of_above below recorded).exists_parent
    have moved := settling.shrinking found notEntry ((candidate.exact ancestor).mp new)
    exact Above.trans (.up found moved) below

end Replaced

/-- The way down from an ancestor runs through nodes of higher rank. -/
theorem Settling.leads_of_above (settling : graph.Settling entry position table)
    {ancestor other : NodeId} (above : table.Above ancestor other) :
    graph.Leads (fun between => graph.rankFrom entry ancestor < graph.rankFrom entry between)
      ancestor other := by
  induction above with
  | self => exact .refl
  | @up other next found rest previous =>
      by_cases atEntry : other = entry
      · subst atEntry
        rw [settling.rooted.eq_entry_of_above (.up found rest)]
        exact .refl
      · refine previous.trans ((settling.detour found atEntry).mono ?_)
        intro between higher
        exact Nat.lt_of_le_of_lt (settling.rooted.rank_le rest) higher

theorem Settling.dominates_between (settling : graph.Settling entry position table)
    {dominator other : NodeId} (below : table.Above node other)
    (lower : graph.rankFrom entry dominator < graph.rankFrom entry node)
    (dominates : graph.Dominates entry dominator other) : graph.Dominates entry dominator node := by
  refine dominates.of_leads ((settling.leads_of_above below).mono ?_)
  rintro between higher rfl
  omega

section Preserved

variable (wellFormed : graph.WellFormed) (inRange : entry < graph.nodeCount)
  (settling : graph.Settling entry position table) (reachable : graph.Reachable entry node)
  (notEntry : node ≠ entry) (turn : graph.rankFrom entry node = position)
  (inside : node < table.size) (candidate : graph.Candidate entry table node parent)

include settling notEntry inside candidate in
theorem Candidate.dominators_refined {dominator other : NodeId}
    (recorded : Recorded (graph.refineParent (graph.rankFrom entry) table node) other)
    (dominates : graph.Dominates entry dominator other) :
    Above (graph.refineParent (graph.rankFrom entry) table node) dominator other := by
  have aboveParent : dominator ≠ node → graph.Dominates entry dominator node →
      table.Above dominator parent := by
    intro different dominatesNode
    refine (candidate.exact dominator).mpr fun predecessor edge known => ?_
    exact settling.dominators known (dominatesNode.of_successor different edge)
  rw [candidate.above_refined_iff inside settling]
  rcases (candidate.recorded_refined_iff inside).mp recorded with same | known
  · subst same
    by_cases different : dominator = other
    · subst different
      exact Or.inl ⟨.self, fun _ => Nat.le_refl _⟩
    · exact Or.inr ⟨.self, aboveParent different dominates⟩
  · have above := settling.dominators known dominates
    by_cases below : table.Above node other
    · by_cases lower : graph.rankFrom entry dominator < graph.rankFrom entry node
      · have different : dominator ≠ node := by
          rintro rfl
          omega
        exact Or.inr ⟨below,
          aboveParent different (settling.dominates_between below lower dominates)⟩
      · exact Or.inl ⟨above, fun _ => by omega⟩
    · exact Or.inl ⟨above, fun below' => absurd below' below⟩

include wellFormed inRange settling reachable notEntry turn inside candidate in
theorem Candidate.steady_refined {other earlier ancestor : NodeId}
    (recorded : Recorded (graph.refineParent (graph.rankFrom entry) table node) other)
    (otherNotEntry : other ≠ entry) (edge : other ∈ graph.successors earlier)
    (earlierReachable : graph.Reachable entry earlier)
    (lower : graph.rankFrom entry earlier < graph.rankFrom entry other)
    (above : Above (graph.refineParent (graph.rankFrom entry) table node) ancestor other)
    (different : ancestor ≠ other)
    (due : graph.rankFrom entry other < position + 1 ∨
      position + 1 ≤ graph.rankFrom entry ancestor) :
    Above (graph.refineParent (graph.rankFrom entry) table node) ancestor earlier := by
  by_cases same : other = node
  · subst same
    have earlierRecorded := settling.filled earlierReachable (by omega)
    have aboveParent := (candidate.above_refined_self_iff inside settling different).mp above
    rw [candidate.above_refined_iff_of_lower inside settling lower]
    exact (candidate.exact ancestor).mp aboveParent earlier edge earlierRecorded
  · have known : table.Recorded other :=
      ((candidate.recorded_refined_iff inside).mp recorded).resolve_left same
    have old := candidate.above_of_refined inside settling notEntry known above
    have otherRank : graph.rankFrom entry other ≠ graph.rankFrom entry node := fun equal =>
      same (rankFrom_inj wellFormed inRange (settling.reachable known) reachable equal)
    have oldEarlier := settling.steady known otherNotEntry edge earlierReachable lower old
      different (by omega)
    rw [candidate.above_refined_iff inside settling]
    refine Or.inl ⟨oldEarlier, fun below => ?_⟩
    -- The refined node is above `earlier`, so `other` is not done and `ancestor` comes later.
    have := settling.rooted.rank_le below
    omega

include wellFormed inRange settling notEntry turn inside candidate in
theorem Candidate.shrinking_refined {other next ancestor : NodeId}
    (found : parent? (graph.refineParent (graph.rankFrom entry) table node) other = some next)
    (otherNotEntry : other ≠ entry)
    (all : ∀ predecessor, other ∈ graph.successors predecessor →
      Recorded (graph.refineParent (graph.rankFrom entry) table node) predecessor →
      Above (graph.refineParent (graph.rankFrom entry) table node) ancestor predecessor) :
    Above (graph.refineParent (graph.rankFrom entry) table node) ancestor next := by
  have oldAll : ∀ predecessor, other ∈ graph.successors predecessor →
      table.Recorded predecessor → table.Above ancestor predecessor := by
    intro predecessor edge known
    have nowKnown := (candidate.recorded_refined_iff inside).mpr (Or.inr known)
    exact candidate.above_of_refined inside settling notEntry known
      (all predecessor edge nowKnown)
  rw [candidate.parent?_refined inside] at found
  by_cases same : other = node
  · subst same
    rw [if_pos rfl] at found
    cases found
    rw [candidate.above_refined_iff_of_lower inside settling candidate.falls]
    exact (candidate.exact ancestor).mpr oldAll
  · rw [if_neg same] at found
    have old := settling.shrinking found otherNotEntry oldAll
    rw [candidate.above_refined_iff inside settling]
    by_cases later : table.Above node next → graph.rankFrom entry node ≤
        graph.rankFrom entry ancestor
    · exact Or.inl ⟨old, later⟩
    · -- The refined node stands between `next` and the ancestor; by `steady` it is above a
      -- predecessor of `other` too, which still has the ancestor above it.
      obtain ⟨below, higher⟩ := Classical.not_imp.mp later
      refine Or.inr ⟨below, ?_⟩
      have otherKnown : table.Recorded other := .of_parent found
      obtain ⟨earlier, earlierReachable, edge, lower⟩ := exists_predecessor_rankFrom_lt wellFormed
        inRange (settling.reachable otherKnown) otherNotEntry
      have nodeAboveOther : table.Above node other := .up found below
      have onEarlier := settling.steady otherKnown otherNotEntry edge earlierReachable lower
        nodeAboveOther (Ne.symm same) (Or.inr (Nat.le_of_eq turn.symm))
      have earlierKnown : table.Recorded earlier := by
        cases onEarlier with
        | self => exact settling.rooted.recorded_of_above nodeAboveOther otherKnown
        | up onward _ => exact .of_parent onward
      have still := all earlier edge
        ((candidate.recorded_refined_iff inside).mpr (Or.inr earlierKnown))
      rcases (candidate.above_refined_iff inside settling).mp still with ⟨_, kept⟩ | ⟨_, above⟩
      · exact absurd (kept onEarlier) higher
      · exact above

include settling inside candidate in
theorem Candidate.detour_refined {other next : NodeId}
    (earlier : ∃ earlier, node ∈ graph.successors earlier ∧ table.Recorded earlier)
    (found : parent? (graph.refineParent (graph.rankFrom entry) table node) other = some next)
    (otherNotEntry : other ≠ entry) :
    graph.Leads (fun between => graph.rankFrom entry next < graph.rankFrom entry between)
      next other := by
  rw [candidate.parent?_refined inside] at found
  by_cases same : other = node
  · subst same
    rw [if_pos rfl] at found
    cases found
    obtain ⟨predecessor, edge, known⟩ := earlier
    have above := (candidate.exact _).mp .self predecessor edge known
    exact (settling.leads_of_above above).tail ⟨edge, candidate.falls⟩
  · rw [if_neg same] at found
    exact settling.detour found otherNotEntry

include wellFormed inRange settling reachable notEntry turn inside candidate in
/-- Refining the node whose turn it is carries the invariant one position further. -/
theorem Candidate.settling_refined :
    graph.Settling entry (position + 1)
      (graph.refineParent (graph.rankFrom entry) table node) where
  size := by
    rw [candidate.refined, Array.size_setIfInBounds]
    exact settling.size
  rooted := by
    rw [candidate.refined]
    exact settling.rooted.set inside candidate.falls notEntry candidate.recorded
  reachable := by
    intro other recorded
    rcases (candidate.recorded_refined_iff inside).mp recorded with rfl | known
    · exact reachable
    · exact settling.reachable known
  filled := by
    intro other otherReachable lower
    refine (candidate.recorded_refined_iff inside).mpr ?_
    by_cases now : graph.rankFrom entry other = position
    · exact Or.inl (rankFrom_inj wellFormed inRange otherReachable reachable (now.trans turn.symm))
    · exact Or.inr (settling.filled otherReachable (by omega))
  detour := by
    obtain ⟨earlier, edge, known, _⟩ := settling.exists_earlier wellFormed inRange reachable
      notEntry (Nat.le_of_eq turn)
    exact candidate.detour_refined settling inside ⟨earlier, edge, known⟩
  dominators := candidate.dominators_refined settling notEntry inside
  steady := candidate.steady_refined wellFormed inRange settling reachable notEntry turn inside
  shrinking := candidate.shrinking_refined wellFormed inRange settling notEntry turn inside

end Preserved

end Step

/-! ## The passes end -/

/-- The sum of the candidates' ranks; a missing candidate counts as the number of nodes. -/
def candidateRanks (graph : Digraph α β) (entry : NodeId) (table : ParentTable) : Nat :=
  ∑ node ∈ Finset.range graph.nodeCount,
    ((table.parent? node).map (graph.rankFrom entry)).getD graph.nodeCount

private theorem setIfInBounds_of_parent? {table : ParentTable} {node parent : NodeId}
    (found : table.parent? node = some parent) :
    table.setIfInBounds node (some parent) = table := by
  have entry : table[node]? = some (some parent) := Option.join_eq_some_iff.mp found
  obtain ⟨inside, value⟩ := Array.getElem?_eq_some_iff.mp entry
  apply Array.ext_getElem?
  intro other
  by_cases same : node = other
  · subst same
    simp [inside, value]
  · exact Array.getElem?_setIfInBounds_ne same

theorem next_of_drop {order rest : List NodeId} {position : Nat} {node : NodeId}
    (remaining : order.drop position = node :: rest) :
    order[position]? = some node ∧ order.drop (position + 1) = rest := by
  constructor
  · rw [← List.head?_drop, remaining]
    rfl
  · rw [← List.drop_drop, remaining]
    rfl

section Passes

variable {graph : Digraph α β} {entry : NodeId} (wellFormed : graph.WellFormed)
  (inRange : entry < graph.nodeCount)

include wellFormed inRange in
theorem Candidate.eq_or_candidateRanks_lt {position : Nat} {table : ParentTable}
    {node parent : NodeId} (candidate : graph.Candidate entry table node parent)
    (settling : graph.Settling entry position table) (notEntry : node ≠ entry)
    (inside : node < table.size) :
    graph.refineParent (graph.rankFrom entry) table node = table ∨
      graph.candidateRanks entry (graph.refineParent (graph.rankFrom entry) table node) <
        graph.candidateRanks entry table := by
  by_cases unchanged : table.parent? node = some parent
  · left
    rw [candidate.refined]
    exact setIfInBounds_of_parent? unchanged
  · right
    have lower : graph.rankFrom entry parent <
        ((table.parent? node).map (graph.rankFrom entry)).getD graph.nodeCount := by
      cases found : table.parent? node with
      | none => exact rankFrom_lt wellFormed inRange (settling.reachable candidate.recorded)
      | some previous =>
          have above := settling.shrinking found notEntry ((candidate.exact parent).mp .self)
          rcases settling.rooted.eq_or_rank_lt above with same | lower
          · exact absurd (same ▸ found) unchanged
          · exact lower
    refine Finset.sum_lt_sum ?_ ⟨node, ?_, ?_⟩
    · intro other _
      rw [candidate.parent?_refined inside]
      split
      · rename_i same
        subst same
        exact Nat.le_of_lt lower
      · exact Nat.le_refl _
    · exact Finset.mem_range.mpr (settling.size ▸ inside)
    · rw [candidate.parent?_refined inside, if_pos rfl]
      exact lower

include wellFormed inRange in
theorem Settling.refine_next {position : Nat} {table : ParentTable} {node : NodeId}
    (settling : graph.Settling entry position table) (begun : 0 < position)
    (listed : (graph.reversePostorder entry)[position]? = some node) :
    node ≠ entry ∧ node < table.size ∧ ∃ parent, graph.Candidate entry table node parent ∧
      graph.Settling entry (position + 1)
        (graph.refineParent (graph.rankFrom entry) table node) := by
  have turn := rankFrom_getElem wellFormed inRange listed
  have reachable : graph.Reachable entry node :=
    (mem_reversePostorder wellFormed inRange).mp (List.mem_of_getElem? listed)
  have notEntry : node ≠ entry := by
    rintro rfl
    rw [rankFrom_start wellFormed inRange] at turn
    omega
  have inside : node < table.size := by
    rw [settling.size]
    exact reachable.lt wellFormed inRange
  obtain ⟨parent, candidate⟩ := settling.exists_candidate wellFormed inRange reachable
    notEntry (Nat.le_of_eq turn)
  exact ⟨notEntry, inside, parent, candidate,
    candidate.settling_refined wellFormed inRange settling reachable notEntry turn inside⟩

include wellFormed inRange in
/-- The rest of a pass: the invariant at its end, and either nothing changed or the ranks
fell. -/
theorem Settling.refine_all (rest : List NodeId) {position : Nat} {table : ParentTable}
    (remaining : (graph.reversePostorder entry).drop position = rest) (begun : 0 < position)
    (settling : graph.Settling entry position table) :
    graph.Settling entry (position + rest.length)
        (rest.foldl (graph.refineParent (graph.rankFrom entry)) table) ∧
      ((rest.foldl (graph.refineParent (graph.rankFrom entry)) table = table ∧
          ∀ node ∈ rest, graph.refineParent (graph.rankFrom entry) table node = table) ∨
        graph.candidateRanks entry
            (rest.foldl (graph.refineParent (graph.rankFrom entry)) table) <
          graph.candidateRanks entry table) := by
  induction rest generalizing position table with
  | nil =>
      refine ⟨settling, Or.inl ⟨rfl, ?_⟩⟩
      intro node member
      cases member
  | cons node rest ih =>
      obtain ⟨listed, onward⟩ := next_of_drop remaining
      obtain ⟨notEntry, inside, parent, candidate, refined⟩ :=
        settling.refine_next wellFormed inRange begun listed
      obtain ⟨settled, outcome⟩ := ih onward (Nat.succ_pos position) refined
      have progress := candidate.eq_or_candidateRanks_lt wellFormed inRange settling notEntry
        inside
      rw [List.foldl_cons]
      refine ⟨?_, ?_⟩
      · have shifted : position + 1 + rest.length = position + (node :: rest).length := by
          simp only [List.length_cons]
          omega
        rw [← shifted]
        exact settled
      · rcases progress with same | fell
        · rw [same] at outcome ⊢
          rcases outcome with ⟨final, fixed⟩ | fell
          · refine Or.inl ⟨final, ?_⟩
            intro other member
            rcases List.mem_cons.mp member with rfl | member
            · exact same
            · exact fixed other member
          · exact Or.inr fell
        · right
          rcases outcome with ⟨final, _⟩ | fellAgain
          · rw [final]
            exact fell
          · exact Nat.lt_trans fellAgain fell

include wellFormed inRange in
theorem Settling.restart {table : ParentTable}
    (settling : graph.Settling entry (graph.reversePostorder entry).length table) :
    graph.Settling entry 1 table := by
  have allDone : ∀ {node}, graph.Reachable entry node →
      graph.rankFrom entry node < (graph.reversePostorder entry).length := by
    intro node reachable
    rw [rankFrom_eq_idxOf wellFormed inRange reachable]
    exact List.idxOf_lt_length_of_mem ((mem_reversePostorder wellFormed inRange).mpr reachable)
  refine ⟨settling.size, settling.rooted, settling.reachable, ?_, settling.detour,
    settling.dominators, ?_, settling.shrinking⟩
  · intro node reachable _
    exact settling.filled reachable (allDone reachable)
  · intro node earlier ancestor recorded notEntry edge earlierReachable lower above different _
    exact settling.steady recorded notEntry edge earlierReachable lower above different
      (Or.inl (allDone (settling.reachable recorded)))

include wellFormed inRange in
theorem Settling.pass {table : ParentTable} (settling : graph.Settling entry 1 table) :
    graph.Settling entry (graph.reversePostorder entry).length
        (graph.refineParents (graph.rankFrom entry) (graph.reversePostorder entry) table) ∧
      ((graph.refineParents (graph.rankFrom entry) (graph.reversePostorder entry) table = table ∧
          ∀ node ∈ (graph.reversePostorder entry).tail,
            graph.refineParent (graph.rankFrom entry) table node = table) ∨
        graph.candidateRanks entry
            (graph.refineParents (graph.rankFrom entry) (graph.reversePostorder entry) table) <
          graph.candidateRanks entry table) := by
  have nonempty : (graph.reversePostorder entry).length ≠ 0 := by
    intro empty
    have first := head?_reversePostorder wellFormed inRange
    rw [List.length_eq_zero_iff.mp empty] at first
    cases first
  have whole := settling.refine_all wellFormed inRange (graph.reversePostorder entry).tail
    List.drop_one Nat.one_pos
  rw [List.length_tail] at whole
  have length : 1 + ((graph.reversePostorder entry).length - 1) =
      (graph.reversePostorder entry).length := by omega
  rw [length] at whole
  exact whole

structure Settled (graph : Digraph α β) (entry : NodeId) (table : ParentTable) : Prop where
  settling : graph.Settling entry (graph.reversePostorder entry).length table
  fixed : ∀ node ∈ (graph.reversePostorder entry).tail,
    graph.refineParent (graph.rankFrom entry) table node = table

include wellFormed inRange in
theorem settled_settleParents (passes : Nat) {table : ParentTable}
    (settling : graph.Settling entry 1 table)
    (enough : graph.candidateRanks entry table < passes) :
    graph.Settled entry
      (graph.settleParents (graph.rankFrom entry) (graph.reversePostorder entry) passes table) := by
  induction passes generalizing table with
  | zero => omega
  | succ passes ih =>
      obtain ⟨passed, outcome⟩ := settling.pass wellFormed inRange
      simp only [settleParents]
      split
      · rename_i same
        rcases outcome with ⟨_, fixed⟩ | fell
        · exact ⟨same ▸ passed, fixed⟩
        · rw [same] at fell
          exact absurd fell (Nat.lt_irrefl _)
      · rename_i changed
        rcases outcome with ⟨same, _⟩ | fell
        · exact absurd same changed
        · exact ih (passed.restart wellFormed inRange) (by omega)

theorem parent?_initialParents (graph : Digraph α β) {entry : NodeId}
    (inRange : entry < graph.nodeCount) (node : NodeId) :
    parent? (graph.initialParents entry) node = if node = entry then some entry else none := by
  have inside : entry < (Array.replicate graph.nodeCount (none : Option NodeId)).size := by
    rw [Array.size_replicate]
    exact inRange
  rw [initialParents, parent?_setIfInBounds inside]
  split
  · rfl
  · simp only [parent?, Array.getElem?_replicate]
    split <;> rfl

include wellFormed inRange in
theorem settling_initialParents : graph.Settling entry 1 (graph.initialParents entry) := by
  have look := parent?_initialParents graph inRange
  have onlyEntry : ∀ {node parent}, parent? (graph.initialParents entry) node = some parent →
      node = entry := by
    intro node parent found
    rw [look] at found
    split at found
    · assumption
    · cases found
  have recordedEntry : ∀ {node}, Recorded (graph.initialParents entry) node → node = entry := by
    intro node recorded
    obtain ⟨parent, found⟩ := recorded.exists_parent
    exact onlyEntry found
  refine ⟨?_, ⟨?_, ?_, ?_⟩, ?_, ?_, ?_, ?_, ?_, ?_⟩
  · simp [initialParents]
  · rw [look, if_pos rfl]
  · intro node parent found notEntry
    exact absurd (onlyEntry found) notEntry
  · intro node parent found
    cases onlyEntry found
    rw [look, if_pos rfl] at found
    cases found
    exact .of_parent (by rw [look, if_pos rfl])
  · intro node recorded
    rw [recordedEntry recorded]
    exact Reachable.refl graph entry
  · intro node reachable lower
    have zero : graph.rankFrom entry node = graph.rankFrom entry entry := by
      rw [rankFrom_start wellFormed inRange]
      omega
    rw [rankFrom_inj wellFormed inRange reachable (Reachable.refl graph entry) zero]
    exact .of_parent (by rw [look, if_pos rfl])
  · intro node parent found notEntry
    exact absurd (onlyEntry found) notEntry
  · intro dominator node recorded dominates
    cases recordedEntry recorded
    have only := dominates [entry] .single
    rw [List.mem_singleton.mp only]
    exact .self
  · intro node earlier ancestor recorded notEntry
    exact absurd (recordedEntry recorded) notEntry
  · intro node parent ancestor found notEntry
    exact absurd (onlyEntry found) notEntry

include wellFormed inRange in
theorem candidateRanks_initialParents_lt :
    graph.candidateRanks entry (graph.initialParents entry) <
      graph.nodeCount * graph.nodeCount + 1 := by
  have small : ∀ node ∈ Finset.range graph.nodeCount,
      ((parent? (graph.initialParents entry) node).map (graph.rankFrom entry)).getD
        graph.nodeCount ≤ graph.nodeCount := by
    intro node _
    rw [parent?_initialParents graph inRange]
    split
    · exact Nat.le_of_lt (rankFrom_lt wellFormed inRange (Reachable.refl graph entry))
    · exact Nat.le_refl _
  have total := Finset.sum_le_card_nsmul _ _ _ small
  rw [Finset.card_range] at total
  exact Nat.lt_succ_of_le total

include wellFormed inRange in
/-- The number of passes is enough: the computed table is settled. -/
theorem settled_dominatorTree : graph.Settled entry (graph.dominatorTree entry).parents :=
  settled_settleParents wellFormed inRange _ (settling_initialParents wellFormed inRange)
    (candidateRanks_initialParents_lt wellFormed inRange)

end Passes

end SymbolicFlow.Digraph
