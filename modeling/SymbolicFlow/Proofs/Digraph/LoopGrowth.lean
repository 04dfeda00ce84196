import Mathlib.Data.List.Sort
import SymbolicFlow.Proofs.Digraph.NaturalLoops

/-!
# How loops are gathered

The back edges are taken one by one.  Each adds its source to the loop of its target and then
grows the body of that loop from the source, against the edges.  The growth skips what the body
has already.  That loses nothing: of a block in the body every predecessor is in the body or on the
stack, except behind the header, so in the end the body holds whatever leads to the source without
running through the header, also where the source itself lay in what earlier edges had added.

What a loop has gathered therefore depends only on which back edges were seen, not on their order.
-/

set_option autoImplicit false

namespace SymbolicFlow.Digraph

open LoopForest

variable {α β : Type} {graph : Digraph α β} {header latch : NodeId}

/-! ## One latch -/

/-- What holds while a body that was `old` grows from a latch. -/
structure Growing (graph : Digraph α β) (header latch : NodeId) (old stack body : List NodeId) :
    Prop where
  kept : old ⊆ body
  sound : ∀ node ∈ body, node ∈ old ∨ node ≠ header ∧ graph.Leads (· ≠ header) node latch
  waiting : ∀ node ∈ stack, graph.Leads (· ≠ header) node latch
  started : latch ∈ body ∨ latch ∈ stack
  followed : ∀ node ∈ body, node ≠ header → ∀ predecessor ∈ graph.predecessors node,
    predecessor ∈ body ∨ predecessor ∈ stack

theorem growing_start {old : List NodeId}
    (closed : ∀ node ∈ old, node ≠ header → ∀ predecessor ∈ graph.predecessors node,
      predecessor ∈ old) : graph.Growing header latch old [latch] old where
  kept := List.Subset.refl old
  sound := fun _ member => Or.inl member
  waiting := by
    intro node member
    rw [List.mem_singleton.mp member]
    exact .refl
  started := Or.inr (List.mem_singleton_self latch)
  followed := fun node member other predecessor edge => Or.inl (closed node member other _ edge)

theorem Growing.skip {old stack body : List NodeId} {node : NodeId}
    (growing : graph.Growing header latch old (node :: stack) body) (present : node ∈ body) :
    graph.Growing header latch old stack body := by
  have known : ∀ other, other ∈ body ∨ other ∈ node :: stack → other ∈ body ∨ other ∈ stack := by
    rintro other (inside | waits)
    · exact Or.inl inside
    · rcases List.mem_cons.mp waits with rfl | waits
      · exact Or.inl present
      · exact Or.inr waits
  refine ⟨growing.kept, growing.sound, ?_, known latch growing.started, ?_⟩
  · exact fun other member => growing.waiting other (List.mem_cons_of_mem node member)
  · exact fun other member different predecessor edge =>
      known predecessor (growing.followed other member different predecessor edge)

def newBefore (graph : Digraph α β) (header node : NodeId) (body : List NodeId) : List NodeId :=
  (graph.predecessors node).filter fun other => other != header && !(node :: body).contains other

theorem mem_newBefore {node other : NodeId} {body : List NodeId} :
    other ∈ graph.newBefore header node body ↔
      other ∈ graph.predecessors node ∧ other ≠ header ∧ other ∉ node :: body := by
  simp [newBefore]

theorem growBody_cons (graph : Digraph α β) (header : NodeId) (steps : Nat) (node : NodeId)
    (stack body : List NodeId) :
    graph.growBody header (steps + 1) (node :: stack) body =
      if node ∈ body then graph.growBody header steps stack body
      else graph.growBody header steps ((graph.newBefore header node body).reverse ++ stack)
        (node :: body) := by
  simp only [growBody, List.contains_iff_mem, newBefore]

theorem Growing.add (wellFormed : graph.WellFormed) {old stack body : List NodeId} {node : NodeId}
    (growing : graph.Growing header latch old (node :: stack) body) (hasHeader : header ∈ old)
    (new : node ∉ body) :
    graph.Growing header latch old ((graph.newBefore header node body).reverse ++ stack)
      (node :: body) := by
  have different : node ≠ header := fun same => new (same ▸ growing.kept hasHeader)
  have leads := growing.waiting node List.mem_cons_self
  have moved : ∀ other, other ∈ body ∨ other ∈ node :: stack → other ∈ node :: body ∨
      other ∈ (graph.newBefore header node body).reverse ++ stack := by
    rintro other (inside | waits)
    · exact Or.inl (List.mem_cons_of_mem node inside)
    · rcases List.mem_cons.mp waits with rfl | waits
      · exact Or.inl List.mem_cons_self
      · exact Or.inr (List.mem_append_right _ waits)
  refine ⟨?_, ?_, ?_, moved latch growing.started, ?_⟩
  · exact fun other member => List.mem_cons_of_mem node (growing.kept member)
  · intro other member
    rcases List.mem_cons.mp member with rfl | inside
    · exact Or.inr ⟨different, leads⟩
    · exact growing.sound other inside
  · intro other member
    rcases List.mem_append.mp member with before | waits
    · obtain ⟨edge, _⟩ := mem_newBefore.mp (List.mem_reverse.mp before)
      exact leads.head ⟨(mem_predecessors_iff wellFormed).mp edge, different⟩
    · exact growing.waiting other (List.mem_cons_of_mem node waits)
  · intro other member notHeader predecessor edge
    rcases List.mem_cons.mp member with rfl | inside
    · by_cases known : predecessor ∈ other :: body
      · exact Or.inl known
      · have notThere : predecessor ≠ header := fun same =>
          known (List.mem_cons_of_mem other (same ▸ growing.kept hasHeader))
        have found := mem_newBefore.mpr ⟨edge, notThere, known⟩
        exact Or.inr (List.mem_append_left _ (List.mem_reverse.mpr found))
    · exact moved predecessor (growing.followed other inside notHeader predecessor edge)

/-- The number of nodes that can still be taken from the stack. -/
def growth (graph : Digraph α β) (stack body : List NodeId) : Nat :=
  stack.length + ∑ node ∈ (Finset.range graph.nodeCount).filter (· ∉ body),
    (graph.predecessors node).length

theorem growth_add (header : NodeId) {stack body : List NodeId} {node : NodeId}
    (inside : node < graph.nodeCount) (new : node ∉ body) :
    graph.growth ((graph.newBefore header node body).reverse ++ stack) (node :: body) + 1 ≤
      graph.growth (node :: stack) body := by
  have missing : node ∈ (Finset.range graph.nodeCount).filter (· ∉ body) :=
    Finset.mem_filter.mpr ⟨Finset.mem_range.mpr inside, new⟩
  have rest : (Finset.range graph.nodeCount).filter (· ∉ node :: body) =
      ((Finset.range graph.nodeCount).filter (· ∉ body)).erase node := by
    ext other
    simp only [Finset.mem_filter, Finset.mem_erase, List.mem_cons]
    tauto
  have split := Finset.add_sum_erase _ (fun node => (graph.predecessors node).length) missing
  have fewer : (graph.newBefore header node body).length ≤ (graph.predecessors node).length :=
    List.length_filter_le _ _
  simp only [growth, rest, List.length_append, List.length_reverse, List.length_cons]
  omega

theorem Growing.growBody (wellFormed : graph.WellFormed) {old stack body : List NodeId}
    (hasHeader : header ∈ old) (steps : Nat)
    (growing : graph.Growing header latch old stack body)
    (inside : ∀ node ∈ stack, node < graph.nodeCount)
    (enough : graph.growth stack body ≤ steps) :
    graph.Growing header latch old [] (graph.growBody header steps stack body) := by
  induction steps generalizing stack body with
  | zero =>
      cases stack with
      | nil => exact growing
      | cons node stack =>
          simp only [growth, List.length_cons] at enough
          omega
  | succ steps ih =>
      cases stack with
      | nil => exact growing
      | cons node stack =>
          rw [growBody_cons]
          split
          · rename_i present
            apply ih (growing.skip present)
            · exact fun other member => inside other (List.mem_cons_of_mem node member)
            · simp only [growth, List.length_cons] at enough ⊢
              omega
          · rename_i new
            apply ih (growing.add wellFormed hasHeader new)
            · intro other member
              rcases List.mem_append.mp member with before | waits
              · obtain ⟨edge, _⟩ := mem_newBefore.mp (List.mem_reverse.mp before)
                exact (lt_of_mem_successors wellFormed
                  ((mem_predecessors_iff wellFormed).mp edge)).1
              · exact inside other (List.mem_cons_of_mem node waits)
            · apply Nat.le_of_succ_le_succ
              exact (growth_add header (inside node List.mem_cons_self) new).trans enough

theorem Growing.complete (wellFormed : graph.WellFormed) {old body : List NodeId}
    (growing : graph.Growing header latch old [] body) {node : NodeId} (different : node ≠ header)
    (leads : graph.Leads (· ≠ header) node latch) : node ∈ body := by
  induction leads using Relation.ReflTransGen.head_induction_on with
  | refl => simpa using growing.started
  | @head between next edge _ previous =>
      have before := (mem_predecessors_iff wellFormed).mpr edge.1
      simpa using growing.followed next (previous edge.2) edge.2 between before

/-- From a body that is closed against the edges, growth adds just what leads to the latch without
running through the header. -/
theorem mem_growBody (wellFormed : graph.WellFormed) {old : List NodeId}
    (hasHeader : header ∈ old) (inside : latch < graph.nodeCount)
    (closed : ∀ node ∈ old, node ≠ header → ∀ predecessor ∈ graph.predecessors node,
      predecessor ∈ old) {node : NodeId} :
    node ∈ graph.growBody header (graph.edgeCount + 1) [latch] old ↔
      node ∈ old ∨ node ≠ header ∧ graph.Leads (· ≠ header) node latch := by
  have enough : graph.growth [latch] old ≤ graph.edgeCount + 1 := by
    have missing : ∑ node ∈ (Finset.range graph.nodeCount).filter (· ∉ old),
        (graph.predecessors node).length ≤ graph.edgeCount :=
      (Finset.sum_le_sum_of_subset (Finset.filter_subset _ _)).trans
        (sum_length_predecessors_le wellFormed)
    simp only [growth, List.length_singleton]
    omega
  have grown := (growing_start closed).growBody wellFormed hasHeader _ (by simpa using inside)
    enough
  constructor
  · exact grown.sound node
  · rintro (member | ⟨different, leads⟩)
    · exact grown.kept member
    · exact grown.complete wellFormed different leads

/-! ## One back edge -/

/-- What the loop of a header has gathered from the back edges seen so far. -/
structure Gathered (graph : Digraph α β) (edges : List (NodeId × NodeId)) (outline : Outline) :
    Prop where
  latchesOnce : outline.latches.Nodup
  latches : ∀ node, node ∈ outline.latches ↔ (node, outline.header) ∈ edges
  body : ∀ node, node ∈ outline.body ↔ node = outline.header ∨ ∃ latch ∈ outline.latches,
    node ≠ outline.header ∧ graph.Leads (· ≠ outline.header) node latch

theorem Gathered.closed (wellFormed : graph.WellFormed) {edges : List (NodeId × NodeId)}
    {outline : Outline} (gathered : graph.Gathered edges outline) :
    ∀ node ∈ outline.body, node ≠ outline.header → ∀ predecessor ∈ graph.predecessors node,
      predecessor ∈ outline.body := by
  intro node member different predecessor before
  obtain atHeader | ⟨latch, isLatch, _, leads⟩ := (gathered.body node).mp member
  · exact absurd atHeader different
  · apply (gathered.body predecessor).mpr
    by_cases atHeader : predecessor = outline.header
    · exact Or.inl atHeader
    · have edge := (mem_predecessors_iff wellFormed).mp before
      exact Or.inr ⟨latch, isLatch, atHeader, leads.head ⟨edge, different⟩⟩

theorem gathered_open {edges : List (NodeId × NodeId)}
    (unseen : ∀ latch, (latch, header) ∉ edges) :
    graph.Gathered edges ⟨header, [], [header]⟩ where
  latchesOnce := List.nodup_nil
  latches := by simpa using unseen
  body := by simp

theorem Gathered.aside {edges : List (NodeId × NodeId)} {outline : Outline}
    (gathered : graph.Gathered edges outline) (different : outline.header ≠ header) :
    graph.Gathered (edges ++ [(latch, header)]) outline where
  latchesOnce := gathered.latchesOnce
  latches := by simpa [different] using gathered.latches
  body := gathered.body

theorem mem_addLatch_latches {outline : Outline} {node : NodeId} :
    node ∈ (graph.addLatch latch outline).latches ↔ node ∈ outline.latches ∨ node = latch := by
  rw [addLatch]
  split
  · rename_i known
    have isLatch : latch ∈ outline.latches := List.contains_iff_mem.mp known
    exact ⟨Or.inl, fun either => either.elim id fun same => same ▸ isLatch⟩
  · simp

theorem Gathered.addLatch (wellFormed : graph.WellFormed) (inside : latch < graph.nodeCount)
    {edges : List (NodeId × NodeId)} {outline : Outline}
    (gathered : graph.Gathered edges outline) :
    graph.Gathered (edges ++ [(latch, outline.header)]) (graph.addLatch latch outline) := by
  refine ⟨?_, ?_, ?_⟩
  · rw [Digraph.addLatch]
    split
    · exact gathered.latchesOnce
    · rename_i new
      exact gathered.latchesOnce.append (List.nodup_singleton latch)
        (List.disjoint_singleton.mpr (by simpa using new))
  · intro node
    rw [mem_addLatch_latches, gathered.latches]
    simp [Digraph.addLatch]
  · intro node
    have hasHeader : outline.header ∈ outline.body := (gathered.body _).mpr (Or.inl rfl)
    have grown : node ∈ (graph.addLatch latch outline).body ↔ node ∈ outline.body ∨
        node ≠ outline.header ∧ graph.Leads (· ≠ outline.header) node latch :=
      mem_growBody wellFormed hasHeader inside (gathered.closed wellFormed)
    simp only [grown, gathered.body, mem_addLatch_latches]
    constructor
    · rintro ((atHeader | ⟨old, isLatch, aside⟩) | aside)
      · exact Or.inl atHeader
      · exact Or.inr ⟨old, Or.inl isLatch, aside⟩
      · exact Or.inr ⟨latch, Or.inr rfl, aside⟩
    · rintro (atHeader | ⟨other, isLatch | rfl, aside⟩)
      · exact Or.inl (Or.inl atHeader)
      · exact Or.inl (Or.inr ⟨other, isLatch, aside⟩)
      · exact Or.inr aside

/-! ## The scan -/

structure Scanned (graph : Digraph α β) (edges : List (NodeId × NodeId))
    (outlines : List Outline) : Prop where
  gathered : ∀ outline ∈ outlines, graph.Gathered edges outline
  headersOnce : (outlines.map (·.header)).Nodup
  found : ∀ header, header ∈ outlines.map (·.header) ↔ ∃ latch, (latch, header) ∈ edges

theorem scanned_nil (graph : Digraph α β) : graph.Scanned [] [] where
  gathered := by simp
  headersOnce := List.nodup_nil
  found := by simp

theorem headers_openLoop (outlines : List Outline) (header : NodeId) :
    (openLoop outlines header).map (·.header) =
      if header ∈ outlines.map (·.header) then outlines.map (·.header)
      else outlines.map (·.header) ++ [header] := by
  have known : outlines.any (·.header == header) = true ↔ header ∈ outlines.map (·.header) := by
    simp
  simp only [openLoop, known]
  split
  · rfl
  · exact List.map_append

theorem headers_addBackEdge (graph : Digraph α β) (outlines : List Outline)
    (edge : NodeId × NodeId) :
    (graph.addBackEdge outlines edge).map (·.header) =
      if edge.2 ∈ outlines.map (·.header) then outlines.map (·.header)
      else outlines.map (·.header) ++ [edge.2] := by
  rw [← headers_openLoop, addBackEdge, List.map_map]
  apply List.map_congr_left
  intro outline _
  simp only [Function.comp_apply]
  split <;> rfl

theorem mem_headers_addBackEdge {outlines : List Outline} {edge : NodeId × NodeId}
    {other : NodeId} :
    other ∈ (graph.addBackEdge outlines edge).map (·.header) ↔
      other ∈ outlines.map (·.header) ∨ other = edge.2 := by
  rw [headers_addBackEdge]
  split
  · rename_i listed
    exact ⟨Or.inl, fun either => either.elim id fun same => same ▸ listed⟩
  · rw [List.mem_append, List.mem_singleton]

theorem Scanned.gathered_openLoop {edges : List (NodeId × NodeId)} {outlines : List Outline}
    (scanned : graph.Scanned edges outlines) {header : NodeId} :
    ∀ outline ∈ openLoop outlines header, graph.Gathered edges outline := by
  intro outline member
  rw [openLoop] at member
  split at member
  · exact scanned.gathered outline member
  · rename_i new
    rcases List.mem_append.mp member with old | last
    · exact scanned.gathered outline old
    · rw [List.mem_singleton.mp last]
      apply gathered_open
      intro latch seen
      have listed := (scanned.found header).mpr ⟨latch, seen⟩
      exact new (by simpa using listed)

theorem Scanned.addBackEdge (wellFormed : graph.WellFormed) {edges : List (NodeId × NodeId)}
    {edge : NodeId × NodeId} (inside : edge.1 < graph.nodeCount) {outlines : List Outline}
    (scanned : graph.Scanned edges outlines) :
    graph.Scanned (edges ++ [edge]) (graph.addBackEdge outlines edge) := by
  refine ⟨?_, ?_, ?_⟩
  · intro outline member
    obtain ⟨old, isOld, rfl⟩ := List.mem_map.mp member
    have gathered := scanned.gathered_openLoop old isOld
    split
    · rename_i same
      have grown := gathered.addLatch wellFormed inside
      rwa [same] at grown
    · rename_i different
      exact gathered.aside different
  · rw [headers_addBackEdge]
    split
    · exact scanned.headersOnce
    · rename_i new
      exact scanned.headersOnce.append (List.nodup_singleton edge.2)
        (List.disjoint_singleton.mpr new)
  · intro other
    rw [mem_headers_addBackEdge, scanned.found]
    simp only [List.mem_append, List.mem_singleton, exists_or, Prod.ext_iff]
    simp

theorem Scanned.foldl (wellFormed : graph.WellFormed) {edges seen : List (NodeId × NodeId)}
    {outlines : List Outline} (inside : ∀ edge ∈ edges, edge.1 < graph.nodeCount)
    (scanned : graph.Scanned seen outlines) :
    graph.Scanned (seen ++ edges) (edges.foldl graph.addBackEdge outlines) := by
  induction edges generalizing seen outlines with
  | nil => simpa using scanned
  | cons edge edges ih =>
      have here := inside edge List.mem_cons_self
      have rest := fun other member => inside other (List.mem_cons_of_mem edge member)
      simpa using ih rest (scanned.addBackEdge wellFormed here)

/-! ## The outlines -/

theorem mem_backEdges {tree : DominatorTree} :
    (latch, header) ∈ graph.backEdges tree ↔ latch < graph.nodeCount ∧ tree.isReachable latch ∧
      header ∈ graph.successors latch ∧ tree.dominates header latch := by
  simp [backEdges, nodeIds, and_assoc]

theorem mem_backEdges_dominatorTree (wellFormed : graph.WellFormed)
    {entry : NodeId} (inRange : entry < graph.nodeCount) :
    (latch, header) ∈ graph.backEdges (graph.dominatorTree entry) ↔
      graph.Closes entry latch header := by
  rw [mem_backEdges, isReachable_dominatorTree wellFormed inRange,
    dominates_dominatorTree_iff wellFormed inRange]
  constructor
  · rintro ⟨_, reachable, edge, above⟩
    exact ⟨reachable, edge, (above_dominatorTree_iff wellFormed inRange reachable header).mp above⟩
  · rintro ⟨reachable, edge, dominates⟩
    exact ⟨reachable.lt wellFormed inRange, reachable, edge,
      (above_dominatorTree_iff wellFormed inRange reachable header).mpr dominates⟩

theorem Gathered.lt (wellFormed : graph.WellFormed) {tree : DominatorTree} {outline : Outline}
    (gathered : graph.Gathered (graph.backEdges tree) outline)
    (closed : ∃ latch, (latch, outline.header) ∈ graph.backEdges tree) {node : NodeId}
    (member : node ∈ outline.body) : node < graph.nodeCount := by
  rcases (gathered.body node).mp member with rfl | ⟨latch, isLatch, _, leads⟩
  · obtain ⟨latch, isBack⟩ := closed
    exact (lt_of_mem_successors wellFormed (mem_backEdges.mp isBack).2.2.1).2
  · rcases leads.cases_head with rfl | ⟨next, edge, _⟩
    · exact (mem_backEdges.mp ((gathered.latches node).mp isLatch)).1
    · exact (lt_of_mem_successors wellFormed edge.1).1

theorem Gathered.listed {edges : List (NodeId × NodeId)} {outline : Outline}
    (gathered : graph.Gathered edges outline)
    (inside : ∀ node ∈ outline.body, node < graph.nodeCount) :
    graph.Gathered edges { outline with body := graph.nodeIds.filter outline.body.contains } where
  latchesOnce := gathered.latchesOnce
  latches := gathered.latches
  body := by
    intro node
    have same : node ∈ graph.nodeIds.filter outline.body.contains ↔ node ∈ outline.body := by
      simpa [nodeIds] using inside node
    exact same.trans (gathered.body node)

theorem foldr_insertByHeader (outlines : List Outline) :
    outlines.foldr insertByHeader [] =
      outlines.insertionSort (Order.Preimage Outline.header (· ≤ ·)) := by
  have same (outline : Outline) (sorted : List Outline) : insertByHeader outline sorted =
      sorted.orderedInsert (Order.Preimage Outline.header (· ≤ ·)) outline := by
    induction sorted with
    | nil => rfl
    | cons first rest ih => simp only [insertByHeader, List.orderedInsert_cons, ih, Order.Preimage]
  induction outlines with
  | nil => rfl
  | cons first rest ih => rw [List.foldr_cons, ih, same, List.insertionSort_cons]

theorem headers_loopOutlines (graph : Digraph α β) (tree : DominatorTree) :
    (graph.loopOutlines tree).toList.map (·.header) =
      (((graph.backEdges tree).foldl graph.addBackEdge []).insertionSort
        (Order.Preimage Outline.header (· ≤ ·))).map (·.header) := by
  simp [loopOutlines, Function.comp_def, foldr_insertByHeader]

theorem scanned_loopOutlines (wellFormed : graph.WellFormed) (tree : DominatorTree) :
    graph.Scanned (graph.backEdges tree) (graph.loopOutlines tree).toList := by
  have scanned : graph.Scanned (graph.backEdges tree) _ :=
    (scanned_nil graph).foldl wellFormed fun edge isBack => (mem_backEdges.mp isBack).1
  have sorted := List.perm_insertionSort (Order.Preimage Outline.header (· ≤ ·))
    ((graph.backEdges tree).foldl graph.addBackEdge [])
  refine ⟨?_, ?_, ?_⟩
  · intro outline member
    obtain ⟨old, isOld, rfl⟩ := List.mem_map.mp member
    rw [foldr_insertByHeader] at isOld
    have found := sorted.mem_iff.mp isOld
    have gathered := scanned.gathered old found
    have closed := (scanned.found old.header).mp (List.mem_map_of_mem found)
    exact gathered.listed fun node => gathered.lt wellFormed closed
  · rw [headers_loopOutlines]
    exact (sorted.map _).nodup_iff.mpr scanned.headersOnce
  · intro header
    rw [headers_loopOutlines, (sorted.map _).mem_iff]
    exact scanned.found header

theorem ascending_loopOutlines (wellFormed : graph.WellFormed) (tree : DominatorTree) :
    (graph.loopOutlines tree).toList.Pairwise fun earlier later =>
      earlier.header < later.header := by
  have distinct := (scanned_loopOutlines wellFormed tree).headersOnce
  have sorted := List.pairwise_insertionSort (Order.Preimage Outline.header (· ≤ ·))
    ((graph.backEdges tree).foldl graph.addBackEdge [])
  rw [← List.pairwise_map (f := Outline.header) (R := (· < ·))]
  rw [headers_loopOutlines] at distinct ⊢
  apply List.pairwise_map.mpr
  apply (sorted.and (List.pairwise_map.mp distinct)).imp
  rintro first second ⟨before, different⟩
  exact Nat.lt_of_le_of_ne before different

theorem ascending_body {tree : DominatorTree} {outline : Outline}
    (member : outline ∈ (graph.loopOutlines tree).toList) : outline.body.Pairwise (· < ·) := by
  obtain ⟨old, _, rfl⟩ := List.mem_map.mp member
  exact List.pairwise_lt_range.filter _

section Natural

variable (wellFormed : graph.WellFormed) {entry : NodeId} (inRange : entry < graph.nodeCount)
  {outline : Outline}
  (member : outline ∈ (graph.loopOutlines (graph.dominatorTree entry)).toList)
include wellFormed inRange member

theorem exists_closes_outline : ∃ latch, graph.Closes entry latch outline.header := by
  have scanned := scanned_loopOutlines wellFormed (graph.dominatorTree entry)
  obtain ⟨latch, isBack⟩ := (scanned.found outline.header).mp (List.mem_map_of_mem member)
  exact ⟨latch, (mem_backEdges_dominatorTree wellFormed inRange).mp isBack⟩

theorem mem_latches_outline {node : NodeId} :
    node ∈ outline.latches ↔ graph.Closes entry node outline.header := by
  have gathered := (scanned_loopOutlines wellFormed _).gathered outline member
  rw [gathered.latches, mem_backEdges_dominatorTree wellFormed inRange]

theorem mem_body_outline {node : NodeId} :
    node ∈ outline.body ↔ graph.InLoop entry outline.header node := by
  have gathered := (scanned_loopOutlines wellFormed _).gathered outline member
  have isLatch {latch : NodeId} : latch ∈ outline.latches ↔ _ :=
    mem_latches_outline wellFormed inRange member
  rw [gathered.body]
  constructor
  · rintro (atHeader | ⟨latch, known, aside⟩)
    · obtain ⟨latch, closes⟩ := exists_closes_outline wellFormed inRange member
      exact ⟨latch, closes, Or.inl atHeader⟩
    · exact ⟨latch, isLatch.mp known, Or.inr aside⟩
  · rintro ⟨latch, closes, atHeader | aside⟩
    · exact Or.inl atHeader
    · exact Or.inr ⟨latch, isLatch.mpr closes, aside⟩

end Natural

end SymbolicFlow.Digraph
