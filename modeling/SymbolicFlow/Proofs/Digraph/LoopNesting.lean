import Mathlib.Data.Finset.Max
import SymbolicFlow.Proofs.Digraph.LoopGrowth

/-!
# The forest of loops

Loops are placed in a forest by two choices: the parent of a loop is the smallest other loop that
holds its header, and the innermost loop of a block is the deepest that holds it.  Both are right
because the loops that hold one reachable block form a chain: the smallest of them is held, header
and all, by each of the others.  So the loops above a loop are those that hold its header, and the
loops above the innermost loop of a block are those that hold the block.

It follows that an edge from a reachable node is a back edge just when its target dominates its
source.
-/

set_option autoImplicit false

namespace SymbolicFlow

/-- A fold that replaces what it has by the next item only if that is better ends with the best
item. -/
theorem exists_best_foldl {ι κ ρ : Type} [LinearOrder ρ] (step : Option κ → ι → Option κ)
    (name : ι → κ) (rank : ι → ρ) (first : ι) (items : List ι)
    (compares : ∀ best ∈ first :: items, ∀ item ∈ items,
      step (some (name best)) item =
        if rank best ≤ rank item then some (name best) else some (name item)) :
    ∃ best ∈ first :: items, items.foldl step (some (name first)) = some (name best) ∧
      ∀ other ∈ first :: items, rank best ≤ rank other := by
  induction items generalizing first with
  | nil => exact ⟨first, by simp, rfl, by simp⟩
  | cons item items ih =>
      have stepped := compares first (by simp) item (by simp)
      have later : ∀ chosen ∈ first :: item :: items, ∀ best ∈ chosen :: items, ∀ item ∈ items,
          step (some (name best)) item =
            if rank best ≤ rank item then some (name best) else some (name item) := by
        intro chosen isChosen best isBest other isOther
        apply compares best _ other (List.mem_cons_of_mem _ isOther)
        rcases List.mem_cons.mp isBest with rfl | isBest
        · exact isChosen
        · simp [isBest]
      rw [List.foldl_cons, stepped]
      by_cases kept : rank first ≤ rank item
      · rw [if_pos kept]
        obtain ⟨best, member, result, least⟩ := ih first (later first (by simp))
        refine ⟨best, ?_, result, ?_⟩
        · rcases List.mem_cons.mp member with rfl | member
          · simp
          · simp [member]
        · intro other isOther
          rcases List.mem_cons.mp isOther with rfl | isOther
          · exact least other (by simp)
          · rcases List.mem_cons.mp isOther with rfl | isOther
            · exact (least first (by simp)).trans kept
            · exact least other (by simp [isOther])
      · rw [if_neg kept]
        obtain ⟨best, member, result, least⟩ := ih item (later item (by simp))
        refine ⟨best, List.mem_cons_of_mem _ member, result, ?_⟩
        intro other isOther
        rcases List.mem_cons.mp isOther with rfl | isOther
        · exact (least item (by simp)).trans (le_of_not_ge kept)
        · exact least other isOther

namespace LoopForest

def headerOf (outlines : Array Outline) (loop : Nat) : NodeId :=
  (outlines.getD loop default).header

def holders (outlines : Array Outline) (block : NodeId) : Finset Nat :=
  (Finset.range outlines.size).filter fun loop => block ∈ (outlines.getD loop default).body

theorem mem_holders {outlines : Array Outline} {block : NodeId} {loop : Nat} :
    loop ∈ holders outlines block ↔
      loop < outlines.size ∧ block ∈ (outlines.getD loop default).body := by
  simp [holders]

theorem card_holders_le (outlines : Array Outline) (block : NodeId) :
    (holders outlines block).card ≤ outlines.size := by
  calc (holders outlines block).card
      ≤ (Finset.range outlines.size).card := Finset.card_filter_le _ _
    _ = outlines.size := Finset.card_range _

/-- Loops are nested as far as blocks with the property are concerned. -/
structure Nested (outlines : Array Outline) (property : NodeId → Prop) : Prop where
  headers : ∀ {loop}, loop < outlines.size → property (headerOf outlines loop)
  own : ∀ {loop}, loop < outlines.size → loop ∈ holders outlines (headerOf outlines loop)
  within : ∀ {loop block}, loop ∈ holders outlines block →
    holders outlines (headerOf outlines loop) ⊆ holders outlines block
  smaller : ∀ {inner outer}, inner < outlines.size →
    outer ∈ holders outlines (headerOf outlines inner) → outer ≠ inner →
      bodySize outlines inner < bodySize outlines outer
  comparable : ∀ {block first second}, property block → first ∈ holders outlines block →
    second ∈ holders outlines block → first ≠ second →
      first ∈ holders outlines (headerOf outlines second) ∨
        second ∈ holders outlines (headerOf outlines first)

variable {outlines : Array Outline} {property : NodeId → Prop}

/-! ## Parents -/

theorem Nested.holds_smaller (nested : Nested outlines property) {block : NodeId}
    {least other : Nat} (has : property block) (isLeast : least ∈ holders outlines block)
    (isOther : other ∈ holders outlines block)
    (larger : bodySize outlines least ≤ bodySize outlines other) :
    other ∈ holders outlines (headerOf outlines least) := by
  by_cases same : other = least
  · rw [same]
    exact nested.own (mem_holders.mp isLeast).1
  · rcases nested.comparable has isOther isLeast same with outer | inner
    · exact outer
    · have := nested.smaller (mem_holders.mp isOther).1 inner (Ne.symm same)
      omega

theorem enclosing?_cases {loop : Nat} (inRange : loop < outlines.size) :
    (enclosing? outlines loop = none ∧
      ∀ other ∈ holders outlines (headerOf outlines loop), other = loop) ∨
    ∃ parent, enclosing? outlines loop = some parent ∧
      parent ∈ holders outlines (headerOf outlines loop) ∧ parent ≠ loop ∧
      ∀ other ∈ holders outlines (headerOf outlines loop), other ≠ loop →
        bodySize outlines parent ≤ bodySize outlines other := by
  have look : outlines[loop].header = headerOf outlines loop := by
    simp [headerOf, Array.getD_eq_getD_getElem?, inRange]
  rw [enclosing?, Array.getElem?_eq_getElem inRange]
  simp only [look]
  generalize around_eq : (List.range outlines.size).filter (fun other =>
    other != loop && (outlines.getD other default).body.contains (headerOf outlines loop)) = around
  have mem_around : ∀ other, other ∈ around ↔
      other ∈ holders outlines (headerOf outlines loop) ∧ other ≠ loop := by
    intro other
    simp only [← around_eq, List.mem_filter, List.mem_range, Bool.and_eq_true, bne_iff_ne,
      List.contains_iff_mem, mem_holders]
    tauto
  cases around with
  | nil =>
      refine Or.inl ⟨rfl, fun other isOther => ?_⟩
      by_contra different
      exact absurd ((mem_around other).mpr ⟨isOther, different⟩) List.not_mem_nil
  | cons first rest =>
      have compares : ∀ best ∈ first :: rest, ∀ item ∈ rest,
          smaller outlines (some (id best)) item =
            if bodySize outlines best ≤ bodySize outlines item then some (id best)
            else some (id item) := by
        intro best _ item _
        simp only [smaller, id_eq, ← Nat.not_lt]
        split <;> simp_all
      obtain ⟨best, member, result, least⟩ :=
        exists_best_foldl (smaller outlines) id (bodySize outlines) first rest compares
      obtain ⟨holds, different⟩ := (mem_around best).mp member
      refine Or.inr ⟨best, result, holds, different, fun other isOther notSelf => ?_⟩
      exact least other ((mem_around other).mpr ⟨isOther, notSelf⟩)

theorem enclosing?_of_size_le {loop : Nat} (outside : outlines.size ≤ loop) :
    enclosing? outlines loop = none := by
  rw [enclosing?, Array.getElem?_eq_none outside]

/-- The loops that hold the header of a loop are the loop itself and those that hold the header
of its parent. -/
theorem Nested.holders_parent (nested : Nested outlines property) {loop parent : Nat}
    (inRange : loop < outlines.size) (found : enclosing? outlines loop = some parent) :
    parent < outlines.size ∧ loop ∉ holders outlines (headerOf outlines parent) ∧
      holders outlines (headerOf outlines loop) =
        insert loop (holders outlines (headerOf outlines parent)) := by
  rcases enclosing?_cases inRange with ⟨none, _⟩ | ⟨_, same, holds, different, least⟩
  · rw [found] at none
    cases none
  · cases found.symm.trans same
    have parentInRange := (mem_holders.mp holds).1
    have larger := nested.smaller inRange holds different
    refine ⟨parentInRange, fun below => ?_, ?_⟩
    · have := nested.smaller parentInRange below (Ne.symm different)
      omega
    · ext other
      rw [Finset.mem_insert]
      constructor
      · intro isOther
        by_cases isLoop : other = loop
        · exact Or.inl isLoop
        · exact Or.inr (nested.holds_smaller (nested.headers inRange) holds isOther
            (least other isOther isLoop))
      · rintro (rfl | above)
        · exact nested.own inRange
        · exact nested.within holds above

theorem Nested.holders_top (nested : Nested outlines property) {loop : Nat}
    (inRange : loop < outlines.size) (top : enclosing? outlines loop = none) :
    holders outlines (headerOf outlines loop) = {loop} := by
  rcases enclosing?_cases inRange with ⟨_, alone⟩ | ⟨parent, found, _⟩
  · exact Finset.eq_singleton_iff_unique_mem.mpr ⟨nested.own inRange, alone⟩
  · cases top.symm.trans found

/-- The chain of parents runs through the loops that hold the header, each once. -/
theorem Nested.chainWithin_spec (nested : Nested outlines property) (steps : Nat) {loop : Nat}
    (inRange : loop < outlines.size)
    (enough : (holders outlines (headerOf outlines loop)).card ≤ steps) :
    (chainWithin (enclosing? outlines) steps loop).length =
        (holders outlines (headerOf outlines loop)).card ∧
      ∀ other, other ∈ chainWithin (enclosing? outlines) steps loop ↔
        other ∈ holders outlines (headerOf outlines loop) := by
  induction steps generalizing loop with
  | zero =>
      have positive := Finset.card_pos.mpr ⟨loop, nested.own inRange⟩
      omega
  | succ steps ih =>
      rw [chainWithin]
      cases found : enclosing? outlines loop with
      | none => simp [nested.holders_top inRange found]
      | some parent =>
          obtain ⟨parentInRange, outside, split⟩ := nested.holders_parent inRange found
          rw [split, Finset.card_insert_of_notMem outside] at enough
          obtain ⟨length, members⟩ := ih parentInRange (by omega)
          rw [split, Finset.card_insert_of_notMem outside]
          simp only [List.length_cons, length, List.mem_cons, members, Finset.mem_insert,
            implies_true, and_self]

/-! ## The placed loops -/

def placed (outlines : Array Outline) (loop : Nat) : Loop where
  id := loop
  header := headerOf outlines loop
  latches := (outlines.getD loop default).latches
  body := (outlines.getD loop default).body
  parent := enclosing? outlines loop
  children := (List.range outlines.size).filter fun child => enclosing? outlines child = some loop
  depth := (chainWithin (enclosing? outlines) outlines.size loop).length - 1

theorem loops_ofOutlines (count : Nat) (outlines : Array Outline) :
    (ofOutlines count outlines).loops =
      ((List.range outlines.size).map (placed outlines)).toArray := by
  have parents : ∀ loop : Nat, (((List.range outlines.size).map
      (enclosing? outlines)).toArray[loop]?).join = enclosing? outlines loop := by
    intro loop
    by_cases inRange : loop < outlines.size
    · simp [inRange]
    · simp [inRange, enclosing?_of_size_le (Nat.le_of_not_lt inRange)]
  simp only [ofOutlines, parents]
  rfl

theorem mem_loops_ofOutlines {count : Nat} {outlines : Array Outline} {loop : Loop} :
    loop ∈ (ofOutlines count outlines).loops ↔
      ∃ id < outlines.size, placed outlines id = loop := by
  simp [loops_ofOutlines]

theorem loop?_ofOutlines (count : Nat) (outlines : Array Outline) (loop : Nat) :
    (ofOutlines count outlines).loop? loop =
      if loop < outlines.size then some (placed outlines loop) else none := by
  rw [loop?, loops_ofOutlines]
  split <;> simp_all

theorem loop?_ofOutlines_eq_some_iff {count id : Nat} {loop : Loop} :
    (ofOutlines count outlines).loop? id = some loop ↔
      id < outlines.size ∧ placed outlines id = loop := by
  rw [loop?_ofOutlines]
  split <;> simp_all

theorem parent?_ofOutlines (count : Nat) (outlines : Array Outline) :
    (fun loop => ((ofOutlines count outlines).loop? loop).bind (·.parent)) =
      enclosing? outlines := by
  funext loop
  rw [loop?_ofOutlines]
  split
  · rfl
  · rename_i outside
    rw [enclosing?_of_size_le (Nat.le_of_not_lt outside)]
    rfl

theorem Nested.ancestors_ofOutlines (nested : Nested outlines property) {count loop : Nat}
    (inRange : loop < outlines.size) :
    (ofOutlines count outlines).ancestors loop =
      (chainWithin (enclosing? outlines) outlines.size loop).map (placed outlines) := by
  have members := (nested.chainWithin_spec outlines.size inRange (card_holders_le _ _)).2
  rw [ancestors, parent?_ofOutlines, loops_ofOutlines]
  simp only [List.size_toArray, List.length_map, List.length_range]
  rw [← List.filterMap_eq_map]
  apply List.filterMap_congr
  intro other member
  rw [loop?_ofOutlines, if_pos (mem_holders.mp ((members other).mp member)).1]
  rfl

theorem Nested.mem_ancestors (nested : Nested outlines property) {count loop : Nat}
    (inRange : loop < outlines.size) {above : Loop} :
    above ∈ (ofOutlines count outlines).ancestors loop ↔
      ∃ other ∈ holders outlines (headerOf outlines loop), placed outlines other = above := by
  have members := (nested.chainWithin_spec outlines.size inRange (card_holders_le _ _)).2
  rw [nested.ancestors_ofOutlines inRange]
  simp only [List.mem_map, members]

/-! ## Loops without loops inside -/

theorem Nested.exists_child (nested : Nested outlines property) {inner outer : Nat}
    (inRange : inner < outlines.size) (around : outer ∈ holders outlines (headerOf outlines inner))
    (different : outer ≠ inner) :
    ∃ child < outlines.size, enclosing? outlines child = some outer := by
  -- Going up from the inner loop, the outer one is reached as the parent of something.
  induction count : (holders outlines (headerOf outlines inner)).card using Nat.strongRecOn
    generalizing inner with
  | ind count ih =>
      rcases enclosing?_cases inRange with ⟨_, alone⟩ | ⟨parent, found, _⟩
      · exact absurd (alone outer around) different
      · obtain ⟨parentInRange, outside, split⟩ := nested.holders_parent inRange found
        by_cases same : outer = parent
        · exact ⟨inner, inRange, same ▸ found⟩
        · rw [split] at around count
          rw [Finset.card_insert_of_notMem outside] at count
          exact ih _ (by omega) parentInRange ((Finset.mem_insert.mp around).resolve_left different)
            same rfl

theorem Nested.eq_of_innermost (nested : Nested outlines property) {block : NodeId}
    {first second : Nat} (has : property block) (isFirst : first ∈ holders outlines block)
    (isSecond : second ∈ holders outlines block)
    (firstInnermost : (placed outlines first).isInnermost = true)
    (secondInnermost : (placed outlines second).isInnermost = true) : first = second := by
  have childless : ∀ {inner outer}, inner ∈ holders outlines block →
      (placed outlines outer).isInnermost = true → outer ≠ inner →
      outer ∉ holders outlines (headerOf outlines inner) := by
    intro inner outer isInner innermost different around
    obtain ⟨child, bound, found⟩ :=
      nested.exists_child (mem_holders.mp isInner).1 around different
    have listed : child ∈ (placed outlines outer).children := by simp [placed, bound, found]
    rw [Loop.isInnermost, List.isEmpty_iff] at innermost
    rw [innermost] at listed
    cases listed
  by_contra different
  rcases nested.comparable has isFirst isSecond different with outer | inner
  · exact childless isSecond firstInnermost different outer
  · exact childless isFirst secondInnermost (Ne.symm different) inner

theorem mem_innermostLoops_ofOutlines {count : Nat} {loop : Loop} :
    loop ∈ (ofOutlines count outlines).innermostLoops ↔
      ∃ id < outlines.size, loop = placed outlines id ∧ loop.isInnermost = true := by
  simp only [innermostLoops, loops_ofOutlines, List.mem_filter, List.mem_map, List.mem_range]
  grind

theorem ascending_innermostLoops (count : Nat) (outlines : Array Outline) :
    ((ofOutlines count outlines).innermostLoops.map (·.id)).Pairwise (· < ·) := by
  rw [innermostLoops, loops_ofOutlines, List.pairwise_map]
  apply List.Pairwise.filter
  rw [List.pairwise_map]
  exact List.pairwise_lt_range

/-! ## The innermost loop of a block -/

theorem Nested.depth_placed (nested : Nested outlines property) {loop : Nat}
    (inRange : loop < outlines.size) :
    (placed outlines loop).depth + 1 = (holders outlines (headerOf outlines loop)).card := by
  have length := (nested.chainWithin_spec outlines.size inRange (card_holders_le _ _)).1
  have positive := Finset.card_pos.mpr ⟨loop, nested.own inRange⟩
  simp only [placed, length]
  omega

/-- The deepest loop that holds a block is the innermost: whatever holds the block holds its
header. -/
theorem Nested.holders_of_deepest (nested : Nested outlines property) {block : NodeId}
    {deepest : Nat} (has : property block) (holds : deepest ∈ holders outlines block)
    (deep : ∀ other ∈ holders outlines block,
      (placed outlines other).depth ≤ (placed outlines deepest).depth) :
    holders outlines (headerOf outlines deepest) = holders outlines block := by
  obtain ⟨least, isLeast, smallest⟩ :=
    Finset.exists_min_image (holders outlines block) (bodySize outlines) ⟨deepest, holds⟩
  have contained : holders outlines block ⊆ holders outlines (headerOf outlines least) :=
    fun other isOther => nested.holds_smaller has isLeast isOther (smallest other isOther)
  apply Finset.eq_of_subset_of_card_le (nested.within holds)
  have leastDepth := nested.depth_placed (mem_holders.mp isLeast).1
  have deepestDepth := nested.depth_placed (mem_holders.mp holds).1
  have := deep least isLeast
  have := Finset.card_le_card contained
  omega

theorem innermostLoop?_ofOutlines {count : Nat} {block : NodeId} (inRange : block < count) :
    (ofOutlines count outlines).innermostLoop? block =
      (((List.range outlines.size).filter fun loop => (placed outlines loop).contains block).foldl
        (fun best loop => deeper (ofOutlines count outlines).loops best (placed outlines loop))
        none).bind (ofOutlines count outlines).loop? := by
  have table : (ofOutlines count outlines).innermost = ((List.range count).map fun block =>
      ((ofOutlines count outlines).loops.toList.filter (·.contains block)).foldl
        (deeper (ofOutlines count outlines).loops) none).toArray := rfl
  have listed : (ofOutlines count outlines).loops.toList.filter (·.contains block) =
      ((List.range outlines.size).filter fun loop => (placed outlines loop).contains block).map
        (placed outlines) := by
    rw [loops_ofOutlines, List.filter_map]
    rfl
  simp only [innermostLoop?, table, List.getElem?_toArray, List.getElem?_map,
    List.getElem?_range inRange, Option.map_some, Option.join_some, listed, List.foldl_map]

theorem Nested.innermostLoop?_cases (nested : Nested outlines property) {count : Nat}
    {block : NodeId} (has : property block) (inRange : block < count) :
    (holders outlines block = ∅ ∧ (ofOutlines count outlines).innermostLoop? block = none) ∨
    ∃ loop < outlines.size,
      (ofOutlines count outlines).innermostLoop? block = some (placed outlines loop) ∧
      holders outlines (headerOf outlines loop) = holders outlines block := by
  rw [innermostLoop?_ofOutlines inRange]
  generalize around_eq : (List.range outlines.size).filter
    (fun loop => (placed outlines loop).contains block) = around
  have mem_around : ∀ loop, loop ∈ around ↔ loop ∈ holders outlines block := by
    intro loop
    simp only [← around_eq, List.mem_filter, List.mem_range, Loop.contains, placed,
      List.contains_iff_mem, mem_holders]
  cases around with
  | nil =>
      refine Or.inl ⟨Finset.eq_empty_of_forall_notMem fun loop holds => ?_, rfl⟩
      exact absurd ((mem_around loop).mpr holds) List.not_mem_nil
  | cons first rest =>
      have compares : ∀ best ∈ first :: rest, ∀ item ∈ rest,
          deeper (ofOutlines count outlines).loops (some (id best)) (placed outlines item) =
            if OrderDual.toDual (placed outlines best).depth ≤
                OrderDual.toDual (placed outlines item).depth then some (id best)
            else some (id item) := by
        intro best member item _
        have bestInRange := (mem_holders.mp ((mem_around best).mp member)).1
        have look : (ofOutlines count outlines).loops.getD best default = placed outlines best := by
          simp [loops_ofOutlines, bestInRange]
        simp only [deeper, id_eq, look, ge_iff_le, OrderDual.toDual_le_toDual]
        rfl
      obtain ⟨best, member, result, deepest⟩ := exists_best_foldl
        (fun best loop => deeper (ofOutlines count outlines).loops best (placed outlines loop)) id
        (fun loop => OrderDual.toDual (placed outlines loop).depth) first rest compares
      have holds := (mem_around best).mp member
      have bestInRange := (mem_holders.mp holds).1
      refine Or.inr ⟨best, bestInRange, ?_, nested.holders_of_deepest has holds ?_⟩
      · rw [show List.foldl _ none (first :: rest) = some best from result, Option.bind_some,
          loop?_ofOutlines, if_pos bestInRange]
      · exact fun other isOther => deepest other ((mem_around other).mpr isOther)

theorem Nested.isBackEdge_iff (nested : Nested outlines property) {count : Nat}
    {source target : NodeId} (has : property target) (inRange : target < count) :
    (ofOutlines count outlines).isBackEdge source target = true ↔
      ∃ loop ∈ holders outlines source, headerOf outlines loop = target := by
  rw [isBackEdge]
  rcases nested.innermostLoop?_cases has inRange with ⟨none, found⟩ | ⟨loop, bound, found, same⟩
  · simp only [found, Bool.false_eq_true, false_iff]
    rintro ⟨loop, holds, rfl⟩
    have own := nested.own (mem_holders.mp holds).1
    rw [none] at own
    exact absurd own (Finset.notMem_empty loop)
  · simp only [found, List.any_eq_true, Bool.and_eq_true]
    constructor
    · rintro ⟨above, isAbove, isEntry, contains⟩
      obtain ⟨other, holds, rfl⟩ := (nested.mem_ancestors bound).mp isAbove
      refine ⟨other, mem_holders.mpr ⟨(mem_holders.mp holds).1, ?_⟩, ?_⟩
      · simpa [Loop.contains, placed] using contains
      · simpa [Loop.isEntry, Loop.entries, placed, eq_comm] using isEntry
    · rintro ⟨other, holds, isHeader⟩
      obtain ⟨otherBound, contains⟩ := mem_holders.mp holds
      refine ⟨placed outlines other, (nested.mem_ancestors bound).mpr ⟨other, ?_, rfl⟩, ?_, ?_⟩
      · rw [same, ← isHeader]
        exact nested.own otherBound
      · simpa [Loop.isEntry, Loop.entries, placed, eq_comm] using isHeader
      · simpa [Loop.contains, placed] using contains

end LoopForest

/-! ## The loops of a graph -/

namespace Digraph

open LoopForest

variable {α β : Type} {graph : Digraph α β} {entry : NodeId}

theorem getD_mem_loopOutlines {tree : DominatorTree} {loop : Nat}
    (bound : loop < (graph.loopOutlines tree).size) :
    (graph.loopOutlines tree).getD loop default ∈ (graph.loopOutlines tree).toList := by
  simp [Array.getD_eq_getD_getElem?, bound]

theorem headerOf_loopOutlines_lt (wellFormed : graph.WellFormed) {tree : DominatorTree}
    {earlier later : Nat} (before : earlier < later)
    (bound : later < (graph.loopOutlines tree).size) :
    headerOf (graph.loopOutlines tree) earlier < headerOf (graph.loopOutlines tree) later := by
  have ascending := List.pairwise_iff_getElem.mp (ascending_loopOutlines wellFormed tree)
  have earlierBound := Nat.lt_trans before bound
  simp only [headerOf, Array.getD_eq_getD_getElem?, Array.getElem?_eq_getElem bound,
    Array.getElem?_eq_getElem earlierBound, Option.getD_some]
  exact ascending earlier later earlierBound bound before

structure Outlined (graph : Digraph α β) (entry : NodeId) (outlines : Array Outline) : Prop where
  closed : ∀ {loop}, loop < outlines.size →
    ∃ latch, graph.Closes entry latch (headerOf outlines loop)
  complete : ∀ {latch header}, graph.Closes entry latch header →
    ∃ loop < outlines.size, headerOf outlines loop = header
  headers : ∀ {loop other}, loop < outlines.size → other < outlines.size →
    headerOf outlines loop = headerOf outlines other → loop = other
  holds : ∀ {loop block}, loop ∈ holders outlines block ↔
    loop < outlines.size ∧ graph.InLoop entry (headerOf outlines loop) block
  bodies : ∀ {loop}, loop < outlines.size → (outlines.getD loop default).body.Nodup

section Forest

variable (wellFormed : graph.WellFormed) (inRange : entry < graph.nodeCount)
include wellFormed inRange

theorem outlined_loopOutlines :
    graph.Outlined entry (graph.loopOutlines (graph.dominatorTree entry)) := by
  have scanned := scanned_loopOutlines wellFormed (graph.dominatorTree entry)
  refine ⟨?_, ?_, ?_, ?_, ?_⟩
  · intro loop bound
    exact exists_closes_outline wellFormed inRange (getD_mem_loopOutlines bound)
  · intro latch header closes
    have isBack := (mem_backEdges_dominatorTree wellFormed inRange).mpr closes
    obtain ⟨outline, listed, rfl⟩ := List.mem_map.mp ((scanned.found header).mpr ⟨latch, isBack⟩)
    obtain ⟨loop, bound, rfl⟩ := Array.getElem_of_mem (Array.mem_toList_iff.mp listed)
    exact ⟨loop, bound, by simp [headerOf, Array.getD_eq_getD_getElem?, bound]⟩
  · intro loop other bound otherBound sameHeader
    rcases Nat.lt_trichotomy loop other with before | equal | behind
    · exact absurd sameHeader
        (Nat.ne_of_lt (headerOf_loopOutlines_lt wellFormed before otherBound))
    · exact equal
    · exact absurd sameHeader (Nat.ne_of_gt (headerOf_loopOutlines_lt wellFormed behind bound))
  · intro loop block
    rw [mem_holders]
    refine and_congr_right fun bound => ?_
    exact mem_body_outline wellFormed inRange (getD_mem_loopOutlines bound)
  · intro loop bound
    exact (ascending_body (getD_mem_loopOutlines bound)).imp Nat.ne_of_lt

/-- A loop around another one is larger: it also holds its own header. -/
theorem Outlined.bodySize_lt {outlines : Array Outline} (outlined : graph.Outlined entry outlines)
    {inner outer : Nat} (bound : inner < outlines.size)
    (around : outer ∈ holders outlines (headerOf outlines inner)) (different : outer ≠ inner) :
    bodySize outlines inner < bodySize outlines outer := by
  obtain ⟨outerBound, inOuter⟩ := outlined.holds.mp around
  have headers : headerOf outlines inner ≠ headerOf outlines outer := fun same =>
    different (outlined.headers bound outerBound same).symm
  have outside : headerOf outlines outer ∉ (outlines.getD inner default).body := by
    intro member
    have inInner := (outlined.holds.mp (mem_holders.mpr ⟨bound, member⟩)).2
    exact headers (inOuter.header_eq wellFormed inRange inInner)
  have subset : headerOf outlines outer :: (outlines.getD inner default).body ⊆
      (outlines.getD outer default).body := by
    intro block member
    have holds : outer ∈ holders outlines block := by
      rw [outlined.holds]
      refine ⟨outerBound, ?_⟩
      rcases List.mem_cons.mp member with rfl | inside
      · exact inOuter.inLoop_header
      · exact inOuter.of_inner wellFormed inRange headers
          (outlined.holds.mp (mem_holders.mpr ⟨bound, inside⟩)).2
    exact (mem_holders.mp holds).2
  have distinct := List.nodup_cons.mpr ⟨outside, outlined.bodies bound⟩
  exact (distinct.subperm subset).length_le

theorem Outlined.nested {outlines : Array Outline} (outlined : graph.Outlined entry outlines) :
    Nested outlines (graph.Reachable entry) := by
  refine ⟨?_, ?_, ?_, outlined.bodySize_lt wellFormed inRange, ?_⟩
  · intro loop bound
    obtain ⟨latch, closes⟩ := outlined.closed bound
    exact closes.header_reachable
  · intro loop bound
    obtain ⟨latch, closes⟩ := outlined.closed bound
    exact outlined.holds.mpr ⟨bound, closes.inLoop_header⟩
  · intro loop block holds other around
    obtain ⟨bound, inside⟩ := outlined.holds.mp holds
    obtain ⟨otherBound, headerInside⟩ := outlined.holds.mp around
    by_cases same : headerOf outlines loop = headerOf outlines other
    · rw [← outlined.headers bound otherBound same]
      exact holds
    · exact outlined.holds.mpr
        ⟨otherBound, headerInside.of_inner wellFormed inRange same inside⟩
  · intro block first second reachable isFirst isSecond different
    obtain ⟨firstBound, inFirst⟩ := outlined.holds.mp isFirst
    obtain ⟨secondBound, inSecond⟩ := outlined.holds.mp isSecond
    have headers := mt (outlined.headers firstBound secondBound) different
    rcases inFirst.comparable wellFormed inRange inSecond headers reachable with outer | inner
    · exact Or.inr (outlined.holds.mpr ⟨secondBound, outer⟩)
    · exact Or.inl (outlined.holds.mpr ⟨firstBound, inner⟩)

theorem eq_of_mem_innermostLoops {first second : Loop}
    (isFirst : first ∈ (graph.loopForest (graph.dominatorTree entry)).innermostLoops)
    (isSecond : second ∈ (graph.loopForest (graph.dominatorTree entry)).innermostLoops)
    {block : NodeId} (reachable : graph.Reachable entry block) (inFirst : block ∈ first.body)
    (inSecond : block ∈ second.body) : first = second := by
  have nested := (outlined_loopOutlines wellFormed inRange).nested wellFormed inRange
  obtain ⟨firstId, firstBound, rfl, firstInnermost⟩ := mem_innermostLoops_ofOutlines.mp isFirst
  obtain ⟨secondId, secondBound, rfl, secondInnermost⟩ := mem_innermostLoops_ofOutlines.mp isSecond
  rw [nested.eq_of_innermost reachable (mem_holders.mpr ⟨firstBound, inFirst⟩)
    (mem_holders.mpr ⟨secondBound, inSecond⟩) firstInnermost secondInnermost]

theorem isBackEdge_iff_inLoop {source target : NodeId} (reachable : graph.Reachable entry target) :
    (graph.loopForest (graph.dominatorTree entry)).isBackEdge source target = true ↔
      graph.InLoop entry target source := by
  have outlined := outlined_loopOutlines wellFormed inRange
  rw [loopForest, (outlined.nested wellFormed inRange).isBackEdge_iff reachable
    (reachable.lt wellFormed inRange)]
  constructor
  · rintro ⟨loop, holds, rfl⟩
    exact (outlined.holds.mp holds).2
  · intro inside
    obtain ⟨latch, closes, _⟩ := id inside
    obtain ⟨loop, bound, isHeader⟩ := outlined.complete closes
    refine ⟨loop, outlined.holds.mpr ⟨bound, ?_⟩, isHeader⟩
    rw [isHeader]
    exact inside

/-- Edges from reachable nodes are back edges just when the target dominates the source. -/
theorem isBackEdge_iff_dominates {source target : NodeId}
    (reachable : graph.Reachable entry source) (edge : target ∈ graph.successors source) :
    (graph.loopForest (graph.dominatorTree entry)).isBackEdge source target = true ↔
      graph.Dominates entry target source := by
  rw [isBackEdge_iff_inLoop wellFormed inRange (reachable.step edge)]
  constructor
  · exact InLoop.dominates
  · intro dominates
    exact Closes.inLoop_latch ⟨reachable, edge, dominates⟩

end Forest

end Digraph

end SymbolicFlow
