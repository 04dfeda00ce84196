import Mathlib.Tactic.Common
import SymbolicFlow.Digraph.Dominators

/-!
# Ancestors in a table of candidates

While dominators are computed, the candidates form a tree below the entry: following them
from any node that has one, the rank falls until the entry is reached.  `Above` is the ancestor
relation of this tree.  Two statements carry the rest: the nearest common ancestor has exactly
the ancestors that both nodes have, and `above_set_iff` says how the relation changes when one
candidate is replaced.
-/

set_option autoImplicit false

namespace SymbolicFlow.ParentTable

/-- The node is met on the way from `node` to the entry. -/
inductive Above (table : ParentTable) (ancestor : NodeId) : NodeId → Prop where
  | self : Above table ancestor ancestor
  | up {node parent : NodeId} : table.parent? node = some parent →
      Above table ancestor parent → Above table ancestor node

def Recorded (table : ParentTable) (node : NodeId) : Prop := (table.parent? node).isSome

theorem Recorded.exists_parent {table : ParentTable} {node : NodeId}
    (recorded : table.Recorded node) : ∃ parent, table.parent? node = some parent :=
  Option.isSome_iff_exists.mp recorded

theorem Recorded.of_parent {table : ParentTable} {node parent : NodeId}
    (found : table.parent? node = some parent) : table.Recorded node :=
  Option.isSome_iff_exists.mpr ⟨parent, found⟩

structure Rooted (table : ParentTable) (rank : NodeId → Nat) (entry : NodeId) : Prop where
  root : table.parent? entry = some entry
  descends : ∀ {node parent : NodeId}, table.parent? node = some parent → node ≠ entry →
    rank parent < rank node
  closed : ∀ {node parent : NodeId}, table.parent? node = some parent → table.Recorded parent

section Above

variable {table : ParentTable} {a b c node parent : NodeId}

theorem Above.trans (first : table.Above a b) (second : table.Above b c) : table.Above a c := by
  induction second with
  | self => exact first
  | up found _ previous => exact .up found previous

theorem Above.of_ne (above : table.Above a node) (different : a ≠ node)
    (found : table.parent? node = some parent) : table.Above a parent := by
  cases above with
  | self => exact absurd rfl different
  | up other rest =>
      cases found.symm.trans other
      exact rest

theorem Above.comparable (first : table.Above a node) (second : table.Above b node) :
    table.Above a b ∨ table.Above b a := by
  induction first with
  | self => exact Or.inr second
  | @up node parent found rest previous =>
      by_cases same : b = node
      · subst same
        exact Or.inl (.up found rest)
      · exact previous (second.of_ne same found)

end Above

namespace Rooted

variable {table : ParentTable} {rank : NodeId → Nat} {entry a b node parent : NodeId}
  (rooted : table.Rooted rank entry)
include rooted

theorem eq_entry_of_above (above : table.Above a entry) : a = entry := by
  generalize same : entry = node at above
  induction above with
  | self => rfl
  | up found _ previous =>
      subst same
      cases rooted.root.symm.trans found
      exact previous rfl

theorem eq_or_rank_lt (above : table.Above a node) : a = node ∨ rank a < rank node := by
  induction above with
  | self => exact Or.inl rfl
  | @up node parent found rest previous =>
      by_cases atEntry : node = entry
      · subst atEntry
        exact Or.inl (rooted.eq_entry_of_above (.up found rest))
      · have falls := rooted.descends found atEntry
        rcases previous with same | lower
        · subst same
          exact Or.inr falls
        · exact Or.inr (Nat.lt_trans lower falls)

theorem rank_le (above : table.Above a node) : rank a ≤ rank node := by
  rcases rooted.eq_or_rank_lt above with same | lower
  · exact Nat.le_of_eq (congrArg rank same)
  · exact Nat.le_of_lt lower

theorem recorded_of_above (above : table.Above a node) (recorded : table.Recorded node) :
    table.Recorded a := by
  induction above with
  | self => exact recorded
  | up found _ previous => exact previous (rooted.closed found)

theorem entry_above (recorded : table.Recorded node) : table.Above entry node := by
  induction ranked : rank node using Nat.strongRecOn generalizing node with
  | ind _ ih =>
      subst ranked
      by_cases atEntry : node = entry
      · subst atEntry
        exact .self
      · obtain ⟨parent, found⟩ := recorded.exists_parent
        exact .up found (ih _ (rooted.descends found atEntry) (rooted.closed found) rfl)

/-- Of two ancestors of a node, the one of lower rank is the ancestor of the other. -/
theorem above_of_rank_le (first : table.Above a node) (second : table.Above b node)
    (lower : rank a ≤ rank b) : table.Above a b := by
  rcases first.comparable second with above | below
  · exact above
  · rcases rooted.eq_or_rank_lt below with same | higher
    · rw [same]
      exact .self
    · omega

/-! ## Nearest common ancestors -/

/-- A node that is no ancestor of another one can be replaced by its parent: the two share the
same ancestors as before. -/
theorem exists_climb {node other : NodeId} (recorded : table.Recorded node)
    (otherRecorded : table.Recorded other) (notAbove : ¬ table.Above node other) :
    ∃ parent, table.parent? node = some parent ∧ parent ≠ node ∧ rank parent < rank node ∧
      table.Recorded parent ∧
      ∀ a, table.Above a other → (table.Above a parent ↔ table.Above a node) := by
  have notEntry : node ≠ entry := by
    intro atEntry
    exact notAbove (atEntry ▸ rooted.entry_above otherRecorded)
  obtain ⟨parent, found⟩ := recorded.exists_parent
  have falls := rooted.descends found notEntry
  have moved : parent ≠ node := by
    intro stays
    rw [stays] at falls
    omega
  refine ⟨parent, found, moved, falls, rooted.closed found, fun a aboveOther => ?_⟩
  constructor
  · exact .up found
  · intro above
    have different : a ≠ node := fun same => notAbove (same ▸ aboveOther)
    exact above.of_ne different found

theorem nearestCommon_spec (steps : Nat) {left right : NodeId} (leftRecorded : table.Recorded left)
    (rightRecorded : table.Recorded right) (enough : rank left + rank right ≤ steps) :
    table.Recorded (table.nearestCommon rank steps left right) ∧
      ∀ a, table.Above a (table.nearestCommon rank steps left right) ↔
        table.Above a left ∧ table.Above a right := by
  induction steps generalizing left right with
  | zero =>
      have leftEntry : entry = left := by
        rcases rooted.eq_or_rank_lt (rooted.entry_above leftRecorded) with same | lower
        · exact same
        · omega
      have rightEntry : entry = right := by
        rcases rooted.eq_or_rank_lt (rooted.entry_above rightRecorded) with same | lower
        · exact same
        · omega
      subst leftEntry rightEntry
      exact ⟨leftRecorded, fun a => and_self_iff.symm⟩
  | succ steps ih =>
      rw [nearestCommon]
      by_cases same : left = right
      · subst same
        rw [if_pos rfl]
        exact ⟨leftRecorded, fun a => and_self_iff.symm⟩
      rw [if_neg same]
      by_cases later : rank right < rank left
      · have notAbove : ¬ table.Above left right := by
          intro above
          have lower := rooted.rank_le above
          omega
        obtain ⟨parent, found, moved, falls, parentRecorded, shared⟩ :=
          rooted.exists_climb leftRecorded rightRecorded notAbove
        obtain ⟨recorded, exact⟩ := ih parentRecorded rightRecorded (by omega)
        simp only [if_pos later, found, if_neg moved]
        exact ⟨recorded, fun a => (exact a).trans (and_congr_left (shared a))⟩
      · have notAbove : ¬ table.Above right left := by
          intro above
          rcases rooted.eq_or_rank_lt above with equal | lower
          · exact same equal.symm
          · omega
        obtain ⟨parent, found, moved, falls, parentRecorded, shared⟩ :=
          rooted.exists_climb rightRecorded leftRecorded notAbove
        obtain ⟨recorded, exact⟩ := ih leftRecorded parentRecorded (by omega)
        simp only [if_neg later, found, if_neg moved]
        exact ⟨recorded, fun a => (exact a).trans (and_congr_right (shared a))⟩

/-- The ancestor that the nodes share has exactly the ancestors that all of them have. -/
theorem meetAll_spec (first : NodeId) (rest : List NodeId)
    (recorded : ∀ node ∈ first :: rest, table.Recorded node) :
    ∃ common, table.meetAll rank (first :: rest) = some common ∧ table.Recorded common ∧
      ∀ a, table.Above a common ↔ ∀ node ∈ first :: rest, table.Above a node := by
  rw [meetAll]
  have firstRecorded := recorded first List.mem_cons_self
  have restRecorded : ∀ node ∈ rest, table.Recorded node :=
    fun node member => recorded node (List.mem_cons_of_mem _ member)
  clear recorded
  induction rest generalizing first with
  | nil => exact ⟨first, rfl, firstRecorded, fun a => by simp⟩
  | cons next rest ih =>
      have nextRecorded := restRecorded next List.mem_cons_self
      obtain ⟨commonRecorded, commonExact⟩ := rooted.nearestCommon_spec
        (rank next + rank first) nextRecorded firstRecorded (Nat.le_refl _)
      obtain ⟨common, found, recorded, exact⟩ := ih _ commonRecorded
        fun node member => restRecorded node (List.mem_cons_of_mem _ member)
      refine ⟨common, found, recorded, fun a => (exact a).trans ?_⟩
      simp only [List.forall_mem_cons, commonExact]
      tauto

end Rooted

/-! ## Replacing a candidate -/

theorem parent?_setIfInBounds {table : ParentTable} {changed : NodeId}
    (inside : changed < table.size) (parent other : NodeId) :
    parent? (table.setIfInBounds changed (some parent)) other =
      if other = changed then some parent else table.parent? other := by
  by_cases same : other = changed
  · subst same
    simp [parent?, inside]
  · simp [parent?, same, Array.getElem?_setIfInBounds_ne (Ne.symm same)]

namespace Rooted

variable {table : ParentTable} {rank : NodeId → Nat} {entry changed parent a node : NodeId}
  (rooted : table.Rooted rank entry) (inside : changed < table.size)
  (falls : rank parent < rank changed)
include rooted inside falls

omit falls in
theorem above_set_of_above {top : NodeId} (above : table.Above top node)
    (below : table.Above changed top) :
    Above (table.setIfInBounds changed (some parent)) top node := by
  have look := parent?_setIfInBounds inside parent
  induction above with
  | self => exact .self
  | @up other next found rest previous =>
      by_cases same : other = changed
      · subst same
        have atTop : top = other := by
          rcases rooted.eq_or_rank_lt (.up found rest) with same | lower
          · exact same
          · have highest := rooted.rank_le below
            omega
        subst atTop
        exact .self
      · exact .up (by rw [look, if_neg same]; exact found) previous

omit rooted falls in
theorem above_set_of_not_above (above : table.Above a node)
    (aside : ¬ table.Above changed node) :
    Above (table.setIfInBounds changed (some parent)) a node := by
  have look := parent?_setIfInBounds inside parent
  induction above with
  | self => exact .self
  | @up other next found _ previous =>
      have different : other ≠ changed := fun same => aside (same ▸ .self)
      refine .up (by rw [look, if_neg different]; exact found) (previous ?_)
      exact fun below => aside (.up found below)

omit rooted falls in
theorem above_of_above_set (aside : ¬ table.Above changed node)
    (above : Above (table.setIfInBounds changed (some parent)) a node) : table.Above a node := by
  have look := parent?_setIfInBounds inside parent
  induction above with
  | self => exact .self
  | @up other next found _ previous =>
      have different : other ≠ changed := fun same => aside (same ▸ .self)
      rw [look, if_neg different] at found
      exact .up found (previous fun below => aside (.up found below))

theorem above_set_iff :
    Above (table.setIfInBounds changed (some parent)) a node ↔
      (table.Above a node ∧ (table.Above changed node → rank changed ≤ rank a)) ∨
        (table.Above changed node ∧ table.Above a parent) := by
  have look := parent?_setIfInBounds inside parent
  have aside : ¬ table.Above changed parent := by
    intro above
    have lower := rooted.rank_le above
    omega
  constructor
  · intro above
    induction above with
    | self => exact Or.inl ⟨.self, fun below => rooted.rank_le below⟩
    | @up node next found rest previous =>
        by_cases same : node = changed
        · subst same
          rw [look, if_pos rfl] at found
          cases found
          exact Or.inr ⟨.self, above_of_above_set inside aside rest⟩
        · rw [look, if_neg same] at found
          have onward : table.Above changed node → table.Above changed next :=
            fun below => below.of_ne (Ne.symm same) found
          rcases previous with ⟨above, later⟩ | ⟨below, above⟩
          · exact Or.inl ⟨.up found above, fun below => later (onward below)⟩
          · exact Or.inr ⟨.up found below, above⟩
  · rintro (⟨above, later⟩ | ⟨below, above⟩)
    · by_cases below : table.Above changed node
      · exact above_set_of_above rooted inside above
          (rooted.above_of_rank_le below above (later below))
      · exact above_set_of_not_above inside above below
    · have atChanged : Above (table.setIfInBounds changed (some parent)) a changed :=
        .up (by rw [look, if_pos rfl]) (above_set_of_not_above inside above aside)
      exact atChanged.trans (above_set_of_above rooted inside below .self)

theorem set (notEntry : changed ≠ entry) (recorded : table.Recorded parent) :
    Rooted (table.setIfInBounds changed (some parent)) rank entry := by
  have look := parent?_setIfInBounds inside parent
  have kept : ∀ {other}, table.Recorded other →
      Recorded (table.setIfInBounds changed (some parent)) other := by
    intro other recorded
    rw [Recorded, look]
    split
    · rfl
    · exact recorded
  refine ⟨?_, ?_, ?_⟩
  · rw [look, if_neg (Ne.symm notEntry)]
    exact rooted.root
  · intro node next found other
    rw [look] at found
    split at found
    · rename_i same
      cases found
      rw [same]
      exact falls
    · exact rooted.descends found other
  · intro node next found
    rw [look] at found
    split at found
    · cases found
      exact kept recorded
    · exact kept (rooted.closed found)

end Rooted

end SymbolicFlow.ParentTable
