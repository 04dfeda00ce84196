import SymbolicFlow.Proofs.Digraph.Frontiers
import SymbolicFlow.Proofs.Procedure
import SymbolicFlow.Ssa.Placement

/-!
# Phis stand on the iterated frontier

`Iterated` is the iterated dominance frontier as the least set that holds the frontiers of the
writers and of its own members.  The stack finds exactly this set: every block waits at most
once, so there are enough steps to empty the stack, and a block that no longer waits has its
frontier among the blocks found.
-/

set_option autoImplicit false

namespace SymbolicFlow.Ssa

inductive Iterated (frontier : NodeId → List NodeId) (writers : List NodeId) : NodeId → Prop where
  | ofWriter {writer target : NodeId} :
      writer ∈ writers → target ∈ frontier writer → Iterated frontier writers target
  | again {block target : NodeId} : Iterated frontier writers block → target ∈ frontier block →
      Iterated frontier writers target

structure Iterating (frontier : NodeId → List NodeId) (writers : List NodeId)
    (waiting placed : List NodeId) : Prop where
  distinct : placed.Nodup
  sound : ∀ block ∈ placed, Iterated frontier writers block
  waits : ∀ block ∈ waiting, block ∈ writers ∨ block ∈ placed
  covered : ∀ block, block ∈ writers ∨ block ∈ placed →
    block ∈ waiting ∨ ∀ target ∈ frontier block, target ∈ placed

def unplaced (writers : List NodeId) (count : Nat) (placed : List NodeId) : Finset NodeId :=
  (Finset.range count).filter fun block => block ∉ placed ∧ block ∉ writers

section Step

variable {frontier : NodeId → List NodeId} {writers waiting placed : List NodeId} {block : NodeId}

theorem mem_fresh {target : NodeId} :
    (target ∈ (frontier block).filter fun target => !placed.contains target) ↔
      target ∈ frontier block ∧ target ∉ placed := by
  simp [List.mem_filter]

theorem Iterating.step (distinct : (frontier block).Nodup)
    (iterating : Iterating frontier writers (block :: waiting) placed) :
    Iterating frontier writers
      ((((frontier block).filter fun target => !placed.contains target).filter
        fun target => !writers.contains target).reverse ++ waiting)
      (placed ++ (frontier block).filter fun target => !placed.contains target) := by
  have now : ∀ target ∈ frontier block,
      target ∈ placed ++ (frontier block).filter fun target => !placed.contains target := by
    intro target onFrontier
    by_cases old : target ∈ placed
    · exact List.mem_append_left _ old
    · exact List.mem_append_right _ (mem_fresh.mpr ⟨onFrontier, old⟩)
  refine ⟨?_, ?_, ?_, ?_⟩
  · refine List.nodup_append.mpr ⟨iterating.distinct, distinct.filter _, ?_⟩
    rintro old member _ new rfl
    exact (mem_fresh.mp new).2 member
  · intro target member
    rcases List.mem_append.mp member with old | new
    · exact iterating.sound target old
    · have onFrontier := (mem_fresh.mp new).1
      rcases iterating.waits block List.mem_cons_self with writes | found
      · exact .ofWriter writes onFrontier
      · exact .again (iterating.sound block found) onFrontier
  · intro other member
    rcases List.mem_append.mp member with new | old
    · have fresh := (List.mem_filter.mp (List.mem_reverse.mp new)).1
      exact Or.inr (List.mem_append_right _ fresh)
    · rcases iterating.waits other (List.mem_cons_of_mem _ old) with writes | found
      · exact Or.inl writes
      · exact Or.inr (List.mem_append_left _ found)
  · intro other known
    by_cases before : other ∈ writers ∨ other ∈ placed
    · rcases iterating.covered other before with waits | done
      · rcases List.mem_cons.mp waits with rfl | waits
        · exact Or.inr now
        · exact Or.inl (List.mem_append_right _ waits)
      · exact Or.inr fun target onFrontier => List.mem_append_left _ (done target onFrontier)
    · -- Only a block that is neither a writer nor placed before goes onto the stack.
      obtain ⟨notWriter, notPlaced⟩ := not_or.mp before
      have new := (List.mem_append.mp (known.resolve_left notWriter)).resolve_left notPlaced
      left
      refine List.mem_append_left _ (List.mem_reverse.mpr (List.mem_filter.mpr ⟨new, ?_⟩))
      simpa using notWriter

/-- A step takes one block from the stack, and whatever comes to wait can do so only once. -/
theorem card_unplaced_step (writers placed : List NodeId) {count : Nat} (distinct : (frontier block).Nodup)
    (inside : ∀ target ∈ frontier block, target < count) :
    (((frontier block).filter fun target => !placed.contains target).filter
        fun target => !writers.contains target).length +
      (unplaced writers count
        (placed ++ (frontier block).filter fun target => !placed.contains target)).card ≤
      (unplaced writers count placed).card := by
  let coming := ((frontier block).filter fun target => !placed.contains target).filter
    fun target => !writers.contains target
  have comingDistinct : coming.Nodup := (distinct.filter _).filter _
  have members : ∀ target, target ∈ coming ↔
      target ∈ frontier block ∧ target ∉ placed ∧ target ∉ writers := by
    intro target
    simp only [coming, List.mem_filter, Bool.not_eq_true', List.contains_eq_mem,
      decide_eq_false_iff_not]
    tauto
  have apart : Disjoint coming.toFinset (unplaced writers count
      (placed ++ (frontier block).filter fun target => !placed.contains target)) := by
    rw [Finset.disjoint_left]
    intro target comes stays
    obtain ⟨onFrontier, new, _⟩ := (members target).mp (List.mem_toFinset.mp comes)
    obtain ⟨_, notPlaced, _⟩ := Finset.mem_filter.mp stays
    exact notPlaced (List.mem_append_right _ (mem_fresh.mpr ⟨onFrontier, new⟩))
  have contained : coming.toFinset ∪ unplaced writers count
      (placed ++ (frontier block).filter fun target => !placed.contains target) ⊆
      unplaced writers count placed := by
    intro target member
    rcases Finset.mem_union.mp member with comes | stays
    · obtain ⟨onFrontier, new, notWriter⟩ := (members target).mp (List.mem_toFinset.mp comes)
      exact Finset.mem_filter.mpr
        ⟨Finset.mem_range.mpr (inside target onFrontier), new, notWriter⟩
    · obtain ⟨bound, notPlaced, notWriter⟩ := Finset.mem_filter.mp stays
      exact Finset.mem_filter.mpr
        ⟨bound, fun old => notPlaced (List.mem_append_left _ old), notWriter⟩
  calc coming.length + _ = coming.toFinset.card + _ := by
        rw [List.toFinset_card_of_nodup comingDistinct]
    _ = (coming.toFinset ∪ _).card := (Finset.card_union_of_disjoint apart).symm
    _ ≤ _ := Finset.card_le_card contained

end Step

theorem iterating_iterateFrontier {frontier : NodeId → List NodeId} {writers : List NodeId}
    {count : Nat} (distinct : ∀ block, (frontier block).Nodup)
    (inside : ∀ block, ∀ target ∈ frontier block, target < count) (steps : Nat)
    {waiting placed : List NodeId} (iterating : Iterating frontier writers waiting placed)
    (enough : waiting.length + (unplaced writers count placed).card ≤ steps) :
    Iterating frontier writers [] (iterateFrontier frontier writers steps waiting placed) := by
  induction steps generalizing waiting placed with
  | zero =>
      have empty : waiting = [] := List.length_eq_zero_iff.mp (by omega)
      subst empty
      exact iterating
  | succ steps ih =>
      cases waiting with
      | nil => exact iterating
      | cons block waiting =>
          rw [iterateFrontier]
          refine ih (iterating.step (distinct block)) ?_
          have fewer := card_unplaced_step writers placed (distinct block) (inside block)
          simp only [List.length_append, List.length_reverse, List.length_cons] at enough ⊢
          omega

theorem iterating_of_writers {frontier : NodeId → List NodeId} {writers : List NodeId} {count : Nat}
    (distinct : ∀ block, (frontier block).Nodup)
    (inside : ∀ block, ∀ target ∈ frontier block, target < count) (writersDistinct : writers.Nodup)
    (writersInside : ∀ writer ∈ writers, writer < count) :
    Iterating frontier writers [] (iterateFrontier frontier writers count writers.reverse []) := by
  have start : Iterating frontier writers writers.reverse [] := by
    refine ⟨List.nodup_nil, ?_, ?_, ?_⟩
    · intro block member
      cases member
    · intro block member
      exact Or.inl (List.mem_reverse.mp member)
    · rintro block (writes | found)
      · exact Or.inl (List.mem_reverse.mpr writes)
      · cases found
  have enough : writers.reverse.length + (unplaced writers count []).card ≤ count := by
    have apart : Disjoint writers.toFinset (unplaced writers count []) := by
      rw [Finset.disjoint_left]
      intro writer writes stays
      exact (Finset.mem_filter.mp stays).2.2 (List.mem_toFinset.mp writes)
    have contained : writers.toFinset ∪ unplaced writers count [] ⊆ Finset.range count := by
      intro block member
      rcases Finset.mem_union.mp member with writes | stays
      · exact Finset.mem_range.mpr (writersInside block (List.mem_toFinset.mp writes))
      · exact (Finset.mem_filter.mp stays).1
    have total := Finset.card_le_card contained
    rw [Finset.card_union_of_disjoint apart, List.toFinset_card_of_nodup writersDistinct,
      Finset.card_range] at total
    rw [List.length_reverse]
    exact total
  exact iterating_iterateFrontier distinct inside count start enough

/-- When nothing waits any more, the blocks found are the iterated frontier. -/
theorem Iterating.mem_iff {frontier : NodeId → List NodeId} {writers placed : List NodeId}
    (iterating : Iterating frontier writers [] placed) {block : NodeId} :
    block ∈ placed ↔ Iterated frontier writers block := by
  constructor
  · exact iterating.sound block
  · intro iterated
    have closed : ∀ block, block ∈ writers ∨ block ∈ placed →
        ∀ target ∈ frontier block, target ∈ placed := by
      intro block known
      rcases iterating.covered block known with waits | done
      · cases waits
      · exact done
    induction iterated with
    | ofWriter writes onFrontier => exact closed _ (Or.inl writes) _ onFrontier
    | again _ onFrontier previous => exact closed _ (Or.inr previous) _ onFrontier

/-! ## The phis of a procedure -/

section Phis

variable {procedure : Procedure} {register : Register}

theorem mem_insertRegister {other : Register} {registers : List Register} :
    other ∈ insertRegister register registers ↔ other = register ∨ other ∈ registers := by
  induction registers with
  | nil => simp [insertRegister]
  | cons first rest ih =>
      rw [insertRegister]
      split
      · exact List.mem_cons
      · split
        · rename_i same
          subst same
          simp
        · simp only [List.mem_cons, ih]
          tauto

theorem mem_writtenRegisters :
    register ∈ writtenRegisters procedure ↔
      ∃ block ∈ procedure.blocks.toList,
        register ∈ blockWrites procedure.machine.programCounter block := by
  have folded : ∀ registers start : List Register,
      register ∈ registers.foldl (fun registers register => insertRegister register registers) start ↔
        register ∈ registers ∨ register ∈ start := by
    intro registers
    induction registers with
    | nil => simp
    | cons first rest ih =>
        intro start
        rw [List.foldl_cons, ih, mem_insertRegister, List.mem_cons]
        tauto
  rw [writtenRegisters, folded]
  simp [List.mem_flatMap]

theorem mem_writers (wellFormed : procedure.WellFormed) {id : NodeId} :
    id ∈ writers procedure register ↔ ∃ block, procedure.block? id = some block ∧
      register ∈ blockWrites procedure.machine.programCounter block := by
  simp only [writers, List.mem_map, List.mem_filter, List.contains_iff_mem]
  constructor
  · rintro ⟨block, ⟨member, writes⟩, rfl⟩
    obtain ⟨position, found⟩ := Array.getElem?_of_mem (Array.mem_def.mpr member)
    rw [wellFormed.blocksInPlace position block found]
    exact ⟨block, found, writes⟩
  · rintro ⟨block, found, writes⟩
    exact ⟨block, ⟨Array.mem_def.mp (Array.mem_of_getElem? found), writes⟩,
      wellFormed.blocksInPlace id block found⟩

theorem sublist_writers (wellFormed : procedure.WellFormed) (register : Register) :
    (writers procedure register).Sublist (List.range procedure.blockCount) := by
  have ids : procedure.blocks.toList.map (·.id) = List.range procedure.blockCount := by
    apply List.ext_getElem?
    intro position
    rw [List.getElem?_map, Array.getElem?_toList]
    by_cases inside : position < procedure.blockCount
    · have bound : position < procedure.blocks.size := inside
      have found := Array.getElem?_eq_getElem bound
      rw [List.getElem?_range inside, found]
      exact congrArg some (wellFormed.blocksInPlace position _ found)
    · have outside : procedure.blocks.size ≤ position := Nat.le_of_not_lt inside
      have past : (List.range procedure.blockCount).length ≤ position := by
        rw [List.length_range]
        exact outside
      rw [Array.getElem?_eq_none outside, List.getElem?_eq_none past]
      rfl
  rw [← ids]
  exact List.filter_sublist.map _

theorem iterating_phiBlocks (wellFormed : procedure.WellFormed) (register : Register) :
    Iterating (fun block => procedure.frontiers.getD block []) (writers procedure register) []
      (phiBlocks procedure procedure.frontiers register) := by
  have contained := sublist_writers wellFormed register
  refine iterating_of_writers ?_ ?_ (contained.nodup List.nodup_range) ?_
  · exact fun block => Digraph.nodup_frontiers _ block
  · exact fun block target member => (Digraph.mem_frontiers.mp member).2.1
  · exact fun writer member => List.mem_range.mp (contained.subset member)

theorem mem_phiBlocks (wellFormed : procedure.WellFormed) {id : NodeId} :
    id ∈ phiBlocks procedure procedure.frontiers register ↔
      Iterated (fun block => procedure.frontiers.getD block []) (writers procedure register) id :=
  (iterating_phiBlocks wellFormed register).mem_iff

theorem exists_owner_of_mem_phiBlocks (wellFormed : procedure.WellFormed) {id : NodeId}
    (placed : id ∈ phiBlocks procedure procedure.frontiers register) :
    ∃ owner, owner ∈ procedure.graph.frontierOwners procedure.dominators id := by
  cases (mem_phiBlocks wellFormed).mp placed with
  | ofWriter _ onFrontier => exact ⟨_, (Digraph.mem_frontiers.mp onFrontier).2.2⟩
  | again _ onFrontier => exact ⟨_, (Digraph.mem_frontiers.mp onFrontier).2.2⟩

/-- A block without a phi is on the frontier only of blocks that neither write the register nor
have a phi for it. -/
theorem quiet_of_not_mem_phiBlocks (wellFormed : procedure.WellFormed) {id owner : NodeId}
    (missing : id ∉ phiBlocks procedure procedure.frontiers register)
    (onFrontier : id ∈ procedure.frontiers.getD owner []) :
    owner ∉ writers procedure register ∧
      owner ∉ phiBlocks procedure procedure.frontiers register := by
  rw [mem_phiBlocks wellFormed] at missing ⊢
  constructor
  · intro writes
    exact missing (.ofWriter writes onFrontier)
  · intro iterated
    exact missing (.again iterated onFrontier)

theorem exists_writer_of_mem_phiBlocks (wellFormed : procedure.WellFormed) {id : NodeId}
    (placed : id ∈ phiBlocks procedure procedure.frontiers register) :
    ∃ writer block, procedure.block? writer = some block ∧
      register ∈ blockWrites procedure.machine.programCounter block := by
  have iterated := (mem_phiBlocks wellFormed).mp placed
  induction iterated with
  | ofWriter writes _ => exact ⟨_, (mem_writers wellFormed).mp writes⟩
  | again earlier _ previous => exact previous ((mem_phiBlocks wellFormed).mpr earlier)

theorem ne_programCounter_of_mem_phiBlocks (wellFormed : procedure.WellFormed) {id : NodeId}
    (placed : id ∈ phiBlocks procedure procedure.frontiers register) :
    register ≠ procedure.machine.programCounter := by
  obtain ⟨_, block, _, writes⟩ := exists_writer_of_mem_phiBlocks wellFormed placed
  obtain ⟨instruction, _, written⟩ := List.mem_flatMap.mp writes
  exact of_decide_eq_true (List.mem_filter.mp written).2

theorem mem_phiSites (wellFormed : procedure.WellFormed) {id : NodeId} :
    (register, id) ∈ phiSites procedure procedure.frontiers ↔
      id ∈ phiBlocks procedure procedure.frontiers register := by
  simp only [phiSites, List.mem_flatMap, List.mem_map, Prod.mk.injEq]
  constructor
  · rintro ⟨_, _, _, placed, rfl, rfl⟩
    exact placed
  · intro placed
    obtain ⟨writer, block, found, writes⟩ := exists_writer_of_mem_phiBlocks wellFormed placed
    refine ⟨register, mem_writtenRegisters.mpr ⟨block, ?_, writes⟩, id, placed, rfl, rfl⟩
    exact Array.mem_def.mp (Array.mem_of_getElem? found)

theorem lt_of_mem_phiSites (wellFormed : procedure.WellFormed) {site : Register × NodeId}
    (placed : site ∈ phiSites procedure procedure.frontiers) : site.2 < procedure.blockCount := by
  obtain ⟨owner, owns⟩ :=
    exists_owner_of_mem_phiBlocks wellFormed ((mem_phiSites wellFormed).mp placed)
  have merge := (Digraph.mem_frontierOwners wellFormed.graph wellFormed.entryExists).mp owns
  exact merge.1.lt wellFormed.graph wellFormed.entryExists

/-! Of two phis of one block, the one for the lower register is placed first. -/

theorem ascending_insertRegister {registers : List Register}
    (ascending : registers.Pairwise (·.number < ·.number)) (register : Register) :
    (insertRegister register registers).Pairwise (·.number < ·.number) := by
  induction ascending with
  | nil => simp [insertRegister]
  | @cons first rest above ascending ih =>
      rw [insertRegister]
      split
      · rename_i lower
        refine List.pairwise_cons.mpr ⟨?_, List.pairwise_cons.mpr ⟨above, ascending⟩⟩
        intro other member
        rcases List.mem_cons.mp member with rfl | behind
        · exact lower
        · exact UInt16.lt_trans lower (above other behind)
      · rename_i notLower
        split
        · exact List.pairwise_cons.mpr ⟨above, ascending⟩
        · rename_i other
          have different : register.number ≠ first.number := fun same => other (by
            cases register
            cases first
            exact congrArg Register.mk same)
          refine List.pairwise_cons.mpr ⟨?_, ih⟩
          intro later member
          rcases mem_insertRegister.mp member with rfl | behind
          · exact UInt16.lt_of_le_of_ne (UInt16.not_lt.mp notLower) different.symm
          · exact above later behind

theorem ascending_writtenRegisters (procedure : Procedure) :
    (writtenRegisters procedure).Pairwise (·.number < ·.number) := by
  rw [writtenRegisters]
  apply List.foldlRecOn
  · exact List.Pairwise.nil
  · intro registers ascending register _
    exact ascending_insertRegister ascending register

theorem ascending_phiSites (wellFormed : procedure.WellFormed) :
    (phiSites procedure procedure.frontiers).Pairwise fun earlier later =>
      earlier.2 = later.2 → earlier.1.number < later.1.number := by
  rw [phiSites, List.pairwise_flatMap]
  constructor
  · intro register _
    rw [List.pairwise_map]
    refine (iterating_phiBlocks wellFormed register).distinct.imp ?_
    intro block other different same
    exact absurd same different
  · refine (ascending_writtenRegisters procedure).imp ?_
    intro register later lower site here other there _
    obtain ⟨_, _, rfl⟩ := List.mem_map.mp here
    obtain ⟨_, _, rfl⟩ := List.mem_map.mp there
    exact lower

end Phis

end SymbolicFlow.Ssa
