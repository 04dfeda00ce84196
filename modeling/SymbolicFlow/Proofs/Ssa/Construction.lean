import SymbolicFlow.Proofs.Ssa.Renaming

/-!
# The whole form

The blocks are renamed one after another, dominators first.  A block's run depends only on what
its immediate dominator left behind, and that never changes afterwards; so at the end every run
can be read off the final environments.  `Construction` collects what a form is made of, and
`exists_construction` says that the form of every well-formed procedure is made so.
-/

set_option autoImplicit false

namespace SymbolicFlow.Ssa

open Naming

/-! ## The order -/

section Order

variable {procedure : Procedure}

theorem mem_renamingOrder (wellFormed : procedure.WellFormed) {block : NodeId} :
    block ∈ renamingOrder procedure ↔ block < procedure.blockCount := by
  simp only [renamingOrder, List.mem_append, List.mem_filter, Digraph.nodeIds, List.mem_range,
    Bool.not_eq_true', List.contains_eq_mem, decide_eq_false_iff_not]
  constructor
  · rintro (reachable | ⟨inRange, _⟩)
    · have reached := (Digraph.mem_reversePostorder wellFormed.graph wellFormed.entryExists).mp
        reachable
      exact reached.lt wellFormed.graph wellFormed.entryExists
    · exact inRange
  · intro inRange
    by_cases reachable : block ∈ procedure.graph.reversePostorder procedure.entry
    · exact Or.inl reachable
    · exact Or.inr ⟨inRange, reachable⟩

theorem nodup_renamingOrder (wellFormed : procedure.WellFormed) :
    (renamingOrder procedure).Nodup := by
  refine List.nodup_append.mpr
    ⟨Digraph.nodup_reversePostorder wellFormed.graph wellFormed.entryExists,
      List.nodup_range.filter _, ?_⟩
  intro first reachable second unreachable same
  simp only [List.mem_filter, Bool.not_eq_true', List.contains_eq_mem,
    decide_eq_false_iff_not] at unreachable
  exact unreachable.2 (same ▸ reachable)

theorem parent_mem_of_renamingOrder (wellFormed : procedure.WellFormed)
    {done rest : List NodeId} {block parent : NodeId}
    (order : renamingOrder procedure = done ++ block :: rest)
    (above : procedure.dominators.parent? block = some parent) : parent ∈ done := by
  have wellFormedGraph := wellFormed.graph
  have inRange := wellFormed.entryExists
  have rooted := Digraph.rooted_dominatorTree wellFormedGraph inRange
  obtain ⟨notEntry, found⟩ := DominatorTree.parent?_eq_some_iff.mp above
  have position : ∀ {id}, procedure.dominators.parents.Recorded id →
      procedure.graph.rankFrom procedure.entry id = (renamingOrder procedure).idxOf id := by
    intro id recorded
    have reachable := (Digraph.recorded_dominatorTree_iff wellFormedGraph inRange).mp recorded
    rw [Digraph.rankFrom_eq_idxOf wellFormedGraph inRange reachable, renamingOrder,
      List.idxOf_append_of_mem
        ((Digraph.mem_reversePostorder wellFormedGraph inRange).mpr reachable)]
  have lower := rooted.descends found notEntry
  rw [position (rooted.closed found), position (.of_parent found), order] at lower
  have distinct := nodup_renamingOrder wellFormed
  rw [order] at distinct
  have notBefore : block ∉ done := fun member =>
    (List.nodup_append.mp distinct).2.2 block member block List.mem_cons_self rfl
  rw [List.idxOf_append_of_notMem notBefore, List.idxOf_cons_self] at lower
  by_contra missing
  rw [List.idxOf_append_of_notMem missing] at lower
  omega

end Order

/-! ## The blocks -/

/-- The block's instructions, run in the environment in which the block starts, become `body`
and leave the environment behind that is recorded for the block. -/
def BlockRun (procedure : Procedure) (phis : PhiTable) (exits : Array Environment)
    (naming : Naming) (block : NodeId) (body : List Statement) : Prop :=
  ∃ code first last, procedure.block? block = some code ∧
    first.Valid procedure.machine.programCounter ∧
    first.Bounds (startEnvironment procedure.dominators phis exits block) ∧
    Renames procedure.machine.programCounter block (phis.getD block []).length
      (startEnvironment procedure.dominators phis exits block) first code.instructions.toList body
      (exits.getD block []) last ∧
    last.Extends naming

theorem BlockRun.mono {procedure : Procedure} {phis : PhiTable} {exits : Array Environment}
    {earlier later : Naming} {block : NodeId} {body : List Statement}
    (run : BlockRun procedure phis exits earlier block body) (grows : earlier.Extends later) :
    BlockRun procedure phis exits later block body := by
  obtain ⟨code, first, last, found, valid, bounds, renames, extended⟩ := run
  exact ⟨code, first, last, found, valid, bounds, renames, extended.trans grows⟩

structure RenamedBlocks (procedure : Procedure) (phis : PhiTable) (placed : Naming)
    (done : List NodeId) (renamed : Renaming) : Prop where
  bodiesSize : renamed.bodies.size = procedure.blockCount
  exitsSize : renamed.exits.size = procedure.blockCount
  grows : placed.Extends renamed.naming
  valid : renamed.naming.Valid procedure.machine.programCounter
  exitBounds : ∀ block, renamed.naming.Bounds (renamed.exits.getD block [])
  parentDone : ∀ block ∈ done, ∀ parent,
    procedure.dominators.parent? block = some parent → parent ∈ done
  run : ∀ block ∈ done, BlockRun procedure phis renamed.exits renamed.naming block
    (renamed.bodies.getD block #[]).toList
  defined : ∀ {var : VarId} {place : Location}, renamed.naming.Defined var place ↔
    placed.Defined var place ∨ place.block ∈ done ∧ ∃ position statement,
      (renamed.bodies.getD place.block #[]).toList[position]? = some statement ∧
        var ∈ statement.outputs ∧ place.index = (phis.getD place.block []).length + position
  counterReads : renamed.naming.counterReads.toList = placed.counterReads.toList ++
    done.flatMap fun block => (renamed.bodies.getD block #[]).toList.flatMap
      (·.counterReads procedure.machine.programCounter)

theorem getD_setIfInBounds {α : Type} {table : Array α} {index : Nat} (inRange : index < table.size)
    (value fallback : α) (other : Nat) :
    (table.setIfInBounds index value).getD other fallback =
      if other = index then value else table.getD other fallback := by
  simp only [Array.getD_eq_getD_getElem?, Array.getElem?_setIfInBounds]
  by_cases same : index = other
  · subst same
    simp [inRange]
  · simp [same, Ne.symm same]

theorem startEnvironment_congr {tree : DominatorTree} {phis : PhiTable}
    {exits others : Array Environment} {block : NodeId}
    (agree : ∀ parent, tree.parent? block = some parent →
      exits.getD parent [] = others.getD parent []) :
    startEnvironment tree phis exits block = startEnvironment tree phis others block := by
  rw [startEnvironment, startEnvironment]
  split
  · rfl
  · rename_i parent found
    rw [agree parent found]

theorem bounds_foldl_set {naming : Naming} {phis : List (Register × VarId)}
    {environment : Environment} (below : ∀ phi ∈ phis, phi.2 < naming.vars.size)
    (bounds : naming.Bounds environment) :
    naming.Bounds (phis.foldl
      (fun environment (register, var) => environment.set register var) environment) := by
  induction phis generalizing environment with
  | nil => exact bounds
  | cons phi phis ih =>
      refine ih (fun other member => below other (List.mem_cons_of_mem _ member)) ?_
      intro register var found
      rw [RegisterMap.get?_set] at found
      split at found
      · cases found
        exact below phi List.mem_cons_self
      · exact bounds register var found

theorem bounds_startEnvironment {tree : DominatorTree} {phis : PhiTable}
    {exits : Array Environment} {naming : Naming}
    (exitBounds : ∀ block, naming.Bounds (exits.getD block [])) {block : NodeId}
    (phiBounds : ∀ phi ∈ phis.getD block [], phi.2 < naming.vars.size) :
    naming.Bounds (startEnvironment tree phis exits block) := by
  refine bounds_foldl_set phiBounds ?_
  split
  · intro register var found
    cases found
  · exact exitBounds _

section Blocks

variable {procedure : Procedure} {phis : PhiTable} {placed : Naming}

theorem renamedBlocks_start (valid : placed.Valid procedure.machine.programCounter) :
    RenamedBlocks procedure phis placed []
      { bodies := Array.replicate procedure.blockCount #[]
        exits := Array.replicate procedure.blockCount []
        naming := placed } where
  bodiesSize := Array.size_replicate
  exitsSize := Array.size_replicate
  grows := Extends.refl placed
  valid := valid
  exitBounds := by
    intro block register var found
    simp only [Array.getD_eq_getD_getElem?, Array.getElem?_replicate] at found
    split at found <;> simp at found
  parentDone := by simp
  run := by simp
  defined := by simp
  counterReads := by simp

theorem exists_renameBlock (renamed : Renaming) {block : NodeId}
    (inRange : block < procedure.blockCount) :
    ∃ code statements environment last, procedure.block? block = some code ∧
      renameBlock procedure procedure.dominators phis renamed block =
        { bodies := renamed.bodies.setIfInBounds block statements
          exits := renamed.exits.setIfInBounds block environment
          naming := last } ∧
      Renames procedure.machine.programCounter block (phis.getD block []).length
        (startEnvironment procedure.dominators phis renamed.exits block) renamed.naming
        code.instructions.toList statements.toList environment last := by
  obtain ⟨code, found⟩ : ∃ code, procedure.block? block = some code :=
    ⟨_, Array.getElem?_eq_getElem inRange⟩
  have renames := renames_renameBody procedure.machine.programCounter block
    (phis.getD block []).length (startEnvironment procedure.dominators phis renamed.exits block)
    renamed.naming code.instructions.toList
  generalize result : renameBody procedure.machine.programCounter block
    (phis.getD block []).length (startEnvironment procedure.dominators phis renamed.exits block)
    renamed.naming code.instructions.toList = body at renames
  obtain ⟨statements, environment, last⟩ := body
  refine ⟨code, statements, environment, last, found, ?_, renames⟩
  simp only [renameBlock, found, result]

section Step

variable {done : List NodeId} {renamed : Renaming} {block : NodeId} {code : SymbolicFlow.Block}
  {statements : Array Statement} {environment : Environment} {last : Naming}

/-- What a block starts with was left behind by a block that is already done. -/
theorem startEnvironment_kept {exits : Array Environment} (new : block ∉ done) {id : NodeId}
    (above : ∀ parent, procedure.dominators.parent? id = some parent → parent ∈ done) :
    startEnvironment procedure.dominators phis (exits.setIfInBounds block environment) id =
      startEnvironment procedure.dominators phis exits id := by
  refine startEnvironment_congr fun parent isParent => ?_
  have distinct : block ≠ parent := fun same => new (same ▸ above parent isParent)
  simp only [Array.getD_eq_getD_getElem?, Array.getElem?_setIfInBounds_ne distinct]

theorem RenamedBlocks.run_kept (previous : RenamedBlocks procedure phis placed done renamed)
    (new : block ∉ done) (grows : renamed.naming.Extends last) {id : NodeId} (old : id ∈ done) :
    BlockRun procedure phis (renamed.exits.setIfInBounds block environment) last id
      ((renamed.bodies.setIfInBounds block statements).getD id #[]).toList := by
  have distinct : block ≠ id := fun same => new (same ▸ old)
  obtain ⟨other, first, final, known, valid, bounds, run, extended⟩ := previous.run id old
  have starts : startEnvironment procedure.dominators phis
      (renamed.exits.setIfInBounds block environment) id = _ :=
    startEnvironment_kept new (previous.parentDone id old)
  refine ⟨other, first, final, known, valid, starts ▸ bounds, ?_, extended.trans grows⟩
  simp only [starts, Array.getD_eq_getD_getElem?, Array.getElem?_setIfInBounds_ne distinct]
  simpa only [Array.getD_eq_getD_getElem?] using run

theorem RenamedBlocks.defined_step (previous : RenamedBlocks procedure phis placed done renamed)
    (new : block ∉ done) (inRange : block < procedure.blockCount)
    (renames : Renames procedure.machine.programCounter block (phis.getD block []).length
      (startEnvironment procedure.dominators phis renamed.exits block) renamed.naming
      code.instructions.toList statements.toList environment last)
    {var : VarId} {place : Location} :
    last.Defined var place ↔ placed.Defined var place ∨
      place.block ∈ done ++ [block] ∧ ∃ position statement,
        ((renamed.bodies.setIfInBounds block statements).getD place.block #[]).toList[position]? =
          some statement ∧
        var ∈ statement.outputs ∧ place.index = (phis.getD place.block []).length + position := by
  have bodies := getD_setIfInBounds (Nat.lt_of_lt_of_eq inRange previous.bodiesSize.symm)
    statements #[]
  have others : ∀ id ∈ done, id ≠ block := fun id member same => new (same ▸ member)
  rw [renames.defined, previous.defined, or_assoc]
  refine or_congr Iff.rfl ?_
  simp only [bodies, List.mem_append, List.mem_singleton]
  constructor
  · rintro (⟨old, position, statement, listed, output, index⟩ |
      ⟨position, statement, listed, output, rfl⟩)
    · refine ⟨Or.inl old, position, statement, ?_, output, index⟩
      rw [if_neg (others _ old)]
      exact listed
    · exact ⟨Or.inr rfl, position, statement, by simpa using listed, output, rfl⟩
  · rintro ⟨old | here, position, statement, listed, output, index⟩
    · rw [if_neg (others _ old)] at listed
      exact Or.inl ⟨old, position, statement, listed, output, index⟩
    · rw [if_pos here] at listed
      refine Or.inr ⟨position, statement, listed, output, ?_⟩
      cases here
      rw [← index]

theorem RenamedBlocks.step {sites : List (Register × NodeId)}
    (named : NamedPhis procedure.machine.programCounter procedure.blockCount sites phis placed)
    (previous : RenamedBlocks procedure phis placed done renamed)
    (new : block ∉ done) (inRange : block < procedure.blockCount)
    (parentDone : ∀ parent, procedure.dominators.parent? block = some parent → parent ∈ done) :
    RenamedBlocks procedure phis placed (done ++ [block])
      (renameBlock procedure procedure.dominators phis renamed block) := by
  have startBounds : renamed.naming.Bounds
      (startEnvironment procedure.dominators phis renamed.exits block) := by
    refine bounds_startEnvironment previous.exitBounds fun phi member => ?_
    obtain ⟨index, listed⟩ := List.getElem?_of_mem member
    obtain ⟨_, known⟩ := named.named listed
    exact lt_size_of_getElem? (previous.grows.vars known)
  obtain ⟨code, statements, environment, last, found, shape, renames⟩ :=
    exists_renameBlock renamed inRange
  have bodies := getD_setIfInBounds (Nat.lt_of_lt_of_eq inRange previous.bodiesSize.symm)
    statements #[]
  have exits := getD_setIfInBounds (Nat.lt_of_lt_of_eq inRange previous.exitsSize.symm)
    environment []
  have starts : startEnvironment procedure.dominators phis
      (renamed.exits.setIfInBounds block environment) block = _ :=
    startEnvironment_kept new parentDone
  rw [shape]
  refine ⟨?_, ?_, previous.grows.trans renames.grows, renames.valid previous.valid, ?_, ?_, ?_,
    previous.defined_step new inRange renames, ?_⟩
  · simpa using previous.bodiesSize
  · simpa using previous.exitsSize
  · intro id
    rw [exits]
    split
    · exact renames.bounds startBounds
    · exact renames.grows.bounds (previous.exitBounds id)
  · intro id member parent above
    rcases List.mem_append.mp member with old | here
    · exact List.mem_append_left _ (previous.parentDone id old parent above)
    · exact List.mem_append_left _ (parentDone parent (List.mem_singleton.mp here ▸ above))
  · intro id member
    rcases List.mem_append.mp member with old | here
    · exact previous.run_kept new renames.grows old
    · cases List.mem_singleton.mp here
      refine ⟨code, renamed.naming, last, found, previous.valid, starts ▸ startBounds, ?_,
        Extends.refl last⟩
      rw [starts, bodies, exits, if_pos rfl, if_pos rfl]
      exact renames
  · rw [renames.counterReads, previous.counterReads, List.append_assoc, List.flatMap_append,
      List.flatMap_singleton, bodies, if_pos rfl]
    congr 2
    apply List.flatMap_congr
    intro id old
    have other : id ≠ block := fun same => new (same ▸ old)
    rw [bodies, if_neg other]

end Step

theorem renamedBlocks_foldl (wellFormed : procedure.WellFormed)
    {sites : List (Register × NodeId)}
    (named : NamedPhis procedure.machine.programCounter procedure.blockCount sites phis placed)
    (rest : List NodeId) {done : List NodeId} {renamed : Renaming}
    (order : renamingOrder procedure = done ++ rest)
    (previous : RenamedBlocks procedure phis placed done renamed) :
    RenamedBlocks procedure phis placed (renamingOrder procedure)
      (rest.foldl (renameBlock procedure procedure.dominators phis) renamed) := by
  induction rest generalizing done renamed with
  | nil =>
      rw [List.append_nil] at order
      exact order ▸ previous
  | cons block rest ih =>
      have listed : block ∈ renamingOrder procedure := by simp [order]
      have distinct := nodup_renamingOrder wellFormed
      rw [order] at distinct
      have new : block ∉ done := fun member =>
        (List.nodup_append.mp distinct).2.2 block member block List.mem_cons_self rfl
      have next := previous.step named new ((mem_renamingOrder wellFormed).mp listed)
        fun parent above => parent_mem_of_renamingOrder wellFormed order above
      exact ih (by rw [order, List.append_assoc, List.singleton_append]) next

theorem renamedBlocks_renameBlocks (wellFormed : procedure.WellFormed)
    {sites : List (Register × NodeId)}
    (named : NamedPhis procedure.machine.programCounter procedure.blockCount sites phis placed) :
    RenamedBlocks procedure phis placed (renamingOrder procedure)
      (renameBlocks procedure procedure.dominators phis placed) :=
  renamedBlocks_foldl wellFormed named _ rfl (renamedBlocks_start named.valid)

end Blocks

/-! ## The sources of the phis -/

/-- The statement is the phi with this register and output, and each source is what the register
holds when control arrives. -/
def IsPhi (naming : Naming) (arrivals : List (Option Environment)) (phi : Register × VarId)
    (statement : Statement) : Prop :=
  ∃ sources, statement = Statement.phi phi.2 sources ∧
    List.Forall₂ (naming.Arrives phi.1) arrivals sources

theorem IsPhi.mono {earlier later : Naming} (grows : earlier.Extends later)
    {arrivals : List (Option Environment)} {phi : Register × VarId} {statement : Statement}
    (isPhi : IsPhi earlier arrivals phi statement) : IsPhi later arrivals phi statement := by
  obtain ⟨sources, shape, arrive⟩ := isPhi
  exact ⟨sources, shape, arrive.imp fun _ _ arrives => arrives.mono grows⟩

theorem completePhis_spec (programCounter : Register) (arrivals : List (Option Environment))
    (naming : Naming) (phis : List (Register × VarId)) :
    let result := completePhis arrivals naming phis
    naming.Reads programCounter result.2 ∧
      List.Forall₂ (IsPhi result.2 arrivals) phis result.1 := by
  induction phis generalizing naming with
  | nil => exact ⟨Reads.refl naming, List.Forall₂.nil⟩
  | cons phi phis ih =>
      obtain ⟨reads, arrive⟩ := readSources_spec programCounter phi.1 naming arrivals
      obtain ⟨rest, complete⟩ := ih (readSources phi.1 naming arrivals).2
      refine ⟨reads.trans rest, List.Forall₂.cons ⟨_, rfl, ?_⟩ complete⟩
      exact arrive.imp fun _ _ arrives => arrives.mono rest.grows

theorem counterReads_completePhis (arrivals : List (Option Environment)) (naming : Naming)
    (phis : List (Register × VarId)) :
    (completePhis arrivals naming phis).2.counterReads = naming.counterReads := by
  induction phis generalizing naming with
  | nil => rfl
  | cons phi phis ih => exact (ih _).trans (counterReads_readSources phi.1 naming arrivals)

def CompleteBlock (procedure : Procedure) (phis : PhiTable) (renamed : Renaming)
    (naming : Naming) (blocks : Array Block) (block : NodeId) : Prop :=
  ∃ statements, blocks[block]? =
      some ⟨block, (statements ++ (renamed.bodies.getD block #[]).toList).toArray⟩ ∧
    List.Forall₂ (IsPhi naming (arrivals procedure procedure.dominators renamed.exits block))
      (phis.getD block []) statements

theorem completeBlocks_range (procedure : Procedure) (phis : PhiTable) (renamed : Renaming)
    (count : Nat) :
    let result := (List.range count).foldl
      (completeBlock procedure procedure.dominators phis renamed) (#[], renamed.naming)
    result.1.size = count ∧
      renamed.naming.Reads procedure.machine.programCounter result.2 ∧
      result.2.counterReads = renamed.naming.counterReads ∧
      ∀ block < count, CompleteBlock procedure phis renamed result.2 result.1 block := by
  induction count with
  | zero =>
      exact ⟨rfl, Reads.refl _, rfl, fun block inside => absurd inside (Nat.not_lt_zero block)⟩
  | succ count ih =>
      rw [List.range_succ, List.foldl_append, List.foldl_cons, List.foldl_nil]
      generalize (List.range count).foldl
        (completeBlock procedure procedure.dominators phis renamed) (#[], renamed.naming) =
        state at ih
      obtain ⟨blocks, naming⟩ := state
      obtain ⟨size, reads, counters, complete⟩ := ih
      obtain ⟨rest, isPhi⟩ := completePhis_spec procedure.machine.programCounter
        (arrivals procedure procedure.dominators renamed.exits count) naming (phis.getD count [])
      refine ⟨?_, reads.trans rest, (counterReads_completePhis _ _ _).trans counters, ?_⟩
      · exact (Array.size_push _).trans (congrArg (· + 1) size)
      · intro block inside
        rcases Nat.lt_succ_iff_lt_or_eq.mp inside with before | rfl
        · obtain ⟨statements, found, listed⟩ := complete block before
          refine ⟨statements, ?_, listed.imp fun _ _ phi => phi.mono rest.grows⟩
          exact (Array.getElem?_push_lt (size ▸ before)).trans
            ((Array.getElem?_eq_getElem (size ▸ before)).symm.trans found)
        · refine ⟨_, ?_, isPhi⟩
          subst size
          simp only [completeBlock, Array.getElem?_push_size]
          simp

/-! ## The form -/

def Form.statementsOf (form : Form) (block : NodeId) : List Statement :=
  ((form.block? block).map (·.statements.toList)).getD []

theorem Form.getElem?_statementsOf (form : Form) (block : NodeId) (index : Nat) :
    (form.statementsOf block)[index]? = form.statement? ⟨block, index⟩ := by
  rw [statementsOf, statement?, block?]
  cases form.blocks[block]? <;> simp

/-- What a form is made of: a table of phis, what each block leaves behind, and a naming of all
its variables. -/
structure Construction (procedure : Procedure) (form : Form) (phis : PhiTable)
    (exits : Array Environment) (naming : Naming) : Prop where
  vars : form.vars = naming.vars
  counterReads : form.counterReads = naming.counterReads
  size : form.blocks.size = procedure.blockCount
  valid : naming.Valid procedure.machine.programCounter
  site : ∀ {register : Register} {block : NodeId}, (∃ var, (register, var) ∈ phis.getD block []) ↔
    block ∈ phiBlocks procedure procedure.frontiers register
  phiVar : ∀ {block : NodeId} {index : Nat} {register : Register} {var : VarId},
    (phis.getD block [])[index]? = some (register, var) →
    ∃ version, naming.vars[var]? = some ⟨register, version, some ⟨block, index⟩⟩
  block : ∀ block < procedure.blockCount, ∃ statements body,
    form.block? block = some ⟨block, (statements ++ body).toArray⟩ ∧
      List.Forall₂ (IsPhi naming (arrivals procedure procedure.dominators exits block))
        (phis.getD block []) statements ∧
      BlockRun procedure phis exits naming block body
  defined : ∀ {var : VarId} {place : Location}, naming.Defined var place ↔
    ∃ statement, form.statement? place = some statement ∧ var ∈ statement.outputs
  counters : naming.counterReads.toList = (renamingOrder procedure).flatMap fun block =>
    (form.statementsOf block).flatMap (·.counterReads procedure.machine.programCounter)

theorem Construction.within {procedure : Procedure} {form : Form} {phis : PhiTable}
    {exits : Array Environment} {naming : Naming}
    (construction : Construction procedure form phis exits naming) :
    naming.Within form := by
  intro var named found
  rw [Form.var?, construction.vars]
  exact found

theorem Construction.lt_of_statement? {procedure : Procedure} {form : Form} {phis : PhiTable}
    {exits : Array Environment} {naming : Naming}
    (construction : Construction procedure form phis exits naming) {place : Location}
    {statement : Statement} (found : form.statement? place = some statement) :
    place.block < procedure.blockCount := by
  obtain ⟨_, known, _⟩ := Option.bind_eq_some_iff.mp found
  exact Nat.lt_of_lt_of_eq (Array.getElem?_eq_some_iff.mp known).1 construction.size

section Complete

variable {procedure : Procedure} {form : Form} {phis : PhiTable} {placed naming : Naming}
  {renamed : Renaming}

theorem CompleteBlock.statement?_phi {block : NodeId}
    (complete : CompleteBlock procedure phis renamed naming form.blocks block) {index : Nat}
    {register : Register} {var : VarId}
    (listed : (phis.getD block [])[index]? = some (register, var)) :
    ∃ sources, form.statement? ⟨block, index⟩ = some (Statement.phi var sources) := by
  obtain ⟨statements, found, isPhi⟩ := complete
  obtain ⟨statement, here, sources, shape, _⟩ := getElem?_of_forall₂_left isPhi listed
  refine ⟨sources, ?_⟩
  have before := (List.getElem?_eq_some_iff.mp here).1
  simp only [Form.statement?, found, Option.bind_some, List.getElem?_toArray,
    List.getElem?_append_left before, here, shape]

theorem CompleteBlock.statement?_body {block : NodeId}
    (complete : CompleteBlock procedure phis renamed naming form.blocks block) (position : Nat) :
    form.statement? ⟨block, (phis.getD block []).length + position⟩ =
      (renamed.bodies.getD block #[]).toList[position]? := by
  obtain ⟨statements, found, isPhi⟩ := complete
  simp only [Form.statement?, found, Option.bind_some, List.getElem?_toArray, isPhi.length_eq,
    List.getElem?_append_right (Nat.le_add_right _ _), Nat.add_sub_cancel_left]

theorem CompleteBlock.counterReads {block : NodeId}
    (complete : CompleteBlock procedure phis renamed naming form.blocks block)
    (programCounter : Register) :
    (form.statementsOf block).flatMap (·.counterReads programCounter) =
      (renamed.bodies.getD block #[]).toList.flatMap (·.counterReads programCounter) := by
  obtain ⟨statements, found, isPhi⟩ := complete
  have none_of_phi : statements.flatMap (·.counterReads programCounter) = [] := by
    apply List.flatMap_eq_nil_iff.mpr
    intro statement member
    obtain ⟨index, listed⟩ := List.getElem?_of_mem member
    obtain ⟨_, _, sources, rfl, _⟩ := getElem?_of_forall₂_right isPhi listed
    rfl
  have listed : form.statementsOf block = statements ++ (renamed.bodies.getD block #[]).toList := by
    simp [Form.statementsOf, Form.block?, found]
  rw [listed, List.flatMap_append, none_of_phi, List.nil_append]

theorem defined_complete (wellFormed : procedure.WellFormed)
    (named : NamedPhis procedure.machine.programCounter procedure.blockCount
      (phiSites procedure procedure.frontiers) phis placed)
    (previous : RenamedBlocks procedure phis placed (renamingOrder procedure) renamed)
    (size : form.blocks.size = procedure.blockCount)
    (complete : ∀ block < procedure.blockCount,
      CompleteBlock procedure phis renamed naming form.blocks block)
    {var : VarId} {place : Location} :
    renamed.naming.Defined var place ↔
      ∃ statement, form.statement? place = some statement ∧ var ∈ statement.outputs := by
  obtain ⟨block, index⟩ := place
  rw [previous.defined]
  constructor
  · rintro (phi | ⟨listed, position, statement, found, output, behind⟩)
    · obtain ⟨register, listed⟩ := named.defined phi
      have inside : block < procedure.blockCount := by
        by_contra outside
        rw [← named.size] at outside
        simp [Array.getD, outside] at listed
      obtain ⟨sources, found⟩ := (complete block inside).statement?_phi listed
      exact ⟨_, found, List.mem_singleton_self var⟩
    · have inside := (mem_renamingOrder wellFormed).mp listed
      dsimp only at behind
      rw [behind, (complete block inside).statement?_body]
      exact ⟨statement, found, output⟩
  · intro isOutput
    obtain ⟨statement, found, output⟩ := isOutput
    have inside : block < procedure.blockCount := by
      by_contra outside
      rw [← size] at outside
      simp [Form.statement?, outside] at found
    by_cases before : index < (phis.getD block []).length
    · have listed := List.getElem?_eq_getElem before
      obtain ⟨sources, isPhi⟩ := (complete block inside).statement?_phi listed
      cases found.symm.trans isPhi
      cases List.mem_singleton.mp output
      obtain ⟨version, known⟩ := named.named listed
      exact Or.inl ⟨_, known, rfl⟩
    · obtain ⟨position, rfl⟩ := Nat.exists_eq_add_of_le (Nat.le_of_not_lt before)
      rw [(complete block inside).statement?_body] at found
      exact Or.inr ⟨(mem_renamingOrder wellFormed).mpr inside, position, statement, found, output,
        rfl⟩

theorem construction_complete (wellFormed : procedure.WellFormed)
    (named : NamedPhis procedure.machine.programCounter procedure.blockCount
      (phiSites procedure procedure.frontiers) phis placed)
    (previous : RenamedBlocks procedure phis placed (renamingOrder procedure) renamed)
    (vars : form.vars = naming.vars) (counterReads : form.counterReads = naming.counterReads)
    (size : form.blocks.size = procedure.blockCount)
    (reads : renamed.naming.Reads procedure.machine.programCounter naming)
    (kept : naming.counterReads = renamed.naming.counterReads)
    (complete : ∀ block < procedure.blockCount,
      CompleteBlock procedure phis renamed naming form.blocks block) :
    Construction procedure form phis renamed.exits naming := by
  refine ⟨vars, counterReads, size, reads.valid previous.valid, ?_, ?_, ?_, ?_, ?_⟩
  · intro register block
    rw [named.site, mem_phiSites wellFormed]
  · intro block index register var listed
    obtain ⟨version, found⟩ := named.named listed
    exact ⟨version, reads.grows.vars (previous.grows.vars found)⟩
  · intro block inside
    obtain ⟨statements, found, isPhi⟩ := complete block inside
    have run := previous.run block ((mem_renamingOrder wellFormed).mpr inside)
    exact ⟨statements, _, found, isPhi, run.mono reads.grows⟩
  · intro var place
    rw [reads.defined, defined_complete wellFormed named previous size complete]
  · rw [kept, previous.counterReads, named.noCounter]
    refine List.flatMap_congr fun block listed => ?_
    exact ((complete block ((mem_renamingOrder wellFormed).mp listed)).counterReads _).symm

end Complete

theorem exists_construction_namePhis {procedure : Procedure} (wellFormed : procedure.WellFormed) :
    ∃ exits naming, Construction procedure procedure.ssa
      (namePhis procedure procedure.frontiers).1 exits naming := by
  have named := namedPhis_namePhis wellFormed
  obtain ⟨size, reads, kept, complete⟩ := completeBlocks_range procedure
    (namePhis procedure procedure.frontiers).1
    (renameBlocks procedure procedure.dominators (namePhis procedure procedure.frontiers).1
      (namePhis procedure procedure.frontiers).2) procedure.blockCount
  exact ⟨_, _, construction_complete wellFormed named
    (renamedBlocks_renameBlocks wellFormed named) rfl rfl size reads kept complete⟩

theorem exists_construction {procedure : Procedure} (wellFormed : procedure.WellFormed) :
    ∃ phis exits naming, Construction procedure procedure.ssa phis exits naming :=
  ⟨_, exists_construction_namePhis wellFormed⟩

end SymbolicFlow.Ssa
