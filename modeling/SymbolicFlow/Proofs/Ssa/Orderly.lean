import SymbolicFlow.Proofs.Evaluation.Expression
import SymbolicFlow.Proofs.Ssa.Construction

/-!
# Forms of procedures are orderly

An instruction is renamed after everything that it reads has its variable, so its inputs are
older than its outputs.  A phi stands only where two ways meet: with a single arrival the block
would have its predecessor as immediate dominator and lie on no frontier.
-/

set_option autoImplicit false

namespace SymbolicFlow.Ssa

open Naming

theorem length_filterMap_of_arrives {naming : Naming} {register : Register}
    {arrivals : List (Option Environment)} {sources : List (Option VarId)}
    (arrive : List.Forall₂ (naming.Arrives register) arrivals sources) :
    (sources.filterMap id).length = (arrivals.filterMap id).length := by
  induction arrive with
  | nil => rfl
  | cons first _ ih =>
      cases first with
      | never => simpa using ih
      | holds _ => simpa using ih

section Arrivals

variable {procedure : Procedure}

theorem filterMap_arrivals (exits : Array Environment) (block : NodeId) :
    (arrivals procedure procedure.dominators exits block).filterMap id =
      (if block = procedure.entry then [[]] else []) ++
        ((procedure.predecessors block).filter (procedure.dominators.isReachable ·)).map
          (exits.getD · []) := by
  have edges : ∀ predecessors : List NodeId,
      (predecessors.map fun predecessor =>
        if procedure.dominators.isReachable predecessor then some (exits.getD predecessor [])
        else none).filterMap id =
      (predecessors.filter (procedure.dominators.isReachable ·)).map (exits.getD · []) := by
    intro predecessors
    induction predecessors with
    | nil => rfl
    | cons predecessor predecessors ih =>
        by_cases reachable : procedure.dominators.isReachable predecessor
        · simpa [reachable] using ih
        · simpa [reachable] using ih
  rw [arrivals, List.filterMap_append, edges]
  split <;> rfl

/-- Whichever predecessor of a block on a frontier is left aside, there is another one that is
reachable: a single one would be the immediate dominator. -/
theorem exists_ne_predecessor_of_owner (wellFormed : procedure.WellFormed) {block owner : NodeId}
    (owns : owner ∈ procedure.graph.frontierOwners procedure.dominators block)
    (notEntry : block ≠ procedure.entry) (predecessor : NodeId) :
    ∃ other, block ∈ procedure.graph.successors other ∧
      procedure.graph.Reachable procedure.entry other ∧ other ≠ predecessor := by
  have inRange := wellFormed.entryExists
  have rooted := Digraph.rooted_dominatorTree wellFormed.graph inRange
  obtain ⟨reachable, ⟨met, metEdge, metReachable, above⟩, notAbove⟩ :=
    (Digraph.mem_frontierOwners wellFormed.graph inRange).mp owns
  obtain ⟨dominator, found, common⟩ := Digraph.exists_parent_dominatorTree wellFormed.graph
    inRange reachable notEntry
  by_contra alone
  have same : ∀ other, block ∈ procedure.graph.successors other →
      procedure.graph.Reachable procedure.entry other → other = predecessor := by
    intro other edge otherReachable
    by_contra different
    exact alone ⟨other, edge, otherReachable, different⟩
  have ownerAbove : procedure.dominators.parents.Above owner dominator := by
    apply (common owner).mpr
    intro other edge otherReachable
    rw [same other edge otherReachable, ← same met metEdge metReachable]
    exact above
  apply notAbove
  refine ⟨.up found ownerAbove, ?_⟩
  intro isBlock
  subst isBlock
  have lower := rooted.descends found notEntry
  have higher := rooted.rank_le ownerAbove
  omega

theorem two_le_arrivals_of_owner (wellFormed : procedure.WellFormed) {block owner : NodeId}
    (owns : owner ∈ procedure.graph.frontierOwners procedure.dominators block)
    (exits : Array Environment) :
    2 ≤ ((arrivals procedure procedure.dominators exits block).filterMap id).length := by
  have inRange := wellFormed.entryExists
  have mem_arriving : ∀ predecessor, block ∈ procedure.graph.successors predecessor →
      procedure.graph.Reachable procedure.entry predecessor → predecessor ∈
        (procedure.predecessors block).filter (procedure.dominators.isReachable ·) := by
    intro predecessor edge reachable
    apply List.mem_filter.mpr
    exact ⟨(Digraph.mem_predecessors_iff wellFormed.graph).mpr edge,
      (Digraph.isReachable_dominatorTree wellFormed.graph inRange).mpr reachable⟩
  obtain ⟨_, ⟨predecessor, edge, fromEntry, _⟩, _⟩ :=
    (Digraph.mem_frontierOwners wellFormed.graph inRange).mp owns
  have listed := mem_arriving predecessor edge fromEntry
  rw [filterMap_arrivals, List.length_append, List.length_map]
  by_cases atEntry : block = procedure.entry
  · have present := List.length_pos_of_mem listed
    rw [if_pos atEntry, List.length_singleton]
    omega
  · obtain ⟨other, otherEdge, otherReachable, different⟩ :=
      exists_ne_predecessor_of_owner wellFormed owns atEntry predecessor
    have alsoListed := mem_arriving other otherEdge otherReachable
    have distinct : [other, predecessor].Nodup := by simp [different]
    rw [if_neg atEntry, List.length_nil, Nat.zero_add]
    exact (distinct.subperm (List.cons_subset.mpr ⟨alsoListed, by simpa using listed⟩)).length_le

end Arrivals

section Construction

variable {procedure : Procedure} {form : Form} {phis : PhiTable} {exits : Array Environment}
  {naming : Naming}

theorem Construction.definition?_iff (construction : Construction procedure form phis exits naming)
    {var : VarId} {statement : Statement} :
    form.definition? var = some statement ↔ ∃ place, naming.Defined var place ∧
      form.statement? place = some statement := by
  simp only [Form.definition?, Form.var?, construction.vars, Option.bind_eq_some_iff, Defined]
  grind

theorem Construction.statement?_cases
    (construction : Construction procedure form phis exits naming) {place : Location}
    {statement : Statement} (found : form.statement? place = some statement) :
    (∃ register var, (register, var) ∈ phis.getD place.block [] ∧
      IsPhi naming (arrivals procedure procedure.dominators exits place.block) (register, var)
        statement) ∨
    (∃ body, BlockRun procedure phis exits naming place.block body ∧ statement ∈ body) := by
  obtain ⟨block, foundBlock, here⟩ := Option.bind_eq_some_iff.mp found
  have inside : place.block < procedure.blockCount :=
    Nat.lt_of_lt_of_eq (Array.getElem?_eq_some_iff.mp foundBlock).1 construction.size
  obtain ⟨statements, body, whole, isPhi, run⟩ := construction.block place.block inside
  cases foundBlock.symm.trans whole
  have member : statement ∈ statements ++ body := by
    simpa using Array.mem_of_getElem? here
  rcases List.mem_append.mp member with first | second
  · obtain ⟨index, listed⟩ := List.getElem?_of_mem first
    obtain ⟨⟨register, var⟩, placed, facts⟩ := getElem?_of_forall₂_right isPhi listed
    exact Or.inl ⟨register, var, List.mem_of_getElem? placed, facts⟩
  · exact Or.inr ⟨body, run, second⟩

/-- An instruction reads only variables that are older than its outputs. -/
theorem Construction.lt_of_mem_inputs
    (construction : Construction procedure form phis exits naming) {var used : VarId}
    (reads : used ∈ form.inputs var) : used < var := by
  rw [Form.inputs] at reads
  cases defined : form.definition? var with
  | none => simp [defined] at reads
  | some statement =>
      obtain ⟨place, definedAt, found⟩ := construction.definition?_iff.mp defined
      obtain ⟨other, same, output⟩ := construction.defined.mp definedAt
      cases found.symm.trans same
      rcases construction.statement?_cases found with ⟨_, _, _, _, rfl, _⟩ | ⟨body, run, member⟩
      · simp [defined, Statement.isPhi, Statement.phi] at reads
      · obtain ⟨_, first, last, _, valid, bounds, renames, _⟩ := run
        obtain ⟨before, after, parts⟩ := List.append_of_mem member
        obtain ⟨_, _, _, _, _, _, prior, step, _⟩ := renames.split parts
        have machine := renames.machine statement member
        simp only [defined, machine, Bool.false_eq_true, if_false] at reads
        exact step.usedBefore (prior.valid valid) (prior.bounds bounds) used reads var output

theorem Construction.exists_isPhi (construction : Construction procedure form phis exits naming)
    {place : Location} {statement : Statement} (found : form.statement? place = some statement)
    (isPhi : statement.isPhi = true) :
    ∃ register var, (register, var) ∈ phis.getD place.block [] ∧
      IsPhi naming (arrivals procedure procedure.dominators exits place.block) (register, var)
        statement := by
  rcases construction.statement?_cases found with placed |
    ⟨body, ⟨_, _, _, _, _, _, renames, _⟩, member⟩
  · exact placed
  · rw [renames.machine statement member] at isPhi
    cases isPhi

theorem Construction.two_le_usedVars (wellFormed : procedure.WellFormed)
    (construction : Construction procedure form phis exits naming) {place : Location}
    {statement : Statement} (found : form.statement? place = some statement)
    (isPhi : statement.isPhi = true) : 2 ≤ statement.usedVars.length := by
  obtain ⟨register, var, placed, sources, rfl, arrive⟩ := construction.exists_isPhi found isPhi
  obtain ⟨owner, owns⟩ :=
    exists_owner_of_mem_phiBlocks wellFormed (construction.site.mp ⟨var, placed⟩)
  have many := two_le_arrivals_of_owner wellFormed owns exits
  rw [← length_filterMap_of_arrives arrive] at many
  exact many

theorem Construction.usedVars_ne_singleton (wellFormed : procedure.WellFormed)
    (construction : Construction procedure form phis exits naming) {place : Location}
    {statement : Statement} (found : form.statement? place = some statement)
    (isPhi : statement.isPhi = true) (source : VarId) : statement.usedVars ≠ [source] := by
  intro single
  have many := construction.two_le_usedVars wellFormed found isPhi
  rw [single, List.length_singleton] at many
  omega

theorem Construction.definition?_of_counterRead?
    (construction : Construction procedure form phis exits naming) {var : VarId} {next : UInt64}
    (read : form.counterRead? var = some next) : form.definition? var = none := by
  have recorded := Form.mem_counterReads_of_counterRead? read
  rw [construction.counterReads] at recorded
  obtain ⟨version, known⟩ := construction.valid.counterFound recorded
  simp [Form.definition?, construction.within _ _ known]

theorem Construction.orderly (wellFormed : procedure.WellFormed)
    (construction : Construction procedure form phis exits naming) : form.Orderly where
  inputsOlder := construction.lt_of_mem_inputs
  phiMerges := construction.usedVars_ne_singleton wellFormed
  outputDefined := fun found member => construction.definition?_iff.mpr
    ⟨_, construction.defined.mpr ⟨_, found, member⟩, found⟩
  counterUndefined := construction.definition?_of_counterRead?

end Construction

theorem orderly_ssa {procedure : Procedure} (wellFormed : procedure.WellFormed) :
    procedure.ssa.Orderly := by
  obtain ⟨phis, exits, naming, construction⟩ := exists_construction wellFormed
  exact construction.orderly wellFormed

end SymbolicFlow.Ssa
