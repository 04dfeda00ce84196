import SymbolicFlow.Proofs.Ssa.Orderly
import SymbolicFlow.Proofs.Ssa.PathValues

/-!
# Definitions stand before their uses

What an instruction reads was handed down to it: from an earlier statement of its block, or from
what the immediate dominator left behind, which in turn comes from that block or from one further
up.  So the definition of a variable stands earlier in the block in which the variable is read, or
in a block that strictly dominates it.
-/

set_option autoImplicit false

namespace SymbolicFlow.Ssa

open Naming

/-- The place is passed on every way to `later`: it stands earlier in the same block, or in a
block strictly above. -/
def Location.Precedes (tree : DominatorTree) (earlier later : Location) : Prop :=
  earlier.block = later.block ∧ earlier.index < later.index ∨
    earlier.block ≠ later.block ∧ tree.parents.Above earlier.block later.block

/-! ## Where an environment comes from -/

theorem foldl_assign_cases {form : Form} {vars : List VarId} {latest : Latest}
    {register : Register} {var : VarId}
    (found : vars.foldl form.assign latest register = some var) :
    var ∈ vars ∨ latest register = some var := by
  induction vars generalizing latest with
  | nil => exact Or.inr found
  | cons first vars ih =>
      rcases ih found with later | assigned
      · exact Or.inl (List.mem_cons_of_mem first later)
      · rw [Form.assign] at assigned
        split at assigned
        · cases assigned
          exact Or.inl List.mem_cons_self
        · exact Or.inr assigned

/-- After some statements a register holds an output of one of them, or what it held before. -/
theorem foldl_execute_cases {form : Form} {statements : List Statement} {latest : Latest}
    {register : Register} {var : VarId}
    (found : statements.foldl form.execute latest register = some var) :
    (∃ (position : Nat) (statement : Statement), statements[position]? = some statement ∧
      var ∈ statement.outputs) ∨ latest register = some var := by
  induction statements generalizing latest with
  | nil => exact Or.inr found
  | cons first statements ih =>
      rcases ih found with ⟨position, statement, listed, output⟩ | executed
      · exact Or.inl ⟨position + 1, statement, listed, output⟩
      · rcases foldl_assign_cases executed with output | before
        · exact Or.inl ⟨0, first, rfl, output⟩
        · exact Or.inr before

theorem get?_foldl_set_cases {phis : List (Register × VarId)} {environment : Environment}
    {register : Register} {var : VarId}
    (found : (phis.foldl (fun environment (register, var) => environment.set register var)
      environment).get? register = some var) :
    (register, var) ∈ phis ∨ environment.get? register = some var := by
  induction phis generalizing environment with
  | nil => exact Or.inr found
  | cons phi phis ih =>
      rcases ih found with later | kept
      · exact Or.inl (List.mem_cons_of_mem phi later)
      · rw [RegisterMap.get?_set] at kept
        split at kept
        · rename_i same
          cases kept
          rw [same]
          exact Or.inl List.mem_cons_self
        · exact Or.inr kept

section Construction

variable {procedure : Procedure} {form : Form} {phis : PhiTable} {exits : Array Environment}
  {naming : Naming}

theorem Construction.exists_body (construction : Construction procedure form phis exits naming)
    {block : NodeId} (inside : block < procedure.blockCount) :
    ∃ body, BlockRun procedure phis exits naming block body ∧
      (∀ position, form.statement? ⟨block, (phis.getD block []).length + position⟩ =
        body[position]?) ∧
      ∀ index < (phis.getD block []).length, ∀ statement,
        form.statement? ⟨block, index⟩ = some statement → statement.isPhi = true := by
  obtain ⟨statements, body, found, isPhi, run⟩ := construction.block block inside
  have known : form.blocks[block]? = some ⟨block, (statements ++ body).toArray⟩ := found
  refine ⟨body, run, ?_, ?_⟩
  · intro position
    simp only [Form.statement?, known, Option.bind_some, List.getElem?_toArray, isPhi.length_eq,
      List.getElem?_append_right (Nat.le_add_right _ _), Nat.add_sub_cancel_left]
  · intro index before statement listed
    have among : index < statements.length := isPhi.length_eq ▸ before
    simp only [Form.statement?, known, Option.bind_some, List.getElem?_toArray,
      List.getElem?_append_left among] at listed
    obtain ⟨_, _, sources, rfl, _⟩ := getElem?_of_forall₂_right isPhi listed
    rfl

theorem Construction.start_cases (construction : Construction procedure form phis exits naming)
    {block : NodeId} {register : Register} {var : VarId}
    (found : (startEnvironment procedure.dominators phis exits block).get? register = some var) :
    (∃ index < (phis.getD block []).length, naming.Defined var ⟨block, index⟩) ∨
      (inherited procedure.dominators exits block).get? register = some var := by
  rcases get?_foldl_set_cases found with member | kept
  · obtain ⟨index, listed⟩ := List.getElem?_of_mem member
    obtain ⟨version, known⟩ := construction.phiVar listed
    exact Or.inl ⟨index, (List.getElem?_eq_some_iff.mp listed).1, _, known, rfl⟩
  · exact Or.inr kept

/-- A register that some statements of a block were run over holds what one of these statements
or a phi of the block defines, or what the block inherited. -/
theorem Construction.run_cases (construction : Construction procedure form phis exits naming)
    {block : NodeId} {body : List Statement}
    (placed : ∀ position, form.statement? ⟨block, (phis.getD block []).length + position⟩ =
      body[position]?) {before after : List Statement} (parts : body = before ++ after)
    {register : Register} {var : VarId}
    (found : before.foldl form.execute
      (startEnvironment procedure.dominators phis exits block).get? register = some var) :
    (∃ index < (phis.getD block []).length + before.length,
      naming.Defined var ⟨block, index⟩) ∨
      (inherited procedure.dominators exits block).get? register = some var := by
  rcases foldl_execute_cases found with ⟨position, statement, listed, output⟩ | atStart
  · have inside := (List.getElem?_eq_some_iff.mp listed).1
    refine Or.inl ⟨(phis.getD block []).length + position, by omega, ?_⟩
    apply construction.defined.mpr
    refine ⟨statement, ?_, output⟩
    rw [placed, parts, List.getElem?_append_left inside]
    exact listed
  · rcases construction.start_cases atStart with ⟨index, below, defined⟩ | kept
    · exact Or.inl ⟨index, by omega, defined⟩
    · exact Or.inr kept

theorem Construction.defined_of_exits (wellFormed : procedure.WellFormed)
    (construction : Construction procedure form phis exits naming) {block : NodeId}
    (inside : block < procedure.blockCount) {register : Register} {var : VarId}
    (found : (exits.getD block []).get? register = some var) :
    ∃ place, naming.Defined var place ∧
      procedure.dominators.parents.Above place.block block := by
  have inRange := wellFormed.entryExists
  have rooted := Digraph.rooted_dominatorTree wellFormed.graph inRange
  -- The rank of a block falls from a block to its immediate dominator.
  induction ranked : procedure.graph.rankFrom procedure.entry block using Nat.strongRecOn
    generalizing block with
  | ind rank ih =>
      obtain ⟨body, ⟨code, first, last, _, _, _, renames, grows⟩, placed, _⟩ :=
        construction.exists_body inside
      rw [← renames.executes (construction.within.of_extends grows)] at found
      rcases construction.run_cases placed (List.append_nil body).symm found with
        ⟨index, _, defined⟩ | kept
      · exact ⟨_, defined, .self⟩
      · rw [inherited] at kept
        split at kept
        · cases kept
        · rename_i parent above
          obtain ⟨notEntry, isParent⟩ := DominatorTree.parent?_eq_some_iff.mp above
          have reachable := (Digraph.recorded_dominatorTree_iff wellFormed.graph inRange).mp
            (rooted.closed isParent)
          have lower := rooted.descends isParent notEntry
          obtain ⟨place, defined, higher⟩ := ih _ (ranked ▸ lower)
            (reachable.lt wellFormed.graph inRange) kept rfl
          exact ⟨place, defined, .up isParent higher⟩

theorem Construction.defined_of_inherited (wellFormed : procedure.WellFormed)
    (construction : Construction procedure form phis exits naming) {block : NodeId}
    {register : Register} {var : VarId}
    (found : (inherited procedure.dominators exits block).get? register = some var) :
    ∃ place, naming.Defined var place ∧ place.block ≠ block ∧
      procedure.dominators.parents.Above place.block block := by
  have inRange := wellFormed.entryExists
  have rooted := Digraph.rooted_dominatorTree wellFormed.graph inRange
  rw [inherited] at found
  split at found
  · cases found
  · rename_i parent above
    obtain ⟨notEntry, isParent⟩ := DominatorTree.parent?_eq_some_iff.mp above
    have reachable := (Digraph.recorded_dominatorTree_iff wellFormed.graph inRange).mp
      (rooted.closed isParent)
    obtain ⟨place, defined, higher⟩ := construction.defined_of_exits wellFormed
      (reachable.lt wellFormed.graph inRange) found
    refine ⟨place, defined, ?_, .up isParent higher⟩
    have lower := rooted.descends isParent notEntry
    have atMost := rooted.rank_le higher
    intro same
    rw [same] at atMost
    omega

theorem Construction.definition?_of_external
    (construction : Construction procedure form phis exits naming) {var : VarId}
    {register : Register} {version : Nat}
    (known : naming.vars[var]? = some ⟨register, version, none⟩) :
    form.definition? var = none := by
  simp [Form.definition?, construction.within _ _ known]

/-- An instruction reads its slots off an environment, and what the environment holds was defined
before the instruction. -/
theorem Construction.exists_environment (wellFormed : procedure.WellFormed)
    (construction : Construction procedure form phis exits naming) {place : Location}
    {statement : Statement} (found : form.statement? place = some statement)
    {instruction : Instruction} (machine : statement.instruction = some instruction) :
    ∃ environment : Environment,
      List.Forall₂
        (naming.Supplies procedure.machine.programCounter instruction.nextAddress environment)
        (instruction.slotReads procedure.machine.programCounter) statement.slots ∧
      ∀ register var, environment.get? register = some var →
        ∃ earlier, naming.Defined var earlier ∧ earlier.Precedes procedure.dominators place := by
  obtain ⟨block, index⟩ := place
  have inside : block < procedure.blockCount := construction.lt_of_statement? found
  obtain ⟨body, ⟨code, first, last, _, _, _, renames, grows⟩, placed, phisFirst⟩ :=
    construction.exists_body inside
  have behind : (phis.getD block []).length ≤ index := by
    by_contra before
    have isPhi := phisFirst index (Nat.lt_of_not_le before) statement found
    simp [Statement.isPhi, machine] at isPhi
  obtain ⟨position, rfl⟩ := Nat.exists_eq_add_of_le behind
  rw [placed] at found
  obtain ⟨within, here⟩ := List.getElem?_eq_some_iff.mp found
  have parts : body = body.take position ++ statement :: body.drop (position + 1) := by
    rw [← here, ← List.drop_eq_getElem_cons within, List.take_append_drop]
  obtain ⟨_, other, environment, _, _, next, run, step, rest⟩ := renames.split parts
  cases step.same.symm.trans machine
  have extended := rest.trans grows
  refine ⟨environment, step.slots.imp fun _ _ supplies => supplies.mono extended, ?_⟩
  intro register var inForce
  have executed := run.executes (construction.within.of_extends (step.grows.trans extended))
  rw [← executed] at inForce
  rcases construction.run_cases placed parts inForce with ⟨earlier, below, defined⟩ | kept
  · refine ⟨_, defined, Or.inl ⟨rfl, ?_⟩⟩
    simpa [Nat.min_eq_left (Nat.le_of_lt within)] using below
  · obtain ⟨place, defined, different, above⟩ :=
      construction.defined_of_inherited wellFormed kept
    exact ⟨place, defined, Or.inr ⟨different, above⟩⟩

theorem Construction.precedes_of_reads (wellFormed : procedure.WellFormed)
    (construction : Construction procedure form phis exits naming) {place : Location}
    {statement : Statement} (found : form.statement? place = some statement)
    (machine : statement.isPhi = false) {used : VarId} (reads : used ∈ statement.usedVars) :
    form.definition? used = none ∨
      ∃ earlier, naming.Defined used earlier ∧ earlier.Precedes procedure.dominators place := by
  obtain ⟨instruction, isInstruction⟩ : ∃ instruction, statement.instruction = some instruction :=
    Option.isSome_iff_exists.mp (by simpa [Statement.isPhi] using machine)
  obtain ⟨environment, slots, before⟩ :=
    construction.exists_environment wellFormed found isInstruction
  obtain ⟨slot, filled, present⟩ := List.mem_filterMap.mp reads
  cases present
  obtain ⟨number, listed⟩ := List.getElem?_of_mem filled
  obtain ⟨_, _, supplies⟩ := getElem?_of_forall₂_right slots listed
  cases supplies with
  | counter recorded =>
      obtain ⟨_, known⟩ := construction.valid.counterFound recorded
      exact Or.inl (construction.definition?_of_external known)
  | register _ holds =>
      rcases holds with inForce | ⟨_, atEntry⟩
      · exact Or.inr (before _ _ inForce)
      · exact Or.inl (construction.definition?_of_external (construction.valid.entryFound atEntry))

end Construction

/-- The definition of a variable precedes every instruction that reads the variable. -/
theorem definition?_precedes_use {procedure : Procedure} (wellFormed : procedure.WellFormed)
    {place : Location} {statement definition : Statement} {used : VarId}
    (found : procedure.ssa.statement? place = some statement) (machine : statement.isPhi = false)
    (reads : used ∈ statement.usedVars)
    (defined : procedure.ssa.definition? used = some definition) :
    ∃ earlier, procedure.ssa.statement? earlier = some definition ∧
      earlier.Precedes procedure.dominators place := by
  obtain ⟨phis, exits, naming, construction⟩ := exists_construction wellFormed
  rcases construction.precedes_of_reads wellFormed found machine reads with
    missing | ⟨earlier, definedAt, precedes⟩
  · rw [missing] at defined
    cases defined
  · obtain ⟨other, otherDefined, listed⟩ := construction.definition?_iff.mp defined
    have same : other = earlier := by
      obtain ⟨named, known, isPlace⟩ := definedAt
      obtain ⟨otherNamed, otherKnown, isOther⟩ := otherDefined
      cases known.symm.trans otherKnown
      exact Option.some.inj (isOther.symm.trans isPlace)
    exact ⟨earlier, same ▸ listed, precedes⟩

end SymbolicFlow.Ssa
