import SymbolicFlow.Proofs.Ssa.Construction

/-!
# Variables along a path

Renaming goes down the dominator tree and never follows an edge, yet it is right for every path:
whatever blocks a path runs through, at its end every register holds the variable that the last
block left behind, so each operand names the definition that was executed last.

The reason is the placement of phis.  Where a block has no phi for a register, all blocks
between it and its immediate dominator that lie above one of its predecessors have it on their
frontier.  None of them changes the register, so over every edge the block receives what its
dominator left behind.
-/

set_option autoImplicit false

namespace SymbolicFlow.Ssa

open Naming

def inherited (tree : DominatorTree) (exits : Array Environment) (block : NodeId) : Environment :=
  match tree.parent? block with
  | none => []
  | some dominator => exits.getD dominator []

def Form.mergedRegister? (form : Form) (phi : Statement) : Option Register :=
  (phi.output?.bind form.var?).map (·.register)

/-! ## One block -/

theorem foldl_execute_phis {form : Form} {naming : Naming} (within : naming.Within form)
    {arriving : List (Option Environment)} {phis : List (Register × VarId)}
    {statements : List Statement} (isPhi : List.Forall₂ (IsPhi naming arriving) phis statements)
    (named : ∀ phi ∈ phis, ∃ version definition,
      naming.vars[phi.2]? = some ⟨phi.1, version, definition⟩)
    {latest : Latest} {environment : Environment}
    (agree : ∀ register, (∃ var, (register, var) ∈ phis) ∨
      latest register = environment.get? register) :
    statements.foldl form.execute latest =
      (phis.foldl (fun environment (register, var) => environment.set register var)
        environment).get? := by
  induction isPhi generalizing latest environment with
  | nil =>
      funext register
      simpa using agree register
  | @cons phi statement phis statements first _ ih =>
      obtain ⟨sources, rfl, _⟩ := first
      obtain ⟨version, definition, found⟩ := named phi List.mem_cons_self
      have known := within _ _ found
      refine ih (fun other member => named other (List.mem_cons_of_mem _ member)) ?_
      intro register
      have assigned : form.execute latest (Statement.phi phi.2 sources) register =
          if register = phi.1 then some phi.2 else latest register := by
        simp only [Form.execute, Statement.phi, List.foldl_cons, List.foldl_nil, Form.assign, known,
          Option.map_some, Option.some.injEq, eq_comm]
      rw [assigned, RegisterMap.get?_set]
      by_cases same : register = phi.1
      · simp [same]
      · rw [if_neg same, if_neg same]
        refine (agree register).imp_left ?_
        rintro ⟨var, member⟩
        rcases List.mem_cons.mp member with rfl | behind
        · exact absurd rfl same
        · exact ⟨var, behind⟩

section Construction

variable {procedure : Procedure} {form : Form} {phis : PhiTable} {exits : Array Environment}
  {naming : Naming}

theorem Construction.phis_named (construction : Construction procedure form phis exits naming)
    (block : NodeId) : ∀ phi ∈ phis.getD block [], ∃ version definition,
      naming.vars[phi.2]? = some ⟨phi.1, version, definition⟩ := by
  intro phi member
  obtain ⟨index, listed⟩ := List.getElem?_of_mem member
  obtain ⟨version, found⟩ := construction.phiVar listed
  exact ⟨version, _, found⟩

theorem Construction.mergedRegister?_phi
    (construction : Construction procedure form phis exits naming) {id : NodeId}
    {register : Register} {var : VarId} (placed : (register, var) ∈ phis.getD id [])
    (sources : List (Option VarId)) :
    form.mergedRegister? (Statement.phi var sources) = some register := by
  obtain ⟨version, definition, found⟩ := construction.phis_named id _ placed
  simp [Form.mergedRegister?, Statement.output?, Statement.phi, construction.within _ _ found]

theorem Block.parts_of_append {block : Block} {statements body : List Statement}
    (parts : block.statements.toList = statements ++ body)
    (phisFirst : ∀ statement ∈ statements, statement.isPhi = true)
    (machine : ∀ statement ∈ body, statement.isPhi = false) :
    block.phis = statements ∧ block.machineStatements = body := by
  constructor
  · rw [Block.phis, parts, List.takeWhile_append_of_pos phisFirst]
    cases body with
    | nil => simp
    | cons first rest => simp [machine first List.mem_cons_self]
  · rw [Block.machineStatements, parts, List.filter_append,
      List.filter_eq_nil_iff.mpr (by simpa using phisFirst), List.nil_append,
      List.filter_eq_self.mpr (by simpa using machine)]

theorem isPhi_of_forall₂ {naming : Naming} {arriving : List (Option Environment)}
    {phis : List (Register × VarId)} {statements : List Statement}
    (isPhi : List.Forall₂ (IsPhi naming arriving) phis statements) :
    ∀ statement ∈ statements, statement.isPhi = true := by
  intro statement member
  obtain ⟨index, listed⟩ := List.getElem?_of_mem member
  obtain ⟨_, _, sources, rfl, _⟩ := getElem?_of_forall₂_right isPhi listed
  rfl

/-- A finished block is made of its phis, which are those placed there, and its machine statements,
which are the renamed instructions. -/
theorem Construction.exists_parts (construction : Construction procedure form phis exits naming)
    {id : NodeId} (inside : id < procedure.blockCount) :
    ∃ block, form.block? id = some block ∧ block.id = id ∧
      block.statements.toList = block.phis ++ block.machineStatements ∧
      List.Forall₂ (IsPhi naming (arrivals procedure procedure.dominators exits id))
        (phis.getD id []) block.phis ∧
      BlockRun procedure phis exits naming id block.machineStatements := by
  obtain ⟨statements, body, found, isPhi, run⟩ := construction.block id inside
  have machine : ∀ statement ∈ body, statement.isPhi = false := by
    obtain ⟨_, _, _, _, _, _, renames, _⟩ := run
    exact renames.machine
  have parts : (⟨id, (statements ++ body).toArray⟩ : Block).statements.toList =
      statements ++ body := rfl
  obtain ⟨blockPhis, blockMachine⟩ := Block.parts_of_append parts (isPhi_of_forall₂ isPhi) machine
  refine ⟨_, found, rfl, ?_, ?_, ?_⟩
  · rw [blockPhis, blockMachine]
  · rw [blockPhis]
    exact isPhi
  · rw [blockMachine]
    exact run

theorem Construction.exists_block (construction : Construction procedure form phis exits naming)
    {id : NodeId} (inside : id < procedure.blockCount) :
    ∃ block, form.block? id = some block ∧
      List.Forall₂ (IsPhi naming (arrivals procedure procedure.dominators exits id))
        (phis.getD id []) block.phis ∧
      BlockRun procedure phis exits naming id block.machineStatements := by
  obtain ⟨block, found, _, _, facts⟩ := construction.exists_parts inside
  exact ⟨block, found, facts⟩

theorem Construction.enter_eq (construction : Construction procedure form phis exits naming)
    {id : NodeId} {block : Block}
    (isPhi : List.Forall₂ (IsPhi naming (arrivals procedure procedure.dominators exits id))
      (phis.getD id []) block.phis)
    {latest : Latest} (agree : ∀ register, (∃ var, (register, var) ∈ phis.getD id []) ∨
      latest register = (inherited procedure.dominators exits id).get? register) :
    form.enter latest block =
      (startEnvironment procedure.dominators phis exits id).get? :=
  foldl_execute_phis construction.within isPhi (construction.phis_named id) agree

theorem Construction.leave_eq (construction : Construction procedure form phis exits naming)
    {id : NodeId} {block : Block}
    (isPhi : List.Forall₂ (IsPhi naming (arrivals procedure procedure.dominators exits id))
      (phis.getD id []) block.phis)
    (run : BlockRun procedure phis exits naming id block.machineStatements)
    {latest : Latest} (agree : ∀ register, (∃ var, (register, var) ∈ phis.getD id []) ∨
      latest register = (inherited procedure.dominators exits id).get? register) :
    form.leave latest block = (exits.getD id []).get? := by
  obtain ⟨code, first, last, _, _, _, renames, grows⟩ := run
  rw [Form.leave, construction.enter_eq isPhi agree]
  exact renames.executes (construction.within.of_extends grows)

/-! ## One edge -/

theorem get?_foldl_set_of_notMem {phis : List (Register × VarId)} {register : Register}
    (missing : ¬ ∃ var, (register, var) ∈ phis) (environment : Environment) :
    (phis.foldl (fun environment (register, var) => environment.set register var)
      environment).get? register = environment.get? register := by
  induction phis generalizing environment with
  | nil => rfl
  | cons phi phis ih =>
      have other : register ≠ phi.1 := fun same => missing ⟨phi.2, by simp [same]⟩
      rw [List.foldl_cons, ih fun ⟨var, member⟩ => missing ⟨var, List.mem_cons_of_mem _ member⟩]
      exact RegisterMap.get?_set_of_ne _ _ other

theorem Construction.exits_of_quiet (wellFormed : procedure.WellFormed)
    (construction : Construction procedure form phis exits naming) {id : NodeId}
    (inside : id < procedure.blockCount) {register : Register}
    (notWriter : id ∉ writers procedure register)
    (notPlaced : id ∉ phiBlocks procedure procedure.frontiers register) :
    (exits.getD id []).get? register =
      (inherited procedure.dominators exits id).get? register := by
  obtain ⟨_, body, _, _, code, first, last, found, _, _, renames, _⟩ :=
    construction.block id inside
  have unwritten : ∀ instruction ∈ code.instructions.toList,
      register ∉ instruction.writes procedure.machine.programCounter := by
    intro instruction member writes
    refine notWriter ((mem_writers wellFormed).mpr ⟨code, found, ?_⟩)
    exact List.mem_flatMap.mpr ⟨instruction, member, writes⟩
  rw [renames.untouched unwritten]
  exact get?_foldl_set_of_notMem (mt construction.site.mp notPlaced) _

/-- A block above the source of an edge has the target on its frontier unless it is strictly
above the target; so if the target has no phi, it hands the register on. -/
theorem Construction.exits_of_above (wellFormed : procedure.WellFormed)
    (construction : Construction procedure form phis exits naming) {last next id : NodeId}
    (reachable : procedure.graph.Reachable procedure.entry last)
    (edge : next ∈ procedure.graph.successors last) {register : Register}
    (missing : next ∉ phiBlocks procedure procedure.frontiers register)
    (above : procedure.dominators.parents.Above id last)
    (notAbove : ¬ (procedure.dominators.parents.Above id next ∧ id ≠ next)) :
    (exits.getD id []).get? register =
      (inherited procedure.dominators exits id).get? register := by
  have inRange := wellFormed.entryExists
  have rooted := Digraph.rooted_dominatorTree wellFormed.graph inRange
  have recorded := rooted.recorded_of_above above
    ((Digraph.recorded_dominatorTree_iff wellFormed.graph inRange).mpr reachable)
  have inside :=
    ((Digraph.recorded_dominatorTree_iff wellFormed.graph inRange).mp recorded).lt
      wellFormed.graph inRange
  have nextReachable := reachable.step edge
  have owns := (Digraph.mem_frontierOwners wellFormed.graph inRange).mpr
    ⟨nextReachable, ⟨last, edge, reachable, above⟩, notAbove⟩
  have onFrontier := Digraph.mem_frontiers.mpr
    ⟨inside, nextReachable.lt wellFormed.graph inRange, owns⟩
  obtain ⟨notWriter, notPlaced⟩ := quiet_of_not_mem_phiBlocks wellFormed missing onFrontier
  exact construction.exits_of_quiet wellFormed inside notWriter notPlaced

theorem inherited_of_parent {id parent : NodeId} (notEntry : id ≠ procedure.entry)
    (found : procedure.dominators.parents.parent? id = some parent) :
    inherited procedure.dominators exits id = exits.getD parent [] := by
  rw [inherited, DominatorTree.parent?_eq_some_iff.mpr ⟨notEntry, found⟩]

theorem inherited_entry : inherited procedure.dominators exits procedure.entry = [] := by
  have noParent : procedure.dominators.parent? procedure.entry = none := if_pos rfl
  rw [inherited, noParent]

/-- If control can go back to the entry and the entry has no phi, the register still has its
entry value. -/
theorem Construction.exits_of_edge_entry (wellFormed : procedure.WellFormed)
    (construction : Construction procedure form phis exits naming) {last : NodeId}
    (reachable : procedure.graph.Reachable procedure.entry last)
    (edge : procedure.entry ∈ procedure.graph.successors last) {register : Register}
    (missing : procedure.entry ∉ phiBlocks procedure procedure.frontiers register)
    {id : NodeId} (fromEntry : procedure.dominators.parents.Above procedure.entry id)
    (above : procedure.dominators.parents.Above id last) :
    (exits.getD id []).get? register = none := by
  have rooted := Digraph.rooted_dominatorTree wellFormed.graph wellFormed.entryExists
  have atEntry : (exits.getD procedure.entry []).get? register = none := by
    rw [construction.exits_of_above wellFormed reachable edge missing (fromEntry.trans above)
      fun strict => strict.2 rfl, inherited_entry]
    rfl
  induction fromEntry with
  | self => exact atEntry
  | @up id parent found _ ih =>
      by_cases same : id = procedure.entry
      · rw [same]
        exact atEntry
      · rw [construction.exits_of_above wellFormed reachable edge missing above
          fun strict => same (rooted.eq_entry_of_above strict.1), inherited_of_parent same found]
        exact ih ((ParentTable.Above.up found .self).trans above)

theorem Construction.exits_of_edge_dominator (wellFormed : procedure.WellFormed)
    (construction : Construction procedure form phis exits naming) {last next dominator : NodeId}
    (reachable : procedure.graph.Reachable procedure.entry last)
    (edge : next ∈ procedure.graph.successors last) {register : Register}
    (missing : next ∉ phiBlocks procedure procedure.frontiers register)
    (found : procedure.dominators.parents.parent? next = some dominator)
    {id : NodeId} (fromDominator : procedure.dominators.parents.Above dominator id)
    (above : procedure.dominators.parents.Above id last) :
    (exits.getD id []).get? register = (exits.getD dominator []).get? register := by
  have rooted := Digraph.rooted_dominatorTree wellFormed.graph wellFormed.entryExists
  induction fromDominator with
  | self => rfl
  | @up id parent step rest ih =>
      by_cases same : id = dominator
      · rw [same]
      · have below : procedure.dominators.parents.Above dominator id := .up step rest
        -- Strictly above `next` would mean above the dominator and below it at once.
        have notAbove : ¬ (procedure.dominators.parents.Above id next ∧ id ≠ next) := by
          rintro ⟨aboveNext, different⟩
          have lower := rooted.rank_le below
          rcases rooted.eq_or_rank_lt (aboveNext.of_ne different found) with equal | higher
          · exact same equal
          · omega
        have notEntry : id ≠ procedure.entry := by
          rintro rfl
          exact same (rooted.eq_entry_of_above below).symm
        rw [construction.exits_of_above wellFormed reachable edge missing above notAbove,
          inherited_of_parent notEntry step]
        exact ih ((ParentTable.Above.up step .self).trans above)

/-- Over every edge a register without a phi arrives as the immediate dominator left it. -/
theorem Construction.exits_of_edge (wellFormed : procedure.WellFormed)
    (construction : Construction procedure form phis exits naming) {last next : NodeId}
    (reachable : procedure.graph.Reachable procedure.entry last)
    (edge : next ∈ procedure.graph.successors last) {register : Register}
    (missing : next ∉ phiBlocks procedure procedure.frontiers register) :
    (exits.getD last []).get? register =
      (inherited procedure.dominators exits next).get? register := by
  have inRange := wellFormed.entryExists
  by_cases toEntry : next = procedure.entry
  · subst toEntry
    have recorded := (Digraph.recorded_dominatorTree_iff wellFormed.graph inRange).mpr reachable
    have fromEntry := (Digraph.rooted_dominatorTree wellFormed.graph inRange).entry_above recorded
    rw [construction.exits_of_edge_entry wellFormed reachable edge missing fromEntry .self,
      inherited_entry]
    rfl
  · obtain ⟨dominator, found, common⟩ := Digraph.exists_parent_dominatorTree wellFormed.graph
      inRange (reachable.step edge) toEntry
    have above := (common dominator).mp .self last edge reachable
    rw [inherited_of_parent toEntry found]
    exact construction.exits_of_edge_dominator wellFormed reachable edge missing found above .self

theorem Construction.agree_of_edge (wellFormed : procedure.WellFormed)
    (construction : Construction procedure form phis exits naming) {last next : NodeId}
    (reachable : procedure.graph.Reachable procedure.entry last)
    (edge : next ∈ procedure.graph.successors last) (register : Register) :
    (∃ var, (register, var) ∈ phis.getD next []) ∨ (exits.getD last []).get? register =
      (inherited procedure.dominators exits next).get? register := by
  by_cases placed : next ∈ phiBlocks procedure procedure.frontiers register
  · exact Or.inl (construction.site.mpr placed)
  · exact Or.inr (construction.exits_of_edge wellFormed reachable edge placed)

/-! ## Whole paths -/

theorem Construction.walk_eq (wellFormed : procedure.WellFormed)
    (construction : Construction procedure form phis exits naming) {nodes : List NodeId}
    {last : NodeId} (path : procedure.graph.Path procedure.entry nodes last) :
    form.walk nodes = (exits.getD last []).get? := by
  have inRange := wellFormed.entryExists
  induction path with
  | single =>
      obtain ⟨block, found, isPhi, run⟩ := construction.exists_block inRange
      rw [← List.nil_append [procedure.entry], form.walk_append [] procedure.entry found]
      refine construction.leave_eq isPhi run fun register => Or.inr ?_
      rw [inherited_entry]
      rfl
  | @step nodes last next path edge ih =>
      have reachable : procedure.graph.Reachable procedure.entry last := ⟨nodes, path⟩
      obtain ⟨block, found, isPhi, run⟩ := construction.exists_block
        ((reachable.step edge).lt wellFormed.graph inRange)
      rw [form.walk_append nodes next found, ih]
      exact construction.leave_eq isPhi run (construction.agree_of_edge wellFormed reachable edge)

/-- Behind its phis a block finds the environment in which it was renamed, on whatever path it
is reached. -/
theorem Construction.enter_walk (wellFormed : procedure.WellFormed)
    (construction : Construction procedure form phis exits naming) {earlier : List NodeId}
    {id : NodeId} (path : procedure.graph.Path procedure.entry (earlier ++ [id]) id)
    {block : Block}
    (isPhi : List.Forall₂ (IsPhi naming (arrivals procedure procedure.dominators exits id))
      (phis.getD id []) block.phis) :
    form.enter (form.walk earlier) block =
      (startEnvironment procedure.dominators phis exits id).get? := by
  refine construction.enter_eq isPhi fun register => ?_
  generalize parts : earlier ++ [id] = nodes at path
  cases path with
  | single =>
      have start : earlier = [] := by simpa using parts
      rw [start, inherited_entry]
      exact Or.inr rfl
  | @step nodes last _ path edge =>
      cases List.append_cancel_right parts
      rw [construction.walk_eq wellFormed path]
      exact construction.agree_of_edge wellFormed ⟨earlier, path⟩ edge register

theorem Construction.entryVar?_of_entry
    (construction : Construction procedure form phis exits naming) {register : Register}
    {var : VarId} (found : naming.entryValues.get? register = some var) :
    form.entryVar? register = some var := by
  obtain ⟨inside, here⟩ := Array.getElem?_eq_some_iff.mp (construction.valid.entryFound found)
  rw [Form.entryVar?, construction.vars, Array.findIdx?_eq_some_iff_getElem]
  refine ⟨inside, by simp [here], ?_⟩
  intro other before matches_
  simp only [Bool.decide_and, Bool.and_eq_true, decide_eq_true_eq] at matches_
  have entry := construction.valid.entryOnly
    (Array.getElem?_eq_getElem (Nat.lt_trans before inside)) matches_.2
  rw [matches_.1, found] at entry
  exact Nat.ne_of_gt before (Option.some.inj entry)

theorem Construction.current?_of_holds (construction : Construction procedure form phis exits naming)
    {environment : Environment} {register : Register} {var : VarId}
    (holds : naming.Holds environment register var) :
    form.current? environment.get? register = some var := by
  rw [Form.current?]
  rcases holds with found | ⟨missing, found⟩
  · rw [found, Option.some_or]
  · rw [missing, Option.none_or]
    exact construction.entryVar?_of_entry found

theorem getElem?_arrivals {id previous : NodeId} {edge : Nat}
    (listed : (procedure.predecessors id)[edge]? = some previous)
    (reachable : procedure.dominators.isReachable previous = true) :
    (arrivals procedure procedure.dominators exits id)[
        if id = procedure.entry then edge + 1 else edge]? =
      some (some (exits.getD previous [])) := by
  rw [arrivals]
  split
  · simp [listed, reachable]
  · simp [listed, reachable]

theorem Construction.merged (construction : Construction procedure form phis exits naming)
    {id : NodeId} {block : Block}
    (isPhi : List.Forall₂ (IsPhi naming (arrivals procedure procedure.dominators exits id))
      (phis.getD id []) block.phis) {phi : Statement} (member : phi ∈ block.phis) :
    ∃ register, form.mergedRegister? phi = some register ∧
      List.Forall₂ (naming.Arrives register) (arrivals procedure procedure.dominators exits id)
        phi.slots := by
  obtain ⟨index, here⟩ := List.getElem?_of_mem member
  obtain ⟨⟨register, var⟩, listed, sources, rfl, arrive⟩ := getElem?_of_forall₂_right isPhi here
  exact ⟨register, construction.mergedRegister?_phi (List.mem_of_getElem? listed) sources, arrive⟩

theorem Construction.exists_source (construction : Construction procedure form phis exits naming)
    {id : NodeId} {register : Register} {sources : List (Option VarId)}
    (arrive : List.Forall₂ (naming.Arrives register)
      (arrivals procedure procedure.dominators exits id) sources)
    {slot : Nat} {environment : Environment}
    (arrival : (arrivals procedure procedure.dominators exits id)[slot]? =
      some (some environment)) :
    ∃ var, sources[slot]? = some (some var) ∧
      form.current? environment.get? register = some var := by
  obtain ⟨source, here, arrives⟩ := getElem?_of_forall₂_left arrive arrival
  cases arrives with
  | @holds _ var holds => exact ⟨var, here, construction.current?_of_holds holds⟩

theorem Construction.block?_spec (construction : Construction procedure form phis exits naming)
    {id : NodeId} {block : Block} (found : form.block? id = some block) :
    List.Forall₂ (IsPhi naming (arrivals procedure procedure.dominators exits id))
        (phis.getD id []) block.phis ∧
      BlockRun procedure phis exits naming id block.machineStatements := by
  have inside : id < procedure.blockCount :=
    Nat.lt_of_lt_of_eq (Array.getElem?_eq_some_iff.mp found).1 construction.size
  obtain ⟨other, known, facts⟩ := construction.exists_block inside
  cases found.symm.trans known
  exact facts

theorem Construction.exists_operand (wellFormed : procedure.WellFormed)
    (construction : Construction procedure form phis exits naming) {register : Register}
    (notCounter : register ≠ procedure.machine.programCounter) {earlier : List NodeId}
    {id : NodeId} {block : Block}
    (path : procedure.graph.Path procedure.entry (earlier ++ [id]) id)
    (found : form.block? id = some block) {before after : List Statement} {statement : Statement}
    {instruction : Instruction} (parts : block.machineStatements = before ++ statement :: after)
    (machine : statement.instruction = some instruction) {slot : Nat}
    (reads : (instruction.slotReads procedure.machine.programCounter)[slot]? =
      some (some register)) :
    ∃ var, statement.slots[slot]? = some (some var) ∧
      form.current? (before.foldl form.execute (form.enter (form.walk earlier) block)) register =
        some var := by
  obtain ⟨isPhi, _, _, last, _, _, _, renames, grows⟩ := construction.block?_spec found
  obtain ⟨_, _, here, named, _, next, run, step, rest⟩ := renames.split parts
  cases machine.symm.trans step.same
  obtain ⟨filled, listed, supplies⟩ := getElem?_of_forall₂_left step.slots reads
  cases supplies with
  | counter _ => exact absurd rfl notCounter
  | @register _ var _ holds =>
      refine ⟨var, listed, ?_⟩
      have within := construction.within.of_extends (step.grows.trans (rest.trans grows))
      rw [construction.enter_walk wellFormed path isPhi, run.executes within]
      exact construction.current?_of_holds ((rest.trans grows).holds holds)

end Construction

/-- The form of a procedure is right along every path from the entry. -/
structure Form.FollowsPaths (form : Form) (procedure : Procedure) : Prop where
  instructions : ∀ {id : NodeId} {code : SymbolicFlow.Block}, procedure.block? id = some code →
    ∃ block, form.block? id = some block ∧
      block.machineStatements.map (·.instruction) = code.instructions.toList.map some
  /-- A slot of a machine statement that reads a register holds the variable that the register
  has just before the statement. -/
  operands : ∀ {register : Register}, register ≠ procedure.machine.programCounter →
    ∀ {earlier : List NodeId} {id : NodeId} {block : Block},
    procedure.graph.Path procedure.entry (earlier ++ [id]) id → form.block? id = some block →
    ∀ {before after : List Statement} {statement : Statement} {instruction : Instruction},
    block.machineStatements = before ++ statement :: after →
    statement.instruction = some instruction → ∀ {slot : Nat},
    (instruction.slotReads procedure.machine.programCounter)[slot]? = some (some register) →
    ∃ var, statement.slots[slot]? = some (some var) ∧
      form.current? (before.foldl form.execute (form.enter (form.walk earlier) block)) register =
        some var
  /-- A phi holds, for each edge over which a path arrives, the variable that its register has
  at the end of the block before.  At the entry one slot stands before those of the edges. -/
  phis : ∀ {nodes : List NodeId} {previous id : NodeId} {block : Block},
    procedure.graph.Path procedure.entry nodes previous → form.block? id = some block →
    ∀ phi ∈ block.phis, ∃ register, form.mergedRegister? phi = some register ∧
      ∀ {edge : Nat}, (procedure.predecessors id)[edge]? = some previous →
      ∃ var, phi.slots[if id = procedure.entry then edge + 1 else edge]? = some (some var) ∧
        form.current? (form.walk nodes) register = some var
  entryPhis : ∀ {block : Block}, form.block? procedure.entry = some block →
    ∀ phi ∈ block.phis, ∃ register, form.mergedRegister? phi = some register ∧
      ∃ var, phi.slots[0]? = some (some var) ∧ form.entryVar? register = some var

theorem ssa_followsPaths {procedure : Procedure} (built : procedure.Built) :
    procedure.ssa.FollowsPaths procedure := by
  have wellFormed := built.wellFormed
  obtain ⟨phis, exits, naming, construction⟩ := exists_construction wellFormed
  refine ⟨?_, ?_, ?_, ?_⟩
  · intro id code found
    obtain ⟨block, known, _, other, _, _, sameCode, _, _, renames, _⟩ :=
      construction.exists_block (Array.getElem?_eq_some_iff.mp found).1
    cases found.symm.trans sameCode
    exact ⟨block, known, renames.instructions_eq⟩
  · intro register notCounter earlier id block path found before after statement instruction
      parts machine slot reads
    exact construction.exists_operand wellFormed notCounter path found parts machine reads
  · intro nodes previous id block path found phi member
    obtain ⟨register, merges, arrive⟩ :=
      construction.merged (construction.block?_spec found).1 member
    refine ⟨register, merges, fun {edge} listed => ?_⟩
    have reachable := (Digraph.isReachable_dominatorTree wellFormed.graph
      wellFormed.entryExists).mpr ⟨nodes, path⟩
    rw [construction.walk_eq wellFormed path]
    exact construction.exists_source arrive (getElem?_arrivals listed reachable)
  · intro block found phi member
    obtain ⟨register, merges, arrive⟩ :=
      construction.merged (construction.block?_spec found).1 member
    have arrival : (arrivals procedure procedure.dominators exits procedure.entry)[0]? =
        some (some []) := by
      simp [arrivals]
    obtain ⟨var, here, current⟩ := construction.exists_source arrive arrival
    exact ⟨register, merges, var, here, current⟩

theorem ssa_followsPaths_countdown :
    Countdown.procedure.Built ∧ Countdown.procedure.ssa.FollowsPaths Countdown.procedure :=
  ⟨Countdown.built, ssa_followsPaths Countdown.built⟩

example : (Countdown.procedure.ssa.block? 1).map (·.phis.map (·.slots)) =
    some [[some 2, some 5], [some 8, some 6]] := by
  decide +kernel

end SymbolicFlow.Ssa
