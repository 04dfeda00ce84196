import Mathlib.Order.Bounds.Basic
import SymbolicFlow.Proofs.Ssa.SingleAssignment

/-!
# Where phis stand and what they merge

A block has a phi for a register just when it lies on the iterated dominance frontier of the blocks
that write the register.  `hasPhi_isLeast` says this with dominance as it stands on paths: the
blocks with a phi are the least set that holds the frontiers of the writers and of its own members.

Such a block is a place where several ways meet.  A phi has one slot for every edge into its block,
and one more for the way into the procedure from outside; a slot is empty only if nothing ever
comes over its edge, and two slots at least are filled.
-/

set_option autoImplicit false

namespace SymbolicFlow

/-- The dominance of `owner` ends at `node`: it holds for a predecessor but not strictly for the
node itself. -/
def Digraph.OnFrontier {α β : Type} (graph : Digraph α β) (entry owner node : NodeId) : Prop :=
  graph.Reachable entry owner ∧ graph.Reachable entry node ∧
    (∃ predecessor ∈ graph.predecessors node,
      graph.Reachable entry predecessor ∧ graph.Dominates entry owner predecessor) ∧
    ¬ graph.StrictlyDominates entry owner node

def Operand.Writes (operand : Operand) (register : Register) : Prop :=
  operand.access.writes = true ∧
    (operand.kind = .register register ∨ ∃ index, operand.kind = .indexedRegister register index)

theorem Operand.writes?_eq_some_iff {operand : Operand} {register : Register} :
    operand.writes? = some register ↔ operand.Writes register := by
  obtain ⟨kind, access⟩ := operand
  cases kind <;> simp [writes?, Writes]

namespace Procedure

variable (procedure : Procedure) (register : Register)

/-- An instruction of the block writes the register, through an operand or on the side.  The program
counter is never written. -/
def Writes (id : NodeId) : Prop :=
  register ≠ procedure.machine.programCounter ∧
    ∃ code, procedure.block? id = some code ∧ ∃ instruction ∈ code.instructions,
      (∃ operand ∈ instruction.operands, operand.Writes register) ∨
        register ∈ instruction.implicitWrites

/-- The blocks hold the frontiers of all writers of the register, and their own. -/
structure FrontierClosed (blocks : Set NodeId) : Prop where
  ofWriter : ∀ {writer node : NodeId}, procedure.Writes register writer →
    procedure.graph.OnFrontier procedure.entry writer node → node ∈ blocks
  again : ∀ {block node : NodeId}, block ∈ blocks →
    procedure.graph.OnFrontier procedure.entry block node → node ∈ blocks

def edgesInto (id : NodeId) : List (Edge Transfer) :=
  procedure.graph.edges.toList.filter fun edge => edge.target = id

/-- The slot is empty just when control never comes over the edge. -/
def Carries (edge : Edge Transfer) (slot : Option Ssa.VarId) : Prop :=
  slot = none ↔ ¬ procedure.graph.Reachable procedure.entry edge.source

/-- The phi brings together what arrives at the block in at least two ways. -/
structure Merges (id : NodeId) (phi : Ssa.Statement) : Prop where
  edges : id ≠ procedure.entry →
    List.Forall₂ procedure.Carries (procedure.edgesInto id) phi.slots
  /-- At the entry a slot for the way from outside stands before those of the edges. -/
  fromOutside : id = procedure.entry → ∃ var slots, phi.slots = some var :: slots ∧
    List.Forall₂ procedure.Carries (procedure.edgesInto id) slots
  several : 2 ≤ phi.usedVars.length
  apart : ∃ edge ∈ procedure.edgesInto id,
    procedure.graph.Reachable procedure.entry edge.source ∧
      (id = procedure.entry ∨ ∃ other ∈ procedure.edgesInto id,
        procedure.graph.Reachable procedure.entry other.source ∧ other.source ≠ edge.source)

end Procedure

namespace Ssa

def Form.HasPhi (form : Form) (register : Register) (id : NodeId) : Prop :=
  ∃ index phi, form.statement? ⟨id, index⟩ = some phi ∧ phi.isPhi = true ∧
    form.mergedRegister? phi = some register

section Placement

variable {procedure : Procedure} {register : Register} {id : NodeId}

theorem mem_writers_iff_writes (wellFormed : procedure.WellFormed) :
    id ∈ writers procedure register ↔ procedure.Writes register id := by
  simp only [mem_writers wellFormed, blockWrites, Instruction.writes, List.mem_flatMap,
    Array.mem_toList_iff, List.mem_filter, List.mem_append, List.mem_filterMap,
    Operand.writes?_eq_some_iff, decide_eq_true_iff, Procedure.Writes]
  grind

theorem mem_frontiers_iff_onFrontier (wellFormed : procedure.WellFormed) {owner node : NodeId} :
    node ∈ procedure.frontiers.getD owner [] ↔
      procedure.graph.OnFrontier procedure.entry owner node :=
  Digraph.mem_frontiers_dominatorTree wellFormed.graph wellFormed.entryExists owner node

theorem mem_phiBlocks_isLeast (wellFormed : procedure.WellFormed) :
    IsLeast {blocks : Set NodeId | procedure.FrontierClosed register blocks}
      {id | id ∈ phiBlocks procedure procedure.frontiers register} := by
  constructor
  · refine ⟨?_, ?_⟩
    · intro writer node writes onFrontier
      apply (mem_phiBlocks wellFormed).mpr
      exact .ofWriter ((mem_writers_iff_writes wellFormed).mpr writes)
        ((mem_frontiers_iff_onFrontier wellFormed).mpr onFrontier)
    · intro block node placed onFrontier
      apply (mem_phiBlocks wellFormed).mpr
      exact .again ((mem_phiBlocks wellFormed).mp placed)
        ((mem_frontiers_iff_onFrontier wellFormed).mpr onFrontier)
  · -- A closed set follows the iteration from the writers on.
    intro blocks closed id placed
    induction (mem_phiBlocks wellFormed).mp placed with
    | ofWriter writes onFrontier =>
        exact closed.ofWriter ((mem_writers_iff_writes wellFormed).mp writes)
          ((mem_frontiers_iff_onFrontier wellFormed).mp onFrontier)
    | again earlier onFrontier previous =>
        have before := previous ((mem_phiBlocks wellFormed).mpr earlier)
        exact closed.again before ((mem_frontiers_iff_onFrontier wellFormed).mp onFrontier)

end Placement

section Construction

variable {procedure : Procedure} {form : Form} {phis : PhiTable} {exits : Array Environment}
  {naming : Naming}

theorem Construction.hasPhi_iff (wellFormed : procedure.WellFormed)
    (construction : Construction procedure form phis exits naming) {register : Register}
    {id : NodeId} :
    form.HasPhi register id ↔ id ∈ phiBlocks procedure procedure.frontiers register := by
  constructor
  · intro hasPhi
    obtain ⟨index, phi, found, isPhi, merges⟩ := hasPhi
    obtain ⟨other, var, placed, sources, rfl, _⟩ := construction.exists_isPhi found isPhi
    cases (construction.mergedRegister?_phi placed sources).symm.trans merges
    exact construction.site.mp ⟨var, placed⟩
  · intro placed
    have inside := lt_of_mem_phiSites wellFormed ((mem_phiSites wellFormed).mpr placed)
    obtain ⟨var, listed⟩ := construction.site.mpr placed
    obtain ⟨block, foundBlock, isPhi, _⟩ := construction.exists_block inside
    obtain ⟨position, here⟩ := List.getElem?_of_mem listed
    obtain ⟨_, among, sources, rfl, _⟩ := getElem?_of_forall₂_left isPhi here
    have member : Statement.phi var sources ∈ block.statements :=
      Array.mem_toList_iff.mp ((List.takeWhile_subset _) (List.mem_of_getElem? among))
    obtain ⟨index, found⟩ := Array.getElem?_of_mem member
    refine ⟨index, _, ?_, rfl, construction.mergedRegister?_phi listed sources⟩
    exact Option.bind_eq_some_iff.mpr ⟨block, foundBlock, found⟩

theorem carries_of_arrives (wellFormed : procedure.WellFormed) {register : Register} {id : NodeId}
    {sources : List (Option VarId)}
    (arrive : List.Forall₂ (naming.Arrives register)
      ((procedure.predecessors id).map fun predecessor =>
        if procedure.dominators.isReachable predecessor then some (exits.getD predecessor [])
        else none) sources) :
    List.Forall₂ procedure.Carries (procedure.edgesInto id) sources := by
  rw [Procedure.predecessors, Digraph.predecessors_eq wellFormed.graph, List.map_map,
    List.forall₂_map_left_iff] at arrive
  refine arrive.imp ?_
  intro edge slot arrives
  have reachable : procedure.dominators.isReachable edge.source = true ↔
      procedure.graph.Reachable procedure.entry edge.source :=
    Digraph.isReachable_dominatorTree wellFormed.graph wellFormed.entryExists
  rw [Procedure.Carries, ← reachable]
  by_cases comes : procedure.dominators.isReachable edge.source = true
  · simp only [Function.comp_apply, if_pos comes] at arrives
    cases arrives
    simp [comes]
  · simp only [Function.comp_apply, if_neg comes] at arrives
    cases arrives
    simp [comes]

theorem exists_edgeInto (wellFormed : procedure.WellFormed) {id previous : NodeId}
    (leads : id ∈ procedure.graph.successors previous) :
    ∃ edge ∈ procedure.edgesInto id, edge.source = previous := by
  obtain ⟨edge, listed, leaves, arrives⟩ := (Digraph.mem_successors wellFormed.graph).mp leads
  refine ⟨edge, ?_, leaves⟩
  simpa [Procedure.edgesInto] using ⟨listed, arrives⟩

theorem exists_apart_of_owner (wellFormed : procedure.WellFormed) {id owner : NodeId}
    (owns : owner ∈ procedure.graph.frontierOwners procedure.dominators id) :
    ∃ edge ∈ procedure.edgesInto id, procedure.graph.Reachable procedure.entry edge.source ∧
      (id = procedure.entry ∨ ∃ other ∈ procedure.edgesInto id,
        procedure.graph.Reachable procedure.entry other.source ∧ other.source ≠ edge.source) := by
  obtain ⟨_, ⟨previous, leads, reachable, _⟩, _⟩ :=
    (Digraph.mem_frontierOwners wellFormed.graph wellFormed.entryExists).mp owns
  obtain ⟨edge, listed, rfl⟩ := exists_edgeInto wellFormed leads
  refine ⟨edge, listed, reachable, ?_⟩
  by_cases atEntry : id = procedure.entry
  · exact Or.inl atEntry
  · obtain ⟨second, alsoLeads, alsoReachable, different⟩ :=
      exists_ne_predecessor_of_owner wellFormed owns atEntry edge.source
    obtain ⟨other, alsoListed, rfl⟩ := exists_edgeInto wellFormed alsoLeads
    exact Or.inr ⟨other, alsoListed, alsoReachable, different⟩

theorem Construction.merges (wellFormed : procedure.WellFormed)
    (construction : Construction procedure form phis exits naming) {place : Location}
    {phi : Statement} (found : form.statement? place = some phi) (isPhi : phi.isPhi = true) :
    procedure.Merges place.block phi := by
  have several := construction.two_le_usedVars wellFormed found isPhi
  obtain ⟨register, var, placed, sources, rfl, arrive⟩ := construction.exists_isPhi found isPhi
  obtain ⟨owner, owns⟩ :=
    exists_owner_of_mem_phiBlocks wellFormed (construction.site.mp ⟨var, placed⟩)
  rw [arrivals] at arrive
  refine ⟨?_, ?_, several, exists_apart_of_owner wellFormed owns⟩
  · intro notEntry
    rw [if_neg notEntry, List.nil_append] at arrive
    exact carries_of_arrives wellFormed arrive
  · intro atEntry
    rw [if_pos atEntry] at arrive
    cases arrive with
    | cons first rest =>
        cases first with
        | @holds _ outside _ => exact ⟨outside, _, rfl, carries_of_arrives wellFormed rest⟩

end Construction

theorem merges_ssa {procedure : Procedure} (wellFormed : procedure.WellFormed) {place : Location}
    {phi : Statement} (found : procedure.ssa.statement? place = some phi)
    (isPhi : phi.isPhi = true) : procedure.Merges place.block phi := by
  obtain ⟨phis, exits, naming, construction⟩ := exists_construction wellFormed
  exact construction.merges wellFormed found isPhi

/-- The blocks with a phi for a register are the iterated dominance frontier of its writers. -/
theorem hasPhi_isLeast {procedure : Procedure} (built : procedure.Built) (register : Register) :
    IsLeast {blocks : Set NodeId | procedure.FrontierClosed register blocks}
      {id | procedure.ssa.HasPhi register id} := by
  have wellFormed := built.wellFormed
  obtain ⟨phis, exits, naming, construction⟩ := exists_construction wellFormed
  have same : {id | procedure.ssa.HasPhi register id} =
      {id | id ∈ phiBlocks procedure procedure.frontiers register} :=
    Set.ext fun _ => construction.hasPhi_iff wellFormed
  rw [same]
  exact mem_phiBlocks_isLeast wellFormed

end Ssa

/-! ## A procedure that goes round through two joins -/

namespace Crossroads

def start : Array Instruction :=
  #[{ address := 0, mnemonic := "mov", family := .move
      operands := [⟨.immediate 8, .read⟩, ⟨.register ⟨0⟩, .write⟩] }]

def left : Array Instruction :=
  #[{ address := 4, mnemonic := "add", family := .add
      operands := [⟨.register ⟨0⟩, .read⟩, ⟨.register ⟨1⟩, .readWrite⟩]
      implicitWrites := [⟨2⟩] }]

def right : Array Instruction :=
  #[{ address := 8, mnemonic := "call", family := .call, implicitWrites := [⟨15⟩] }]

def aside : Array Instruction :=
  #[{ address := 12, mnemonic := "mov", family := .move
      operands := [⟨.immediate 0, .read⟩, ⟨.register ⟨3⟩, .write⟩] }]

/-- The join 3 has two edges from block 1 and one from the block that is out of reach; the join 4
leads back to the entry. -/
def procedure : Procedure where
  name := "crossroads"
  machine := Countdown.machine
  entry := 0
  graph :=
    { nodes := #[⟨0, 0, false, start⟩, ⟨1, 1, false, left⟩, ⟨2, 2, false, right⟩,
        ⟨3, 3, false, #[]⟩, ⟨4, 4, false, #[]⟩, ⟨5, 5, false, aside⟩]
      edges := #[⟨0, 1, .indirect⟩, ⟨0, 2, .indirect⟩, ⟨0, 4, .indirect⟩, ⟨1, 3, .taken⟩,
        ⟨1, 3, .notTaken⟩, ⟨2, 3, .jump⟩, ⟨5, 3, .jump⟩, ⟨3, 4, .fallthrough⟩, ⟨4, 0, .jump⟩]
      outgoing := #[[0, 1, 2], [3, 4], [5], [7], [8], [6]]
      incoming := #[[8], [0], [1], [3, 4, 5, 6], [2, 7], []] }

theorem built : procedure.Built := by
  have blocks : Draft.Constructed (((((({ name := "crossroads", machine := Countdown.machine : Draft
      }.addBlock false start).addBlock false left).addBlock false right).addBlock false
      #[]).addBlock false #[]).addBlock false aside) :=
    .addBlock false _ (.addBlock false _ (.addBlock false _ (.addBlock false _
      (.addBlock false _ (.addBlock false _ (.start _ _))))))
  have forks := Draft.Constructed.addEdge 1 3 .notTaken (.addEdge 1 3 .taken (.addEdge 0 4 .indirect
    (.addEdge 0 2 .indirect (.addEdge 0 1 .indirect blocks rfl) rfl) rfl) rfl) rfl
  exact ⟨_, .addEdge 4 0 .jump (.addEdge 3 4 .fallthrough (.addEdge 5 3 .jump (.addEdge 2 3 .jump
    forks rfl) rfl) rfl) rfl, rfl⟩

end Crossroads

namespace Ssa

theorem hasPhi_isLeast_crossroads :
    Crossroads.procedure.Built ∧
      IsLeast {blocks : Set NodeId | Crossroads.procedure.FrontierClosed ⟨2⟩ blocks}
        {id | Crossroads.procedure.ssa.HasPhi ⟨2⟩ id} :=
  ⟨Crossroads.built, hasPhi_isLeast Crossroads.built ⟨2⟩⟩

/-- The registers 1 and 2 are merged at both joins and at the entry, what is written out of reach
nowhere. -/
example : Crossroads.procedure.ssa.blocks.toList.map
    (·.phis.map Crossroads.procedure.ssa.mergedRegister?) =
    [[some ⟨0⟩, some ⟨1⟩, some ⟨2⟩], [], [], [some ⟨1⟩, some ⟨2⟩], [some ⟨1⟩, some ⟨2⟩], []] := by
  decide +kernel

end Ssa

end SymbolicFlow
