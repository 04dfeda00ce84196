import SymbolicFlow.Proofs.Procedure

/-!
# Edits in place

A graph or a draft is edited by one call after the other, and any of the calls may fail.  Here a
call is a program that writes into what it edits, field by field; what it wrote before a fault would
stay.  `outcome_program` shows that each program comes to the same as the function that yields the
edited graph or draft as a whole, and that a fault leaves no trace.  It rests on the checks coming
before the first write.

So whatever the calls and however many of them fail, the graph is one that can be constructed, and
its lists of edges are exact mirrors of each other.
-/

set_option autoImplicit false

namespace SymbolicFlow

/-! ## Programs that write into a state -/

/-- What was written before a fault stays written. -/
abbrev InPlace (σ : Type) := ExceptT Fault (StateM σ)

namespace InPlace

variable {σ ρ : Type}

def outcome (program : InPlace σ ρ) (state : σ) : Except Fault ρ × σ :=
  (ExceptT.run program).run state

@[simp] theorem outcome_pure (answer : ρ) (state : σ) :
    (pure answer : InPlace σ ρ).outcome state = (.ok answer, state) := rfl

@[simp] theorem outcome_throw (fault : Fault) (state : σ) :
    (throw fault : InPlace σ ρ).outcome state = (.error fault, state) := rfl

@[simp] theorem outcome_get (state : σ) :
    (get : InPlace σ σ).outcome state = (.ok state, state) := rfl

@[simp] theorem outcome_modify (change : σ → σ) (state : σ) :
    (modify change : InPlace σ PUnit).outcome state = (.ok ⟨⟩, change state) := rfl

@[simp] theorem outcome_liftExcept (result : Except Fault ρ) (state : σ) :
    (liftExcept result : InPlace σ ρ).outcome state = (result, state) := by
  cases result <;> rfl

@[simp] theorem outcome_bind {τ : Type} (first : InPlace σ τ) (next : τ → InPlace σ ρ) (state : σ) :
    (first >>= next).outcome state =
      match first.outcome state with
      | (.ok answer, after) => (next answer).outcome after
      | (.error fault, after) => (.error fault, after) := by
  simp only [outcome, ExceptT.run_bind, StateT.run_bind]
  rcases (ExceptT.run first).run state with ⟨_ | _, _⟩ <;> rfl

def runAll {ε : Type} (program : ε → InPlace σ ρ) (edits : List ε) (state : σ) : σ :=
  edits.foldl (fun state edit => ((program edit).outcome state).2) state

theorem runAll_induct {ε : Type} {program : ε → InPlace σ ρ} (property : σ → Prop)
    (kept : ∀ edit {state}, property state → property ((program edit).outcome state).2)
    (edits : List ε) {state : σ} (atStart : property state) :
    property (runAll program edits state) := by
  induction edits generalizing state with
  | nil => exact atStart
  | cons edit rest ih => exact ih (kept edit atStart)

/-- The outcome if a new state replaces the old one as a whole, or a fault leaves it alone. -/
def settle (state : σ) (answer : ρ) : Except Fault σ → Except Fault ρ × σ
  | .ok next => (.ok answer, next)
  | .error fault => (.error fault, state)

theorem settle_error_iff {state : σ} {answer : ρ} {result : Except Fault σ} {fault : Fault} :
    (settle state answer result).1 = .error fault ↔ result = .error fault := by
  cases result <;> simp [settle]

theorem settle_of_error {state : σ} {answer : ρ} {result : Except Fault σ} {fault : Fault}
    (failed : (settle state answer result).1 = .error fault) :
    (settle state answer result).2 = state := by
  rw [settle_error_iff.mp failed]
  rfl

theorem settle_induct {property : σ → Prop} {state : σ} {answer : ρ} {result : Except Fault σ}
    (before : property state) (kept : ∀ next, result = .ok next → property next) :
    property (settle state answer result).2 := by
  cases result with
  | ok next => exact kept next rfl
  | error fault => exact before

end InPlace

/-! ## Edits of a graph -/

namespace Digraph

variable {α β : Type}

inductive Edit (α β : Type) where
  | addNode (label : α)
  | addEdge (source target : NodeId) (label : β)
  | modifyNode (node : NodeId) (change : α → α)

namespace Edit

def requireNode (side : EdgeEnd) (node : NodeId) : InPlace (Digraph α β) Unit := do
  let count := (← get).nodeCount
  if count ≤ node then throw (.missingEndpoint side node count)

/-- The writes of an edit, one by one.  The answer is the id of the node or edge that was added or
changed; it is missing if there is no such node to change. -/
def program : Edit α β → InPlace (Digraph α β) (Option Nat)
  | addNode label => do
      let id := (← get).nodeCount
      modify fun graph => { graph with nodes := graph.nodes.push label }
      modify fun graph => { graph with outgoing := graph.outgoing.push [] }
      modify fun graph => { graph with incoming := graph.incoming.push [] }
      return some id
  | addEdge source target label => do
      requireNode .source source
      requireNode .target target
      let id := (← get).edgeCount
      modify fun graph => { graph with edges := graph.edges.push ⟨source, target, label⟩ }
      modify fun graph => { graph with outgoing := graph.outgoing.modify source (· ++ [id]) }
      modify fun graph => { graph with incoming := graph.incoming.modify target (· ++ [id]) }
      return some id
  | modifyNode node change => do
      if (← get).hasNode node then
        modify fun graph => { graph with nodes := graph.nodes.modify node change }
        return some node
      else return none

def apply (graph : Digraph α β) : Edit α β → Except Fault (Digraph α β)
  | addNode label => .ok (graph.addNode label)
  | addEdge source target label => graph.addEdge source target label
  | modifyNode node change => .ok (graph.modifyNode node change)

def answer (graph : Digraph α β) : Edit α β → Option Nat
  | addNode _ => some graph.nodeCount
  | addEdge _ _ _ => some graph.edgeCount
  | modifyNode node _ => if node < graph.nodeCount then some node else none

theorem outcome_requireNode (side : EdgeEnd) (node : NodeId) (graph : Digraph α β) :
    (requireNode side node).outcome graph =
      if graph.nodeCount ≤ node then (.error (.missingEndpoint side node graph.nodeCount), graph)
      else (.ok (), graph) := by
  by_cases missing : graph.nodeCount ≤ node <;> simp [requireNode, missing]

theorem outcome_program (edit : Edit α β) (graph : Digraph α β) :
    edit.program.outcome graph = InPlace.settle graph (edit.answer graph) (edit.apply graph) := by
  cases edit with
  | addNode label => rfl
  | addEdge source target label =>
      -- Both checks come before the first write, so a fault finds the graph as it was.
      simp only [program, InPlace.outcome_bind, outcome_requireNode, apply, Digraph.addEdge]
      by_cases sourceMissing : graph.nodeCount ≤ source
      · simp only [sourceMissing, if_true, InPlace.settle]
      · by_cases targetMissing : graph.nodeCount ≤ target
        · simp only [sourceMissing, targetMissing, if_true, if_false, InPlace.settle]
        · simp only [sourceMissing, targetMissing, if_false]
          rfl
  | modifyNode node change =>
      simp only [program, InPlace.outcome_bind, InPlace.outcome_get, hasNode, apply, answer,
        InPlace.settle]
      by_cases found : node < graph.nodeCount
      · simp only [found, decide_true, if_true]
        rfl
      · have same := modifyNode_of_missing graph change (Nat.not_lt.mp found)
        simp only [found, decide_false, if_false, same]
        rfl

theorem constructed_outcome (edit : Edit α β) {graph : Digraph α β}
    (constructed : graph.Constructed) : (edit.program.outcome graph).2.Constructed := by
  rw [outcome_program]
  apply InPlace.settle_induct constructed
  intro edited success
  cases edit with
  | addNode label =>
      cases success
      exact constructed.addNode label
  | addEdge source target label => exact constructed.addEdge source target label success
  | modifyNode node change =>
      cases success
      exact constructed.modifyNode node change

/-- The edit yields no node or edge: it fails, or the node that it would change does not exist. -/
def Refused (edit : Edit α β) (graph : Digraph α β) : Prop :=
  ∀ id, (edit.program.outcome graph).1 ≠ .ok (some id)

theorem Refused.outcome_eq {edit : Edit α β} {graph : Digraph α β} (refused : edit.Refused graph) :
    (edit.program.outcome graph).2 = graph := by
  rw [Refused, outcome_program] at refused
  rw [outcome_program]
  cases edit with
  | addNode label => exact absurd rfl (refused graph.nodeCount)
  | addEdge source target label =>
      cases result : graph.addEdge source target label with
      | ok extended => simp [apply, result, answer, InPlace.settle] at refused
      | error fault => simp [apply, result, InPlace.settle]
  | modifyNode node change =>
      apply modifyNode_of_missing
      by_contra found
      simp [apply, answer, InPlace.settle, Nat.not_le.mp found] at refused

end Edit

def edited (graph : Digraph α β) (edits : List (Edit α β)) : Digraph α β :=
  InPlace.runAll Edit.program edits graph

theorem constructed_edited (edits : List (Edit α β)) : (empty.edited edits).Constructed :=
  InPlace.runAll_induct Constructed Edit.constructed_outcome edits .empty

structure Mirrored (graph : Digraph α β) : Prop extends WellFormed graph where
  outgoingAscends : ∀ node, (graph.outgoing.getD node []).Pairwise (· < ·)
  incomingAscends : ∀ node, (graph.incoming.getD node []).Pairwise (· < ·)
  /-- An edge is listed once at its source, once at its target and nowhere else. -/
  listedOnce : ∀ {id : EdgeId} {edge : Edge β}, graph.edges[id]? = some edge → ∀ node,
    (graph.outgoing.getD node []).count id = (if edge.source = node then 1 else 0) ∧
      (graph.incoming.getD node []).count id = if edge.target = node then 1 else 0
  mirrors : ∀ source target,
    (graph.successors source).count target = (graph.predecessors target).count source
  successorsInOrder : ∀ node, graph.successors node =
    (graph.edges.toList.filter fun edge => edge.source = node).map (·.target)
  predecessorsInOrder : ∀ node, graph.predecessors node =
    (graph.edges.toList.filter fun edge => edge.target = node).map (·.source)

theorem WellFormed.mirrored {graph : Digraph α β} (wellFormed : graph.WellFormed) :
    graph.Mirrored := by
  refine { wellFormed with
    outgoingAscends := ?_
    incomingAscends := ?_
    listedOnce := ?_
    mirrors := count_successors wellFormed
    successorsInOrder := successors_eq wellFormed
    predecessorsInOrder := predecessors_eq wellFormed }
  · intro node
    rw [wellFormed.outgoingExact]
    exact pairwise_edgesWith _
  · intro node
    rw [wellFormed.incomingExact]
    exact pairwise_edgesWith _
  · intro id edge found node
    rw [wellFormed.outgoingExact, wellFormed.incomingExact, count_edgesWith found,
      count_edgesWith found]
    simp

structure RefusesCleanly (graph : Digraph α β) : Prop where
  /-- In place an edit comes to what it yields as a whole. -/
  agrees : ∀ edit : Edit α β, edit.program.outcome graph =
    InPlace.settle graph (edit.answer graph) (edit.apply graph)
  edge : ∀ source target label,
    (∃ fault, ((Edit.addEdge source target label).program.outcome graph).1 = .error fault) ↔
      graph.nodeCount ≤ source ∨ graph.nodeCount ≤ target
  unchanged : ∀ edit : Edit α β, edit.Refused graph → (edit.program.outcome graph).2 = graph

theorem refusesCleanly (graph : Digraph α β) : graph.RefusesCleanly := by
  refine ⟨fun edit => edit.outcome_program graph, ?_, fun edit refused => refused.outcome_eq⟩
  intro source target label
  rw [Edit.outcome_program, ← addEdge_error_iff graph source target label]
  simp only [InPlace.settle_error_iff, Edit.apply]

end Digraph

/-! ## Edits of a draft -/

namespace Draft

inductive Edit where
  | addBlock (padding : Bool) (instructions : Array Instruction)
  | pushInstruction (block : NodeId) (instruction : Instruction)
  | addEdge (source target : NodeId) (transfer : Transfer)
  | setEntry (entry : NodeId)
  | setGlobalBase (base : Nat)

namespace Edit

/-- An edit of the graph of a draft.  The graph is written back also after a fault. -/
def inGraph (edit : Digraph.Edit Block Transfer) : InPlace Draft (Option Nat) := do
  let written := edit.program.outcome (← get).graph
  modify fun draft => { draft with graph := written.2 }
  liftExcept written.1

def program : Edit → InPlace Draft (Option NodeId)
  | addBlock padding instructions => do
      let draft ← get
      let index := draft.graph.nodeCount
      inGraph (.addNode ⟨index, draft.globalBase + index, padding, instructions⟩)
  | pushInstruction block instruction => do
      let changed ← inGraph (.modifyNode block fun data =>
        { data with instructions := data.instructions.push instruction })
      if changed.isNone then throw (.missingBlock block)
      return none
  | addEdge source target transfer => do
      let _ ← inGraph (.addEdge source target transfer)
      return none
  | setEntry entry => do
      modify fun draft => { draft with entry := some entry }
      return none
  | setGlobalBase base => do
      modify fun draft => { draft with globalBase := base }
      return none

def apply (draft : Draft) : Edit → Except Fault Draft
  | addBlock padding instructions => .ok (draft.addBlock padding instructions)
  | pushInstruction block instruction => draft.pushInstruction block instruction
  | addEdge source target transfer => draft.addEdge source target transfer
  | setEntry entry => .ok (draft.setEntry entry)
  | setGlobalBase base => .ok { draft with globalBase := base }

def answer (draft : Draft) : Edit → Option NodeId
  | addBlock _ _ => some draft.graph.nodeCount
  | _ => none

theorem outcome_inGraph (edit : Digraph.Edit Block Transfer) (draft : Draft) :
    (inGraph edit).outcome draft = ((edit.program.outcome draft.graph).1,
      { draft with graph := (edit.program.outcome draft.graph).2 }) := by
  simp [inGraph]

theorem outcome_program (edit : Edit) (draft : Draft) :
    edit.program.outcome draft = InPlace.settle draft (edit.answer draft) (edit.apply draft) := by
  cases edit with
  | addBlock padding instructions => rfl
  | pushInstruction block instruction =>
      simp only [program, InPlace.outcome_bind, outcome_inGraph, Digraph.Edit.outcome_program,
        Digraph.Edit.apply, Digraph.Edit.answer, InPlace.settle, apply, Draft.pushInstruction]
      by_cases found : block < draft.graph.nodeCount
      · simp [found, answer]
      · -- The graph is written back as it was.
        have same := fun change =>
          Digraph.modifyNode_of_missing draft.graph change (Nat.not_lt.mp found)
        simp [found, same]
  | addEdge source target transfer =>
      simp only [program, InPlace.outcome_bind, outcome_inGraph, Digraph.Edit.outcome_program,
        Digraph.Edit.apply, apply, Draft.addEdge]
      cases draft.graph.addEdge source target transfer with
      | ok extended => rfl
      | error fault => rfl
  | setEntry entry => rfl
  | setGlobalBase base => rfl

theorem constructed_outcome (edit : Edit) {draft : Draft} (constructed : draft.Constructed) :
    (edit.program.outcome draft).2.Constructed := by
  rw [outcome_program]
  apply InPlace.settle_induct constructed
  intro edited success
  cases edit with
  | addBlock padding instructions =>
      cases success
      exact constructed.addBlock padding instructions
  | pushInstruction block instruction => exact constructed.pushInstruction block instruction success
  | addEdge source target transfer => exact constructed.addEdge source target transfer success
  | setEntry entry =>
      cases success
      exact constructed.setEntry entry
  | setGlobalBase base =>
      cases success
      exact constructed.globalBase base

end Edit

def edited (draft : Draft) (edits : List Edit) : Draft :=
  InPlace.runAll Edit.program edits draft

theorem constructed_edited (name : String) (machine : Machine) (edits : List Edit) :
    (edited { name, machine } edits).Constructed :=
  InPlace.runAll_induct Constructed Edit.constructed_outcome edits (.start name machine)

structure RefusesCleanly (draft : Draft) : Prop where
  agrees : ∀ edit : Edit, edit.program.outcome draft =
    InPlace.settle draft (edit.answer draft) (edit.apply draft)
  edge : ∀ source target transfer,
    (∃ fault, ((Edit.addEdge source target transfer).program.outcome draft).1 = .error fault) ↔
      draft.graph.nodeCount ≤ source ∨ draft.graph.nodeCount ≤ target
  instruction : ∀ block instruction,
    (∃ fault, ((Edit.pushInstruction block instruction).program.outcome draft).1 = .error fault) ↔
      draft.graph.nodeCount ≤ block
  unchanged : ∀ (edit : Edit) (fault : Fault), (edit.program.outcome draft).1 = .error fault →
    (edit.program.outcome draft).2 = draft

theorem addEdge_error_iff {draft : Draft} {source target : NodeId} {transfer : Transfer}
    {fault : Fault} :
    draft.addEdge source target transfer = .error fault ↔
      draft.graph.addEdge source target transfer = .error fault := by
  rw [Draft.addEdge]
  cases draft.graph.addEdge source target transfer <;> simp

theorem pushInstruction_error_iff (draft : Draft) (block : NodeId) (instruction : Instruction) :
    (∃ fault, draft.pushInstruction block instruction = .error fault) ↔
      draft.graph.nodeCount ≤ block := by
  rw [Draft.pushInstruction]
  split
  · rename_i found
    simp [Nat.not_le.mpr found]
  · rename_i missing
    simp [Nat.not_lt.mp missing]

theorem refusesCleanly (draft : Draft) : draft.RefusesCleanly := by
  refine ⟨fun edit => edit.outcome_program draft, ?_, ?_, ?_⟩
  · intro source target transfer
    rw [Edit.outcome_program, ← Digraph.addEdge_error_iff draft.graph source target transfer]
    simp only [InPlace.settle_error_iff, Edit.apply, addEdge_error_iff]
  · intro block instruction
    rw [Edit.outcome_program, ← pushInstruction_error_iff draft block instruction]
    simp only [InPlace.settle_error_iff, Edit.apply]
  · intro edit fault failed
    rw [Edit.outcome_program] at failed ⊢
    exact InPlace.settle_of_error failed

end Draft

/-- After any edits, failed ones among them, a graph lists each edge exactly once at its source and
once at its target, in order of insertion, and edits that are refused leave it as it was.  The same
holds for the graph of a draft. -/
theorem edited_mirrored {α β : Type} :
    (∀ edits : List (Digraph.Edit α β),
      (Digraph.empty.edited edits).Mirrored ∧ (Digraph.empty.edited edits).RefusesCleanly) ∧
    ∀ (name : String) (machine : Machine) (edits : List Draft.Edit),
      (Draft.edited { name, machine } edits).graph.Mirrored ∧
        (Draft.edited { name, machine } edits).RefusesCleanly := by
  constructor
  · intro edits
    exact ⟨(Digraph.constructed_edited edits).wellFormed.mirrored, Digraph.refusesCleanly _⟩
  · intro name machine edits
    exact ⟨(Draft.constructed_edited name machine edits).wellFormed.mirrored,
      Draft.refusesCleanly _⟩

-- The two edges that come before their node leave no gap in the ids of the others.
example :
    ((Digraph.empty : Digraph Unit Unit).edited [.addNode (), .addEdge 0 1 (), .addEdge 0 0 (),
      .addEdge 1 0 (), .addNode (), .addEdge 0 1 (), .addEdge 0 1 ()]).incoming =
      #[[0], [1, 2]] := by
  decide

end SymbolicFlow
