import SymbolicFlow.Procedure
import SymbolicFlow.Proofs.Digraph.Representation

/-!
# Built procedures

A procedure is built from a draft that was made by the draft's own operations.  Of such a
procedure the rest of the theory uses three facts: its graph is well-formed, its entry exists,
and every block is kept under its own id.
-/

set_option autoImplicit false

namespace SymbolicFlow

/-- The drafts that can be made, starting from a name and a machine. -/
inductive Draft.Constructed : Draft → Prop where
  | start (name : String) (machine : Machine) : Constructed { name, machine }
  | globalBase {draft : Draft} (base : Nat) :
      Constructed draft → Constructed { draft with globalBase := base }
  | addBlock {draft : Draft} (padding : Bool) (instructions : Array Instruction) :
      Constructed draft → Constructed (draft.addBlock padding instructions)
  | pushInstruction {draft extended : Draft} (block : NodeId) (instruction : Instruction) :
      Constructed draft → draft.pushInstruction block instruction = .ok extended →
        Constructed extended
  | addEdge {draft extended : Draft} (source target : NodeId) (transfer : Transfer) :
      Constructed draft → draft.addEdge source target transfer = .ok extended →
        Constructed extended
  | setEntry {draft : Draft} (entry : NodeId) :
      Constructed draft → Constructed (draft.setEntry entry)

/-- The procedure is what building some draft yields. -/
def Procedure.Built (procedure : Procedure) : Prop :=
  ∃ draft : Draft, draft.Constructed ∧ draft.build = .ok procedure

def Digraph.BlocksInPlace (graph : Digraph Block Transfer) : Prop :=
  ∀ (id : NodeId) (block : Block), graph.nodes[id]? = some block → block.id = id

structure Procedure.WellFormed (procedure : Procedure) : Prop where
  graph : procedure.graph.WellFormed
  entryExists : procedure.entry < procedure.graph.nodeCount
  blocksInPlace : procedure.graph.BlocksInPlace

theorem Draft.pushInstruction_ok {draft extended : Draft} {block : NodeId}
    {instruction : Instruction} (success : draft.pushInstruction block instruction = .ok extended) :
    extended.graph = draft.graph.modifyNode block fun data =>
      { data with instructions := data.instructions.push instruction } := by
  rw [pushInstruction] at success
  split at success
  · cases success
    rfl
  · cases success

theorem Draft.addEdge_ok {draft extended : Draft} {source target : NodeId} {transfer : Transfer}
    (success : draft.addEdge source target transfer = .ok extended) :
    draft.graph.addEdge source target transfer = .ok extended.graph := by
  rw [Draft.addEdge] at success
  split at success
  · rename_i graph added
    cases success
    exact added
  · cases success

theorem Draft.Constructed.graph {draft : Draft} (constructed : draft.Constructed) :
    draft.graph.Constructed := by
  induction constructed with
  | start name machine => exact .empty
  | globalBase base _ previous => exact previous
  | addBlock padding instructions _ previous => exact previous.addNode _
  | pushInstruction block instruction _ success previous =>
      rw [Draft.pushInstruction_ok success]
      exact previous.modifyNode block _
  | addEdge source target transfer _ success previous =>
      exact previous.addEdge source target transfer (Draft.addEdge_ok success)
  | setEntry entry _ previous => exact previous

theorem Draft.Constructed.wellFormed {draft : Draft} (constructed : draft.Constructed) :
    draft.graph.WellFormed :=
  constructed.graph.wellFormed

theorem Draft.Constructed.blocksInPlace {draft : Draft} (constructed : draft.Constructed) :
    draft.graph.BlocksInPlace := by
  induction constructed with
  | start name machine =>
      intro id block found
      simp at found
  | globalBase base _ previous => exact previous
  | @addBlock draft padding instructions _ previous =>
      intro id block found
      have look : (draft.graph.nodes.push
          ⟨draft.graph.nodeCount, draft.globalBase + draft.graph.nodeCount, padding,
            instructions⟩)[id]? = some block := found
      rw [Array.getElem?_push] at look
      split at look
      · rename_i last
        cases look
        exact last.symm
      · exact previous id block look
  | @pushInstruction draft extended changed instruction _ success previous =>
      intro id block found
      rw [Draft.pushInstruction_ok success] at found
      simp only [Digraph.modifyNode, Array.getElem?_modify] at found
      split at found
      · obtain ⟨old, look, rfl⟩ := Option.map_eq_some_iff.mp found
        exact previous id old look
      · exact previous id block found
  | addEdge source target transfer _ success previous =>
      obtain ⟨_, _, shape⟩ := Digraph.addEdge_ok (Draft.addEdge_ok success)
      intro id block found
      rw [shape] at found
      exact previous id block found
  | setEntry entry _ previous => exact previous

theorem Draft.build_ok {draft : Draft} {procedure : Procedure}
    (success : draft.build = .ok procedure) :
    procedure.graph = draft.graph ∧ procedure.entry < procedure.graph.nodeCount := by
  simp only [build] at success
  split at success
  · cases success
  · split at success
    · cases success
    · rename_i _ entryExists
      split at success
      · cases success
      · cases success
        exact ⟨rfl, by lia⟩

theorem Procedure.Built.wellFormed {procedure : Procedure} (built : procedure.Built) :
    procedure.WellFormed := by
  obtain ⟨draft, constructed, success⟩ := built
  obtain ⟨sameGraph, entryExists⟩ := Draft.build_ok success
  refine ⟨?_, entryExists, ?_⟩
  · rw [sameGraph]
    exact constructed.wellFormed
  · rw [sameGraph]
    exact constructed.blocksInPlace

/-! ## A procedure with a loop -/

namespace Countdown

def machine : Machine where
  name := "toy"
  programCounter := ⟨15⟩
  registerName := fun register => "r" ++ toString register.number

def enter : Array Instruction :=
  #[{ address := 0, mnemonic := "mov", family := .move
      operands := [⟨.immediate 10, .read⟩, ⟨.register ⟨0⟩, .write⟩] },
    { address := 4, mnemonic := "lea", family := .lea
      operands := [⟨.relativeMemory { offset := 64 }, .read⟩, ⟨.register ⟨1⟩, .write⟩] }]

def loop : Array Instruction :=
  #[{ address := 8, mnemonic := "dec", family := .dec
      operands := [⟨.register ⟨0⟩, .readWrite⟩] },
    { address := 12, mnemonic := "add", family := .add
      operands := [⟨.memory { base := some ⟨1⟩, index := some ⟨0⟩, scale := 8 }, .read⟩,
        ⟨.register ⟨2⟩, .readWrite⟩] }]

def finish : Array Instruction :=
  #[{ address := 16, mnemonic := "mov", family := .move
      operands := [⟨.register ⟨2⟩, .read⟩, ⟨.register ⟨3⟩, .write⟩] }]

def procedure : Procedure where
  name := "countdown"
  machine := machine
  entry := 0
  graph :=
    { nodes := #[⟨0, 0, false, enter⟩, ⟨1, 1, false, loop⟩, ⟨2, 2, false, finish⟩]
      edges := #[⟨0, 1, .fallthrough⟩, ⟨1, 1, .taken⟩, ⟨1, 2, .notTaken⟩]
      outgoing := #[[0], [1, 2], []]
      incoming := #[[], [0, 1], [2]] }

theorem built : procedure.Built := by
  have blocks : Draft.Constructed ((({ name := "countdown", machine := machine : Draft}.addBlock
      false enter).addBlock false loop).addBlock false finish) :=
    .addBlock false _ (.addBlock false _ (.addBlock false _ (.start _ _)))
  exact ⟨_, .addEdge 1 2 .notTaken (.addEdge 1 1 .taken (.addEdge 0 1 .fallthrough blocks
    rfl) rfl) rfl, rfl⟩

end Countdown

/-! ## A procedure with a loop that is entered at two blocks -/

namespace SideDoor

/-- The loop of blocks 1 and 2 is left through padding; block 5 is out of reach. -/
def procedure : Procedure where
  name := "sidedoor"
  machine := Countdown.machine
  entry := 0
  graph :=
    { nodes := #[⟨0, 0, false, #[]⟩, ⟨1, 1, false, #[]⟩, ⟨2, 2, false, #[]⟩, ⟨3, 3, true, #[]⟩,
        ⟨4, 4, false, #[]⟩, ⟨5, 5, false, #[]⟩]
      edges := #[⟨0, 1, .taken⟩, ⟨0, 2, .notTaken⟩, ⟨1, 2, .jump⟩, ⟨2, 1, .taken⟩,
        ⟨2, 3, .notTaken⟩, ⟨3, 4, .fallthrough⟩, ⟨5, 1, .jump⟩]
      outgoing := #[[0, 1], [2], [3, 4], [5], [], [6]]
      incoming := #[[], [0, 3, 6], [1, 2], [4], [5], []] }

theorem built : procedure.Built := by
  have blocks : Draft.Constructed (((((({ name := "sidedoor", machine := Countdown.machine : Draft
      }.addBlock false #[]).addBlock false #[]).addBlock false #[]).addBlock true #[]).addBlock
      false #[]).addBlock false #[]) :=
    .addBlock false _ (.addBlock false _ (.addBlock true _ (.addBlock false _
      (.addBlock false _ (.addBlock false _ (.start _ _))))))
  have loop := Draft.Constructed.addEdge 2 1 .taken (.addEdge 1 2 .jump (.addEdge 0 2 .notTaken
    (.addEdge 0 1 .taken blocks rfl) rfl) rfl) rfl
  exact ⟨_, .addEdge 5 1 .jump (.addEdge 3 4 .fallthrough (.addEdge 2 3 .notTaken loop
    rfl) rfl) rfl, rfl⟩

end SideDoor

/-! ## Only the loop that is entered at two blocks -/

namespace TwoDoors

def procedure : Procedure where
  name := "twodoors"
  machine := Countdown.machine
  entry := 0
  graph :=
    { nodes := #[⟨0, 0, false, #[]⟩, ⟨1, 1, false, #[]⟩, ⟨2, 2, false, #[]⟩]
      edges := #[⟨0, 1, .taken⟩, ⟨0, 2, .notTaken⟩, ⟨1, 2, .jump⟩, ⟨2, 1, .jump⟩]
      outgoing := #[[0, 1], [2], [3]]
      incoming := #[[], [0, 3], [1, 2]] }

theorem built : procedure.Built := by
  have blocks : Draft.Constructed ((({ name := "twodoors", machine := Countdown.machine : Draft
      }.addBlock false #[]).addBlock false #[]).addBlock false #[]) :=
    .addBlock false _ (.addBlock false _ (.addBlock false _ (.start _ _)))
  exact ⟨_, .addEdge 2 1 .jump (.addEdge 1 2 .jump (.addEdge 0 2 .notTaken
    (.addEdge 0 1 .taken blocks rfl) rfl) rfl) rfl, rfl⟩

end TwoDoors

end SymbolicFlow
