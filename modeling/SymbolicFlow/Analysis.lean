import SymbolicFlow.Evaluation
import SymbolicFlow.Schedule
import SymbolicFlow.Ssa.Renaming

/-!
# Analysing a procedure

A `Session` holds everything about one procedure: what was derived from it, the values found
so far, and how far the schedule has come.  At the start every read of the program counter is
bound to the address it sees.

A `Client` watches an analysis.  It chooses the instructions that it wants evaluated, is shown
each result, and may add nodes to the arena; bindings are out of its reach.  A run addresses it
through a `Dialogue`, so that another one can be put in its place that writes down what is said.
-/

set_option autoImplicit false

namespace SymbolicFlow

/-- A procedure with what is derived from it once for the whole analysis. -/
structure Subject where
  procedure : Procedure
  forest : LoopForest
  form : Ssa.Form

def Subject.ofProcedure (procedure : Procedure) : Subject where
  procedure := procedure
  forest := procedure.loops
  form := procedure.ssa

structure Session where
  subject : Subject
  policy : Policy
  progress : Progress
  schedule : Schedule

namespace Session

/-- Binds each read of the program counter to the address that it yields. -/
def seed (reads : Array (VarId × UInt64)) : Store :=
  reads.foldl
    (fun store (var, address) =>
      let (value, allocated) := store.immediate address.toInt64
      (allocated.bind var value).2)
    Store.empty

def start (subject : Subject) (policy : Policy) : Session where
  subject := subject
  policy := policy
  progress := { store := seed subject.form.counterReads }
  schedule := .start subject.procedure

def setting (session : Session) : Setting where
  form := session.subject.form
  policy := session.policy

def store (session : Session) : Store := session.progress.store

def label (session : Session) (var : VarId) : String :=
  session.subject.form.label session.subject.procedure.machine var

def render (session : Session) (value : ValueId) : String :=
  session.store.arena.render session.label value

def run {α : Type} (session : Session) (evaluation : Setting → Evaluation α) : α × Session :=
  let setting := session.setting
  let ⟨subject, policy, progress, schedule⟩ := session
  let (result, progress) := evaluation setting progress
  (result, ⟨subject, policy, progress, schedule⟩)

def evaluate (session : Session) (statement : Ssa.Statement) : Option ValueId × Session :=
  session.run fun setting => Evaluation.evaluate setting statement

def resolveVar (session : Session) (var : VarId) : ValueId × Session :=
  session.run fun setting => Evaluation.resolveVar setting var

def resolveOperand (session : Session) (statement : Ssa.Statement) (position : Nat) :
    Option ValueId × Session :=
  session.run fun setting => Evaluation.operand setting statement position

def addNodes (session : Session) (nodes : List Node) : Session :=
  let ⟨subject, policy, ⟨⟨arena, bindings⟩, events⟩, schedule⟩ := session
  ⟨subject, policy, ⟨⟨nodes.foldl Array.push arena, bindings⟩, events⟩, schedule⟩

def report (session : Session) (events : List Event) : Session :=
  let ⟨subject, policy, ⟨store, reported⟩, schedule⟩ := session
  ⟨subject, policy, ⟨store, events.foldl Array.push reported⟩, schedule⟩

def nextBlock (session : Session) : Option NodeId × Session :=
  let ⟨subject, policy, progress, schedule⟩ := session
  let (block, schedule, events) := schedule.next subject.procedure subject.forest
  (block, report ⟨subject, policy, progress, schedule⟩ events)

end Session

structure Client (σ : Type) where
  policy : Policy := {}
  start : Subject → Store → σ
  accepts : σ → Ssa.Statement → Bool := fun _ _ => true
  /-- Shows the client an instruction, its result and the store; the client answers with the
  nodes that it adds to the arena and its new state. -/
  observe : σ → Ssa.Statement → Option ValueId → Subject → Store → List Node × σ :=
    fun state _ _ _ _ => ([], state)
  leave : σ → Ssa.Block → σ := fun state _ => state

/-- What a run asks and tells.  Also a question may change the state. -/
structure Dialogue (σ : Type) where
  accepts : σ → Ssa.Statement → Bool × σ
  observe : σ → Ssa.Statement → Option ValueId → Subject → Store → List Node × σ
  leave : σ → Ssa.Block → σ

namespace Dialogue

variable {σ : Type}

/-- Evaluates one statement.  Phis are evaluated without asking. -/
def visitStatement (dialogue : Dialogue σ) (state : Session × σ) (statement : Ssa.Statement) :
    Session × σ :=
  let (session, own) := state
  if statement.isPhi then ((session.evaluate statement).2, own)
  else
    let (accepted, own) := dialogue.accepts own statement
    if accepted then
      let (result, evaluated) := session.evaluate statement
      let (nodes, own) := dialogue.observe own statement result evaluated.subject evaluated.store
      (evaluated.addNodes nodes, own)
    else (session, own)

def visitBlock (dialogue : Dialogue σ) (state : Session × σ) (block : Ssa.Block) : Session × σ :=
  let (session, own) := block.statements.toList.foldl dialogue.visitStatement state
  (session, dialogue.leave own block)

def visitBlocks (dialogue : Dialogue σ) : (steps : Nat) → Session × σ → Session × σ
  | 0, state => state
  | steps + 1, (session, own) =>
      match session.nextBlock with
      | (none, rest) => (rest, own)
      | (some id, rest) =>
          match rest.subject.form.block? id with
          | none => dialogue.visitBlocks steps (rest, own)
          | some block => dialogue.visitBlocks steps (dialogue.visitBlock (rest, own) block)

end Dialogue

namespace Client

variable {σ : Type}

def dialogue (client : Client σ) : Dialogue σ where
  accepts := fun own statement => (client.accepts own statement, own)
  observe := client.observe
  leave := client.leave

/-- Analyses a procedure: every block that can be visited is visited once, so one step more
than there are blocks is enough to see the end. -/
def analyse (client : Client σ) (procedure : Procedure) : Session × σ :=
  let session := Session.start (.ofProcedure procedure) client.policy
  let own := client.start session.subject session.store
  let (session, own) := client.dialogue.visitBlocks (procedure.blockCount + 1) (session, own)
  (session.report
      [.finished procedure.name session.schedule.order.size procedure.blockCount
        session.schedule.fallbacks session.store.arena.size], own)

def idle : Client Unit where
  start := fun _ _ => ()

end Client

end SymbolicFlow
