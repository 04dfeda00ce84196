import Mathlib.Logic.Relation
import SymbolicFlow.Proofs.Analysis.Depth

/-!
# What a client is told

In an analysis the client is offered every machine instruction of the visited blocks, in the order
of the visits and then of the program.  It is shown the result of those that it accepts, before
the next one is offered, and is told when a block is done.  Whatever is shown is covered: all that
the instruction reads is bound, and its output, if the result is there, is bound to the result.
This holds whatever the client has declined before.

`transcript` is what a client is told along a run: the run is the same with a dialogue that hands
everything on to the client and writes it down, and its projection is the run of the client.
`Attends` says how a conversation goes that follows the rules, with the state of the client in
step, and `KeepsProtocol` that the transcript is such a conversation about the visited blocks.
-/

set_option autoImplicit false

namespace SymbolicFlow

open Ssa (Statement)

/-! ## Results -/

namespace Evaluation

/-- The result, if there is one, is the value of the statement's output. -/
def Delivers (statement : Statement) (result : Option ValueId) (after : Progress) : Prop :=
  ∀ value output, result = some value → statement.output? = some output →
    after.store.valueOf? output = some value

section Delivering

variable {policy : Policy} {resolve : VarId → Evaluation ValueId} {statement : Statement}

theorem delivers_none (after : Progress) : Delivers statement none after := by
  intro value output present
  cases present

theorem delivers_bindOutput (result : Option ValueId) (before : Progress) :
    Yields (bindOutput statement result) before (Delivers statement) := by
  cases result with
  | none => exact Yields.pure (delivers_none before)
  | some value =>
      rw [bindOutput]
      cases isOutput : statement.output? with
      | none =>
          apply Yields.pure
          intro _ output _ found
          rw [isOutput] at found
          cases found
      | some output =>
          intro bound other same found
          cases same
          cases isOutput.symm.trans found
          exact Store.valueOf?_bind_eq _ output value

theorem delivers_placeholderOutput (before : Progress) :
    Yields (placeholderOutput statement) before (Delivers statement) := by
  rw [placeholderOutput]
  cases isOutput : statement.output? with
  | none => exact Yields.pure (delivers_none before)
  | some output =>
      apply Yields.mapM_some
      intro bound other same found
      cases same
      cases isOutput.symm.trans found
      exact valueOf?_placeholder output before

theorem delivers_of_bind {α : Type} {evaluation : Evaluation α}
    {continuation : α → Evaluation (Option ValueId)}
    (rest : ∀ found after, Yields (continuation found) after (Delivers statement))
    (before : Progress) : Yields (evaluation >>= continuation) before (Delivers statement) :=
  rest _ _

theorem delivers_shiftOperands (instruction : Instruction) (operator : Operator)
    (before : Progress) :
    Yields (shiftOperands policy resolve statement instruction operator) before
      (Delivers statement) := by
  apply delivers_of_bind
  intro amount middle
  apply delivers_of_bind
  intro value after
  cases amount with
  | none => exact delivers_placeholderOutput after
  | some amount =>
      cases value with
      | none => exact delivers_placeholderOutput after
      | some value =>
          apply Yields.bind_ask
          split
          · exact delivers_of_bind (fun _ => delivers_placeholderOutput) after
          · exact delivers_of_bind (fun _ => delivers_bindOutput _) after

theorem delivers_evaluateInstruction (instruction : Instruction) (before : Progress) :
    Yields (evaluateInstruction policy resolve statement instruction) before
      (Delivers statement) := by
  apply Yields.bind_ask
  split
  · rename_i bound known
    apply Yields.pure
    intro value output same found
    cases same
    rw [found, Option.bind_some] at known
    exact known
  · apply delivers_of_bind
    intro _ reported
    have bound : ∀ evaluation : Evaluation (Option ValueId),
        Yields (evaluation >>= bindOutput statement) reported (Delivers statement) :=
      fun _ => delivers_of_bind delivers_bindOutput reported
    cases instruction.family with
    | shl => exact delivers_shiftOperands instruction .shiftLeft reported
    | sal => exact delivers_shiftOperands instruction .shiftLeft reported
    | shr => exact delivers_shiftOperands instruction .shiftRight reported
    | sar => exact delivers_shiftOperands instruction .shiftRight reported
    | move | add | sub | mul | div | xor | lea | inc | dec | sqrt => exact bound _
    | gather => exact delivers_none _
    | _ => exact delivers_placeholderOutput reported

theorem delivers_evaluate {setting : Setting} (orderly : setting.form.Orderly)
    (machine : statement.isPhi = false) (before : Progress) :
    Yields (evaluate setting statement) before (Delivers statement) := by
  unfold evaluate evaluateStatement
  cases found : statement.instruction with
  | none => simp [Statement.isPhi, found] at machine
  | some instruction =>
      apply Yields.bind (delivers_evaluateInstruction instruction before)
      intro result middle delivers value output same isOutput
      have performs : Performs (resolveVar setting) (· ∈ statement.usedVars)
          (fun _ => False) (resolveAll (resolveVar setting) statement.usedVars) :=
        performs_resolveAll _ fun _ reads => reads
      exact (performs.adds_notCyclic orderly middle).values (delivers value output same isOutput)

end Delivering

end Evaluation

/-! ## The same run in two dialogues -/

inductive Call where
  | offered (statement : Statement)
  | shown (statement : Statement) (result : Option ValueId) (store : Store)
  | left (block : Ssa.Block)

def Call.offered? : Call → Option Statement
  | .offered statement => some statement
  | _ => none

namespace Dialogue

variable {σ τ : Type}

/-- The states of two dialogues stay related by a map, whatever is asked or told. -/
structure Mirrors (view : σ → τ) (dialogue : Dialogue σ) (shadow : Dialogue τ) : Prop where
  accepts : ∀ own statement, shadow.accepts (view own) statement =
    Prod.map id view (dialogue.accepts own statement)
  observe : ∀ own statement result subject store,
    shadow.observe (view own) statement result subject store =
      Prod.map id view (dialogue.observe own statement result subject store)
  leave : ∀ own block, shadow.leave (view own) block = view (dialogue.leave own block)

variable {view : σ → τ} {dialogue : Dialogue σ} {shadow : Dialogue τ}

theorem Mirrors.visitStatement (mirrors : Mirrors view dialogue shadow) (state : Session × σ)
    (statement : Statement) :
    shadow.visitStatement (Prod.map id view state) statement =
      Prod.map id view (dialogue.visitStatement state statement) := by
  obtain ⟨session, own⟩ := state
  simp only [Dialogue.visitStatement, Prod.map, id_eq, mirrors.accepts, mirrors.observe]
  split
  · rfl
  · split <;> rfl

theorem Mirrors.visitStatements (mirrors : Mirrors view dialogue shadow)
    (statements : List Statement) (state : Session × σ) :
    statements.foldl shadow.visitStatement (Prod.map id view state) =
      Prod.map id view (statements.foldl dialogue.visitStatement state) := by
  induction statements generalizing state with
  | nil => rfl
  | cons statement statements ih =>
      rw [List.foldl_cons, mirrors.visitStatement, ih, List.foldl_cons]

theorem Mirrors.visitBlock (mirrors : Mirrors view dialogue shadow) (state : Session × σ)
    (block : Ssa.Block) :
    shadow.visitBlock (Prod.map id view state) block =
      Prod.map id view (dialogue.visitBlock state block) := by
  rw [Dialogue.visitBlock, mirrors.visitStatements]
  exact Prod.ext rfl (mirrors.leave _ block)

theorem Mirrors.visitBlocks (mirrors : Mirrors view dialogue shadow) (steps : Nat)
    (state : Session × σ) :
    shadow.visitBlocks steps (Prod.map id view state) =
      Prod.map id view (dialogue.visitBlocks steps state) := by
  induction steps generalizing state with
  | zero => rfl
  | succ steps ih =>
      obtain ⟨session, own⟩ := state
      simp only [Dialogue.visitBlocks, Prod.map, id_eq]
      split
      · rfl
      · split
        · exact ih (_, own)
        · exact (congrArg _ (mirrors.visitBlock (_, own) _)).trans (ih _)

end Dialogue

namespace Client

variable {σ : Type} {client : Client σ}

/-- The dialogue with a client, in which all that is said is written down. -/
def recorded (client : Client σ) : Dialogue (σ × List Call) where
  accepts := fun state statement =>
    (client.accepts state.1 statement, state.1, state.2 ++ [.offered statement])
  observe := fun state statement result subject store =>
    let (nodes, own) := client.observe state.1 statement result subject store
    (nodes, own, state.2 ++ [.shown statement result store])
  leave := fun state block => (client.leave state.1 block, state.2 ++ [.left block])

theorem mirrors_dialogue (client : Client σ) :
    Dialogue.Mirrors Prod.fst client.recorded client.dialogue :=
  ⟨fun _ _ => rfl, fun _ _ _ _ _ => rfl, fun _ _ => rfl⟩

theorem mirrors_recorded (client : Client σ) (earlier : List Call) :
    Dialogue.Mirrors (Prod.map id (earlier ++ ·)) client.recorded client.recorded := by
  refine ⟨?_, ?_, ?_⟩
  all_goals simp [recorded]

def statementCalls (client : Client σ) (state : Session × σ) (statement : Statement) : List Call :=
  (client.recorded.visitStatement (state.1, state.2, []) statement).2.2

def statementsCalls (client : Client σ) (state : Session × σ) (statements : List Statement) :
    List Call :=
  (statements.foldl client.recorded.visitStatement (state.1, state.2, [])).2.2

def blockCalls (client : Client σ) (state : Session × σ) (block : Ssa.Block) : List Call :=
  (client.recorded.visitBlock (state.1, state.2, []) block).2.2

def runCalls (client : Client σ) (steps : Nat) (state : Session × σ) : List Call :=
  (client.recorded.visitBlocks steps (state.1, state.2, [])).2.2

section Visit

variable (client : Client σ) (session : Session) (own : σ) {statement : Statement}

theorem visitStatement_of_phi (isPhi : statement.isPhi = true) :
    client.dialogue.visitStatement (session, own) statement =
        ((session.evaluate statement).2, own) ∧
      client.statementCalls (session, own) statement = [] := by
  simp only [statementCalls, Dialogue.visitStatement, isPhi, if_true, and_self]

theorem visitStatement_of_declined (machine : statement.isPhi = false)
    (declines : client.accepts own statement = false) :
    client.dialogue.visitStatement (session, own) statement = (session, own) ∧
      client.statementCalls (session, own) statement = [.offered statement] := by
  simp only [statementCalls, Dialogue.visitStatement, recorded, dialogue, machine, declines,
    Bool.false_eq_true, if_false, List.nil_append, and_self]

theorem visitStatement_of_accepted (machine : statement.isPhi = false)
    (accepts : client.accepts own statement = true) :
    let (result, evaluated) := session.evaluate statement
    let (nodes, next) := client.observe own statement result evaluated.subject evaluated.store
    client.dialogue.visitStatement (session, own) statement = (evaluated.addNodes nodes, next) ∧
      client.statementCalls (session, own) statement =
        [.offered statement, .shown statement result evaluated.store] := by
  simp only [statementCalls, Dialogue.visitStatement, recorded, dialogue, machine, accepts,
    if_true, Bool.false_eq_true, if_false, List.nil_append, List.cons_append, and_self]

end Visit

theorem recorded_visitStatement (state : Session × σ) (statement : Statement) :
    client.recorded.visitStatement (state.1, state.2, []) statement =
      ((client.dialogue.visitStatement state statement).1,
        (client.dialogue.visitStatement state statement).2,
        client.statementCalls state statement) := by
  have projected : client.dialogue.visitStatement state statement = _ :=
    client.mirrors_dialogue.visitStatement (state.1, state.2, []) statement
  rw [projected]
  rfl

theorem recorded_visitBlock (state : Session × σ) (block : Ssa.Block) :
    client.recorded.visitBlock (state.1, state.2, []) block =
      ((client.dialogue.visitBlock state block).1, (client.dialogue.visitBlock state block).2,
        client.blockCalls state block) := by
  have projected : client.dialogue.visitBlock state block = _ :=
    client.mirrors_dialogue.visitBlock (state.1, state.2, []) block
  rw [projected]
  rfl

theorem statementsCalls_after (state : Session × σ) (earlier : List Call)
    (statements : List Statement) :
    (statements.foldl client.recorded.visitStatement (state.1, state.2, earlier)).2.2 =
      earlier ++ client.statementsCalls state statements := by
  have added := (client.mirrors_recorded earlier).visitStatements statements (state.1, state.2, [])
  simp only [Prod.map, id_eq, List.append_nil] at added
  rw [added]
  rfl

theorem runCalls_after (steps : Nat) (state : Session × σ) (earlier : List Call) :
    (client.recorded.visitBlocks steps (state.1, state.2, earlier)).2.2 =
      earlier ++ client.runCalls steps state := by
  have added := (client.mirrors_recorded earlier).visitBlocks steps (state.1, state.2, [])
  simp only [Prod.map, id_eq, List.append_nil] at added
  rw [added]
  rfl

theorem statementsCalls_cons (state : Session × σ) (statement : Statement)
    (statements : List Statement) :
    client.statementsCalls state (statement :: statements) =
      client.statementCalls state statement ++
        client.statementsCalls (client.dialogue.visitStatement state statement) statements := by
  rw [statementsCalls, List.foldl_cons, recorded_visitStatement, statementsCalls_after]

theorem blockCalls_eq (state : Session × σ) (block : Ssa.Block) :
    client.blockCalls state block =
      client.statementsCalls state block.statements.toList ++ [.left block] :=
  rfl

theorem runCalls_of_none {session : Session} (steps : Nat) (own : σ)
    (nothing : session.nextBlock.1 = none) : client.runCalls (steps + 1) (session, own) = [] := by
  rw [runCalls, Dialogue.visitBlocks_of_none steps _ nothing]

theorem runCalls_of_some {session : Session} {id : NodeId} {block : Ssa.Block} (steps : Nat)
    (own : σ) (taken : session.nextBlock.1 = some id)
    (found : session.nextBlock.2.subject.form.block? id = some block) :
    client.runCalls (steps + 1) (session, own) =
      client.blockCalls (session.nextBlock.2, own) block ++
        client.runCalls steps (client.dialogue.visitBlock (session.nextBlock.2, own) block) := by
  rw [runCalls, Dialogue.visitBlocks_of_some steps _ taken found, recorded_visitBlock (_, own),
    runCalls_after]

def initial (client : Client σ) (procedure : Procedure) : Session × σ :=
  let session := Session.start (.ofProcedure procedure) client.policy
  (session, client.start session.subject session.store)

def transcript (client : Client σ) (procedure : Procedure) : List Call :=
  client.runCalls (procedure.blockCount + 1) (client.initial procedure)

def visited (client : Client σ) (procedure : Procedure) : List NodeId :=
  (client.analyse procedure).1.schedule.order.toList

/-! ## The rules -/

/-- The conversation about a list of instructions: each is offered, and shown if the client
accepts it.  Only what is shown changes the state of the client. -/
inductive Attends (client : Client σ) (subject : Subject) :
    List Statement → σ → List Call → σ → Prop where
  | done (own : σ) : Attends client subject [] own [] own
  | declined {statement : Statement} {statements : List Statement} {calls : List Call}
      {own last : σ} (declines : client.accepts own statement = false)
      (rest : Attends client subject statements own calls last) :
      Attends client subject (statement :: statements) own (.offered statement :: calls) last
  | accepted {statement : Statement} {statements : List Statement} {calls : List Call}
      {own last : σ} {result : Option ValueId} {store : Store}
      (accepts : client.accepts own statement = true)
      (rest : Attends client subject statements
        (client.observe own statement result subject store).2 calls last) :
      Attends client subject (statement :: statements) own
        (.offered statement :: .shown statement result store :: calls) last

/-- The conversation about a list of blocks: the machine statements of each, and then that it is
left. -/
inductive AttendsBlocks (client : Client σ) (subject : Subject) :
    List Ssa.Block → σ → List Call → σ → Prop where
  | done (own : σ) : AttendsBlocks client subject [] own [] own
  | block {block : Ssa.Block} {blocks : List Ssa.Block} {calls later : List Call}
      {own middle last : σ} (here : Attends client subject block.machineStatements own calls middle)
      (rest : AttendsBlocks client subject blocks (client.leave middle block) later last) :
      AttendsBlocks client subject (block :: blocks) own (calls ++ .left block :: later) last

end Client

def Procedure.instructionsOf (procedure : Procedure) (id : NodeId) : List Instruction :=
  ((procedure.block? id).map (·.instructions.toList)).getD []

/-- What a client can rely on in the analysis of a procedure. -/
structure Client.KeepsProtocol {σ : Type} (client : Client σ) (procedure : Procedure) : Prop where
  finished : (client.analyse procedure).1.nextBlock.1 = none
  visitedOnce : (client.visited procedure).Nodup
  attended : ∃ blocks, (client.visited procedure).map procedure.ssa.block? = blocks.map some ∧
    client.AttendsBlocks (.ofProcedure procedure) blocks (client.initial procedure).2
      (client.transcript procedure) (client.analyse procedure).2
  offered : ((client.transcript procedure).filterMap Call.offered?).map (·.instruction) =
    ((client.visited procedure).flatMap procedure.instructionsOf).map some
  covered : ∀ {statement : Statement} {result : Option ValueId} {store : Store},
    Call.shown statement result store ∈ client.transcript procedure →
      (∀ used ∈ statement.usedVars, store.isBound used = true) ∧
      ∀ value output, result = some value → statement.output? = some output →
        store.valueOf? output = some value

/-! ## Sessions in an analysis -/

namespace Client

variable {σ : Type} {client : Client σ} {procedure : Procedure}

inductive Turn (client : Client σ) (procedure : Procedure) : Session → Session → Prop where
  | evaluate (session : Session) {place : Ssa.Location} {statement : Statement}
      (placed : procedure.ssa.statement? place = some statement) :
      Turn client procedure session (session.evaluate statement).2
  | answer (session : Session) (own : σ) (statement : Statement) (result : Option ValueId) :
      Turn client procedure session (session.addNodes
        (client.observe own statement result session.subject session.store).1)
  | nextBlock (session : Session) : Turn client procedure session session.nextBlock.2
  | report (session : Session) (events : List Event) :
      Turn client procedure session (session.report events)

abbrev Turns (client : Client σ) (procedure : Procedure) : Session → Session → Prop :=
  Relation.ReflTransGen (Turn client procedure)

/-- A result was shown at some moment between two sessions. -/
def Shows (client : Client σ) (procedure : Procedure) (first last : Session)
    (statement : Statement) (result : Option ValueId) (store : Store) : Prop :=
  ∃ place session, procedure.ssa.statement? place = some statement ∧ statement.isPhi = false ∧
    client.Turns procedure first session ∧ result = (session.evaluate statement).1 ∧
    store = (session.evaluate statement).2.store ∧
    client.Turns procedure (session.evaluate statement).2 last

theorem Shows.widen {earlier first last later : Session} {statement : Statement}
    {result : Option ValueId} {store : Store}
    (isShown : client.Shows procedure first last statement result store)
    (before : client.Turns procedure earlier first) (after : client.Turns procedure last later) :
    client.Shows procedure earlier later statement result store := by
  obtain ⟨place, session, placed, machine, soFar, isResult, isStore, rest⟩ := isShown
  exact ⟨place, session, placed, machine, before.trans soFar, isResult, isStore, rest.trans after⟩

theorem Turn.kept {earlier later : Session} (turn : Turn client procedure earlier later) :
    later.subject = earlier.subject ∧ later.policy = earlier.policy := by
  cases turn with
  | evaluate => exact ⟨rfl, rfl⟩
  | answer => exact ⟨rfl, rfl⟩
  | nextBlock => exact ⟨rfl, rfl⟩
  | report => exact ⟨rfl, rfl⟩

theorem kept_of_turns {earlier later : Session} (turns : client.Turns procedure earlier later) :
    later.subject = earlier.subject ∧ later.policy = earlier.policy := by
  induction turns with
  | refl => exact ⟨rfl, rfl⟩
  | tail _ turn ih => exact ⟨turn.kept.1.trans ih.1, turn.kept.2.trans ih.2⟩

/-- A run takes turns from one session to another, and shows what it shows in between. -/
structure Spans (client : Client σ) (procedure : Procedure) (first : Session) (calls : List Call)
    (last : Session) : Prop where
  turns : client.Turns procedure first last
  shown : ∀ {statement : Statement} {result : Option ValueId} {store : Store},
    Call.shown statement result store ∈ calls →
      client.Shows procedure first last statement result store

theorem Spans.of_turns {first last : Session} (turns : client.Turns procedure first last) :
    client.Spans procedure first [] last :=
  ⟨turns, fun member => absurd member List.not_mem_nil⟩

theorem Spans.append {first middle last : Session} {calls later : List Call}
    (here : client.Spans procedure first calls middle)
    (rest : client.Spans procedure middle later last) :
    client.Spans procedure first (calls ++ later) last where
  turns := here.turns.trans rest.turns
  shown := by
    intro statement result store member
    rcases List.mem_append.mp member with before | behind
    · exact (here.shown before).widen .refl rest.turns
    · exact (rest.shown behind).widen here.turns .refl

theorem spans_visitStatement (state : Session × σ) {place : Ssa.Location} {statement : Statement}
    (placed : procedure.ssa.statement? place = some statement) :
    client.Spans procedure state.1 (client.statementCalls state statement)
      (client.dialogue.visitStatement state statement).1 := by
  obtain ⟨session, own⟩ := state
  have evaluated : client.Turns procedure session (session.evaluate statement).2 :=
    .single (.evaluate session placed)
  cases isPhi : statement.isPhi with
  | true =>
      obtain ⟨visit, calls⟩ := client.visitStatement_of_phi session own isPhi
      rw [visit, calls]
      exact .of_turns evaluated
  | false =>
      cases accepts : client.accepts own statement with
      | true =>
          have answered : Turn client procedure _ _ := .answer
            (session.evaluate statement).2 own statement (session.evaluate statement).1
          obtain ⟨visit, calls⟩ := client.visitStatement_of_accepted session own isPhi accepts
          rw [visit, calls]
          refine ⟨evaluated.tail answered, ?_⟩
          intro other result store member
          simp only [List.mem_cons, Call.shown.injEq, List.not_mem_nil, reduceCtorEq, false_or,
            or_false] at member
          obtain ⟨rfl, rfl, rfl⟩ := member
          exact ⟨place, session, placed, isPhi, .refl, rfl, rfl, .single answered⟩
      | false =>
          obtain ⟨visit, calls⟩ := client.visitStatement_of_declined session own isPhi accepts
          rw [visit, calls]
          refine ⟨.refl, ?_⟩
          intro other result store member
          simp at member

theorem spans_visitStatements {statements : List Statement} (state : Session × σ)
    (placed : ∀ statement ∈ statements, ∃ place, procedure.ssa.statement? place = some statement) :
    client.Spans procedure state.1 (client.statementsCalls state statements)
      (statements.foldl client.dialogue.visitStatement state).1 := by
  induction statements generalizing state with
  | nil => exact .of_turns .refl
  | cons statement statements ih =>
      obtain ⟨place, found⟩ := placed statement List.mem_cons_self
      have rest := ih (client.dialogue.visitStatement state statement)
        fun other member => placed other (List.mem_cons_of_mem _ member)
      rw [statementsCalls_cons]
      exact (spans_visitStatement state found).append rest

theorem exists_place_of_mem {id : NodeId} {block : Ssa.Block}
    (found : procedure.ssa.block? id = some block) {statement : Statement}
    (member : statement ∈ block.statements.toList) :
    ∃ place, procedure.ssa.statement? place = some statement := by
  obtain ⟨first, rest, parts⟩ := List.append_of_mem member
  exact ⟨_, statement?_of_parts found parts⟩

theorem spans_visitBlock (state : Session × σ) {id : NodeId} {block : Ssa.Block}
    (found : procedure.ssa.block? id = some block) :
    client.Spans procedure state.1 (client.blockCalls state block)
      (client.dialogue.visitBlock state block).1 := by
  have body : client.Spans procedure state.1 (client.statementsCalls state block.statements.toList)
      (client.dialogue.visitBlock state block).1 :=
    spans_visitStatements state fun _ => exists_place_of_mem found
  refine ⟨body.turns, ?_⟩
  intro statement result store member
  rcases List.mem_append.mp member with here | last
  · exact body.shown here
  · simp at last

/-! ## Conversations -/

theorem attends_visitStatements {subject : Subject} (statements : List Statement)
    (state : Session × σ) (sameSubject : state.1.subject = subject) :
    client.Attends subject (statements.filter fun statement => !statement.isPhi) state.2
      (client.statementsCalls state statements)
      (statements.foldl client.dialogue.visitStatement state).2 := by
  induction statements generalizing state with
  | nil => exact .done _
  | cons statement statements ih =>
      obtain ⟨session, own⟩ := state
      have rest := ih (client.dialogue.visitStatement (session, own) statement)
      rw [statementsCalls_cons, List.foldl_cons]
      cases isPhi : statement.isPhi with
      | true =>
          rw [List.filter_cons_of_neg (by simp [isPhi])]
          obtain ⟨visit, calls⟩ := client.visitStatement_of_phi session own isPhi
          rw [visit] at rest
          rw [visit, calls]
          exact rest sameSubject
      | false =>
          rw [List.filter_cons_of_pos (by simp [isPhi])]
          cases accepts : client.accepts own statement with
          | true =>
              obtain ⟨visit, calls⟩ := client.visitStatement_of_accepted session own isPhi accepts
              rw [visit] at rest
              rw [visit, calls]
              subst sameSubject
              exact .accepted accepts (rest rfl)
          | false =>
              obtain ⟨visit, calls⟩ := client.visitStatement_of_declined session own isPhi accepts
              rw [visit] at rest
              rw [visit, calls]
              exact .declined accepts (rest sameSubject)

end Client

namespace Session

theorem nextBlock_of_after {procedure : Procedure} {session : Session} {requests : Nat}
    (subject : session.subject = .ofProcedure procedure)
    (scheduled : session.schedule = Schedule.after procedure requests) :
    session.nextBlock.1 = Schedule.answer procedure requests ∧
      session.nextBlock.2.schedule = Schedule.after procedure (requests + 1) ∧
      session.nextBlock.2.subject = .ofProcedure procedure := by
  obtain ⟨_, policy, progress, _⟩ := session
  cases subject
  cases scheduled
  exact ⟨rfl, rfl, rfl⟩

end Session

theorem Schedule.answer_of_answer_none {procedure : Procedure} {request later : Nat}
    (nothing : answer procedure request = none) (behind : request ≤ later) :
    answer procedure later = none := by
  rw [answer, after_of_answer_none nothing behind]
  exact nothing

namespace Client

variable {σ : Type} {client : Client σ} {procedure : Procedure}

/-- What a number of rounds does: the blocks that the schedule answers are attended, and the
session moves on with the schedule. -/
structure Rounds (client : Client σ) (procedure : Procedure) (requests steps : Nat)
    (state : Session × σ) : Prop where
  spans : client.Spans procedure state.1 (client.runCalls steps state)
    (client.dialogue.visitBlocks steps state).1
  schedule : (client.dialogue.visitBlocks steps state).1.schedule =
    Schedule.after procedure (requests + steps)
  attended : ∃ blocks, ((List.range' requests steps).filterMap (Schedule.answer procedure)).map
      procedure.ssa.block? = blocks.map some ∧
    client.AttendsBlocks (.ofProcedure procedure) blocks state.2 (client.runCalls steps state)
      (client.dialogue.visitBlocks steps state).2

section Round

variable {session : Session} {requests steps : Nat} (own : σ)
  (subject : session.subject = .ofProcedure procedure)
  (scheduled : session.schedule = Schedule.after procedure requests)
include subject scheduled

theorem Rounds.of_none (nothing : Schedule.answer procedure requests = none) :
    client.Rounds procedure requests (steps + 1) (session, own) := by
  obtain ⟨asked, advanced, _⟩ := Session.nextBlock_of_after subject scheduled
  have moved : client.Turns procedure session session.nextBlock.2 := .single (.nextBlock session)
  have rest : (List.range' requests (steps + 1)).filterMap (Schedule.answer procedure) = [] := by
    apply List.filterMap_eq_nil_iff.mpr
    intro later member
    exact Schedule.answer_of_answer_none nothing (List.mem_range'_1.mp member).1
  have stays : Schedule.after procedure (requests + 1) =
      Schedule.after procedure (requests + (steps + 1)) := by
    rw [Schedule.after_of_answer_none nothing (Nat.le_add_right requests 1),
      Schedule.after_of_answer_none nothing (Nat.le_add_right requests (steps + 1))]
  have noCalls : client.runCalls (steps + 1) (session, own) = [] :=
    runCalls_of_none steps own (asked.trans nothing)
  have unchanged : client.dialogue.visitBlocks (steps + 1) (session, own) =
      (session.nextBlock.2, own) :=
    Dialogue.visitBlocks_of_none steps own (asked.trans nothing)
  refine ⟨?_, ?_, [], ?_, ?_⟩
  · rw [noCalls, unchanged]
    exact .of_turns moved
  · rw [unchanged]
    exact advanced.trans stays
  · rw [rest]
    rfl
  · rw [noCalls, unchanged]
    exact .done own

theorem Rounds.of_some {id : NodeId} {block : Ssa.Block}
    (answered : Schedule.answer procedure requests = some id)
    (found : procedure.ssa.block? id = some block)
    (rest : client.Rounds procedure (requests + 1) steps
      (client.dialogue.visitBlock (session.nextBlock.2, own) block)) :
    client.Rounds procedure requests (steps + 1) (session, own) := by
  obtain ⟨asked, _, sameSubject⟩ := Session.nextBlock_of_after subject scheduled
  have moved : client.Turns procedure session session.nextBlock.2 := .single (.nextBlock session)
  have known : session.nextBlock.2.subject.form.block? id = some block := by
    rw [sameSubject]
    exact found
  have here : client.Spans procedure _ _ _ := spans_visitBlock (session.nextBlock.2, own) found
  have body : client.Attends (.ofProcedure procedure) block.machineStatements own
      (client.statementsCalls (session.nextBlock.2, own) block.statements.toList) _ :=
    attends_visitStatements _ (session.nextBlock.2, own) sameSubject
  obtain ⟨blocks, same, attends⟩ := rest.attended
  have calls : client.runCalls (steps + 1) (session, own) = _ :=
    runCalls_of_some steps own (asked.trans answered) known
  have visits : client.dialogue.visitBlocks (steps + 1) (session, own) = _ :=
    Dialogue.visitBlocks_of_some steps own (asked.trans answered) known
  refine ⟨?_, ?_, block :: blocks, ?_, ?_⟩
  · rw [calls, visits]
    exact ((Spans.of_turns moved).append here).append rest.spans
  · rw [visits, rest.schedule]
    congr 1
    omega
  · rw [List.range'_succ, List.filterMap_cons_some answered, List.map_cons, found, same]
    rfl
  · rw [calls, visits, blockCalls_eq, List.append_assoc, List.singleton_append]
    exact .block body attends

end Round

theorem rounds_visitBlocks (wellFormed : procedure.WellFormed) (steps : Nat) {requests : Nat}
    {session : Session} (own : σ) (subject : session.subject = .ofProcedure procedure)
    (scheduled : session.schedule = Schedule.after procedure requests) :
    client.Rounds procedure requests steps (session, own) := by
  induction steps generalizing session own requests with
  | zero => exact ⟨.of_turns .refl, scheduled, [], rfl, .done own⟩
  | succ steps ih =>
      cases answered : Schedule.answer procedure requests with
      | none => exact .of_none own subject scheduled answered
      | some id =>
          have reachable := Schedule.reachable_of_answer wellFormed answered
          obtain ⟨block, found⟩ := exists_block_of_reachable wellFormed reachable
          obtain ⟨_, advanced, sameSubject⟩ := Session.nextBlock_of_after subject scheduled
          have here : client.Spans procedure _ _ _ :=
            spans_visitBlock (session.nextBlock.2, own) found
          have kept := (kept_of_turns here.turns).1.trans sameSubject
          exact .of_some own subject scheduled answered found
            (ih _ kept ((Dialogue.schedule_visitBlock _ block).trans advanced))

theorem rounds_analyse (client : Client σ) (wellFormed : procedure.WellFormed) :
    client.Rounds procedure 0 (procedure.blockCount + 1) (client.initial procedure) :=
  rounds_visitBlocks wellFormed (procedure.blockCount + 1) _ rfl rfl

theorem schedule_analyse (client : Client σ) (wellFormed : procedure.WellFormed) :
    (client.analyse procedure).1.schedule =
      Schedule.after procedure (procedure.blockCount + 1) := by
  have whole := (rounds_analyse client wellFormed).schedule
  rw [Nat.zero_add] at whole
  exact whole

theorem spans_analyse (client : Client σ) (wellFormed : procedure.WellFormed) :
    client.Spans procedure (client.initial procedure).1 (client.transcript procedure)
      (client.analyse procedure).1 := by
  have rounds := (rounds_analyse client wellFormed).spans
  have finished : client.Spans procedure
      (client.dialogue.visitBlocks (procedure.blockCount + 1) (client.initial procedure)).1 []
      (client.analyse procedure).1 := .of_turns (.single (.report _ _))
  have whole := rounds.append finished
  rw [List.append_nil] at whole
  exact whole

theorem visited_eq (client : Client σ) (wellFormed : procedure.WellFormed) :
    client.visited procedure =
      (List.range' 0 (procedure.blockCount + 1)).filterMap (Schedule.answer procedure) := by
  rw [visited, schedule_analyse client wellFormed, Schedule.order_after, List.range_eq_range']

theorem nodup_visited (client : Client σ) (wellFormed : procedure.WellFormed) :
    (client.visited procedure).Nodup := by
  have distinct := (Schedule.consistent_after wellFormed (procedure.blockCount + 1)).distinct
  rw [visited, schedule_analyse client wellFormed]
  exact (List.nodup_append.mp distinct).1

theorem reachable_of_mem_visited (wellFormed : procedure.WellFormed) {id : NodeId}
    (member : id ∈ client.visited procedure) : procedure.graph.Reachable procedure.entry id := by
  rw [visited_eq client wellFormed] at member
  obtain ⟨request, _, answered⟩ := List.mem_filterMap.mp member
  exact Schedule.reachable_of_answer wellFormed answered

theorem attended_analyse (client : Client σ) (wellFormed : procedure.WellFormed) :
    ∃ blocks, (client.visited procedure).map procedure.ssa.block? = blocks.map some ∧
      client.AttendsBlocks (.ofProcedure procedure) blocks (client.initial procedure).2
        (client.transcript procedure) (client.analyse procedure).2 := by
  rw [visited_eq client wellFormed]
  exact (rounds_analyse client wellFormed).attended

theorem Shows.covered (wellFormed : procedure.WellFormed) {last : Session} {statement : Statement}
    {result : Option ValueId} {store : Store}
    (isShown : client.Shows procedure (client.initial procedure).1 last statement result store) :
    (∀ used ∈ statement.usedVars, store.isBound used = true) ∧
      ∀ value output, result = some value → statement.output? = some output →
        store.valueOf? output = some value := by
  obtain ⟨place, session, _, machine, soFar, rfl, rfl, _⟩ := isShown
  have subject : session.subject = .ofProcedure procedure := (kept_of_turns soFar).1
  have orderly : session.setting.form.Orderly := by
    rw [Session.setting, subject]
    exact Ssa.orderly_ssa wellFormed
  constructor
  · intro used reads
    exact Evaluation.isBound_evaluate orderly machine reads session.progress
  · exact Evaluation.delivers_evaluate orderly machine session.progress

/-! ## Offers -/

theorem Attends.offered {subject : Subject} {statements : List Statement} {own last : σ}
    {calls : List Call} (attends : client.Attends subject statements own calls last) :
    calls.filterMap Call.offered? = statements := by
  induction attends with
  | done => rfl
  | declined _ _ ih => simp [Call.offered?, ih]
  | accepted _ _ ih => simp [List.filterMap_cons, Call.offered?, ih]

theorem AttendsBlocks.offered {subject : Subject} {blocks : List Ssa.Block} {own last : σ}
    {calls : List Call} (attends : client.AttendsBlocks subject blocks own calls last) :
    calls.filterMap Call.offered? = blocks.flatMap (·.machineStatements) := by
  induction attends with
  | done => rfl
  | block here _ ih =>
      rw [List.filterMap_append, List.filterMap_cons_none rfl, here.offered, ih,
        List.flatMap_cons]

theorem instructions_machineStatements (wellFormed : procedure.WellFormed) {id : NodeId}
    {block : Ssa.Block} (found : procedure.ssa.block? id = some block) :
    block.machineStatements.map (·.instruction) = (procedure.instructionsOf id).map some := by
  obtain ⟨_, _, _, construction⟩ := Ssa.exists_construction wellFormed
  have inside : id < procedure.blockCount :=
    Nat.lt_of_lt_of_eq (Array.getElem?_eq_some_iff.mp found).1 construction.size
  obtain ⟨_, alsoFound, _, code, _, _, isCode, _, _, renames, _⟩ := construction.exists_block inside
  cases found.symm.trans alsoFound
  rw [renames.instructions_eq, Procedure.instructionsOf, isCode]
  rfl

theorem instructions_flatMap (wellFormed : procedure.WellFormed) {ids : List NodeId}
    {blocks : List Ssa.Block} (same : ids.map procedure.ssa.block? = blocks.map some) :
    (blocks.flatMap (·.machineStatements)).map (·.instruction) =
      (ids.flatMap procedure.instructionsOf).map some := by
  induction ids generalizing blocks with
  | nil =>
      cases blocks with
      | nil => rfl
      | cons => cases same
  | cons id ids ih =>
      cases blocks with
      | nil => cases same
      | cons block blocks =>
          obtain ⟨found, rest⟩ := List.cons_eq_cons.mp same
          rw [List.flatMap_cons, List.map_append, List.flatMap_cons, List.map_append,
            instructions_machineStatements wellFormed found, ih rest]

/-- Every client of every analysis is told what the protocol says. -/
theorem keepsProtocol_of_built (client : Client σ) (built : procedure.Built) :
    client.KeepsProtocol procedure := by
  have wellFormed := built.wellFormed
  have scheduled := schedule_analyse client wellFormed
  have spans := spans_analyse client wellFormed
  obtain ⟨blocks, same, attends⟩ := attended_analyse client wellFormed
  refine ⟨?_, nodup_visited client wellFormed, ⟨blocks, same, attends⟩, ?_, ?_⟩
  · obtain ⟨requests, few, _, nothing⟩ := Schedule.exists_answer_none wellFormed
    have subject : (client.analyse procedure).1.subject = .ofProcedure procedure :=
      (kept_of_turns spans.turns).1
    rw [(Session.nextBlock_of_after subject scheduled).1]
    exact Schedule.answer_of_answer_none nothing (Nat.le_succ_of_le few)
  · rw [attends.offered]
    exact instructions_flatMap wellFormed same
  · intro statement result store member
    exact (spans.shown member).covered wellFormed

-- A client that declines every second instruction.
theorem keepsProtocol_countdown :
    Countdown.procedure.Built ∧ Client.KeepsProtocol
      { start := fun _ _ => ()
        accepts := fun _ statement => statement.address? = some 4 ∨ statement.address? = some 12 :
        Client Unit } Countdown.procedure :=
  ⟨Countdown.built, keepsProtocol_of_built _ Countdown.built⟩

end Client

end SymbolicFlow
