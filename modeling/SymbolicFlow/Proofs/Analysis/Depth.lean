import SymbolicFlow.Analysis
import SymbolicFlow.Proofs.Evaluation.Acyclic
import SymbolicFlow.Proofs.Schedule.Precedence
import SymbolicFlow.Proofs.Ssa.Dominance

/-!
# An analysis of everything stays shallow

The depth limit bounds how many definitions may be in progress at a time.  A client that wants every
instruction evaluated never comes near it, however long the chains of definitions are.  When an
instruction is evaluated, the definition of each variable that it reads precedes it, so that one has
been evaluated before; it may have left its output unbound, but everything that it reads is bound.
One evaluation is then enough to resolve the variable.

`Covered` carries this through a run: at the places that have been passed, everything that an
instruction reads is bound.
-/

set_option autoImplicit false

namespace SymbolicFlow

open Ssa (Statement)

namespace Evaluation

/-- The definition of the variable, if there is one, waits for nothing. -/
def Near (form : Ssa.Form) (var : VarId) (progress : Progress) : Prop :=
  ∀ statement, form.definition? var = some statement →
    ∀ used, statement.Demands used → progress.store.isBound used = true

section Resolving

variable {setting : Setting} {var : VarId} {before : Progress}

theorem waitsFor?_eq_none {statement : Statement} {store : Store} (pending : List VarId)
    (bound : ∀ used, statement.Demands used → store.isBound used = true) :
    waitsFor? store pending statement = none := by
  unfold waitsFor?
  cases machine : statement.instruction with
  | none =>
      dsimp only
      split
      · rename_i source single
        have demands : statement.Demands source := ⟨by simp [single], fun _ => single⟩
        simp [bound source demands]
      · rfl
  | some instruction =>
      apply List.find?_eq_none.mpr
      intro used reads
      have demands : statement.Demands used :=
        ⟨reads, fun isPhi => by simp [Statement.isPhi, machine] at isPhi⟩
      simp [bound used demands]

theorem yields_walkStep_near (near : Near setting.form var before) :
    Yields (walkStep setting [var]) before fun rest after =>
      rest = [] ∧ Adds Event.NotTooDeep before after := by
  apply Yields.bind_ask
  split
  · exact Yields.pure ⟨rfl, .refl before⟩
  · cases defined : setting.form.definition? var with
    | none =>
        have reported : Adds Event.NotTooDeep before (report (.undefined var) before).2 :=
          .report (by simp [Event.NotTooDeep]) before
        exact ⟨rfl, reported.trans (.placeholder var _)⟩
    | some statement =>
        have bound := near statement defined
        apply Yields.bind_ask
        rw [waitsFor?_eq_none [var] bound]
        have evaluated := adds_evaluateStatement_settled
          (fun _ => Event.IsRoutine.notTooDeep) setting.policy bound
        exact ⟨rfl, evaluated.trans (.placeholder var _)⟩

theorem yields_resolveVar_near (near : Near setting.form var before) :
    Yields (resolveVar setting var) before fun _ after => Adds Event.NotTooDeep before after := by
  apply Yields.bind_ask
  cases before.store.valueOf? var with
  | some bound => exact Yields.pure (.refl before)
  | none =>
      -- The walk has at least two steps, and the second one finds nothing in progress.
      have walked : Yields (walk setting (2 * (setting.form.vars.size + 1)) [var]) before
          fun _ after => Adds Event.NotTooDeep before after := by
        apply Yields.bind (yields_walkStep_near near)
        intro rest middle stepped
        rw [stepped.1]
        exact stepped.2
      apply Yields.bind walked
      intro _ middle adds
      exact adds.trans (.placeholder var _)

theorem Near.of_adds {after : Progress} (near : Near setting.form var before)
    (adds : Adds Event.NotTooDeep before after) : Near setting.form var after :=
  fun statement defined used demands => adds.isBound (near statement defined used demands)

theorem adds_evaluate_near {statement : Statement}
    (near : ∀ used, statement.Demands used → Near setting.form used before) :
    Adds Event.NotTooDeep before (evaluate setting statement before).2 := by
  apply Adds.of_moves (Near setting.form) (fun _ => Event.IsRoutine.notTooDeep)
    (fun near adds => near.of_adds adds) (fun near => yields_resolveVar_near near)
    (performs_evaluateStatement setting.policy (resolveVar setting) statement before) near

/-! ## What is bound after an evaluation -/

theorem isBound_resolveVar (setting : Setting) (var : VarId) (before : Progress) :
    (resolveVar setting var before).2.store.isBound var = true := by
  have resolved : Yields (resolveVar setting var) before fun _ after =>
      after.store.isBound var = true := by
    apply Yields.bind_ask
    cases found : before.store.valueOf? var with
    | some bound => exact Yields.pure (Store.isBound_iff.mpr ⟨bound, found⟩)
    | none => exact isBound_placeholder var _
  exact resolved

theorem isBound_resolveAll (orderly : setting.form.Orderly) {vars : List VarId} {used : VarId}
    (member : used ∈ vars) (before : Progress) :
    (resolveAll (resolveVar setting) vars before).2.store.isBound used = true := by
  have kept : ∀ (rest : List VarId) (progress : Progress), progress.store.isBound used = true →
      (resolveAll (resolveVar setting) rest progress).2.store.isBound used = true := by
    intro rest progress bound
    have performs : Performs (resolveVar setting) (· ∈ rest) (fun _ => False)
        (resolveAll (resolveVar setting) rest) := performs_resolveAll rest fun _ listed => listed
    exact (performs.adds_notCyclic orderly progress).isBound bound
  induction vars generalizing before with
  | nil => cases member
  | cons first rest ih =>
      have step : Yields (resolveAll (resolveVar setting) (first :: rest)) before
          fun _ after => after.store.isBound used = true := by
        apply Yields.bind_ask
        split
        · rename_i bound
          cases member with
          | head => exact kept rest before bound
          | tail _ later => exact ih later before
        · cases member with
          | head => exact kept rest _ (isBound_resolveVar setting used before)
          | tail _ later => exact ih later _
      exact step

theorem isBound_evaluate (orderly : setting.form.Orderly) {statement : Statement}
    (machine : statement.isPhi = false) {used : VarId} (reads : used ∈ statement.usedVars)
    (before : Progress) :
    (evaluate setting statement before).2.store.isBound used = true := by
  unfold evaluate evaluateStatement
  cases found : statement.instruction with
  | none => simp [Statement.isPhi, found] at machine
  | some instruction => exact isBound_resolveAll orderly reads _

end Resolving

end Evaluation

/-! ## Runs -/

theorem notTooDeep_next (procedure : Procedure) (forest : LoopForest) (schedule : Schedule) :
    ∀ event ∈ (schedule.next procedure forest).2.2, event.NotTooDeep := by
  intro event member var limit same
  subst same
  cases waiting : schedule.queue.isEmpty with
  | false => simp [Schedule.next, waiting] at member
  | true =>
      have filled : Event.tooDeep var limit ∈ (schedule.refill procedure forest).2 := by
        simpa [Schedule.next, waiting] using member
      unfold Schedule.refill at filled
      split at filled
      · split at filled
        · split at filled
          · simp at filled
          · simp at filled
        · simp at filled
      · simp at filled

namespace Schedule

variable {procedure : Procedure} {requests : Nat} {id : NodeId}

theorem reachable_of_answer (wellFormed : procedure.WellFormed)
    (answered : answer procedure requests = some id) :
    procedure.graph.Reachable procedure.entry id := by
  have visited := (mem_order_succ answered).mpr (Or.inr rfl)
  exact (consistent_after wellFormed (requests + 1)).reachable id
    (List.mem_append_left _ (Array.mem_toList_iff.mpr visited))

/-- The blocks strictly above a block in the dominator tree are visited before it. -/
theorem mem_order_of_above (wellFormed : procedure.WellFormed)
    (answered : answer procedure requests = some id) {other : NodeId} (different : other ≠ id)
    (higher : procedure.dominators.parents.Above other id) :
    other ∈ (after procedure requests).order := by
  have visited := (mem_order_succ answered).mpr (Or.inr rfl)
  have dominates := (Digraph.above_dominatorTree_iff wellFormed.graph wellFormed.entryExists
    (reachable_of_answer wellFormed answered) other).mp higher
  have listed := mem_order_of_dominates wellFormed visited dominates
  exact ((mem_order_succ answered).mp listed).resolve_right different

end Schedule

/-- Everything that the instructions at the given places read is bound, and nothing has been too
deep so far. -/
structure Session.Covered (procedure : Procedure) (passed : Ssa.Location → Prop)
    (session : Session) : Prop where
  subject : session.subject = .ofProcedure procedure
  bound : ∀ place, passed place → ∀ statement, procedure.ssa.statement? place = some statement →
    statement.isPhi = false → ∀ used ∈ statement.usedVars, session.store.isBound used = true
  shallow : ∀ event ∈ session.progress.events, event.NotTooDeep

namespace Session.Covered

variable {procedure : Procedure} {passed : Ssa.Location → Prop} {session : Session}

theorem start (procedure : Procedure) (policy : Policy) :
    (Session.start (.ofProcedure procedure) policy).Covered procedure fun _ => False where
  subject := rfl
  bound := fun _ none => none.elim
  shallow := fun event member => absurd member (Array.not_mem_empty event)

theorem imp {fewer : Ssa.Location → Prop} (covered : session.Covered procedure passed)
    (implied : ∀ place, fewer place → passed place) : session.Covered procedure fewer where
  subject := covered.subject
  bound := fun place isPassed => covered.bound place (implied place isPassed)
  shallow := covered.shallow

theorem addNodes (covered : session.Covered procedure passed) (nodes : List Node) :
    (session.addNodes nodes).Covered procedure passed where
  subject := covered.subject
  bound := covered.bound
  shallow := covered.shallow

theorem report (covered : session.Covered procedure passed) {events : List Event}
    (harmless : ∀ event ∈ events, event.NotTooDeep) :
    (session.report events).Covered procedure passed where
  subject := covered.subject
  bound := covered.bound
  shallow := by
    intro event member
    have either : event ∈ session.progress.events ∨ event ∈ events := by
      simpa [Session.report] using member
    rcases either with old | new
    · exact covered.shallow event old
    · exact harmless event new

theorem near (wellFormed : procedure.WellFormed) (covered : session.Covered procedure passed)
    {place : Ssa.Location} {statement : Statement}
    (placed : procedure.ssa.statement? place = some statement)
    (preceded : ∀ earlier : Ssa.Location, earlier.Precedes procedure.dominators place →
      passed earlier) {used : VarId} (demands : statement.Demands used) :
    Evaluation.Near procedure.ssa used session.progress := by
  have orderly := Ssa.orderly_ssa wellFormed
  intro definition defined input needed
  obtain ⟨earlier, found, precedes⟩ := Ssa.definition?_precedes_use wellFormed placed
    (orderly.machine_of_demands placed demands) demands.1 defined
  exact covered.bound earlier (preceded earlier precedes) definition found
    (orderly.machine_of_demands found needed) input needed.1

theorem evaluate (wellFormed : procedure.WellFormed) (covered : session.Covered procedure passed)
    {place : Ssa.Location} {statement : Statement}
    (placed : procedure.ssa.statement? place = some statement)
    (preceded : ∀ earlier : Ssa.Location, earlier.Precedes procedure.dominators place →
      passed earlier) :
    (session.evaluate statement).2.Covered procedure fun other =>
      passed other ∨ other = place := by
  have sameForm : session.setting.form = procedure.ssa := by
    simp [Session.setting, covered.subject, Subject.ofProcedure]
  have orderly : session.setting.form.Orderly := by
    rw [sameForm]
    exact Ssa.orderly_ssa wellFormed
  have adds : Evaluation.Adds Event.NotTooDeep session.progress
      (session.evaluate statement).2.progress := by
    apply Evaluation.adds_evaluate_near
    intro used demands
    rw [sameForm]
    exact covered.near wellFormed placed preceded demands
  constructor
  · exact covered.subject
  · intro other isPassed found same machine used reads
    rcases isPassed with before | rfl
    · exact adds.isBound (covered.bound other before found same machine used reads)
    · rw [placed] at same
      cases same
      exact Evaluation.isBound_evaluate orderly machine reads session.progress
  · intro event member
    rcases adds.events event member with old | new
    · exact covered.shallow event old
    · exact new

theorem nextBlock (covered : session.Covered procedure passed) {requests : Nat}
    (scheduled : session.schedule = Schedule.after procedure requests) :
    session.nextBlock.1 = Schedule.answer procedure requests ∧
      session.nextBlock.2.schedule = Schedule.after procedure (requests + 1) ∧
      session.nextBlock.2.Covered procedure passed := by
  obtain ⟨subject, policy, progress, schedule⟩ := session
  obtain rfl : subject = .ofProcedure procedure := covered.subject
  obtain rfl : schedule = Schedule.after procedure requests := scheduled
  have reported := covered.report
    (notTooDeep_next procedure procedure.loops (Schedule.after procedure requests))
  exact ⟨rfl, rfl, reported.subject, reported.bound, reported.shallow⟩

end Session.Covered

namespace Client

variable {σ : Type} {client : Client σ} {procedure : Procedure}

theorem exists_block_of_reachable (wellFormed : procedure.WellFormed) {id : NodeId}
    (reachable : procedure.graph.Reachable procedure.entry id) :
    ∃ block, procedure.ssa.block? id = some block := by
  obtain ⟨_, _, _, construction⟩ := Ssa.exists_construction wellFormed
  have inside := reachable.lt wellFormed.graph wellFormed.entryExists
  exact ⟨_, Array.getElem?_eq_getElem (Nat.lt_of_lt_of_eq inside construction.size.symm)⟩

theorem statement?_of_parts {id : NodeId} {block : Ssa.Block}
    (found : procedure.ssa.block? id = some block) {first rest : List Statement}
    {statement : Statement} (parts : block.statements.toList = first ++ statement :: rest) :
    procedure.ssa.statement? ⟨id, first.length⟩ = some statement := by
  have known : procedure.ssa.blocks[id]? = some block := found
  rw [Ssa.Form.statement?, known, Option.bind_some, ← Array.getElem?_toList, parts]
  simp

theorem index_lt_of_statement? {place : Ssa.Location} {block : Ssa.Block}
    (found : procedure.ssa.block? place.block = some block) {statement : Statement}
    (placed : procedure.ssa.statement? place = some statement) :
    place.index < block.statements.size := by
  have known : procedure.ssa.blocks[place.block]? = some block := found
  rw [Ssa.Form.statement?, known, Option.bind_some] at placed
  exact (Array.getElem?_eq_some_iff.mp placed).1

end Client

namespace Dialogue

variable {σ : Type} {dialogue : Dialogue σ}

theorem schedule_visitStatement (state : Session × σ) (statement : Statement) :
    (dialogue.visitStatement state statement).1.schedule = state.1.schedule := by
  obtain ⟨session, own⟩ := state
  simp only [visitStatement]
  split
  · rfl
  · split
    · rfl
    · rfl

theorem schedule_visitBlock (state : Session × σ) (block : Ssa.Block) :
    (dialogue.visitBlock state block).1.schedule = state.1.schedule := by
  have folded : ∀ (statements : List Statement) (state : Session × σ),
      (statements.foldl dialogue.visitStatement state).1.schedule = state.1.schedule := by
    intro statements
    induction statements with
    | nil => exact fun _ => rfl
    | cons statement statements ih =>
        intro state
        rw [List.foldl_cons, ih, schedule_visitStatement]
  exact folded block.statements.toList state

theorem visitBlocks_of_none {session : Session} (steps : Nat) (own : σ)
    (nothing : session.nextBlock.1 = none) :
    dialogue.visitBlocks (steps + 1) (session, own) = (session.nextBlock.2, own) := by
  have pair : session.nextBlock = (none, session.nextBlock.2) := by rw [← nothing]
  rw [visitBlocks, pair]

theorem visitBlocks_of_some {session : Session} {id : NodeId} {block : Ssa.Block} (steps : Nat)
    (own : σ) (taken : session.nextBlock.1 = some id)
    (found : session.nextBlock.2.subject.form.block? id = some block) :
    dialogue.visitBlocks (steps + 1) (session, own) =
      dialogue.visitBlocks steps (dialogue.visitBlock (session.nextBlock.2, own) block) := by
  have pair : session.nextBlock = (some id, session.nextBlock.2) := by rw [← taken]
  rw [visitBlocks, pair]
  simp only [found]

end Dialogue

namespace Client

variable {σ : Type} {client : Client σ} {procedure : Procedure}

section Accepting

variable (acceptsAll : ∀ own statement, client.accepts own statement = true)
include acceptsAll

theorem covered_visitStatement (wellFormed : procedure.WellFormed)
    {passed : Ssa.Location → Prop} {state : Session × σ}
    (covered : state.1.Covered procedure passed) {place : Ssa.Location} {statement : Statement}
    (placed : procedure.ssa.statement? place = some statement)
    (preceded : ∀ earlier : Ssa.Location, earlier.Precedes procedure.dominators place →
      passed earlier) :
    (client.dialogue.visitStatement state statement).1.Covered procedure fun other =>
      passed other ∨ other = place := by
  obtain ⟨session, own⟩ := state
  have evaluated := covered.evaluate wellFormed placed preceded
  simp only [Dialogue.visitStatement]
  split
  · exact evaluated
  · split
    · exact evaluated.addNodes _
    · rename_i declined
      exact absurd (acceptsAll own statement) declined

section Block

variable {visited : NodeId → Prop} {id : NodeId} {block : Ssa.Block}
  (wellFormed : procedure.WellFormed) (found : procedure.ssa.block? id = some block)
  (above : ∀ other, other ≠ id → procedure.dominators.parents.Above other id → visited other)
include wellFormed found above

/-- From a session that has passed a first part of a block, the rest of the block is passed. -/
theorem covered_visitStatements {first rest : List Statement}
    (parts : block.statements.toList = first ++ rest) {state : Session × σ}
    (covered : state.1.Covered procedure fun place =>
      visited place.block ∨ place.block = id ∧ place.index < first.length) :
    (rest.foldl client.dialogue.visitStatement state).1.Covered procedure fun place =>
      visited place.block ∨ place.block = id ∧ place.index < block.statements.size := by
  induction rest generalizing first state with
  | nil =>
      have all : block.statements.size = first.length := by
        rw [← Array.length_toList, parts, List.append_nil]
      rw [all]
      exact covered
  | cons statement rest ih =>
      apply ih (parts.trans (List.append_cons first statement rest))
      have placed := statement?_of_parts found parts
      have preceded : ∀ earlier : Ssa.Location,
          earlier.Precedes procedure.dominators ⟨id, first.length⟩ →
          visited earlier.block ∨ earlier.block = id ∧ earlier.index < first.length := by
        intro earlier precedes
        rcases precedes with here | ⟨different, higher⟩
        · exact Or.inr here
        · exact Or.inl (above _ different higher)
      apply (covered_visitStatement acceptsAll wellFormed covered placed preceded).imp
      intro place isPassed
      rcases isPassed with before | ⟨same, inside⟩
      · exact Or.inl (Or.inl before)
      · rw [List.length_append, List.length_singleton] at inside
        by_cases last : place.index = first.length
        · right
          rw [← same, ← last]
        · exact Or.inl (Or.inr ⟨same, by omega⟩)

theorem covered_visitBlock {session : Session} (own : σ)
    (covered : session.Covered procedure fun place => visited place.block) :
    (client.dialogue.visitBlock (session, own) block).1.Covered procedure fun place =>
      visited place.block ∨ place.block = id := by
  have started : session.Covered procedure fun place =>
      visited place.block ∨ place.block = id ∧ place.index < ([] : List Statement).length :=
    covered.imp fun place isPassed => by simpa using isPassed
  have all : (client.dialogue.visitBlock (session, own) block).1.Covered procedure fun place =>
      visited place.block ∨ place.block = id ∧ place.index < block.statements.size :=
    covered_visitStatements acceptsAll wellFormed found above (List.nil_append _).symm started
  refine ⟨all.subject, ?_, all.shallow⟩
  intro place isPassed statement placed
  apply all.bound place _ statement placed
  rcases isPassed with before | same
  · exact Or.inl before
  · exact Or.inr ⟨same, index_lt_of_statement? (same ▸ found) placed⟩

end Block

theorem covered_visitBlocks (wellFormed : procedure.WellFormed) (steps : Nat) {requests : Nat}
    {session : Session} (own : σ) (scheduled : session.schedule = Schedule.after procedure requests)
    (covered : session.Covered procedure fun place =>
      place.block ∈ (Schedule.after procedure requests).order) :
    ∃ passed, (client.dialogue.visitBlocks steps (session, own)).1.Covered procedure passed := by
  induction steps generalizing session own requests with
  | zero => exact ⟨_, covered⟩
  | succ steps ih =>
      obtain ⟨asked, advanced, reported⟩ := covered.nextBlock scheduled
      cases answered : Schedule.answer procedure requests with
      | none =>
          rw [Dialogue.visitBlocks_of_none steps own (asked.trans answered)]
          exact ⟨_, reported⟩
      | some id =>
          have reachable := Schedule.reachable_of_answer wellFormed answered
          obtain ⟨block, found⟩ := exists_block_of_reachable wellFormed reachable
          have known : session.nextBlock.2.subject.form.block? id = some block := by
            rw [reported.subject]
            exact found
          rw [Dialogue.visitBlocks_of_some steps own (asked.trans answered) known]
          have next := covered_visitBlock acceptsAll wellFormed found
            (fun _ => Schedule.mem_order_of_above wellFormed answered) own reported
          apply ih _ ((Dialogue.schedule_visitBlock _ block).trans advanced)
          exact next.imp fun place => (Schedule.mem_order_succ answered).mp

/-- A client that wants every instruction evaluated never finds a variable too deep. -/
theorem notMem_tooDeep_of_acceptsAll (built : procedure.Built) (var : VarId) (limit : Nat) :
    Event.tooDeep var limit ∉ (client.analyse procedure).1.progress.events := by
  have started := (Session.Covered.start procedure client.policy).imp
    fun place (listed : place.block ∈ (Schedule.after procedure 0).order) =>
      Array.not_mem_empty _ listed
  obtain ⟨passed, covered⟩ := covered_visitBlocks acceptsAll built.wellFormed
    (procedure.blockCount + 1) (client.start _ _) rfl started
  have finished : (client.analyse procedure).1.Covered procedure passed := by
    apply covered.report
    intro event isLast
    rw [List.mem_singleton.mp isLast]
    simp [Event.NotTooDeep]
  intro member
  exact finished.shallow _ member var limit rfl

end Accepting

-- A client that adds a node after every instruction.
theorem notMem_tooDeep_of_acceptsAll_countdown :
    Countdown.procedure.Built ∧ ∀ var limit, Event.tooDeep var limit ∉
      (Client.analyse { idle with observe := fun own _ _ _ _ => ([⟨.immediate 7, true⟩], own) }
        Countdown.procedure).1.progress.events :=
  ⟨Countdown.built, notMem_tooDeep_of_acceptsAll (fun _ _ => rfl) Countdown.built⟩

end Client

end SymbolicFlow
