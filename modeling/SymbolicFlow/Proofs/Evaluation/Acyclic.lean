import Mathlib.Order.Defs.Unbundled
import SymbolicFlow.Proofs.Evaluation.Moves
import SymbolicFlow.Proofs.Evaluation.Refinement

/-!
# No variable is needed for its own definition

An instruction reads only variables that are older than the ones it defines, in whatever block it
stands.  So the variables in progress ascend, and by the time a definition is evaluated everything
that it reads is bound: a variable that is looked up then is never itself in progress.

A look-up that fails reports the variable as `Event.cyclic`, and events are never taken back; so
the absence of these events says that no look-up has failed.
-/

set_option autoImplicit false

namespace SymbolicFlow

open Ssa (Statement)

def Event.NotCyclic (event : Event) : Prop := ∀ var, event ≠ .cyclic var

theorem Event.IsRoutine.notCyclic {event : Event} (routine : event.IsRoutine) :
    event.NotCyclic := by
  rintro var rfl
  exact routine

theorem Ssa.Form.Orderly.lt_of_usedVars {form : Ssa.Form} (orderly : form.Orderly)
    {place : Ssa.Location} {statement : Statement} (placed : form.statement? place = some statement)
    (machine : statement.isPhi = false) {used output : VarId} (reads : used ∈ statement.usedVars)
    (writes : output ∈ statement.outputs) : used < output := by
  have defined := orderly.outputDefined placed writes
  apply orderly.inputsOlder
  simpa [Ssa.Form.inputs, defined, machine] using reads

/-- A phi demands nothing, as it is never a copy. -/
theorem Ssa.Form.Orderly.machine_of_demands {form : Ssa.Form} (orderly : form.Orderly)
    {place : Ssa.Location} {statement : Statement} (placed : form.statement? place = some statement)
    {used : VarId} (demands : statement.Demands used) : statement.isPhi = false := by
  by_contra isPhi
  rw [Bool.not_eq_false] at isPhi
  exact orderly.phiMerges placed isPhi used (demands.2 isPhi)

namespace Evaluation

theorem settled_of_isBound {var : VarId} {before : Progress}
    (bound : before.store.isBound var = true) : (settled var before).2 = before := by
  obtain ⟨value, found⟩ := Store.isBound_iff.mp bound
  have looked : Yields (settled var) before fun _ after => after = before := by
    apply Yields.bind_ask
    rw [found]
    exact Yields.pure rfl
  exact looked

theorem Adds.of_moves_settled {allowed : Event → Prop}
    (routine : ∀ event : Event, event.IsRoutine → allowed event) {demanded given : VarId → Prop}
    {before after : Progress}
    (moves : Relation.ReflTransGen (Move settled demanded given) before after)
    (bound : ∀ var, demanded var → before.store.isBound var = true) :
    Adds allowed before after := by
  refine Adds.of_moves (fun var progress => progress.store.isBound var = true) routine ?_ ?_
    moves bound
  · exact fun wasBound adds => adds.isBound wasBound
  · intro var earlier isBound
    rw [settled_of_isBound isBound]
    exact .refl earlier

/-- Once everything that a statement demands is bound, evaluating it reports routine events only. -/
theorem adds_evaluateStatement_settled {allowed : Event → Prop}
    (routine : ∀ event : Event, event.IsRoutine → allowed event) (policy : Policy)
    {statement : Statement} {before : Progress}
    (bound : ∀ var, statement.Demands var → before.store.isBound var = true) :
    Adds allowed before (evaluateStatement policy settled statement before).2 :=
  .of_moves_settled routine (performs_evaluateStatement policy settled statement before) bound

section Walks

variable {setting : Setting} {var : VarId} {pending : List VarId} {before : Progress}

theorem isBound_of_demands {statement : Statement} {place : Ssa.Location}
    (orderly : setting.form.Orderly) (ascending : (var :: pending).Pairwise (· < ·))
    (defined : setting.form.definition? var = some statement)
    (placed : setting.form.statement? place = some statement)
    (waits : waitsFor? before.store (var :: pending) statement = none) {used : VarId}
    (demands : statement.Demands used) : before.store.isBound used = true := by
  have machine := orderly.machine_of_demands placed demands
  have older := older_of_definition orderly defined machine demands.1
  exact Store.isBound_iff.mpr
    (bound_of_waitsFor?_none waits machine demands.1 (notMem_of_older ascending older))

theorem yields_enter_notCyclic {statement : Statement} {place : Ssa.Location} {input : VarId}
    (orderly : setting.form.Orderly) (ascending : (var :: pending).Pairwise (· < ·))
    (defined : setting.form.definition? var = some statement)
    (placed : setting.form.statement? place = some statement)
    (waits : waitsFor? before.store (var :: pending) statement = some input) :
    Yields (if setting.depthLimit ≤ (var :: pending).length then do
          report (.tooDeep input setting.depthLimit)
          let _ ← placeholder input
          pure (var :: pending)
        else pure (input :: var :: pending)) before fun rest after =>
      Adds Event.NotCyclic before after ∧ rest.Pairwise (· < ·) := by
  split
  · have reported : Adds Event.NotCyclic before
        (report (.tooDeep input setting.depthLimit) before).2 :=
      .report (by simp [Event.NotCyclic]) before
    exact ⟨reported.trans (.placeholder input _), ascending⟩
  · obtain ⟨machine, reads, _, _⟩ := open_of_waitsFor? orderly placed waits
    have older := older_of_definition orderly defined machine reads
    refine Yields.pure ⟨.refl before, List.pairwise_cons.mpr ⟨fun other member => ?_, ascending⟩⟩
    rcases List.mem_cons.mp member with rfl | behind
    · exact older
    · exact Nat.lt_trans older ((List.pairwise_cons.mp ascending).1 other behind)

theorem yields_walkStep_notCyclic (orderly : setting.form.Orderly)
    (ascending : (var :: pending).Pairwise (· < ·)) :
    Yields (walkStep setting (var :: pending)) before fun rest after =>
      Adds Event.NotCyclic before after ∧ rest.Pairwise (· < ·) := by
  refine Yields.bind_ask ?_
  split
  · exact Yields.pure ⟨.refl before, ascending.of_cons⟩
  · cases defined : setting.form.definition? var with
    | none =>
        have reported : Adds Event.NotCyclic before (report (.undefined var) before).2 :=
          .report (by simp [Event.NotCyclic]) before
        exact ⟨reported.trans (.placeholder var _), ascending.of_cons⟩
    | some statement =>
        obtain ⟨place, placed⟩ := Ssa.Form.exists_place_of_definition? defined
        refine Yields.bind_ask ?_
        cases waits : waitsFor? before.store (var :: pending) statement with
        | some input => exact yields_enter_notCyclic orderly ascending defined placed waits
        | none =>
            have evaluated := adds_evaluateStatement_settled
              (fun _ => Event.IsRoutine.notCyclic) setting.policy
              fun used => isBound_of_demands orderly ascending defined placed waits
            exact ⟨evaluated.trans (.placeholder var _), ascending.of_cons⟩

theorem yields_walk_notCyclic (orderly : setting.form.Orderly) (steps : Nat)
    (ascending : pending.Pairwise (· < ·)) :
    Yields (walk setting steps pending) before fun _ after =>
      Adds Event.NotCyclic before after := by
  induction steps generalizing before pending with
  | zero => exact Yields.pure (.refl before)
  | succ steps ih =>
      cases pending with
      | nil => exact Yields.pure (.refl before)
      | cons var pending =>
          refine Yields.bind (yields_walkStep_notCyclic orderly ascending) ?_
          intro rest middle stepped
          exact (ih stepped.2).imp fun _ _ walked => stepped.1.trans walked

theorem yields_resolveVar_notCyclic (orderly : setting.form.Orderly) (var : VarId)
    (before : Progress) :
    Yields (resolveVar setting var) before fun _ after =>
      Adds Event.NotCyclic before after := by
  refine Yields.bind_ask ?_
  cases before.store.valueOf? var with
  | some bound => exact Yields.pure (.refl before)
  | none =>
      exact Yields.bind (yields_walk_notCyclic orderly _ (List.pairwise_singleton _ var))
        fun _ _ walked => walked.trans (.placeholder var _)

theorem Performs.adds_notCyclic {α : Type} {demanded given : VarId → Prop}
    {evaluation : Evaluation α} (performs : Performs (resolveVar setting) demanded given evaluation)
    (orderly : setting.form.Orderly) (before : Progress) :
    Adds Event.NotCyclic before (evaluation before).2 :=
  .of_moves (fun _ _ => True) (fun _ => Event.IsRoutine.notCyclic) (fun _ _ => trivial)
    (fun {var earlier} _ => yields_resolveVar_notCyclic orderly var earlier) (performs before)
    fun _ _ => trivial

end Walks

end Evaluation

namespace Session

theorem adds_serve_notCyclic {session : Session} (orderly : session.subject.form.Orderly)
    (request : Request) :
    Evaluation.Adds Event.NotCyclic session.progress (session.serve request).progress := by
  have settingOrderly : session.setting.form.Orderly := orderly
  cases request with
  | evaluate place =>
      rw [serve]
      cases session.subject.form.statement? place with
      | none => exact .refl _
      | some statement =>
          exact (Evaluation.performs_evaluateStatement session.policy
            (Evaluation.resolveVar session.setting) statement).adds_notCyclic settingOrderly _
  | operand place position =>
      rw [serve]
      cases session.subject.form.statement? place with
      | none => exact .refl _
      | some statement =>
          have performs : Evaluation.Performs (Evaluation.resolveVar session.setting)
              (· ∈ statement.usedVars) (fun _ => False)
              (Evaluation.operand session.setting statement position) :=
            Evaluation.performs_resolveOperand (fun _ reads => reads) position
          exact performs.adds_notCyclic settingOrderly _
  | resolve var => exact Evaluation.yields_resolveVar_notCyclic settingOrderly var _

theorem adds_foldl_notCyclic (requests : List Request) {session : Session}
    (orderly : session.subject.form.Orderly) :
    Evaluation.Adds Event.NotCyclic session.progress (requests.foldl serve session).progress := by
  induction requests generalizing session with
  | nil => exact .refl _
  | cons request requests ih =>
      have sameSubject := (session.serve_subject request).1
      exact (adds_serve_notCyclic orderly request).trans (ih (sameSubject.symm ▸ orderly))

/-- The variables can be ordered so that every instruction reads smaller ones than it defines;
hence, whatever is asked of a session, no variable is needed for its own definition. -/
theorem definitions_acyclic {procedure : Procedure} (built : procedure.Built) :
    (∃ older : VarId → VarId → Prop, IsStrictOrder VarId older ∧ WellFounded older ∧
      ∀ place statement, procedure.ssa.statement? place = some statement →
        statement.isPhi = false → ∀ used ∈ statement.usedVars, ∀ output ∈ statement.outputs,
          older used output) ∧
    ∀ policy requests var,
      Event.cyclic var ∉ (reached procedure policy requests).progress.events := by
  have orderly := Ssa.orderly_ssa built.wellFormed
  constructor
  · refine ⟨(· < ·), inferInstance, Nat.lt_wfRel.wf, ?_⟩
    intro place statement placed machine used reads output writes
    exact orderly.lt_of_usedVars placed machine reads writes
  · intro policy requests var
    have startOrderly : (start (.ofProcedure procedure) policy).subject.form.Orderly := orderly
    apply (adds_foldl_notCyclic requests startOrderly).notMem
    · exact fun notCyclic => notCyclic var rfl
    · exact Array.not_mem_empty _

theorem definitions_acyclic_countdown :
    Countdown.procedure.Built ∧ ∀ var, Event.cyclic var ∉
      (reached Countdown.procedure {}
        [.operand ⟨1, 3⟩ 0, .evaluate ⟨2, 0⟩, .resolve 40]).progress.events :=
  ⟨Countdown.built, (definitions_acyclic Countdown.built).2 {} _⟩

end Session

end SymbolicFlow
