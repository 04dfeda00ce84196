import SymbolicFlow.Proofs.Evaluation.Moves
import SymbolicFlow.Proofs.Evaluation.Refinement

/-!
# Properties that evaluations keep

A property of stores is upheld by a setting if the statements of the form preserve it, provided that
resolving a variable does.  A walk only ever evaluates such statements and binds variables to their
placeholders, so a property that is upheld and holds at the start holds after any requests, under
any depth limit.

Many properties are kept by all that an evaluation does to a store, one by one: a node is added that
is no placeholder, a value is taken as an address, a result is bound to a variable that may be given
one, or a variable is bound to its placeholder.  Then nothing has to be known about the result of a
statement.  A property that says more about results is upheld all the same if each statement
respects it.
-/

set_option autoImplicit false

namespace SymbolicFlow

open Ssa (Statement)

/-- The property survives all that an evaluation does to a store, as long as only the given
variables are bound to results. -/
structure Store.Kept (given : VarId → Prop) (property : Store → Prop) : Prop where
  alloc : ∀ {store : Store} {node : Node}, node.isPlaceholder = false → property store →
    property (store.alloc node).2
  unmark : ∀ {store : Store} (value : ValueId), property store →
    property (store.mark value false).2
  bind : ∀ {store : Store} {var : VarId}, given var → ∀ value : ValueId, property store →
    property (store.bind var value).2
  placeholder : ∀ {store : Store} (var : VarId), property store →
    property (store.placeholder var).2

theorem Store.Kept.imp {given fewer : VarId → Prop} {property : Store → Prop}
    (kept : Kept given property) (isGiven : ∀ {var : VarId}, fewer var → given var) :
    Kept fewer property :=
  ⟨kept.alloc, kept.unmark, fun isFewer => kept.bind (isGiven isFewer), kept.placeholder⟩

theorem Store.kept_extends (earlier : Store) (given : VarId → Prop) :
    Kept given earlier.Extends where
  alloc := fun _ grows => grows.trans (extends_alloc _ _)
  unmark := fun value grows => grows.trans (extends_mark _ value false)
  bind := fun _ value grows => grows.trans (extends_bind _ _ value)
  placeholder := fun {store} var grows =>
    grows.trans (Evaluation.extends_placeholder ⟨store, #[]⟩ var)

def Ssa.Form.GivesOnly (form : Ssa.Form) (given : VarId → Prop) : Prop :=
  ∀ {place : Ssa.Location} {statement : Statement}, form.statement? place = some statement →
    ∀ {var : VarId}, statement.Receives var → given var

/-! ## Evaluations -/

namespace Evaluation

def Preserves {α : Type} (property : Store → Prop) (evaluation : Evaluation α) : Prop :=
  ∀ before : Progress, property before.store → property (evaluation before).2.store

section Composition

variable {α β : Type} {property : Store → Prop}

theorem Preserves.pure (result : α) : Preserves property (Pure.pure result) :=
  fun _ holds => holds

theorem Preserves.bind {evaluation : Evaluation α} {continuation : α → Evaluation β}
    (first : Preserves property evaluation)
    (rest : ∀ result, Preserves property (continuation result)) :
    Preserves property (evaluation >>= continuation) :=
  fun before holds => rest _ _ (first before holds)

theorem preserves_ask (question : Store → α) : Preserves property (ask question) :=
  fun _ holds => holds

theorem preserves_report (event : Event) : Preserves property (report event) :=
  fun _ holds => holds

end Composition

section Kept

variable {given : VarId → Prop} {property : Store → Prop} (kept : Store.Kept given property)
include kept

theorem preserves_of_performs {α : Type} {resolve : VarId → Evaluation ValueId}
    {demanded : VarId → Prop} {evaluation : Evaluation α}
    (performs : Performs resolve demanded given evaluation)
    (resolves : ∀ var, Preserves property (resolve var)) : Preserves property evaluation := by
  intro before holds
  have moves := performs before
  generalize (evaluation before).2 = after at moves ⊢
  induction moves with
  | refl => exact holds
  | tail _ move soFar =>
      cases move with
      | alloc other => exact kept.alloc other soFar
      | unmark value => exact kept.unmark value soFar
      | bind isGiven value => exact kept.bind isGiven value soFar
      | placeholder var => exact kept.placeholder var soFar
      | report _ => exact soFar
      | resolve _ => exact resolves _ _ soFar

theorem preserves_evaluateStatement (policy : Policy) {resolve : VarId → Evaluation ValueId}
    (resolves : ∀ var, Preserves property (resolve var)) {statement : Statement}
    (receives : ∀ {var : VarId}, statement.Receives var → given var) :
    Preserves property (evaluateStatement policy resolve statement) :=
  preserves_of_performs (kept.imp receives)
    (performs_evaluateStatement policy resolve statement) resolves

end Kept

/-- A way of resolving variables: what it finds is the value that the variable is bound to then, and
it preserves the property. -/
structure Resolving (property : Store → Prop) (resolve : VarId → Evaluation ValueId) : Prop where
  answers : ∀ (var : VarId) (before : Progress),
    Yields (resolve var) before fun value after => after.store.valueOf? var = some value
  grows : ∀ (var : VarId) (before : Progress),
    Yields (resolve var) before fun _ after => before.store.Extends after.store
  preserves : ∀ var : VarId, Preserves property (resolve var)

end Evaluation

/-! ## Walks -/

/-- The statements of the form preserve the property, however variables are resolved. -/
structure Setting.Upholds (setting : Setting) (property : Store → Prop) : Prop where
  placeholder : ∀ {store : Store} (var : VarId), property store →
    property (store.placeholder var).2
  statement : ∀ {place : Ssa.Location} {statement : Statement},
    setting.form.statement? place = some statement →
    ∀ {resolve : VarId → Evaluation ValueId}, Evaluation.Resolving property resolve →
      Evaluation.Preserves property (Evaluation.evaluateStatement setting.policy resolve statement)
  operand : ∀ {place : Ssa.Location} {statement : Statement},
    setting.form.statement? place = some statement →
    ∀ {resolve : VarId → Evaluation ValueId}, Evaluation.Resolving property resolve →
      ∀ position : Nat, Evaluation.Preserves property
        (Evaluation.resolveOperand setting.policy resolve statement position)

theorem Store.Kept.upholds {given : VarId → Prop} {property : Store → Prop}
    (kept : Kept given property) {setting : Setting} (givesOnly : setting.form.GivesOnly given) :
    setting.Upholds property where
  placeholder := kept.placeholder
  statement := fun placed _ resolving =>
    Evaluation.preserves_evaluateStatement kept setting.policy resolving.preserves
      (givesOnly placed)
  operand := fun _ _ resolving position =>
    Evaluation.preserves_of_performs kept
      (Evaluation.performs_resolveOperand (fun _ reads => reads) position) resolving.preserves

theorem Setting.upholds_extends (setting : Setting) (earlier : Store) :
    setting.Upholds earlier.Extends :=
  (earlier.kept_extends fun _ => True).upholds fun _ _ _ => trivial

namespace Evaluation

variable {setting : Setting} {property : Store → Prop} (upholds : setting.Upholds property)
include upholds

theorem resolving_settled : Resolving property settled where
  answers := by
    intro var before
    refine Yields.bind_ask ?_
    cases found : before.store.valueOf? var with
    | some value => exact found
    | none => exact valueOf?_placeholder var _
  grows := by
    intro var before
    refine Yields.bind_ask ?_
    cases before.store.valueOf? var with
    | some value => exact .refl before.store
    | none => exact extends_placeholder ⟨before.store, _⟩ var
  preserves := by
    intro var
    refine (preserves_ask _).bind fun bound => ?_
    cases bound with
    | some value => exact .pure value
    | none => exact (preserves_report _).bind fun _ _ holds => upholds.placeholder var holds

theorem preserves_walkStep (pending : List VarId) :
    Preserves property (walkStep setting pending) := by
  have closes (var : VarId) (rest : List VarId) :
      Preserves property (do let _ ← placeholder var; pure rest) :=
    fun _ holds => upholds.placeholder var holds
  cases pending with
  | nil => exact .pure []
  | cons var pending =>
      refine (preserves_ask _).bind fun bound => ?_
      split
      · exact .pure pending
      · cases defined : setting.form.definition? var with
        | none => exact (preserves_report _).bind fun _ => closes var pending
        | some statement =>
            refine (preserves_ask _).bind fun waits => ?_
            cases waits with
            | some input =>
                dsimp only
                split
                · exact (preserves_report _).bind fun _ => closes input (var :: pending)
                · exact .pure _
            | none =>
                -- Inside a walk, variables are only looked up, which `settled` does.
                obtain ⟨place, placed⟩ := Ssa.Form.exists_place_of_definition? defined
                exact (upholds.statement placed (resolving_settled upholds)).bind
                  fun _ => closes var pending

theorem preserves_walk (steps : Nat) (pending : List VarId) :
    Preserves property (walk setting steps pending) := by
  induction steps generalizing pending with
  | zero => exact .pure ()
  | succ steps ih =>
      cases pending with
      | nil => exact .pure ()
      | cons var pending => exact (preserves_walkStep upholds (var :: pending)).bind ih

theorem preserves_resolveVar (var : VarId) : Preserves property (resolveVar setting var) := by
  refine (preserves_ask _).bind fun bound => ?_
  cases bound with
  | some value => exact .pure value
  | none =>
      exact (preserves_walk upholds _ [var]).bind fun _ _ holds => upholds.placeholder var holds

theorem resolving_resolveVar : Resolving property (resolveVar setting) where
  answers := by
    intro var before
    refine Yields.bind_ask ?_
    cases found : before.store.valueOf? var with
    | some value => exact found
    | none => exact valueOf?_placeholder var _
  grows := fun var before =>
    preserves_resolveVar (setting.upholds_extends before.store) var before (.refl before.store)
  preserves := preserves_resolveVar upholds

theorem preserves_evaluate {place : Ssa.Location} {statement : Statement}
    (placed : setting.form.statement? place = some statement) :
    Preserves property (evaluate setting statement) :=
  upholds.statement placed (resolving_resolveVar upholds)

theorem preserves_operand {place : Ssa.Location} {statement : Statement}
    (placed : setting.form.statement? place = some statement) (position : Nat) :
    Preserves property (operand setting statement position) :=
  upholds.operand placed (resolving_resolveVar upholds) position

end Evaluation

/-! ## Requests -/

def Setting.serve (setting : Setting) (progress : Progress) : Request → Progress
  | .evaluate place =>
      match setting.form.statement? place with
      | none => progress
      | some statement => (Evaluation.evaluate setting statement progress).2
  | .operand place position =>
      match setting.form.statement? place with
      | none => progress
      | some statement => (Evaluation.operand setting statement position progress).2
  | .resolve var => (Evaluation.resolveVar setting var progress).2

/-- The state after the given requests, where at first exactly the reads of the program counter are
bound. -/
def Setting.reached (setting : Setting) (requests : List Request) : Progress :=
  requests.foldl setting.serve { store := Session.seed setting.form.counterReads }

theorem Session.seed_induct (property : Store → Prop) (reads : Array (VarId × UInt64))
    (atFirst : property Store.empty)
    (step : ∀ {store : Store}, ∀ read ∈ reads, property store →
      property ((store.immediate read.2.toInt64).2.bind read.1
        (store.immediate read.2.toInt64).1).2) : property (seed reads) := by
  rw [seed, ← Array.foldl_toList]
  apply List.foldlRecOn (motive := property)
  · exact atFirst
  · intro store soFar read listed
    exact step read (Array.mem_toList_iff.mp listed) soFar

theorem Session.progress_serve (session : Session) (request : Request) :
    (session.serve request).progress = session.setting.serve session.progress request := by
  have sameForm : session.setting.form = session.subject.form := rfl
  cases request with
  | evaluate place =>
      rw [serve, Setting.serve, sameForm]
      cases session.subject.form.statement? place with
      | none => rfl
      | some statement => rfl
  | operand place position =>
      rw [serve, Setting.serve, sameForm]
      cases session.subject.form.statement? place with
      | none => rfl
      | some statement => rfl
  | resolve var => rfl

namespace Store.Kept

variable {given : VarId → Prop} {property : Store → Prop} (kept : Kept given property)
include kept

theorem seed {reads : Array (VarId × UInt64)} (isGiven : ∀ read ∈ reads, given read.1)
    (holds : property Store.empty) : property (Session.seed reads) :=
  Session.seed_induct property reads holds fun read listed allocated =>
    kept.bind (isGiven read listed) _ (kept.alloc rfl allocated)

end Store.Kept

namespace Setting.Upholds

variable {setting : Setting} {property : Store → Prop} (upholds : setting.Upholds property)
include upholds

theorem serve {progress : Progress} (request : Request) (holds : property progress.store) :
    property (setting.serve progress request).store := by
  cases request with
  | evaluate place =>
      rw [Setting.serve]
      cases placed : setting.form.statement? place with
      | none => exact holds
      | some statement => exact Evaluation.preserves_evaluate upholds placed progress holds
  | operand place position =>
      rw [Setting.serve]
      cases placed : setting.form.statement? place with
      | none => exact holds
      | some statement => exact Evaluation.preserves_operand upholds placed position progress holds
  | resolve var => exact Evaluation.preserves_resolveVar upholds var progress holds

theorem foldl_serve (requests : List Request) {progress : Progress}
    (holds : property progress.store) :
    property (requests.foldl setting.serve progress).store := by
  induction requests generalizing progress with
  | nil => exact holds
  | cons request requests ih => exact ih (upholds.serve request holds)

theorem reached (holds : property (Session.seed setting.form.counterReads))
    (requests : List Request) : property (setting.reached requests).store :=
  upholds.foldl_serve requests holds

end Setting.Upholds

theorem Store.Kept.reached {given : VarId → Prop} {property : Store → Prop}
    (kept : Kept given property) {setting : Setting} (givesOnly : setting.form.GivesOnly given)
    (isGiven : ∀ read ∈ setting.form.counterReads, given read.1) (holds : property Store.empty)
    (requests : List Request) : property (setting.reached requests).store :=
  (kept.upholds givesOnly).reached (kept.seed isGiven holds) requests

namespace Session

theorem setting_serve (session : Session) (request : Request) :
    (session.serve request).setting = session.setting := by
  obtain ⟨subject, policy⟩ := session.serve_subject request
  rw [setting, setting, subject, policy]

theorem progress_foldl_serve (requests : List Request) (session : Session) :
    (requests.foldl serve session).progress =
      requests.foldl session.setting.serve session.progress := by
  induction requests generalizing session with
  | nil => rfl
  | cons request requests ih =>
      rw [List.foldl_cons, ih, setting_serve, progress_serve, List.foldl_cons]

theorem progress_reached (procedure : Procedure) (policy : Policy) (requests : List Request) :
    (reached procedure policy requests).progress =
      Setting.reached { form := procedure.ssa, policy } requests :=
  progress_foldl_serve requests (start (.ofProcedure procedure) policy)

end Session

end SymbolicFlow
