import SymbolicFlow.Proofs.Analysis.Protocol
import SymbolicFlow.Proofs.Evaluation.Invariants

/-!
# Properties that last

A property of stores lasts if it survives a new node, a placeholder, and the binding of a result to
a variable that may be given one.  An evaluation does nothing else to a store, and a client does
less, so a property that lasts and holds at the start of an analysis holds ever after.

This asks nothing of the nodes that a client adds: they may refer to values that do not exist, but
they stand behind all others, and bindings are out of the client's reach.
-/

set_option autoImplicit false

namespace SymbolicFlow

open Ssa (Statement)

/-- The property survives all that happens to a store, as long as only the given variables are bound
to results. -/
structure Store.Lasting (given : VarId → Prop) (property : Store → Prop) : Prop where
  alloc : ∀ {store : Store} (node : Node), property store → property (store.alloc node).2
  bind : ∀ {store : Store} {var : VarId}, given var → ∀ value : ValueId, property store →
    property (store.bind var value).2
  placeholder : ∀ {store : Store} (var : VarId), property store →
    property (store.placeholder var).2

namespace Store.Lasting

variable {given : VarId → Prop} {property : Store → Prop} (lasting : Lasting given property)
include lasting

theorem kept : Kept given property where
  alloc := fun {_ node} _ holds => lasting.alloc node holds
  unmark := by
    intro store value holds
    rcases store.mark_cases value false with same | ⟨shape, _, added⟩
    · rw [same]
      exact holds
    · rw [added]
      exact lasting.alloc _ holds
  bind := lasting.bind
  placeholder := lasting.placeholder

theorem seed {reads : Array (VarId × UInt64)} (isGiven : ∀ read ∈ reads, given read.1)
    (holds : property Store.empty) : property (Session.seed reads) :=
  lasting.kept.seed isGiven holds

theorem addNodes {session : Session} (nodes : List Node) (holds : property session.store) :
    property (session.addNodes nodes).store := by
  induction nodes generalizing session with
  | nil => exact holds
  | cons node nodes ih =>
      have added : property (session.addNodes [node]).store := lasting.alloc node holds
      exact ih added

theorem foldl_serve (requests : List Request) {session : Session}
    (givesOnly : session.subject.form.GivesOnly given) (holds : property session.store) :
    property (requests.foldl Session.serve session).store := by
  have settingGives : session.setting.form.GivesOnly given := givesOnly
  rw [Session.store, Session.progress_foldl_serve]
  exact (lasting.kept.upholds settingGives).foldl_serve requests holds

end Store.Lasting

namespace Client

variable {σ : Type} {client : Client σ} {procedure : Procedure} {given : VarId → Prop}
  {property : Store → Prop}

theorem Turn.preserves {earlier later : Session} (turn : Turn client procedure earlier later)
    (sameForm : earlier.subject.form = procedure.ssa) (lasting : Store.Lasting given property)
    (givesOnly : procedure.ssa.GivesOnly given) (holds : property earlier.store) :
    property later.store := by
  cases turn with
  | evaluate placed =>
      have settingForm : earlier.setting.form = procedure.ssa := sameForm
      rw [← settingForm] at givesOnly placed
      have upholds := lasting.kept.upholds givesOnly
      exact Evaluation.preserves_evaluate upholds placed earlier.progress holds
  | answer own statement result => exact lasting.addNodes _ holds
  | nextBlock => exact holds
  | report => exact holds

/-- The property holds of every store that the client brings about or is shown, whatever is asked of
the session afterwards. -/
structure Always (client : Client σ) (procedure : Procedure) (property : Store → Prop) : Prop where
  brought : ∀ {session : Session}, client.Turns procedure (client.initial procedure).1 session →
    ∀ requests : List Request, property (requests.foldl Session.serve session).store
  shown : ∀ {statement : Statement} {result : Option ValueId} {store : Store},
    Call.shown statement result store ∈ client.transcript procedure → property store
  finished : ∀ requests : List Request,
    property (requests.foldl Session.serve (client.analyse procedure).1).store

theorem always_of_lasting (client : Client σ) (wellFormed : procedure.WellFormed)
    (lasting : Store.Lasting given property) (givesOnly : procedure.ssa.GivesOnly given)
    (seeded : property (Session.seed procedure.ssa.counterReads)) :
    client.Always procedure property := by
  have initialForm : (client.initial procedure).1.subject.form = procedure.ssa := rfl
  have turned : ∀ {session}, client.Turns procedure (client.initial procedure).1 session →
      property session.store := by
    intro session turns
    induction turns with
    | refl => exact seeded
    | tail soFar turn holds =>
        have sameForm := (congrArg Subject.form (kept_of_turns soFar).1).trans initialForm
        exact turn.preserves sameForm lasting givesOnly holds
  have brought : ∀ {session}, client.Turns procedure (client.initial procedure).1 session →
      ∀ requests : List Request, property (requests.foldl Session.serve session).store := by
    intro session turns requests
    have sameForm := (congrArg Subject.form (kept_of_turns turns).1).trans initialForm
    exact lasting.foldl_serve requests (sameForm ▸ givesOnly) (turned turns)
  refine ⟨brought, ?_, ?_⟩
  · intro statement result store isShown
    obtain ⟨place, session, placed, _, soFar, _, rfl, _⟩ :=
      (spans_analyse client wellFormed).shown isShown
    exact turned (soFar.tail (.evaluate session placed))
  · exact brought (spans_analyse client wellFormed).turns

end Client

end SymbolicFlow
