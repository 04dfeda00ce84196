import Mathlib.Logic.Relation
import SymbolicFlow.Proofs.Evaluation.Refinement
import SymbolicFlow.Proofs.Value.Rendering

/-!
# A store only grows

Requests to a session and allocations by a client may come in any order.  Each of them leaves the
nodes and the bindings of the store where they are and adds nodes that are made of earlier ones.
So a value that exists has the same expression, and is printed the same way, ever after.

An allocation may use the values of the store that it works on, and no others.
-/

set_option autoImplicit false

namespace SymbolicFlow

theorem Store.Extends.isPrefix {before after : Store}
    (grows : before.Extends after) : before.arena.toList <+: after.arena.toList := by
  apply List.prefix_iff_getElem?.mpr
  intro index inside
  rw [Array.getElem?_toList, grows.nodes inside, Array.getElem?_eq_getElem inside]
  rfl

theorem Store.Valid.remarked {store : Store} (valid : store.Valid) {value : ValueId} {loaded : Bool}
    {node : Node} (isNode : remarked? store.arena value loaded = some node) :
    ∀ child ∈ node.shape.children, child < store.arena.size := by
  unfold remarked? at isNode
  split at isNode
  · rename_i found
    split at isNode
    · cases isNode
    · cases isNode
      intro child member
      exact Nat.lt_trans (valid.nodes found child member) (Array.getElem?_eq_some_iff.mp found).1
  · cases isNode

/-! ## Allocations -/

inductive Allocation where
  | alloc (node : Node)
  | immediate (value : Int64)
  | register (var : VarId)
  | memory (address : UInt64)
  | binary (operator : Operator) (left right : ValueId)
  | unary (operator : Operator) (operand : ValueId)
  | mark (value : ValueId) (loaded : Bool)
  deriving DecidableEq, Inhabited

namespace Allocation

def handles : Allocation → List ValueId
  | .alloc node => node.shape.children
  | .binary _ left right => [left, right]
  | .unary _ operand => [operand]
  | .mark value _ => [value]
  | .immediate _ | .register _ | .memory _ => []

def perform (store : Store) : Allocation → ValueId × Store
  | .alloc node => store.alloc node
  | .immediate value => store.immediate value
  | .register var => store.register var
  | .memory address => store.memory address
  | .binary operator left right => store.binary operator left right
  | .unary operator operand => store.unary operator operand
  | .mark value loaded => store.mark value loaded

theorem perform_cases {store : Store} (valid : store.Valid) {allocation : Allocation}
    (inside : ∀ value ∈ allocation.handles, value < store.arena.size) :
    (allocation.perform store).2 = store ∨
      ∃ node : Node, (∀ child ∈ node.shape.children, child < store.arena.size) ∧
        (allocation.perform store).2 = (store.alloc node).2 := by
  have none : ∀ child ∈ ([] : List ValueId), child < store.arena.size := by simp
  cases allocation with
  | alloc node => exact Or.inr ⟨node, inside, rfl⟩
  | immediate value => exact Or.inr ⟨⟨.immediate value, false⟩, none, rfl⟩
  | register var => exact Or.inr ⟨⟨.register var, false⟩, none, rfl⟩
  | memory address => exact Or.inr ⟨⟨.memory address, true⟩, none, rfl⟩
  | binary operator left right =>
      exact Or.inr ⟨⟨.binary operator left right, false⟩, inside, rfl⟩
  | unary operator operand => exact Or.inr ⟨⟨.unary operator operand, false⟩, inside, rfl⟩
  | mark value loaded =>
      simp only [perform, Store.mark]
      cases isNode : Store.remarked? store.arena value loaded with
      | none => exact Or.inl rfl
      | some node => exact Or.inr ⟨node, valid.remarked isNode, rfl⟩

theorem perform_grows {store : Store} (valid : store.Valid) {allocation : Allocation}
    (inside : ∀ value ∈ allocation.handles, value < store.arena.size) :
    store.Extends (allocation.perform store).2 ∧ (allocation.perform store).2.Valid := by
  rcases perform_cases valid inside with same | ⟨node, children, added⟩
  · rw [same]
    exact ⟨.refl store, valid⟩
  · rw [added]
    exact ⟨store.extends_alloc node, valid.alloc children⟩

end Allocation

namespace Session

def allocate (session : Session) (allocation : Allocation) : ValueId × Session :=
  let ⟨subject, policy, ⟨store, events⟩, schedule⟩ := session
  let (value, changed) := allocation.perform store
  (value, ⟨subject, policy, ⟨changed, events⟩, schedule⟩)

/-- What can happen to a session: a request, or an allocation that names values of its store. -/
inductive Step : Session → Session → Prop where
  | request (session : Session) (request : Request) : Step session (session.serve request)
  | allocation (session : Session) (allocation : Allocation)
      (inside : ∀ value ∈ allocation.handles, value < session.store.arena.size) :
      Step session (session.allocate allocation).2

/-! ## What every step keeps -/

structure Grounded (procedure : Procedure) (session : Session) : Prop where
  subject : session.subject = .ofProcedure procedure
  valid : session.store.Valid
  binds : session.store.BindsCounters procedure.ssa

variable {procedure : Procedure} {earlier later : Session}

theorem grounded_start (wellFormed : procedure.WellFormed) (policy : Policy) :
    (start (.ofProcedure procedure) policy).Grounded procedure := by
  have orderly : (Ssa.Reading.mk procedure.ssa policy fun _ => False).form.Orderly :=
    Ssa.orderly_ssa wellFormed
  obtain ⟨valid, _, binds⟩ := seeded_start orderly
  exact ⟨rfl, valid, binds⟩

theorem Grounded.next_serve (wellFormed : procedure.WellFormed) {session : Session}
    (grounded : session.Grounded procedure) (cut : VarId → Prop) (request : Request) :
    Next (session.setting.reading cut) session.progress (session.serve request).progress := by
  have sameForm : session.subject.form = procedure.ssa := by
    rw [grounded.subject]
    rfl
  have orderly : session.subject.form.Orderly := by
    rw [sameForm]
    exact Ssa.orderly_ssa wellFormed
  have binds : session.store.BindsCounters session.subject.form := by
    rw [sameForm]
    exact grounded.binds
  exact (Session.next_serve orderly grounded.valid binds cut request).1

theorem Step.grows (wellFormed : procedure.WellFormed) (step : Step earlier later)
    (grounded : earlier.Grounded procedure) :
    earlier.store.Extends later.store ∧ later.Grounded procedure := by
  cases step with
  | request request =>
      have next := grounded.next_serve wellFormed (fun _ => False) request
      have subject := (earlier.serve_subject request).1.trans grounded.subject
      exact ⟨next.grows, subject, next.valid, next.grows.bindsCounters grounded.binds⟩
  | allocation allocation inside =>
      obtain ⟨grows, valid⟩ := allocation.perform_grows grounded.valid inside
      exact ⟨grows, grounded.subject, valid, grows.bindsCounters grounded.binds⟩

theorem grows_of_steps (wellFormed : procedure.WellFormed)
    (steps : Relation.ReflTransGen Step earlier later) (grounded : earlier.Grounded procedure) :
    earlier.store.Extends later.store ∧ later.Grounded procedure := by
  induction steps with
  | refl => exact ⟨.refl _, grounded⟩
  | tail _ step ih =>
      obtain ⟨soFar, grounded⟩ := ih
      obtain ⟨grows, next⟩ := step.grows wellFormed grounded
      exact ⟨soFar.trans grows, next⟩

/-! ## What follows -/

theorem render_of_extends (sameSubject : later.subject = earlier.subject)
    (grows : earlier.store.Extends later.store) {value : ValueId}
    (inside : value < earlier.store.arena.size) : later.render value = earlier.render value := by
  have sameLabel : later.label = earlier.label := by
    funext var
    rw [label, label, sameSubject]
  rw [render, render, Arena.render_eq, Arena.render_eq, grows.tree inside, sameLabel]

/-- Whatever happens to a session, its store keeps its nodes and bindings, refers to earlier nodes
only, and prints its values as before. -/
theorem store_only_grows (built : procedure.Built) {policy : Policy}
    (reached : Relation.ReflTransGen Step (start (.ofProcedure procedure) policy) earlier)
    (continued : Relation.ReflTransGen Step earlier later) :
    earlier.store.arena.toList <+: later.store.arena.toList ∧
    (∀ var value, earlier.store.valueOf? var = some value →
      later.store.valueOf? var = some value) ∧
    (∀ id (node : Node), later.store.arena[id]? = some node →
      ∀ child ∈ node.shape.children, child < id) ∧
    (∀ var value, later.store.valueOf? var = some value → value < later.store.arena.size) ∧
    ∀ value < earlier.store.arena.size, later.render value = earlier.render value := by
  have wellFormed := built.wellFormed
  obtain ⟨_, before⟩ := grows_of_steps wellFormed reached (grounded_start wellFormed policy)
  obtain ⟨grows, after⟩ := grows_of_steps wellFormed continued before
  have sameSubject := after.subject.trans before.subject.symm
  refine ⟨grows.isPrefix, ?_, ?_, ?_, ?_⟩
  · intro var value found
    exact grows.values found
  · intro id node found
    exact after.valid.nodes found
  · intro var value found
    exact after.valid.values found
  · intro value inside
    exact render_of_extends sameSubject grows inside

theorem store_only_grows_countdown :
    let earlier := ((start (.ofProcedure Countdown.procedure) {}).allocate (.immediate 7)).2
    let later := ((earlier.allocate (.unary .sqrt 1)).2).serve (.evaluate ⟨1, 3⟩)
    earlier.store.arena.size = 2 ∧ later.render 1 = earlier.render 1 := by
  intro earlier later
  have size : earlier.store.arena.size = 2 := by decide +kernel
  have reached : Relation.ReflTransGen Step (start (.ofProcedure Countdown.procedure) {}) earlier :=
    .single (.allocation _ _ (by simp [Allocation.handles]))
  have inside : ∀ value ∈ Allocation.handles (.unary .sqrt 1),
      value < earlier.store.arena.size := by simp [Allocation.handles, size]
  have continued : Relation.ReflTransGen Step earlier later :=
    .tail (.single (.allocation earlier _ inside)) (.request _ _)
  have kept := store_only_grows Countdown.built reached continued
  exact ⟨size, kept.2.2.2.2 1 (by simp [size])⟩

end Session

end SymbolicFlow
