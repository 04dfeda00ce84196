import SymbolicFlow.Proofs.Analysis.Protocol
import SymbolicFlow.Proofs.Evaluation.Growth
import SymbolicFlow.Proofs.Value.Reading

/-!
# The values that an analysis finds

All through an analysis the store is one that only grows, and a variable that is bound has an
expression that its definition allows.  The client may add nodes, but binds nothing: it is enough
that it makes its nodes of values that it was shown.

Such expressions are conventional: square roots have one operand and all other operators have two.
So what is printed of a bound value tells what it is.
-/

set_option autoImplicit false

namespace SymbolicFlow

open Ssa (Statement Location)

/-! ## Expressions of variables -/

namespace Ssa

section Conventional

variable {statement : Statement} {policy : Policy} {trees : VarId → Tree}
  (conventional : ∀ var, (trees var).Conventional)
include conventional

theorem conventional_registerTree {position : Nat} {scale : UInt8} {tree : Tree}
    (isTree : statement.registerTree trees position scale = some tree) : tree.Conventional := by
  have scaled : ∀ var, (Tree.binary .mul (trees var) (.immediate (Int64.ofNat scale.toNat) false)
      false).Conventional := fun var => ⟨by decide, conventional var, trivial⟩
  cases base : statement.operandVar? position with
  | none =>
      cases index : statement.indexVar? position with
      | none => simp [Statement.registerTree, base, index] at isTree
      | some var =>
          simp only [Statement.registerTree, base, index, Option.map_none, Option.map_some,
            Option.some.injEq] at isTree
          exact isTree ▸ scaled var
  | some baseVar =>
      cases index : statement.indexVar? position with
      | none =>
          simp only [Statement.registerTree, base, index, Option.map_none, Option.map_some,
            Option.some.injEq] at isTree
          exact isTree ▸ conventional baseVar
      | some var =>
          simp only [Statement.registerTree, base, index, Option.map_some,
            Option.some.injEq] at isTree
          exact isTree ▸ ⟨by decide, conventional baseVar, scaled var⟩

theorem conventional_memoryTree (instruction : Instruction) (position : Nat)
    (reference : MemoryReference) :
    (statement.memoryTree policy trees instruction position reference).Conventional := by
  unfold Statement.memoryTree
  split
  · trivial
  · split
    · rename_i isTree
      exact ⟨by decide, trivial, conventional_registerTree conventional isTree⟩
    · trivial

theorem conventional_operandTree {position : Nat} {tree : Tree}
    (isTree : statement.operandTree policy trees position = some tree) : tree.Conventional := by
  have ofVar : ∀ {found : Option VarId}, found.map trees = some tree → tree.Conventional := by
    intro found same
    obtain ⟨var, _, rfl⟩ := Option.map_eq_some_iff.mp same
    exact conventional var
  unfold Statement.operandTree at isTree
  split at isTree
  · cases isTree
  · split at isTree
    · split at isTree
      · exact ofVar isTree
      · cases isTree
    · split at isTree
      · cases isTree
        trivial
      · exact ofVar isTree
      · exact ofVar isTree
      · cases isTree
        exact conventional_memoryTree conventional _ _ _
      · cases isTree
        exact conventional_memoryTree conventional _ _ _
      · cases isTree

theorem conventional_combinedTree {operator : Operator} (notRoot : operator ≠ .sqrt) {tree : Tree}
    (isTree : statement.combinedTree policy trees operator = some tree) : tree.Conventional := by
  unfold Statement.combinedTree at isTree
  split at isTree
  · cases isTree
  · split at isTree
    · rename_i first second
      cases isTree
      exact ⟨notRoot, conventional_operandTree conventional second,
        conventional_operandTree conventional first⟩
    · cases isTree

theorem conventional_shiftedTree {operator : Operator} (notRoot : operator ≠ .sqrt) {tree : Tree}
    (isTree : statement.shiftedTree policy trees operator = some tree) : tree.Conventional := by
  unfold Statement.shiftedTree at isTree
  split at isTree
  · rename_i amount value
    split at isTree
    · cases isTree
    · cases isTree
      exact ⟨notRoot, conventional_operandTree conventional value,
        conventional_operandTree conventional amount⟩
  · cases isTree

theorem conventional_familyTree {instruction : Instruction} {family : Family} {tree : Tree}
    (isTree : statement.familyTree policy trees instruction family = some tree) :
    tree.Conventional := by
  have ofOperand : ∀ {make : Tree → Tree},
      (statement.operandTree policy trees 0).map make = some tree →
      (∀ value, value.Conventional → (make value).Conventional) → tree.Conventional := by
    intro make same makes
    obtain ⟨value, isOperand, rfl⟩ := Option.map_eq_some_iff.mp same
    exact makes value (conventional_operandTree conventional isOperand)
  cases family with
  | move => exact conventional_operandTree conventional isTree
  | add | sub | mul | div => exact conventional_combinedTree conventional (by decide) isTree
  | shl | sal | shr | sar => exact conventional_shiftedTree conventional (by decide) isTree
  | xor =>
      simp only [Statement.familyTree] at isTree
      split at isTree
      · cases isTree
        trivial
      · cases isTree
  | lea => exact ofOperand isTree fun _ => Tree.conventional_remarked.mpr
  | inc => exact ofOperand isTree fun _ operand => ⟨by decide, trivial, operand⟩
  | dec => exact ofOperand isTree fun _ operand => ⟨by decide, trivial, operand⟩
  | sqrt => exact ofOperand isTree fun _ operand => ⟨rfl, operand⟩
  | _ => cases isTree

theorem conventional_definitionTree (form : Form) (var : VarId) :
    (form.definitionTree policy trees var).Conventional := by
  unfold Form.definitionTree
  split
  · trivial
  · split
    · trivial
    · rename_i statement _
      split
      · cases isTree : statement.resultTree policy trees with
        | none => trivial
        | some tree =>
            unfold Statement.resultTree at isTree
            split at isTree
            · cases isTree
            · exact conventional_familyTree conventional isTree
      · trivial

end Conventional

theorem Reading.Denotes.conventional {reading : Reading} {var : VarId} {tree : Tree}
    (denotes : reading.Denotes var tree) : tree.Conventional := by
  induction denotes with
  | leave => trivial
  | @unfold var trees _ ih =>
      have known : ∀ used,
          (if used ∈ reading.form.inputs var then trees used else .absent).Conventional := by
        intro used
        split
        · rename_i reads
          exact ih used reads
        · trivial
      have same : reading.form.definitionTree reading.policy trees var = reading.form.definitionTree
          reading.policy (fun used => if used ∈ reading.form.inputs var then trees used
            else .absent) var :=
        Form.definitionTree_congr fun used reads => (if_pos reads).symm
      rw [same]
      exact conventional_definitionTree known _ _

end Ssa

/-! ## Stores in an analysis -/

namespace Session

theorem grows_addNodes (nodes : List Node) {session : Session} (valid : session.store.Valid)
    (inside : ∀ node ∈ nodes, ∀ child ∈ node.shape.children, child < session.store.arena.size) :
    session.store.Extends (session.addNodes nodes).store ∧ (session.addNodes nodes).store.Valid := by
  induction nodes generalizing session with
  | nil => exact ⟨.refl _, valid⟩
  | cons node nodes ih =>
      have first := session.store.extends_alloc node
      have rest := @ih (session.addNodes [node])
        (valid.alloc (inside node List.mem_cons_self))
        fun other member child isChild =>
          first.lt_size (inside other (List.mem_cons_of_mem _ member) child isChild)
      exact ⟨first.trans rest.1, rest.2⟩

/-- A session of an analysis whose bound variables have expressions that the form allows. -/
structure Faithful (procedure : Procedure) (policy : Policy) (session : Session) : Prop extends
    Session.Grounded procedure session where
  samePolicy : session.policy = policy
  sound : session.store.Sound ⟨procedure.ssa, policy, fun _ => True⟩

variable {procedure : Procedure} {policy : Policy}

theorem Faithful.conventional {session : Session} (faithful : session.Faithful procedure policy)
    {var : VarId} {value : ValueId} (bound : session.store.valueOf? var = some value) :
    (session.store.arena.tree value).Conventional :=
  (faithful.sound var value bound).conventional

theorem Faithful.evaluate (wellFormed : procedure.WellFormed) {session : Session}
    (faithful : session.Faithful procedure policy) {place : Location} {statement : Statement}
    (placed : procedure.ssa.statement? place = some statement) :
    session.store.Extends (session.evaluate statement).2.store ∧
      (session.evaluate statement).2.Faithful procedure policy := by
  have sameForm : session.subject.form = procedure.ssa := by
    rw [faithful.subject]
    rfl
  have served : session.serve (.evaluate place) = (session.evaluate statement).2 := by
    simp only [serve, sameForm, placed]
  have sameReading : session.setting.reading (fun _ => True) =
      ⟨procedure.ssa, policy, fun _ => True⟩ := by
    rw [setting, sameForm, faithful.samePolicy]
    rfl
  have next := faithful.next_serve wellFormed (fun _ => True) (.evaluate place)
  rw [served, sameReading] at next
  exact ⟨next.grows, ⟨faithful.subject, next.valid, next.grows.bindsCounters faithful.binds⟩,
    faithful.samePolicy, next.sound (fun _ _ _ => trivial) faithful.sound⟩

theorem Faithful.addNodes {session : Session} (faithful : session.Faithful procedure policy)
    {nodes : List Node}
    (inside : ∀ node ∈ nodes, ∀ child ∈ node.shape.children, child < session.store.arena.size) :
    session.store.Extends (session.addNodes nodes).store ∧
      (session.addNodes nodes).Faithful procedure policy := by
  obtain ⟨grows, valid⟩ := grows_addNodes nodes faithful.valid inside
  refine ⟨grows, ⟨faithful.subject, valid, grows.bindsCounters faithful.binds⟩,
    faithful.samePolicy, ?_⟩
  -- Nothing is bound, and what is bound keeps its expression.
  intro var value bound
  have before : session.store.valueOf? var = some value := bound
  rw [grows.tree (faithful.valid.values before)]
  exact faithful.sound var value before

end Session

namespace Client

variable {σ : Type} {client : Client σ} {procedure : Procedure}

/-- The nodes that the client adds are made of values of the store that it is shown. -/
def UsesShown (client : Client σ) : Prop :=
  ∀ (own : σ) (statement : Statement) (result : Option ValueId) (subject : Subject) (store : Store),
    store.Valid → ∀ node ∈ (client.observe own statement result subject store).1,
      ∀ child ∈ node.shape.children, child < store.arena.size

theorem faithful_initial (client : Client σ) (wellFormed : procedure.WellFormed) :
    (client.initial procedure).1.Faithful procedure client.policy := by
  have orderly : (Ssa.Reading.mk procedure.ssa client.policy fun _ => True).form.Orderly :=
    Ssa.orderly_ssa wellFormed
  exact ⟨Session.grounded_start wellFormed client.policy, rfl, (Session.seeded_start orderly).2.1⟩

theorem Turn.faithful (usesShown : client.UsesShown) (wellFormed : procedure.WellFormed)
    {policy : Policy} {earlier later : Session} (turn : Turn client procedure earlier later)
    (faithful : earlier.Faithful procedure policy) :
    earlier.store.Extends later.store ∧ later.Faithful procedure policy := by
  cases turn with
  | evaluate placed => exact faithful.evaluate wellFormed placed
  | answer own statement result =>
      exact faithful.addNodes (usesShown own statement result _ _ faithful.valid)
  | nextBlock =>
      exact ⟨.refl _, ⟨faithful.subject, faithful.valid, faithful.binds⟩, faithful.samePolicy,
        faithful.sound⟩
  | report =>
      exact ⟨.refl _, ⟨faithful.subject, faithful.valid, faithful.binds⟩, faithful.samePolicy,
        faithful.sound⟩

theorem faithful_of_turns (usesShown : client.UsesShown) (wellFormed : procedure.WellFormed)
    {policy : Policy} {earlier later : Session} (turns : client.Turns procedure earlier later)
    (faithful : earlier.Faithful procedure policy) :
    earlier.store.Extends later.store ∧ later.Faithful procedure policy := by
  induction turns with
  | refl => exact ⟨.refl _, faithful⟩
  | tail _ turn ih =>
      obtain ⟨grows, next⟩ := turn.faithful usesShown wellFormed ih.2
      exact ⟨ih.1.trans grows, next⟩

theorem Shows.faithful (usesShown : client.UsesShown) (wellFormed : procedure.WellFormed)
    {policy : Policy} {first last : Session} {statement : Statement} {result : Option ValueId}
    {store : Store} (isShown : client.Shows procedure first last statement result store)
    (faithful : first.Faithful procedure policy) :
    store.Valid ∧ store.Extends last.store ∧ last.Faithful procedure policy := by
  obtain ⟨place, session, placed, _, soFar, _, rfl, rest⟩ := isShown
  obtain ⟨_, before⟩ := faithful_of_turns usesShown wellFormed soFar faithful
  obtain ⟨_, shown⟩ := before.evaluate wellFormed placed
  obtain ⟨grows, after⟩ := faithful_of_turns usesShown wellFormed rest shown
  exact ⟨shown.valid, grows, after⟩

end Client

end SymbolicFlow
