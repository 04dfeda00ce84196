import SymbolicFlow.Machine.X64
import SymbolicFlow.Proofs.Evaluation.Results
import SymbolicFlow.Proofs.Ssa.Orderly

/-!
# What a mark says

A marked node denotes what memory holds.  Nodes get marks in one place, where a memory operand is
resolved, and most instructions only build on the node.  A move binds its output to the very node
that it finds: to a marked one if it loads from memory, or if the register that it copies was bound
to one before.  An address computation asks for the same node without the mark.

So a variable is bound to a marked value only if its definition is a move, and following the moves
back, from one variable to an older one with the same value, leads to a move that loads.
-/

set_option autoImplicit false

namespace SymbolicFlow

open Ssa (Statement Location)

/-! ## Moves -/

namespace Ssa

/-- The operand of a statement at the position refers to memory, or it is a variable with the
value. -/
def Statement.Offers (statement : Statement) (position : Nat) (store : Store) (value : ValueId) :
    Prop :=
  statement.LoadsAt position ∨
    ∃ var, statement.ReadsAt position var ∧ store.valueOf? var = some value

structure Form.Moved (form : Form) (var : VarId) (statement : Statement) : Prop where
  defined : form.definition? var = some statement
  output : statement.output? = some var
  family : statement.family? = some .move

theorem Form.Orderly.lt_of_moved {form : Form} (orderly : form.Orderly) {var source : VarId}
    {statement : Statement} (moved : form.Moved var statement)
    (reads : statement.ReadsAt 0 source) : source < var := by
  apply orderly.inputsOlder
  have notPhi : statement.isPhi ≠ true := by
    intro isPhi
    have missing : statement.instruction = none := by simpa [Statement.isPhi] using isPhi
    simpa [Statement.family?, missing] using moved.family
  rw [inputs, moved.defined]
  dsimp only
  rw [if_neg notPhi]
  exact Statement.mem_usedVars_of_slot reads.2

end Ssa

/-! ## The invariant -/

namespace Store

variable {form : Ssa.Form} {store later : Store} {value : ValueId} {reason weaker : Prop}

def MarkedOnlyIf (store : Store) (value : ValueId) (reason : Prop) : Prop :=
  ∃ node, store.node? value = some node ∧ (node.loaded = true → reason)

/-- The variable is the first output of a move, from memory or from a variable with the same
value. -/
def Justifies (store : Store) (form : Ssa.Form) (var : VarId) (value : ValueId) : Prop :=
  ∃ statement, form.Moved var statement ∧ statement.Offers 0 store value

def MarksMoves (store : Store) (form : Ssa.Form) : Prop :=
  ∀ (var : VarId) (value : ValueId), store.valueOf? var = some value →
    store.MarkedOnlyIf value (store.Justifies form var value)

theorem MarkedOnlyIf.mono (marked : store.MarkedOnlyIf value reason) (grows : store.Extends later)
    (implies : reason → weaker) : later.MarkedOnlyIf value weaker := by
  obtain ⟨node, found, only⟩ := marked
  exact ⟨node, grows.node? found, fun isLoaded => implies (only isLoaded)⟩

theorem MarkedOnlyIf.of_unmarked {shape : Shape} (found : store.node? value = some ⟨shape, false⟩) :
    store.MarkedOnlyIf value reason :=
  ⟨_, found, fun isLoaded => by cases isLoaded⟩

theorem Justifies.mono {var : VarId} (justifies : store.Justifies form var value)
    (grows : store.Extends later) : later.Justifies form var value := by
  obtain ⟨statement, moved, offers⟩ := justifies
  refine ⟨statement, moved, offers.imp_right ?_⟩
  rintro ⟨source, reads, bound⟩
  exact ⟨source, reads, grows.values bound⟩

namespace MarksMoves

theorem of_extends (marks : store.MarksMoves form) (grows : store.Extends later)
    (new : ∀ {var : VarId} {value : ValueId}, later.valueOf? var = some value →
      store.valueOf? var = some value ∨
        later.MarkedOnlyIf value (later.Justifies form var value)) : later.MarksMoves form := by
  intro var value found
  rcases new found with old | marked
  · exact (marks var value old).mono grows fun justifies => justifies.mono grows
  · exact marked

theorem alloc (marks : store.MarksMoves form) (node : Node) :
    (store.alloc node).2.MarksMoves form :=
  marks.of_extends (store.extends_alloc node) fun found => Or.inl found

theorem unmark (marks : store.MarksMoves form) (value : ValueId) :
    (store.mark value false).2.MarksMoves form := by
  rcases store.mark_cases value false with same | ⟨shape, _, added⟩
  · rw [same]
    exact marks
  · rw [added]
    exact marks.alloc _

theorem bind (marks : store.MarksMoves form) {var : VarId}
    (marked : store.MarkedOnlyIf value (store.Justifies form var value)) :
    (store.bind var value).2.MarksMoves form := by
  have grows := store.extends_bind var value
  apply marks.of_extends grows
  intro other bound found
  rcases valueOf?_bind_cases found with old | ⟨_, rfl, rfl⟩
  · exact Or.inl old
  · exact Or.inr (marked.mono grows fun justifies => justifies.mono grows)

theorem placeholder (marks : store.MarksMoves form) (var : VarId) :
    (store.placeholder var).2.MarksMoves form := by
  rw [Store.placeholder]
  split
  · exact marks
  · exact (marks.alloc _).bind (.of_unmarked Array.getElem?_push_size)

end MarksMoves

theorem marksMoves_seed (reads : Array (VarId × UInt64)) :
    (Session.seed reads).MarksMoves form := by
  refine Session.seed_induct (·.MarksMoves form) reads ?_ fun read _ marks => ?_
  · intro var value found
    simp [Store.empty, valueOf?] at found
  · exact (marks.alloc _).bind (.of_unmarked Array.getElem?_push_size)

end Store

/-! ## Results -/

section Statements

variable {form : Ssa.Form} {store : Store} {policy : Policy} {statement : Statement}

theorem Store.MarksMoves.markedOnlyIf_operand (marks : store.MarksMoves form) {position : Nat}
    {value : ValueId} (operand : statement.HasOperand policy position store value) :
    store.MarkedOnlyIf value (statement.Offers position store value) := by
  cases operand with
  | constant found => exact .of_unmarked found
  | read reads bound =>
      obtain ⟨node, found, _⟩ := marks _ _ bound
      exact ⟨node, found, fun _ => Or.inr ⟨_, reads, bound⟩⟩
  | loaded loads found _ => exact ⟨_, found, fun _ => Or.inl loads⟩

theorem Ssa.Form.Orderly.respects_marksMoves (orderly : form.Orderly) {place : Location}
    (placed : form.statement? place = some statement) :
    statement.Respects policy (·.MarksMoves form) where
  present := by
    intro store var value marks bound
    obtain ⟨node, found, _⟩ := marks var value bound
    exact ⟨node, found⟩
  alloc := fun _ marks => marks.alloc _
  shift := fun _ _ _ marks => marks.alloc _
  unmark := fun value marks => marks.unmark value
  bind := by
    intro store output value isOutput result marks
    apply marks.bind
    cases result with
    | made found => exact .of_unmarked found
    | moved family operand =>
        have defined := orderly.outputDefined placed (List.mem_of_head? isOutput)
        exact (marks.markedOnlyIf_operand operand).mono (.refl _) fun offers =>
          ⟨statement, ⟨defined, isOutput, family⟩, offers⟩
    | copied isPhi single _ =>
        -- In an orderly form, no phi is a copy.
        exact absurd single (orderly.phiMerges placed isPhi _)
  placeholder := fun var marks => marks.placeholder var

end Statements

/-! ## Back to a load -/

/-- Following moves back from the variable, through variables with the same value, ends at a move
from memory. -/
inductive Store.LeadsToLoad (store : Store) (form : Ssa.Form) (value : ValueId) : VarId → Prop where
  | load {var : VarId} {statement : Statement} (bound : store.valueOf? var = some value)
      (moved : form.Moved var statement) (loads : statement.LoadsAt 0) :
      LeadsToLoad store form value var
  | copy {var source : VarId} {statement : Statement} (bound : store.valueOf? var = some value)
      (moved : form.Moved var statement) (reads : statement.ReadsAt 0 source)
      (rest : LeadsToLoad store form value source) : LeadsToLoad store form value var

structure Store.MarksLoads (store : Store) (form : Ssa.Form) : Prop where
  present : ∀ {var : VarId} {value : ValueId}, store.valueOf? var = some value →
    ∃ node, store.node? value = some node
  moved : ∀ {var : VarId} {value : ValueId} {node : Node}, store.valueOf? var = some value →
    store.node? value = some node → node.loaded = true → store.Justifies form var value
  traced : ∀ {var : VarId} {value : ValueId} {node : Node}, store.valueOf? var = some value →
    store.node? value = some node → node.loaded = true → store.LeadsToLoad form value var
  /-- What an address computation gives has no mark, whatever it reads. -/
  addresses : ∀ {place : Location} {statement : Statement} {output : VarId} {value : ValueId}
    {node : Node}, form.statement? place = some statement → statement.family? = some .lea →
    output ∈ statement.outputs → store.valueOf? output = some value →
    store.node? value = some node → node.loaded = false

namespace Store.MarksMoves

variable {form : Ssa.Form} {store : Store} (marks : store.MarksMoves form)
include marks

theorem justifies {var : VarId} {value : ValueId} {node : Node}
    (bound : store.valueOf? var = some value) (found : store.node? value = some node)
    (isLoaded : node.loaded = true) : store.Justifies form var value := by
  obtain ⟨same, foundAgain, only⟩ := marks var value bound
  cases found.symm.trans foundAgain
  exact only isLoaded

/-- Copies are of older variables, so that following them comes to an end. -/
theorem leadsToLoad (orderly : form.Orderly) {value : ValueId} {node : Node}
    (found : store.node? value = some node) (isLoaded : node.loaded = true) (var : VarId)
    (bound : store.valueOf? var = some value) : store.LeadsToLoad form value var := by
  induction var using Nat.strongRecOn with
  | ind var ih =>
      obtain ⟨statement, moved, offers⟩ := marks.justifies bound found isLoaded
      rcases offers with loads | ⟨source, reads, sourceBound⟩
      · exact .load bound moved loads
      · have older : source < var := orderly.lt_of_moved moved reads
        exact .copy bound moved reads (ih source older sourceBound)

theorem marksLoads (orderly : form.Orderly) : store.MarksLoads form where
  present := by
    intro var value bound
    obtain ⟨node, found, _⟩ := marks var value bound
    exact ⟨node, found⟩
  moved := marks.justifies
  traced := fun bound found isLoaded => marks.leadsToLoad orderly found isLoaded _ bound
  addresses := by
    intro place statement output value node placed isLea isOutput bound found
    by_contra isLoaded
    -- The definition of the output would be a move and an address computation.
    have defined := orderly.outputDefined placed isOutput
    obtain ⟨other, moved, _⟩ := marks.justifies bound found (Bool.not_eq_false _ ▸ isLoaded)
    cases defined.symm.trans moved.defined
    cases isLea.symm.trans moved.family

end Store.MarksMoves

theorem marksMoves_reached (setting : Setting) (orderly : setting.form.Orderly)
    (requests : List Request) : (setting.reached requests).store.MarksMoves setting.form :=
  (Setting.upholds_of_respects (fun var marks => marks.placeholder var)
    orderly.respects_marksMoves).reached (Store.marksMoves_seed _) requests

/-- Whatever is asked, and wherever a walk is cut off: a variable is bound to a marked value only if
moves lead from it to a load, and the output of an address computation never is. -/
theorem reached_marksLoads {procedure : Procedure} (built : procedure.Built) (policy : Policy)
    (limit : Nat) (requests : List Request) :
    (Setting.reached ⟨procedure.ssa, policy, limit⟩ requests).store.MarksLoads procedure.ssa ∧
      (Session.reached procedure policy requests).store.MarksLoads procedure.ssa := by
  have orderly : procedure.ssa.Orderly := Ssa.orderly_ssa built.wellFormed
  constructor
  · exact (marksMoves_reached ⟨_, policy, limit⟩ orderly requests).marksLoads orderly
  · rw [Session.store, Session.progress_reached]
    exact (marksMoves_reached ⟨_, policy, _⟩ orderly requests).marksLoads orderly

/-! ## The address of what was loaded -/

namespace Pointer

open Machine.X64

def instructions : Array Instruction :=
  #[{ address := 4096, mnemonic := "mov", family := .move
      operands := [⟨.memory { base := some rbx, offset := 8 }, .read⟩, ⟨.register rax, .write⟩] },
    { address := 4100, mnemonic := "mov", family := .move
      operands := [⟨.register rax, .read⟩, ⟨.register rcx, .write⟩] },
    { address := 4104, mnemonic := "lea", family := .lea
      operands := [⟨.register rcx, .read⟩, ⟨.register rdx, .write⟩] }]

def procedure : Procedure where
  name := "pointer"
  machine := .x64
  entry := 0
  graph :=
    { nodes := #[⟨0, 0, false, instructions⟩]
      edges := #[]
      outgoing := #[[]]
      incoming := #[[]] }

theorem built : procedure.Built :=
  ⟨_, .addBlock false instructions (.start "pointer" .x64), rfl⟩

end Pointer

/-- The copy has the marked value, and the address has none. -/
theorem reached_marksLoads_pointer :
    let store := (Session.reached Pointer.procedure {} [.evaluate ⟨0, 2⟩]).store
    Pointer.procedure.Built ∧ store.valueOf? 2 = some 2 ∧
      store.node? 2 = some ⟨.binary .add 1 0, true⟩ ∧
      store.LeadsToLoad Pointer.procedure.ssa 2 2 ∧
      store.valueOf? 3 = some 3 ∧ store.node? 3 = some ⟨.binary .add 1 0, false⟩ := by
  intro store
  have copied : store.valueOf? 2 = some 2 := by decide +kernel
  have marked : store.node? 2 = some ⟨.binary .add 1 0, true⟩ := by decide +kernel
  have marks := (reached_marksLoads Pointer.built {} 1024 [.evaluate ⟨0, 2⟩]).2
  exact ⟨Pointer.built, copied, marked, marks.traced copied marked rfl, by decide +kernel,
    by decide +kernel⟩

end SymbolicFlow
