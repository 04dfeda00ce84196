import Mathlib.Logic.Relation
import SymbolicFlow.Proofs.Evaluation.Progress

/-!
# What an evaluation can do

However a statement is evaluated, the state changes only by moves of six kinds: a node is added that
is no placeholder, a value is taken as an address, the output that receives the result is bound, a
variable is bound to its placeholder, a routine event is reported, or a variable that the statement
demands is resolved.  An evaluation is a `Script` of such moves, and how variables are resolved is
left open in it; `script_evaluateStatement` says so once for all families.

What holds of every move then holds of every evaluation, and two ways of resolving variables that
agree wherever moves lead come to the same.  The first is drawn on here for `Adds`: bound variables
keep their values, and the events that are added are of an allowed kind.
-/

set_option autoImplicit false

namespace SymbolicFlow

open Ssa (Statement)

def Event.IsRoutine : Event → Prop
  | .evaluating _ | .unresolvedShift _ | .unresolvedXor _ => True
  | _ => False

def Event.NotTooDeep (event : Event) : Prop := ∀ var limit, event ≠ .tooDeep var limit

theorem Event.IsRoutine.notTooDeep {event : Event} (routine : event.IsRoutine) :
    event.NotTooDeep := by
  intro var limit same
  rw [same] at routine
  exact routine

/-- The variables that may have to be resolved for a statement: everything that an instruction
reads, and the source of a phi that is a copy. -/
def Ssa.Statement.Demands (statement : Statement) (var : VarId) : Prop :=
  var ∈ statement.usedVars ∧ (statement.isPhi = true → statement.usedVars = [var])

/-- The variable that may be bound to the result of a statement: the first output, and for a phi
only if it is a copy. -/
def Ssa.Statement.Receives (statement : Statement) (var : VarId) : Prop :=
  statement.output? = some var ∧ (statement.isPhi = true → ∃ source, statement.usedVars = [source])

namespace Evaluation

inductive Move (resolve : VarId → Evaluation ValueId) (demanded given : VarId → Prop) :
    Progress → Progress → Prop where
  | alloc {shape : Shape} {loaded : Bool} (other : Node.isPlaceholder ⟨shape, loaded⟩ = false)
      (before : Progress) : Move resolve demanded given before (alloc shape loaded before).2
  | unmark (value : ValueId) (before : Progress) :
      Move resolve demanded given before (onStore (·.mark value false) before).2
  | bind {var : VarId} (isGiven : given var) (value : ValueId) (before : Progress) :
      Move resolve demanded given before (Evaluation.bind var value before).2
  | placeholder (var : VarId) (before : Progress) :
      Move resolve demanded given before (placeholder var before).2
  | report {event : Event} (routine : event.IsRoutine) (before : Progress) :
      Move resolve demanded given before (report event before).2
  | resolve {var : VarId} (isDemanded : demanded var) (before : Progress) :
      Move resolve demanded given before (resolve var before).2

def Performs {α : Type} (resolve : VarId → Evaluation ValueId) (demanded given : VarId → Prop)
    (evaluation : Evaluation α) : Prop :=
  ∀ before, Relation.ReflTransGen (Move resolve demanded given) before (evaluation before).2

/-- The evaluation is put together from moves in the same way, however variables are resolved. -/
inductive Script (demanded given : VarId → Prop) :
    {α : Type} → ((VarId → Evaluation ValueId) → Evaluation α) → Prop where
  | pure {α : Type} (result : α) : Script demanded given fun _ => Pure.pure result
  | bind {α β : Type} {first : (VarId → Evaluation ValueId) → Evaluation α}
      {rest : α → (VarId → Evaluation ValueId) → Evaluation β} :
      Script demanded given first → (∀ result, Script demanded given (rest result)) →
        Script demanded given fun resolve => first resolve >>= fun result => rest result resolve
  | ask {α : Type} (question : Store → α) : Script demanded given fun _ => ask question
  | alloc (shape : Shape) (loaded : Bool) (other : Node.isPlaceholder ⟨shape, loaded⟩ = false) :
      Script demanded given fun _ => alloc shape loaded
  | unmark (value : ValueId) : Script demanded given fun _ => onStore (·.mark value false)
  | give {var : VarId} (isGiven : given var) (value : ValueId) :
      Script demanded given fun _ => Evaluation.bind var value
  | placeholder (var : VarId) : Script demanded given fun _ => placeholder var
  | report {event : Event} (routine : event.IsRoutine) : Script demanded given fun _ => report event
  | resolve {var : VarId} (isDemanded : demanded var) :
      Script demanded given fun resolve => resolve var

/-! ## What scripts do -/

section Scripts

variable {α : Type} {demanded given : VarId → Prop}
  {script : (VarId → Evaluation ValueId) → Evaluation α}

theorem Script.performs (isScript : Script demanded given script)
    (resolve : VarId → Evaluation ValueId) : Performs resolve demanded given (script resolve) := by
  induction isScript with
  | pure result => exact fun _ => .refl
  | bind _ _ first rest => exact fun before => (first before).trans (rest _ _)
  | ask question => exact fun _ => .refl
  | alloc shape loaded other => exact fun before => .single (.alloc other before)
  | unmark value => exact fun before => .single (.unmark value before)
  | give isGiven value => exact fun before => .single (.bind isGiven value before)
  | placeholder var => exact fun before => .single (.placeholder var before)
  | report routine => exact fun before => .single (.report routine before)
  | resolve isDemanded => exact fun before => .single (.resolve isDemanded before)

/-- Two ways of resolving variables lead to the same, if they agree wherever a move can lead. -/
theorem Script.eq_of_agree (isScript : Script demanded given script)
    {resolve other : VarId → Evaluation ValueId} (reached : Progress → Prop)
    (closed : ∀ {before after}, reached before → Move resolve demanded given before after →
      reached after)
    (agree : ∀ {var : VarId} {progress : Progress}, demanded var → reached progress →
      resolve var progress = other var progress)
    {before : Progress} (isReached : reached before) :
    script resolve before = script other before := by
  induction isScript generalizing before with
  | @bind _ _ firstPart rest first _ firstAgrees restAgrees =>
      have between : reached (firstPart resolve before).2 := by
        have moves := first.performs resolve before
        generalize (firstPart resolve before).2 = middle at moves ⊢
        induction moves with
        | refl => exact isReached
        | tail _ move soFar => exact closed soFar move
      change rest _ resolve _ = rest _ other _
      rw [← firstAgrees isReached]
      exact restAgrees _ between
  | resolve isDemanded => exact agree isDemanded isReached
  | _ => rfl

theorem Script.andPure {β : Type} (isScript : Script demanded given script) (use : α → β) :
    Script demanded given fun resolve => script resolve >>= fun result => Pure.pure (use result) :=
  isScript.bind fun _ => .pure _

theorem Script.mapM {β : Type} {each : β → (VarId → Evaluation ValueId) → Evaluation α}
    (isScript : ∀ argument, Script demanded given (each argument)) (argument : Option β) :
    Script demanded given fun resolve => argument.mapM fun one => each one resolve := by
  cases argument with
  | none => exact .pure none
  | some argument => exact (isScript argument).andPure some

end Scripts

/-! ## Statements -/

section Statements

variable {policy : Policy} {demanded given : VarId → Prop} {statement : Statement}

theorem script_slot {slot : Option VarId} (demands : ∀ var, slot = some var → demanded var) :
    Script demanded given fun resolve => slot.mapM resolve := by
  cases slot with
  | none => exact .pure none
  | some var => exact (Script.resolve (demands var rfl)).andPure some

section Reading

variable (demands : ∀ var ∈ statement.usedVars, demanded var)
include demands

theorem script_operandVar (position : Nat) :
    Script demanded given fun resolve => (statement.operandVar? position).mapM resolve :=
  script_slot fun var found => demands var (Statement.mem_usedVars_of_slot found)

theorem script_indexVar (position : Nat) :
    Script demanded given fun resolve => (statement.indexVar? position).mapM resolve :=
  script_slot fun var found => demands var (Statement.mem_usedVars_of_slot found)

theorem script_registerPart (position : Nat) (scale : UInt8) :
    Script demanded given fun resolve => registerPart resolve statement position scale := by
  refine (script_operandVar demands position).bind fun base => ?_
  refine (script_indexVar demands position).bind fun index => ?_
  have scaling : ∀ index, Script demanded given fun _ =>
      immediate (Int64.ofNat scale.toNat) >>= fun factor => binary .mul index factor :=
    fun index => (Script.alloc _ _ rfl).bind fun factor => .alloc _ _ rfl
  refine (Script.mapM scaling index).bind fun scaled => ?_
  cases base with
  | none =>
      cases scaled with
      | none => exact .pure _
      | some scaled => exact .pure _
  | some base =>
      cases scaled with
      | none => exact .pure _
      | some scaled => exact (Script.alloc _ _ rfl).andPure some

theorem script_resolveMemory (instruction : Instruction) (position : Nat)
    (reference : MemoryReference) :
    Script demanded given fun resolve =>
      resolveMemory policy resolve statement instruction position reference := by
  unfold resolveMemory
  split
  · exact .alloc _ _ rfl
  · refine (script_registerPart demands position reference.scale).bind fun part => ?_
    cases part with
    | none => exact .alloc _ _ rfl
    | some part => exact (Script.alloc _ _ rfl).bind fun offset => .alloc _ _ rfl

theorem script_resolveOperand (position : Nat) :
    Script demanded given fun resolve => resolveOperand policy resolve statement position := by
  have register : Script demanded given fun resolve =>
      (statement.operandVar? position).mapM resolve := script_operandVar demands position
  have memory : ∀ instruction reference, Script demanded given fun resolve =>
      resolveMemory policy resolve statement instruction position reference :=
    fun instruction reference => script_resolveMemory demands instruction position reference
  unfold resolveOperand
  cases statement.instruction with
  | none => exact .pure none
  | some instruction =>
      dsimp only
      cases instruction.operands[position]? with
      | none =>
          dsimp only
          split
          · exact register
          · exact .pure none
      | some operand =>
          dsimp only
          cases operand.kind with
          | immediate value => exact (Script.alloc _ _ rfl).andPure some
          | register _ => exact register
          | indexedRegister _ _ => exact register
          | memory reference => exact (memory instruction reference).andPure some
          | relativeMemory reference => exact (memory instruction reference).andPure some
          | pointer _ => exact .pure none

theorem script_combineOperands (operator : Operator) :
    Script demanded given fun resolve => combineOperands policy resolve statement operator := by
  unfold combineOperands
  split
  · exact .pure none
  · refine (script_resolveOperand demands 0).bind fun first => ?_
    cases first with
    | none => exact .pure none
    | some first =>
        refine (script_resolveOperand demands 1).bind fun second => ?_
        cases second with
        | none => exact .pure none
        | some second => exact (Script.alloc _ _ rfl).andPure some

theorem script_addressOperand :
    Script demanded given fun resolve => addressOperand policy resolve statement := by
  refine (script_resolveOperand demands 0).bind fun operand => ?_
  cases operand with
  | none => exact .pure none
  | some value => exact (Script.unmark value).andPure some

theorem script_stepOperand (delta : Int64) :
    Script demanded given fun resolve => stepOperand policy resolve statement delta := by
  refine (script_resolveOperand demands 0).bind fun operand => ?_
  cases operand with
  | none => exact .pure none
  | some value =>
      exact (Script.alloc _ _ rfl).bind fun step => (Script.alloc _ _ rfl).andPure some

theorem script_rootOperand :
    Script demanded given fun resolve => rootOperand policy resolve statement := by
  refine (script_resolveOperand demands 0).bind fun operand => ?_
  cases operand with
  | none => exact .pure none
  | some value => exact (Script.alloc _ _ rfl).andPure some

end Reading

theorem script_placeholderOutput :
    Script demanded given fun _ => placeholderOutput statement :=
  Script.mapM Script.placeholder _

theorem script_bindOutput (receives : ∀ output, statement.output? = some output → given output)
    (result : Option ValueId) :
    Script demanded given fun _ => bindOutput statement result := by
  cases result with
  | none => exact .pure none
  | some value =>
      unfold bindOutput
      cases first : statement.output? with
      | none => exact .pure _
      | some output => exact (Script.give (receives output first) value).andPure some

theorem script_xorOperands (instruction : Instruction) :
    Script demanded given fun _ => xorOperands instruction := by
  have unexpressed : Script demanded given fun _ =>
      report (.unresolvedXor instruction) >>= fun _ => pure (none : Option ValueId) := by
    have routine : (Event.unresolvedXor instruction).IsRoutine := trivial
    exact (Script.report routine).andPure _
  unfold xorOperands
  split
  · split
    · exact (Script.alloc _ _ rfl).andPure some
    · exact unexpressed
  · exact unexpressed

theorem script_gatherOutput : Script demanded given fun _ => gatherOutput statement := by
  unfold gatherOutput
  split
  · exact .pure ()
  · exact (Script.placeholder _).andPure _
  · exact (Script.ask _).bind fun bound => (Script.placeholder _).andPure _

theorem script_shiftOperands (demands : ∀ var ∈ statement.usedVars, demanded var)
    (receives : ∀ output, statement.output? = some output → given output)
    (instruction : Instruction) (operator : Operator) :
    Script demanded given fun resolve =>
      shiftOperands policy resolve statement instruction operator := by
  refine (script_resolveOperand demands 0).bind fun amount => ?_
  refine (script_resolveOperand demands 1).bind fun value => ?_
  cases amount with
  | none => exact script_placeholderOutput
  | some amount =>
      cases value with
      | none => exact script_placeholderOutput
      | some value =>
          refine (Script.ask _).bind fun constant => ?_
          split
          · have routine : (Event.unresolvedShift instruction).IsRoutine := trivial
            exact (Script.report routine).bind fun _ => script_placeholderOutput
          · exact (Script.alloc _ _ rfl).bind fun shifted => script_bindOutput receives _

theorem script_evaluateInstruction (demands : ∀ var ∈ statement.usedVars, demanded var)
    (receives : ∀ output, statement.output? = some output → given output)
    (instruction : Instruction) :
    Script demanded given fun resolve =>
      evaluateInstruction policy resolve statement instruction := by
  refine (Script.ask _).bind fun known => ?_
  cases known with
  | some bound => exact .pure _
  | none =>
      have routine : (Event.evaluating instruction).IsRoutine := trivial
      refine (Script.report routine).bind fun _ => ?_
      have bound : ∀ {evaluation : (VarId → Evaluation ValueId) → Evaluation (Option ValueId)},
          Script demanded given evaluation →
          Script demanded given fun resolve => evaluation resolve >>= bindOutput statement :=
        fun first => first.bind (script_bindOutput receives)
      cases instruction.family with
      | move => exact bound (script_resolveOperand demands 0)
      | add => exact bound (script_combineOperands demands .add)
      | sub => exact bound (script_combineOperands demands .sub)
      | mul => exact bound (script_combineOperands demands .mul)
      | div => exact bound (script_combineOperands demands .div)
      | shl => exact script_shiftOperands demands receives instruction .shiftLeft
      | sal => exact script_shiftOperands demands receives instruction .shiftLeft
      | shr => exact script_shiftOperands demands receives instruction .shiftRight
      | sar => exact script_shiftOperands demands receives instruction .shiftRight
      | xor => exact bound (script_xorOperands instruction)
      | lea => exact bound (script_addressOperand demands)
      | inc => exact bound (script_stepOperand demands 1)
      | dec => exact bound (script_stepOperand demands (-1))
      | sqrt => exact bound (script_rootOperand demands)
      | gather => exact script_gatherOutput.andPure _
      | _ => exact script_placeholderOutput

theorem script_evaluatePhi (demands : ∀ source, statement.usedVars = [source] → demanded source)
    (receives : ∀ source, statement.usedVars = [source] →
      ∀ output, statement.output? = some output → given output) :
    Script demanded given fun resolve => evaluatePhi resolve statement := by
  unfold evaluatePhi
  cases first : statement.output? with
  | none => exact .pure none
  | some output =>
      refine (Script.ask _).bind fun known => ?_
      cases known with
      | some bound => exact .pure _
      | none =>
          dsimp only
          split
          · rename_i source single
            exact (Script.resolve (demands source single)).bind fun value =>
              (Script.give (receives source single output first) value).andPure some
          · exact (Script.placeholder output).andPure some

theorem script_resolveAll (vars : List VarId) (demands : ∀ var ∈ vars, demanded var) :
    Script demanded given fun resolve => resolveAll resolve vars := by
  induction vars with
  | nil => exact .pure ()
  | cons var vars ih =>
      have rest := ih fun other member => demands other (List.mem_cons_of_mem var member)
      refine (Script.ask _).bind fun bound => ?_
      split
      · exact rest
      · exact (Script.resolve (demands var List.mem_cons_self)).bind fun _ => rest

theorem script_evaluateStatement (policy : Policy) (statement : Statement) :
    Script statement.Demands statement.Receives fun resolve =>
      evaluateStatement policy resolve statement := by
  unfold evaluateStatement
  cases machine : statement.instruction with
  | none =>
      apply script_evaluatePhi
      · intro source single
        refine ⟨?_, fun _ => single⟩
        rw [single]
        exact List.mem_singleton_self source
      · intro source single output first
        exact ⟨first, fun _ => ⟨source, single⟩⟩
  | some instruction =>
      have notPhi : statement.isPhi ≠ true := by simp [Statement.isPhi, machine]
      have demands : ∀ var ∈ statement.usedVars, statement.Demands var :=
        fun _ reads => ⟨reads, fun isPhi => absurd isPhi notPhi⟩
      have receives : ∀ output, statement.output? = some output → statement.Receives output :=
        fun _ first => ⟨first, fun isPhi => absurd isPhi notPhi⟩
      refine (script_evaluateInstruction demands receives instruction).bind fun result => ?_
      exact (script_resolveAll _ demands).andPure _

theorem performs_resolveOperand {resolve : VarId → Evaluation ValueId}
    (demands : ∀ var ∈ statement.usedVars, demanded var) (position : Nat) :
    Performs resolve demanded given (resolveOperand policy resolve statement position) :=
  (script_resolveOperand demands position).performs resolve

theorem performs_resolveAll {resolve : VarId → Evaluation ValueId} (vars : List VarId)
    (demands : ∀ var ∈ vars, demanded var) :
    Performs resolve demanded given (resolveAll resolve vars) :=
  (script_resolveAll vars demands).performs resolve

theorem performs_evaluateStatement (policy : Policy) (resolve : VarId → Evaluation ValueId)
    (statement : Statement) :
    Performs resolve statement.Demands statement.Receives
      (evaluateStatement policy resolve statement) :=
  (script_evaluateStatement policy statement).performs resolve

end Statements

/-! ## What moves leave alone -/

/-- From one state to another, bound variables keep their values, and the events that are added are
of an allowed kind. -/
structure Adds (allowed : Event → Prop) (before after : Progress) : Prop where
  values : ∀ {var : VarId} {value : ValueId}, before.store.valueOf? var = some value →
    after.store.valueOf? var = some value
  appends : ∃ added : List Event, after.events.toList = before.events.toList ++ added ∧
    ∀ event ∈ added, allowed event

namespace Adds

variable {allowed : Event → Prop} {before middle after : Progress}

theorem silent (grows : before.store.Extends after.store) (same : after.events = before.events) :
    Adds allowed before after where
  values := grows.values
  appends := ⟨[], by simp [same]⟩

theorem refl (progress : Progress) : Adds allowed progress progress := .silent (.refl _) rfl

theorem trans (first : Adds allowed before middle) (second : Adds allowed middle after) :
    Adds allowed before after where
  values := fun found => second.values (first.values found)
  appends := by
    obtain ⟨added, splits, areAllowed⟩ := first.appends
    obtain ⟨more, continues, moreAllowed⟩ := second.appends
    refine ⟨added ++ more, by rw [continues, splits, List.append_assoc], ?_⟩
    intro event member
    rcases List.mem_append.mp member with early | late
    · exact areAllowed event early
    · exact moreAllowed event late

theorem events (adds : Adds allowed before after) :
    ∀ event ∈ after.events, event ∈ before.events ∨ allowed event := by
  intro event member
  obtain ⟨added, splits, areAllowed⟩ := adds.appends
  rw [← Array.mem_toList_iff, splits, List.mem_append, Array.mem_toList_iff] at member
  exact member.imp_right (areAllowed event)

theorem isBound (adds : Adds allowed before after) {var : VarId}
    (bound : before.store.isBound var = true) : after.store.isBound var = true := by
  obtain ⟨value, found⟩ := Store.isBound_iff.mp bound
  exact Store.isBound_iff.mpr ⟨value, adds.values found⟩

theorem notMem (adds : Adds allowed before after) {event : Event} (refused : ¬ allowed event)
    (missing : event ∉ before.events) : event ∉ after.events := by
  intro member
  rcases adds.events event member with old | new
  · exact missing old
  · exact refused new

theorem report {event : Event} (isAllowed : allowed event) (before : Progress) :
    Adds allowed before (report event before).2 where
  values := fun found => found
  appends := ⟨[event], Array.toList_push, by simpa using isAllowed⟩

theorem placeholder (var : VarId) (before : Progress) :
    Adds allowed before (placeholder var before).2 :=
  .silent (extends_placeholder before var) rfl

/-- Moves add only what resolving a variable adds, as long as it is ready to be resolved. -/
theorem of_moves {resolve : VarId → Evaluation ValueId} {demanded given : VarId → Prop}
    (ready : VarId → Progress → Prop)
    (routine : ∀ event : Event, event.IsRoutine → allowed event)
    (stable : ∀ {var : VarId} {earlier later : Progress}, ready var earlier →
      Adds allowed earlier later → ready var later)
    (resolves : ∀ {var : VarId} {earlier : Progress}, ready var earlier →
      Adds allowed earlier (resolve var earlier).2)
    (moves : Relation.ReflTransGen (Move resolve demanded given) before after)
    (isReady : ∀ var, demanded var → ready var before) : Adds allowed before after := by
  induction moves with
  | refl => exact .refl before
  | tail _ move soFar =>
      refine soFar.trans ?_
      cases move with
      | alloc _ => exact .silent (Store.extends_alloc _ _) rfl
      | unmark value => exact .silent (Store.extends_mark _ value false) rfl
      | bind _ value => exact .silent (Store.extends_bind _ _ value) rfl
      | placeholder var => exact .placeholder var _
      | report isRoutine => exact .report (routine _ isRoutine) _
      | resolve isDemanded => exact resolves (stable (isReady _ isDemanded) soFar)

end Adds

end Evaluation

end SymbolicFlow
