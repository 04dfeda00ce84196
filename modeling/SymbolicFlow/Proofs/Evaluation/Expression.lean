import Mathlib.Tactic.Common
import SymbolicFlow.Policy
import SymbolicFlow.Value

/-!
# The expression of a variable

What a variable stands for, by plain recursion over definitions: no store, no order, no sharing.
One step of the recursion is `Form.definitionTree`.  It makes the expression of a variable out of
the expressions `trees` of the variables that its definition reads, and uses no others
(`definitionTree_congr`).

In an `Orderly` form a definition reads only older variables, so the recursion has exactly one
solution.  `Reading.Denotes` is the same recursion, cut off at some of the variables.
-/

set_option autoImplicit false

namespace SymbolicFlow

def Tree.isConstant : Tree → Bool
  | .immediate _ _ => true
  | _ => false

namespace Ssa

namespace Statement

variable (statement : Statement) (policy : Policy) (trees : VarId → Tree)

def registerTree (position : Nat) (scale : UInt8) : Option Tree :=
  let base := (statement.operandVar? position).map trees
  let scaled := (statement.indexVar? position).map fun index =>
    Tree.binary .mul (trees index) (.immediate (Int64.ofNat scale.toNat) false) false
  match base, scaled with
  | some base, some scaled => some (.binary .add base scaled false)
  | some part, none => some part
  | none, some part => some part
  | none, none => none

def memoryTree (instruction : Instruction) (position : Nat) (reference : MemoryReference) : Tree :=
  if policy.untrackedMemory && instruction.family != .lea then .memory instruction.address true
  else
    match statement.registerTree trees position reference.scale with
    | some part => .binary .add (.immediate reference.offset false) part true
    | none => .immediate reference.offset true

def operandTree (position : Nat) : Option Tree :=
  match statement.instruction with
  | none => none
  | some instruction =>
      match instruction.operands[position]? with
      | none =>
          if position < statement.positionCount then (statement.operandVar? position).map trees
          else none
      | some operand =>
          match operand.kind with
          | .immediate value => some (.immediate value false)
          | .register _ | .indexedRegister _ _ => (statement.operandVar? position).map trees
          | .memory reference | .relativeMemory reference =>
              some (statement.memoryTree policy trees instruction position reference)
          | .pointer _ => none

def combinedTree (operator : Operator) : Option Tree :=
  if statement.explicitCount < 2 then none
  else
    match statement.operandTree policy trees 0, statement.operandTree policy trees 1 with
    | some first, some second => some (.binary operator second first false)
    | _, _ => none

def shiftedTree (operator : Operator) : Option Tree :=
  match statement.operandTree policy trees 0, statement.operandTree policy trees 1 with
  | some amount, some value =>
      if policy.constantShifts && !amount.isConstant then none
      else some (.binary operator value amount false)
  | _, _ => none

def clears (instruction : Instruction) : Bool :=
  match (instruction.operands[0]?).bind Operand.register?,
      (instruction.operands[1]?).bind Operand.register? with
  | some first, some second => first = second
  | _, _ => false

def familyTree (instruction : Instruction) : Family → Option Tree
  | .move => statement.operandTree policy trees 0
  | .add => statement.combinedTree policy trees .add
  | .sub => statement.combinedTree policy trees .sub
  | .mul => statement.combinedTree policy trees .mul
  | .div => statement.combinedTree policy trees .div
  | .shl | .sal => statement.shiftedTree policy trees .shiftLeft
  | .shr | .sar => statement.shiftedTree policy trees .shiftRight
  | .xor => if clears instruction then some (.immediate 0 false) else none
  | .lea => (statement.operandTree policy trees 0).map (Tree.remarked false)
  | .inc => (statement.operandTree policy trees 0).map fun value =>
      .binary .add (.immediate 1 false) value false
  | .dec => (statement.operandTree policy trees 0).map fun value =>
      .binary .add (.immediate (-1) false) value false
  | .sqrt => (statement.operandTree policy trees 0).map fun value => .unary .sqrt value false
  | _ => none

/-- What a statement computes for its first output; none if that cannot be expressed. -/
def resultTree : Option Tree :=
  match statement.instruction with
  | none => none
  | some instruction => statement.familyTree policy trees instruction instruction.family

end Statement

namespace Form

def counterRead? (form : Form) (var : VarId) : Option UInt64 :=
  (form.counterReads.find? (·.1 = var)).map (·.2)

def definitionTree (form : Form) (policy : Policy) (trees : VarId → Tree) (var : VarId) : Tree :=
  match form.counterRead? var with
  | some next => .immediate next.toInt64 false
  | none =>
      match form.definition? var with
      | none => .register var false
      | some statement =>
          if statement.output? = some var then
            (statement.resultTree policy trees).getD (.register var false)
          else .register var false

def Unfolds (form : Form) (policy : Policy) (trees : VarId → Tree) : Prop :=
  ∀ var, trees var = form.definitionTree policy trees var

def inputs (form : Form) (var : VarId) : List VarId :=
  match form.definition? var with
  | none => []
  | some statement => if statement.isPhi then [] else statement.usedVars

end Form

/-! ## Only inputs matter -/

namespace Statement

variable {statement : Statement} {policy : Policy} {trees others : VarId → Tree}

theorem mem_usedVars_of_slot {slot : Nat} {var : VarId}
    (found : (statement.slots[slot]?).join = some var) : var ∈ statement.usedVars := by
  refine List.mem_filterMap.mpr ⟨some var, ?_, rfl⟩
  rw [Option.join_eq_some_iff] at found
  exact List.mem_of_getElem? found

theorem registerTree_congr (agree : ∀ used ∈ statement.usedVars, trees used = others used)
    (position : Nat) (scale : UInt8) :
    statement.registerTree trees position scale = statement.registerTree others position scale := by
  have base : (statement.operandVar? position).map trees =
      (statement.operandVar? position).map others :=
    Option.map_congr fun var found => agree var (mem_usedVars_of_slot found)
  have index : ((statement.indexVar? position).map fun index =>
      Tree.binary .mul (trees index) (.immediate (Int64.ofNat scale.toNat) false) false) =
      (statement.indexVar? position).map fun index =>
        Tree.binary .mul (others index) (.immediate (Int64.ofNat scale.toNat) false) false :=
    Option.map_congr fun var found => by rw [agree var (mem_usedVars_of_slot found)]
  simp only [registerTree, base, index]

theorem operandTree_congr (agree : ∀ used ∈ statement.usedVars, trees used = others used)
    (position : Nat) :
    statement.operandTree policy trees position = statement.operandTree policy others position := by
  have register : (statement.operandVar? position).map trees =
      (statement.operandVar? position).map others :=
    Option.map_congr fun var found => agree var (mem_usedVars_of_slot found)
  simp only [operandTree, memoryTree, registerTree_congr agree, register]

theorem resultTree_congr (agree : ∀ used ∈ statement.usedVars, trees used = others used) :
    statement.resultTree policy trees = statement.resultTree policy others := by
  cases machine : statement.instruction with
  | none => simp only [resultTree, machine]
  | some instruction =>
      simp only [resultTree, machine]
      cases instruction.family <;>
        simp only [familyTree, combinedTree, shiftedTree, operandTree_congr agree]

theorem resultTree_of_isPhi (isPhi : statement.isPhi = true) :
    statement.resultTree policy trees = none := by
  have missing : statement.instruction = none := by simpa [Statement.isPhi] using isPhi
  simp only [resultTree, missing]

end Statement

namespace Form

variable {form : Form} {policy : Policy} {trees others : VarId → Tree} {var : VarId}

theorem exists_place_of_definition? {statement : Statement}
    (defined : form.definition? var = some statement) :
    ∃ place, form.statement? place = some statement := by
  obtain ⟨named, _, known⟩ := Option.bind_eq_some_iff.mp defined
  obtain ⟨place, _, placed⟩ := Option.bind_eq_some_iff.mp known
  exact ⟨place, placed⟩

theorem lt_size_of_definition? {statement : Statement}
    (defined : form.definition? var = some statement) : var < form.vars.size := by
  obtain ⟨named, known, _⟩ := Option.bind_eq_some_iff.mp defined
  exact (Array.getElem?_eq_some_iff.mp known).1

theorem lt_size_of_mem_inputs {used : VarId} (reads : used ∈ form.inputs var) :
    var < form.vars.size := by
  cases defined : form.definition? var with
  | none => simp [inputs, defined] at reads
  | some statement => exact lt_size_of_definition? defined

theorem mem_counterReads_of_counterRead? {next : UInt64}
    (read : form.counterRead? var = some next) : (var, next) ∈ form.counterReads := by
  obtain ⟨pair, found, same⟩ := Option.map_eq_some_iff.mp read
  have isVar : pair.1 = var := by simpa using Array.find?_some found
  have member := Array.mem_of_find?_eq_some found
  rw [← isVar, ← same]
  exact member

theorem definitionTree_congr (agree : ∀ used ∈ form.inputs var, trees used = others used) :
    form.definitionTree policy trees var = form.definitionTree policy others var := by
  simp only [definitionTree]
  cases found : form.definition? var with
  | none => rfl
  | some statement =>
      simp only [inputs, found] at agree
      by_cases isPhi : statement.isPhi
      · simp only [Statement.resultTree_of_isPhi isPhi]
      · rw [if_neg isPhi] at agree
        simp only [Statement.resultTree_congr agree]

/-! ## Forms in which the recursion ends -/

structure Orderly (form : Form) : Prop where
  inputsOlder : ∀ {var used : VarId}, used ∈ form.inputs var → used < var
  phiMerges : ∀ {place : Location} {statement : Statement}, form.statement? place = some statement →
    statement.isPhi = true → ∀ source, statement.usedVars ≠ [source]
  outputDefined : ∀ {place : Location} {statement : Statement} {output : VarId},
    form.statement? place = some statement → output ∈ statement.outputs →
    form.definition? output = some statement
  counterUndefined : ∀ {var : VarId} {next : UInt64}, form.counterRead? var = some next →
    form.definition? var = none

/-- The solution of the recursion, in which only older variables are looked at. -/
def expression (form : Form) (policy : Policy) (var : VarId) : Tree :=
  form.definitionTree policy
    (fun used => if used < var then form.expression policy used else .absent) var
termination_by var

theorem Orderly.unfolds_expression (orderly : form.Orderly) (policy : Policy) :
    form.Unfolds policy (form.expression policy) := by
  intro var
  rw [expression]
  refine definitionTree_congr fun used reads => ?_
  rw [if_pos (orderly.inputsOlder reads)]

theorem Orderly.unfolds_unique (orderly : form.Orderly) (unfolds : form.Unfolds policy trees)
    (othersUnfold : form.Unfolds policy others) : trees = others := by
  funext var
  induction var using Nat.strongRecOn with
  | ind var ih =>
      rw [unfolds var, othersUnfold var]
      exact definitionTree_congr fun used reads => ih used (orderly.inputsOlder reads)

end Form

/-- How the variables of a form are read: under which policy, and which of them may be left as
they are. -/
structure Reading where
  form : Form
  policy : Policy
  cut : VarId → Prop

/-- The expressions that a variable can have. -/
inductive Reading.Denotes (reading : Reading) : VarId → Tree → Prop
  | leave {var : VarId} (isCut : reading.cut var) : Denotes reading var (.register var false)
  | unfold {var : VarId} {trees : VarId → Tree}
      (inputs : ∀ used ∈ reading.form.inputs var, Denotes reading used (trees used)) :
      Denotes reading var (reading.form.definitionTree reading.policy trees var)

theorem Form.Orderly.denotes_expression {reading : Reading} (orderly : reading.form.Orderly)
    (var : VarId) : reading.Denotes var (reading.form.expression reading.policy var) := by
  induction var using Nat.strongRecOn with
  | ind var ih =>
      rw [orderly.unfolds_expression reading.policy var]
      exact .unfold fun used reads => ih used (orderly.inputsOlder reads)

/-- With nothing left as it is, the expression is the one that the recursion gives. -/
theorem Reading.Denotes.eq_of_unfolds {reading : Reading} {var : VarId} {tree : Tree}
    (denotes : reading.Denotes var tree) (uncut : ∀ var, ¬ reading.cut var)
    {trees : VarId → Tree} (unfolds : reading.form.Unfolds reading.policy trees) :
    tree = trees var := by
  induction denotes with
  | leave isCut => exact absurd isCut (uncut _)
  | @unfold var given _ ih =>
      rw [unfolds var]
      exact Form.definitionTree_congr ih

end Ssa

end SymbolicFlow
