import SymbolicFlow.Event
import SymbolicFlow.Policy
import SymbolicFlow.Value.Store

/-!
# Evaluating statements

Evaluating a statement finds symbolic values for what it reads, makes a value for what it
defines, and binds the statement's output to it.  Whatever cannot be expressed is bound to a
placeholder, so that every variable that was read is bound afterwards.

A statement is evaluated relative to a way `resolve` of finding the value of a variable.
`resolveVar` is that way: it walks down the definitions that are still missing with a list of
variables in progress, and evaluates each definition once everything that it reads is bound or
in progress.  At that moment looking a variable up is enough, which is `settled`; so a walk
never starts another one.
-/

set_option autoImplicit false

namespace SymbolicFlow

open Ssa (Statement)

structure Progress where
  store : Store := {}
  events : Array Event := #[]

abbrev Evaluation := StateM Progress

/-- What an evaluation works on: the form, the policy, and the number of definitions that may
be in progress at a time. -/
structure Setting where
  form : Ssa.Form
  policy : Policy := {}
  depthLimit : Nat := 1024

namespace Evaluation

def report (event : Event) : Evaluation Unit :=
  fun ⟨store, events⟩ => ((), ⟨store, events.push event⟩)

def onStore {α : Type} (operation : Store → α × Store) : Evaluation α :=
  fun ⟨store, events⟩ =>
    let (result, changed) := operation store
    (result, ⟨changed, events⟩)

def ask {α : Type} (question : Store → α) : Evaluation α :=
  fun progress => (question progress.store, progress)

def alloc (shape : Shape) (loaded : Bool) : Evaluation ValueId :=
  onStore (·.alloc ⟨shape, loaded⟩)

def immediate (value : Int64) : Evaluation ValueId := alloc (.immediate value) false

def binary (operator : Operator) (left right : ValueId) : Evaluation ValueId :=
  alloc (.binary operator left right) false

def unary (operator : Operator) (operand : ValueId) : Evaluation ValueId :=
  alloc (.unary operator operand) false

def bind (var : VarId) (value : ValueId) : Evaluation ValueId := onStore (·.bind var value)

def placeholder (var : VarId) : Evaluation ValueId := onStore (·.placeholder var)

def placeholderOutput (statement : Statement) : Evaluation (Option ValueId) :=
  statement.output?.mapM placeholder

/-- Binds the output of a statement to its result.  Without a result nothing is bound. -/
def bindOutput (statement : Statement) : Option ValueId → Evaluation (Option ValueId)
  | none => pure none
  | some value =>
      match statement.output? with
      | none => pure (some value)
      | some output => do
          let bound ← bind output value
          pure (some bound)

section Relative

variable (policy : Policy) (resolve : VarId → Evaluation ValueId) (statement : Statement)

/-- The part of an address that comes from registers: `base + index * scale`, as far as both
are there. -/
def registerPart (position : Nat) (scale : UInt8) : Evaluation (Option ValueId) := do
  let base ← (statement.operandVar? position).mapM resolve
  let index ← (statement.indexVar? position).mapM resolve
  let scaled ← index.mapM fun index => do
    let factor ← immediate (Int64.ofNat scale.toNat)
    binary .mul index factor
  match base, scaled with
  | some base, some scaled => do
      let sum ← binary .add base scaled
      pure (some sum)
  | some part, none => pure (some part)
  | none, some part => pure (some part)
  | none, none => pure none

/-- What memory holds at a reference: `offset + base + index * scale`, loaded.  Without memory
tracking the access is only known by its instruction, unless an address is computed. -/
def resolveMemory (instruction : Instruction) (position : Nat) (reference : MemoryReference) :
    Evaluation ValueId :=
  if policy.untrackedMemory && instruction.family != .lea then
    alloc (.memory instruction.address) true
  else do
    match ← registerPart resolve statement position reference.scale with
    | some part => do
        let offset ← immediate reference.offset
        alloc (.binary .add offset part) true
    | none => alloc (.immediate reference.offset) true

/-- The value at a position of a statement: explicit operands first, then implicit reads.
There is none for a phi, a pointer, an empty slot, or a position that does not exist. -/
def resolveOperand (position : Nat) : Evaluation (Option ValueId) :=
  match statement.instruction with
  | none => pure none
  | some instruction =>
      match instruction.operands[position]? with
      | none =>
          if position < statement.positionCount then
            (statement.operandVar? position).mapM resolve
          else pure none
      | some operand =>
          match operand.kind with
          | .immediate value => do
              let constant ← immediate value
              pure (some constant)
          | .register _ | .indexedRegister _ _ => (statement.operandVar? position).mapM resolve
          | .memory reference | .relativeMemory reference => do
              let value ← resolveMemory policy resolve statement instruction position reference
              pure (some value)
          | .pointer _ => pure none

def combineOperands (operator : Operator) : Evaluation (Option ValueId) :=
  if statement.explicitCount < 2 then pure none
  else do
    match ← resolveOperand policy resolve statement 0 with
    | none => pure none
    | some first =>
        match ← resolveOperand policy resolve statement 1 with
        | none => pure none
        | some second => do
            let value ← binary operator second first
            pure (some value)

/-- `operand 1` shifted by `operand 0`.  The output becomes a placeholder if an operand is
missing, or if the policy wants constant amounts and the amount is no constant. -/
def shiftOperands (instruction : Instruction) (operator : Operator) :
    Evaluation (Option ValueId) := do
  let amount ← resolveOperand policy resolve statement 0
  let value ← resolveOperand policy resolve statement 1
  match amount, value with
  | some amount, some value => do
      let constant ← ask fun store => ((store.node? amount).bind Node.immediate?).isSome
      if policy.constantShifts && !constant then do
        report (.unresolvedShift instruction)
        placeholderOutput statement
      else do
        let shifted ← binary operator value amount
        bindOutput statement (some shifted)
  | _, _ => placeholderOutput statement

/-- An exclusive or of a register with itself is zero; any other is not expressed. -/
def xorOperands (instruction : Instruction) : Evaluation (Option ValueId) :=
  match (instruction.operands[0]?).bind Operand.register?,
      (instruction.operands[1]?).bind Operand.register? with
  | some first, some second =>
      if first = second then do
        let constant ← immediate 0
        pure (some constant)
      else do
        report (.unresolvedXor instruction)
        pure none
  | _, _ => do
      report (.unresolvedXor instruction)
      pure none

/-- `operand 0` as an address: what is loaded from memory elsewhere is the address itself. -/
def addressOperand : Evaluation (Option ValueId) := do
  match ← resolveOperand policy resolve statement 0 with
  | none => pure none
  | some value => do
      let address ← onStore (·.mark value false)
      pure (some address)

def stepOperand (delta : Int64) : Evaluation (Option ValueId) := do
  match ← resolveOperand policy resolve statement 0 with
  | none => pure none
  | some value => do
      let step ← immediate delta
      let stepped ← binary .add step value
      pure (some stepped)

def rootOperand : Evaluation (Option ValueId) := do
  match ← resolveOperand policy resolve statement 0 with
  | none => pure none
  | some value => do
      let root ← unary .sqrt value
      pure (some root)

/-- A gather overwrites its mask as its second output, so that one becomes a placeholder; the
first one only if there is no second or the second is bound. -/
def gatherOutput : Evaluation Unit :=
  match statement.outputs with
  | [] => pure ()
  | [first] => do
      let _ ← placeholder first
      pure ()
  | first :: second :: _ => do
      let bound ← ask (·.isBound second)
      let _ ← placeholder (if bound then first else second)
      pure ()

/-- Evaluates an instruction by its family.  An output that is bound already is the result. -/
def evaluateInstruction (instruction : Instruction) : Evaluation (Option ValueId) := do
  match ← ask fun store => statement.output?.bind store.valueOf? with
  | some bound => pure (some bound)
  | none => do
      report (.evaluating instruction)
      match instruction.family with
      | .move => do
          let value ← resolveOperand policy resolve statement 0
          bindOutput statement value
      | .add => do
          let value ← combineOperands policy resolve statement .add
          bindOutput statement value
      | .sub => do
          let value ← combineOperands policy resolve statement .sub
          bindOutput statement value
      | .mul => do
          let value ← combineOperands policy resolve statement .mul
          bindOutput statement value
      | .div => do
          let value ← combineOperands policy resolve statement .div
          bindOutput statement value
      | .shl | .sal => shiftOperands policy resolve statement instruction .shiftLeft
      | .shr | .sar => shiftOperands policy resolve statement instruction .shiftRight
      | .xor => do
          let value ← xorOperands instruction
          bindOutput statement value
      | .lea => do
          let value ← addressOperand policy resolve statement
          bindOutput statement value
      | .inc => do
          let value ← stepOperand policy resolve statement 1
          bindOutput statement value
      | .dec => do
          let value ← stepOperand policy resolve statement (-1)
          bindOutput statement value
      | .sqrt => do
          let value ← rootOperand policy resolve statement
          bindOutput statement value
      | .gather => do
          gatherOutput statement
          pure none
      | _ => placeholderOutput statement

/-- A phi with one source is a copy of it; any other phi stays a placeholder. -/
def evaluatePhi : Evaluation (Option ValueId) :=
  match statement.output? with
  | none => pure none
  | some output => do
      match ← ask (·.valueOf? output) with
      | some bound => pure (some bound)
      | none =>
          match statement.usedVars with
          | [source] => do
              let value ← resolve source
              let bound ← bind output value
              pure (some bound)
          | _ => do
              let value ← placeholder output
              pure (some value)

def resolveAll : List VarId → Evaluation Unit
  | [] => pure ()
  | var :: vars => do
      let bound ← ask (·.isBound var)
      if bound then resolveAll vars
      else do
        let _ ← resolve var
        resolveAll vars

/-- Evaluates a statement.  Afterwards everything that an instruction reads is bound. -/
def evaluateStatement : Evaluation (Option ValueId) :=
  match statement.instruction with
  | none => evaluatePhi resolve statement
  | some instruction => do
      let result ← evaluateInstruction policy resolve statement instruction
      resolveAll resolve statement.usedVars
      pure result

end Relative

/-- Looks a variable up.  One that is not bound is in progress, that is needed for its own
definition, and becomes a placeholder. -/
def settled (var : VarId) : Evaluation ValueId := do
  match ← ask (·.valueOf? var) with
  | some bound => pure bound
  | none => do
      report (.cyclic var)
      placeholder var

/-- The first variable that has to be bound before a statement can be evaluated.  A phi waits
for nothing unless it is a copy. -/
def waitsFor? (store : Store) (pending : List VarId) (statement : Statement) : Option VarId :=
  let isOpen (var : VarId) : Bool := !store.isBound var && !pending.contains var
  match statement.instruction with
  | none =>
      match statement.usedVars with
      | [source] => if isOpen source then some source else none
      | _ => none
  | some _ => statement.usedVars.find? isOpen

/-- One step of a walk on the first of the variables in progress.  If it is bound, it is left.
If its definition waits for a variable, that one is entered, unless this would exceed the depth
limit: then it becomes a placeholder.  Otherwise the definition is evaluated and the variable is
left. -/
def walkStep (setting : Setting) : (pending : List VarId) → Evaluation (List VarId)
  | [] => pure []
  | var :: pending => do
      let bound ← ask (·.isBound var)
      if bound then pure pending
      else
        match setting.form.definition? var with
        | none => do
            report (.undefined var)
            let _ ← placeholder var
            pure pending
        | some statement => do
            match ← ask fun store => waitsFor? store (var :: pending) statement with
            | some input =>
                if setting.depthLimit ≤ (var :: pending).length then do
                  report (.tooDeep input setting.depthLimit)
                  let _ ← placeholder input
                  pure (var :: pending)
                else pure (input :: var :: pending)
            | none => do
                let _ ← evaluateStatement setting.policy settled statement
                let _ ← placeholder var
                pure pending

def walk (setting : Setting) : (steps : Nat) → (pending : List VarId) → Evaluation Unit
  | 0, _ => pure ()
  | _ + 1, [] => pure ()
  | steps + 1, var :: pending => do
      let rest ← walkStep setting (var :: pending)
      walk setting steps rest

/-- The value of a variable.  Every variable of the form is entered or bound at most once and
left at most once, which bounds the walk. -/
def resolveVar (setting : Setting) (var : VarId) : Evaluation ValueId := do
  match ← ask (·.valueOf? var) with
  | some bound => pure bound
  | none => do
      walk setting (2 * (setting.form.vars.size + 1)) [var]
      placeholder var

def evaluate (setting : Setting) (statement : Statement) : Evaluation (Option ValueId) :=
  evaluateStatement setting.policy (resolveVar setting) statement

def operand (setting : Setting) (statement : Statement) (position : Nat) :
    Evaluation (Option ValueId) :=
  resolveOperand setting.policy (resolveVar setting) statement position

end Evaluation

end SymbolicFlow
