import SymbolicFlow.Digraph
import SymbolicFlow.Instruction

/-!
# Single-assignment form

Every register that a procedure writes is split into variables, one for each place that
writes it.  A statement is either a machine instruction with the variables it reads and
defines, or a phi, which stands at the start of a block and merges the variables that
arrive over its incoming edges.
-/

set_option autoImplicit false

namespace SymbolicFlow.Ssa

abbrev VarId := Nat

/-- The name under which a variable is shown when its register does not matter. -/
def varName (var : VarId) : String :=
  "v" ++ toString var

/-- A statement by its block and its position there, phis included. -/
structure Location where
  block : NodeId
  index : Nat
  deriving DecidableEq, Inhabited

/-- One version of a register.  Version zero is the value at the procedure's entry.  Versions have
no upper limit here; counted in 32 bits they are the same as long as every register is given fewer
than `2 ^ 32` of them. -/
structure Variable where
  register : Register
  version : Nat
  definition : Option Location
  deriving DecidableEq, Inhabited

def Variable.isExternal (var : Variable) : Bool := var.definition.isNone

/-- A statement.  Without an instruction it is a phi, whose slots are its sources; with one,
there are two slots for each operand and for each implicit read. -/
structure Statement where
  instruction : Option Instruction
  slots : List (Option VarId)
  outputs : List VarId
  implicitCount : Nat := 0
  deriving DecidableEq, Inhabited

namespace Statement

def phi (output : VarId) (sources : List (Option VarId)) : Statement where
  instruction := none
  slots := sources
  outputs := [output]

def isPhi (statement : Statement) : Bool := statement.instruction.isNone

def family? (statement : Statement) : Option Family := statement.instruction.map (·.family)

def address? (statement : Statement) : Option UInt64 := statement.instruction.map (·.address)

def explicitCount (statement : Statement) : Nat :=
  match statement.instruction with
  | none => 0
  | some instruction => instruction.operands.length

def positionCount (statement : Statement) : Nat :=
  statement.explicitCount + statement.implicitCount

def operandVar? (statement : Statement) (position : Nat) : Option VarId :=
  (statement.slots[2 * position]?).join

def indexVar? (statement : Statement) (position : Nat) : Option VarId :=
  (statement.slots[2 * position + 1]?).join

def output? (statement : Statement) : Option VarId := statement.outputs.head?

def usedVars (statement : Statement) : List VarId := statement.slots.filterMap id

/-- Outputs, then `phi` and the sources, or the mnemonic and the slots; an empty slot is shown
as an underscore. -/
def text (statement : Statement) : String :=
  let outputs := ", ".intercalate (statement.outputs.map varName)
  let inputs := ", ".intercalate (statement.slots.map fun slot => (slot.map varName).getD "_")
  match statement.instruction with
  | none => outputs ++ " = phi(" ++ inputs ++ ")"
  | some instruction => outputs ++ " = " ++ instruction.mnemonic ++ " [" ++ inputs ++ "]"

end Statement

structure Block where
  id : NodeId
  statements : Array Statement
  deriving DecidableEq, Inhabited

namespace Block

def phis (block : Block) : List Statement :=
  block.statements.toList.takeWhile (·.isPhi)

def machineStatements (block : Block) : List Statement :=
  block.statements.toList.filter fun statement => !statement.isPhi

def text (block : Block) : String :=
  nodeName block.id ++ ":\n" ++
    String.join (block.statements.toList.map fun statement => "  " ++ statement.text ++ "\n")

end Block

structure Form where
  blocks : Array Block := #[]
  vars : Array Variable := #[]
  /-- The variables that stand for reads of the program counter, each with the address that
  is read there. -/
  counterReads : Array (VarId × UInt64) := #[]
  deriving DecidableEq, Inhabited

namespace Form

def block? (form : Form) (block : NodeId) : Option Block := form.blocks[block]?

def var? (form : Form) (var : VarId) : Option Variable := form.vars[var]?

def statement? (form : Form) (location : Location) : Option Statement :=
  (form.blocks[location.block]?).bind fun block => block.statements[location.index]?

def definition? (form : Form) (var : VarId) : Option Statement :=
  (form.var? var).bind fun named => named.definition.bind form.statement?

def statementCount (form : Form) : Nat :=
  form.blocks.foldl (fun count block => count + block.statements.size) 0

def text (form : Form) : String :=
  String.join (form.blocks.toList.map Block.text)

end Form

end SymbolicFlow.Ssa
