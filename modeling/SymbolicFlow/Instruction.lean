import SymbolicFlow.Machine
import SymbolicFlow.Text.Hex

/-!
# Machine instructions

An instruction lists its operands with the sources first and the destination last.
Registers that it reads or writes without naming them are listed beside the operands.

For every operand there are two register slots, a primary one (a register, or the base
of a memory reference) and a secondary one (an index).  `Instruction.slotReads` lists
the registers that an instruction reads slot by slot, `Instruction.writes` the registers
that it writes.  The program counter is read, never written.
-/

set_option autoImplicit false

namespace SymbolicFlow

inductive Access where
  | read
  | write
  | readWrite
  deriving DecidableEq, Inhabited

namespace Access

def reads : Access → Bool
  | read | readWrite => true
  | write => false

def writes : Access → Bool
  | write | readWrite => true
  | read => false

def ofName? : String → Option Access
  | "r" => some read
  | "w" => some write
  | "rw" => some readWrite
  | _ => none

end Access

/-- The address `base + index * scale + offset`. -/
structure MemoryReference where
  base : Option Register := none
  index : Option Register := none
  scale : UInt8 := 1
  offset : Int64 := 0
  deriving DecidableEq, Inhabited

/-- What an operand denotes.  A relative memory reference without a base is taken from the
program counter. -/
inductive OperandKind where
  | immediate (value : Int64)
  | register (register : Register)
  | indexedRegister (register index : Register)
  | memory (reference : MemoryReference)
  | relativeMemory (reference : MemoryReference)
  | pointer (target : UInt64)
  deriving DecidableEq, Inhabited

def OperandKind.name : OperandKind → String
  | immediate _ => "imm"
  | register _ => "reg"
  | indexedRegister _ _ => "idx"
  | memory _ => "mem"
  | relativeMemory _ => "rel"
  | pointer _ => "ptr"

structure Operand where
  kind : OperandKind
  access : Access := .read
  deriving DecidableEq, Inhabited

namespace Operand

/-- The registers named by an operand, read or not: primary slot, secondary slot. -/
def slotRegisters (operand : Operand) : Option Register × Option Register :=
  match operand.kind with
  | .register register => (some register, none)
  | .indexedRegister register index => (some register, some index)
  | .memory reference | .relativeMemory reference => (reference.base, reference.index)
  | .immediate _ | .pointer _ => (none, none)

def memory? (operand : Operand) : Option MemoryReference :=
  match operand.kind with
  | .memory reference | .relativeMemory reference => some reference
  | _ => none

def immediate? (operand : Operand) : Option Int64 :=
  match operand.kind with
  | .immediate value => some value
  | _ => none

def register? (operand : Operand) : Option Register :=
  match operand.kind with
  | .register register => some register
  | _ => none

/-- The registers read through an operand's two slots.  Address registers are read whatever
the access; a plain or indexed register only if the operand is read. -/
def slotReads (programCounter : Register) (operand : Operand) :
    Option Register × Option Register :=
  match operand.kind with
  | .register register => (if operand.access.reads then some register else none, none)
  | .indexedRegister register index =>
      (if operand.access.reads then some register else none, some index)
  | .memory reference => (reference.base, reference.index)
  | .relativeMemory reference => (some (reference.base.getD programCounter), reference.index)
  | .immediate _ | .pointer _ => (none, none)

def writes? (operand : Operand) : Option Register :=
  if operand.access.writes then
    match operand.kind with
    | .register register | .indexedRegister register _ => some register
    | _ => none
  else none

end Operand

inductive Family where
  | move
  | add
  | sub
  | mul
  | div
  | shl
  | sal
  | shr
  | sar
  | xor
  | and
  | or
  | lea
  | inc
  | dec
  | sqrt
  | gather
  | cmp
  | test
  | push
  | pop
  | call
  | ret
  | jump
  | condJump
  | nop
  | other
  deriving DecidableEq, Inhabited

namespace Family

def all : List Family :=
  [.move, .add, .sub, .mul, .div, .shl, .sal, .shr, .sar, .xor, .and, .or, .lea, .inc, .dec,
    .sqrt, .gather, .cmp, .test, .push, .pop, .call, .ret, .jump, .condJump, .nop, .other]

def name : Family → String
  | move => "move"
  | add => "add"
  | sub => "sub"
  | mul => "mul"
  | div => "div"
  | shl => "shl"
  | sal => "sal"
  | shr => "shr"
  | sar => "sar"
  | xor => "xor"
  | and => "and"
  | or => "or"
  | lea => "lea"
  | inc => "inc"
  | dec => "dec"
  | sqrt => "sqrt"
  | gather => "gather"
  | cmp => "cmp"
  | test => "test"
  | push => "push"
  | pop => "pop"
  | call => "call"
  | ret => "ret"
  | jump => "jump"
  | condJump => "condjump"
  | nop => "nop"
  | other => "other"

def ofName? (text : String) : Option Family :=
  all.find? (·.name == text)

def isBranch : Family → Bool
  | call | ret | jump | condJump => true
  | _ => false

end Family

structure Instruction where
  address : UInt64
  size : UInt8 := 4
  mnemonic : String
  family : Family
  operands : List Operand := []
  implicitReads : List Register := []
  implicitWrites : List Register := []
  deriving DecidableEq, Inhabited

namespace Instruction

/-- The address behind the instruction, modulo the size of the address space. -/
def nextAddress (instruction : Instruction) : UInt64 :=
  instruction.address + instruction.size.toUInt64

def memoryOperand? (instruction : Instruction) : Option (Nat × MemoryReference) :=
  instruction.operands.zipIdx.findSome? fun (operand, position) =>
    operand.memory?.map fun reference => (position, reference)

def referencesMemory (instruction : Instruction) : Bool :=
  instruction.memoryOperand?.isSome

/-- The registers read, two slots for each operand and then two for each implicit read. -/
def slotReads (programCounter : Register) (instruction : Instruction) :
    List (Option Register) :=
  (instruction.operands.flatMap fun operand =>
      let (primary, secondary) := operand.slotReads programCounter
      [primary, secondary]) ++
    instruction.implicitReads.flatMap fun register => [some register, none]

def writes (programCounter : Register) (instruction : Instruction) : List Register :=
  (instruction.operands.filterMap Operand.writes? ++ instruction.implicitWrites).filter
    (· ≠ programCounter)

def text (instruction : Instruction) : String :=
  Text.hex instruction.address ++ ": " ++ instruction.mnemonic

end Instruction

end SymbolicFlow
