import SymbolicFlow.Ssa

/-!
# Symbolic values

A value is a node of an arena: a constant, a variable left as it is, an unresolved memory
access, or an operation on earlier nodes.  A node may be marked as loaded: then it denotes
what memory holds at the address that its shape describes.

`Arena.tree` forgets the sharing between nodes and gives the expression that a value stands
for.
-/

set_option autoImplicit false

namespace SymbolicFlow

export Ssa (VarId)

inductive Operator where
  | add
  | sub
  | mul
  | div
  | shiftLeft
  | shiftRight
  | sqrt
  deriving DecidableEq, Inhabited

namespace Operator

def all : List Operator := [.add, .sub, .mul, .div, .shiftLeft, .shiftRight, .sqrt]

def symbol : Operator → String
  | add => "+"
  | sub => "-"
  | mul => "*"
  | div => "/"
  | shiftLeft => "<<"
  | shiftRight => ">>"
  | sqrt => "SQRT"

def ofSymbol? (text : String) : Option Operator :=
  all.find? (·.symbol == text)

/-- Whether an operand of the operator is still part of an address if the result is one. -/
def isAdditive : Operator → Bool
  | add | sub => true
  | _ => false

end Operator

abbrev ValueId := Nat

inductive Shape where
  | immediate (value : Int64)
  | register (var : VarId)
  | memory (address : UInt64)
  | binary (operator : Operator) (left right : ValueId)
  | unary (operator : Operator) (operand : ValueId)
  deriving DecidableEq, Inhabited

def Shape.children : Shape → List ValueId
  | binary _ left right => [left, right]
  | unary _ operand => [operand]
  | _ => []

structure Node where
  shape : Shape
  loaded : Bool := false
  deriving DecidableEq, Inhabited

namespace Node

def immediate? (node : Node) : Option Int64 :=
  match node.shape with
  | .immediate value => some value
  | _ => none

def isPlaceholder (node : Node) : Bool :=
  match node.shape with
  | .register _ => true
  | _ => false

end Node

abbrev Arena := Array Node

/-- A value as an expression.  A value is `absent` if its id names no node, and inside an
expression if it does not name an earlier node. -/
inductive Tree where
  | absent
  | immediate (value : Int64) (loaded : Bool)
  | register (var : VarId) (loaded : Bool)
  | memory (address : UInt64) (loaded : Bool)
  | binary (operator : Operator) (left right : Tree) (loaded : Bool)
  | unary (operator : Operator) (operand : Tree) (loaded : Bool)
  deriving DecidableEq, Inhabited

namespace Tree

def isLoaded : Tree → Bool
  | .absent => false
  | .immediate _ loaded | .register _ loaded | .memory _ loaded | .binary _ _ _ loaded
  | .unary _ _ loaded => loaded

def remarked (loaded : Bool) : Tree → Tree
  | .absent => .absent
  | .immediate value _ => .immediate value loaded
  | .register var _ => .register var loaded
  | .memory address _ => .memory address loaded
  | .binary operator left right _ => .binary operator left right loaded
  | .unary operator operand _ => .unary operator operand loaded

end Tree

def Arena.tree (arena : Arena) (id : ValueId) : Tree :=
  match arena[id]? with
  | none => .absent
  | some ⟨shape, loaded⟩ =>
      match shape with
      | .immediate value => .immediate value loaded
      | .register var => .register var loaded
      | .memory address => .memory address loaded
      | .binary operator left right =>
          .binary operator
            (if left < id then Arena.tree arena left else .absent)
            (if right < id then Arena.tree arena right else .absent) loaded
      | .unary operator operand =>
          .unary operator (if operand < id then Arena.tree arena operand else .absent) loaded
termination_by id

end SymbolicFlow
