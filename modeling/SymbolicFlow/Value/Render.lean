import SymbolicFlow.Text.Hex
import SymbolicFlow.Value

/-!
# Printing values

Operations are printed with all parentheses, and a loaded value stands in `@[` and `]`.
A constant is printed only where it is an offset, that is inside an address, or where it is
the whole value.  Being inside an address is passed down through sums and differences and
ends at every other operator.

`Tree.render` says this by recursion on the expression.  `Arena.render` prints straight from
the arena with a list of pieces still to print, so that the depth of a value does not matter.
-/

set_option autoImplicit false

namespace SymbolicFlow

def bracket (loaded : Bool) (text : String) : String :=
  if loaded then "@[" ++ text ++ "]" else text

/-- The text of an expression: `inAddress` says whether it is part of an address, `isRoot`
whether it is the whole value. -/
def Tree.render (label : VarId → String) (inAddress isRoot : Bool) : Tree → String
  | .absent => ""
  | .immediate value loaded =>
      bracket loaded (if inAddress || loaded || isRoot then toString value.toInt else "")
  | .register var loaded => bracket loaded (label var)
  | .memory address loaded => bracket loaded ("mem:" ++ Text.hex address)
  | .binary operator left right loaded =>
      let passed := operator.isAdditive && (inAddress || loaded)
      bracket loaded ("(" ++ left.render label passed false ++ operator.symbol ++
        right.render label passed false ++ ")")
  | .unary operator operand loaded =>
      bracket loaded (operator.symbol ++ "(" ++ operand.render label false false ++ ")")

inductive Piece where
  | text (text : String)
  | node (id : ValueId) (inAddress isRoot : Bool)
  deriving DecidableEq, Inhabited

namespace Piece

/-- The piece for an operand, which has to be an earlier node. -/
def operand (id operand : ValueId) (inAddress : Bool) : List Piece :=
  if operand < id then [.node operand inAddress false] else []

def ofShape (label : VarId → String) (id : ValueId) (inAddress isRoot : Bool) :
    Shape → List Piece
  | .immediate value => if inAddress || isRoot then [.text (toString value.toInt)] else []
  | .register var => [.text (label var)]
  | .memory address => [.text ("mem:" ++ Text.hex address)]
  | .binary operator left right =>
      let passed := operator.isAdditive && inAddress
      .text "(" :: (operand id left passed ++
        .text operator.symbol :: (operand id right passed ++ [.text ")"]))
  | .unary operator argument =>
      .text (operator.symbol ++ "(") :: (operand id argument false ++ [.text ")"])

def ofNode (label : VarId → String) (id : ValueId) (inAddress isRoot : Bool) (node : Node) :
    List Piece :=
  let inner := ofShape label id (inAddress || node.loaded) isRoot node.shape
  if node.loaded then .text "@[" :: (inner ++ [.text "]"]) else inner

end Piece

def Tree.steps : Tree → Nat
  | .absent => 1
  | .immediate _ _ | .register _ _ | .memory _ _ => 4
  | .binary _ left right _ => left.steps + right.steps + 6
  | .unary _ operand _ => operand.steps + 5

def Piece.steps (arena : Arena) : Piece → Nat
  | .text _ => 1
  | .node id _ _ => (arena.tree id).steps

def stepsOf (arena : Arena) : List Piece → Nat
  | [] => 0
  | piece :: pieces => piece.steps arena + stepsOf arena pieces

@[simp] theorem stepsOf_nil (arena : Arena) : stepsOf arena [] = 0 := rfl

@[simp] theorem stepsOf_cons (arena : Arena) (piece : Piece) (pieces : List Piece) :
    stepsOf arena (piece :: pieces) = piece.steps arena + stepsOf arena pieces := rfl

@[simp] theorem stepsOf_append (arena : Arena) (first second : List Piece) :
    stepsOf arena (first ++ second) = stepsOf arena first + stepsOf arena second := by
  induction first with
  | nil => simp
  | cons piece pieces ih => simp [ih, Nat.add_assoc]

theorem stepsOf_operand_le (arena : Arena) (id operand : ValueId) (inAddress : Bool) :
    stepsOf arena (Piece.operand id operand inAddress) ≤
      (if operand < id then arena.tree operand else .absent).steps := by
  unfold Piece.operand
  split <;> simp [Piece.steps, Tree.steps]

theorem stepsOf_ofNode_lt (arena : Arena) (label : VarId → String) (id : ValueId)
    (inAddress isRoot : Bool) (node : Node) (found : arena[id]? = some node) :
    stepsOf arena (Piece.ofNode label id inAddress isRoot node) < (arena.tree id).steps := by
  obtain ⟨shape, loaded⟩ := node
  rw [Arena.tree, found]
  cases shape with
  | immediate value =>
      simp only [Piece.ofNode, Piece.ofShape, Tree.steps]
      split <;> split <;> simp [Piece.steps]
  | register var =>
      simp only [Piece.ofNode, Piece.ofShape, Tree.steps]
      split <;> simp [Piece.steps]
  | memory address =>
      simp only [Piece.ofNode, Piece.ofShape, Tree.steps]
      split <;> simp [Piece.steps]
  | binary operator left right =>
      have leftBound := stepsOf_operand_le arena id left (operator.isAdditive && (inAddress || loaded))
      have rightBound := stepsOf_operand_le arena id right (operator.isAdditive && (inAddress || loaded))
      simp only [Piece.ofNode, Piece.ofShape, Tree.steps]
      split <;> simp only [stepsOf_cons, stepsOf_append, stepsOf_nil, Piece.steps] <;> omega
  | unary operator argument =>
      have bound := stepsOf_operand_le arena id argument false
      simp only [Piece.ofNode, Piece.ofShape, Tree.steps]
      split <;> simp only [stepsOf_cons, stepsOf_append, stepsOf_nil, Piece.steps] <;> omega

theorem Tree.steps_pos (tree : Tree) : 0 < tree.steps := by
  cases tree <;> simp [Tree.steps]

def Arena.renderPieces (arena : Arena) (label : VarId → String) (printed : String) :
    List Piece → String
  | [] => printed
  | .text text :: pieces => Arena.renderPieces arena label (printed ++ text) pieces
  | .node id inAddress isRoot :: pieces =>
      match _found : arena[id]? with
      | none => Arena.renderPieces arena label printed pieces
      | some node =>
          Arena.renderPieces arena label printed
            (Piece.ofNode label id inAddress isRoot node ++ pieces)
termination_by pieces => stepsOf arena pieces
decreasing_by
  · simp [Piece.steps]
  · have positive := (arena.tree id).steps_pos
    simp [Piece.steps, positive]
  · have smaller := stepsOf_ofNode_lt arena label id inAddress isRoot node _found
    simp only [stepsOf_append, stepsOf_cons, Piece.steps]
    omega

/-- The text of a value; nothing for an id without a node. -/
def Arena.render (arena : Arena) (label : VarId → String) (id : ValueId) : String :=
  arena.renderPieces label "" [.node id false true]

end SymbolicFlow
