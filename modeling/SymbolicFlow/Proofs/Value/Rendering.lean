import Mathlib.Tactic.Common
import SymbolicFlow.Value.Render

/-!
# The printed text follows the expression

Printing works on a list of pieces and looks at the arena only.  What it prints for a value is the
text that the recursion over the value's expression gives, so values with the same expression are
printed alike, in whichever arena they stand.
-/

set_option autoImplicit false

namespace SymbolicFlow

/-- The text that a piece stands for. -/
def Piece.print (arena : Arena) (label : VarId → String) : Piece → String
  | .text words => words
  | .node id inAddress isRoot => (arena.tree id).render label inAddress isRoot

namespace Piece

variable (arena : Arena) (label : VarId → String)

def printAll : List Piece → String
  | [] => ""
  | piece :: pieces => piece.print arena label ++ printAll pieces

@[simp] theorem printAll_nil : printAll arena label [] = "" := rfl

@[simp] theorem printAll_cons (piece : Piece) (pieces : List Piece) :
    printAll arena label (piece :: pieces) =
      piece.print arena label ++ printAll arena label pieces := rfl

@[simp] theorem printAll_append (first second : List Piece) :
    printAll arena label (first ++ second) =
      printAll arena label first ++ printAll arena label second := by
  induction first with
  | nil => simp
  | cons piece pieces ih => simp [ih, String.append_assoc]

theorem printAll_operand (id child : ValueId) (inAddress : Bool) :
    printAll arena label (operand id child inAddress) =
      (if child < id then arena.tree child else .absent).render label inAddress false := by
  unfold operand
  split
  · simp [print]
  · rfl

theorem printAll_ofNode_eq_bracket (id : ValueId) (inAddress isRoot : Bool) (node : Node) :
    printAll arena label (ofNode label id inAddress isRoot node) =
      bracket node.loaded (printAll arena label
        (ofShape label id (inAddress || node.loaded) isRoot node.shape)) := by
  obtain ⟨shape, loaded⟩ := node
  cases loaded with
  | true => simp [ofNode, bracket, print, String.append_assoc]
  | false => simp [ofNode, bracket]

theorem printAll_ofNode {id : ValueId} {node : Node} (found : arena[id]? = some node)
    (inAddress isRoot : Bool) :
    printAll arena label (ofNode label id inAddress isRoot node) =
      (arena.tree id).render label inAddress isRoot := by
  obtain ⟨shape, loaded⟩ := node
  rw [printAll_ofNode_eq_bracket, Arena.tree, found]
  cases shape with
  | immediate value =>
      simp only [ofShape, Tree.render]
      split
      · simp [print]
      · simp
  | register var => simp [ofShape, Tree.render, print]
  | memory address => simp [ofShape, Tree.render, print]
  | binary operator left right =>
      simp [ofShape, Tree.render, print, printAll_operand, String.append_assoc]
  | unary operator operand =>
      simp [ofShape, Tree.render, print, printAll_operand, String.append_assoc]

end Piece

namespace Arena

theorem renderPieces_eq (arena : Arena) (label : VarId → String) (printed : String)
    (pieces : List Piece) :
    arena.renderPieces label printed pieces = printed ++ Piece.printAll arena label pieces := by
  fun_induction Arena.renderPieces arena label printed pieces with
  | case1 => simp
  | case2 printed text pieces ih => simp [ih, Piece.print, String.append_assoc]
  | case3 printed id inAddress isRoot pieces missing ih =>
      have nothing : arena.tree id = .absent := by rw [Arena.tree, missing]
      simp [ih, Piece.print, nothing, Tree.render]
  | case4 printed id inAddress isRoot pieces node found ih =>
      simp [ih, Piece.print, Piece.printAll_ofNode arena label found]

theorem render_eq (arena : Arena) (label : VarId → String) (id : ValueId) :
    arena.render label id = (arena.tree id).render label false true := by
  rw [render, renderPieces_eq]
  simp [Piece.print]

end Arena

end SymbolicFlow
