import Mathlib.Algebra.GroupWithZero.Nat
import SymbolicFlow.Proofs.Evaluation.Progress
import SymbolicFlow.Proofs.Procedure
import SymbolicFlow.Proofs.Value.Rendering
import SymbolicFlow.Ssa.Renaming

/-!
# Printing with a stack

The printer keeps a stack of pieces that are still to be printed.  A turn takes off the first of
them.  Of a node it prints at once what stands before its operands and puts back the rest: the
operands, the words between and behind them, and the bracket that closes it.  Nothing in this asks
whether an operand is an earlier node, so an arena in which nodes refer to later ones could keep the
printer busy forever.

Where nodes refer to earlier ones only, each turn keeps the text that is printed in the end, which is
the printed words followed by the texts of the expressions on the stack, and takes away one of the
turns that those expressions need.  So the printer stops, and what it has printed is the text of the
expression, however its nodes are laid out and shared.
-/

set_option autoImplicit false

namespace SymbolicFlow

def Arena.RefersBack (arena : Arena) : Prop :=
  ∀ (id : ValueId) (_ : id < arena.size), ∀ child ∈ arena[id].shape.children, child < id

instance Arena.decidableRefersBack (arena : Arena) : Decidable arena.RefersBack :=
  inferInstanceAs (Decidable (∀ (id : ValueId) (_ : id < arena.size), _))

theorem Arena.RefersBack.of_node {arena : Arena} (refersBack : arena.RefersBack) {id : ValueId}
    {node : Node} (found : arena[id]? = some node) : ∀ child ∈ node.shape.children, child < id := by
  obtain ⟨inside, rfl⟩ := Array.getElem?_eq_some_iff.mp found
  exact refersBack id inside

/-! ## The printer -/

namespace Shape

def opening (label : VarId → String) (inAddress isRoot : Bool) : Shape → String
  | .immediate value => if inAddress || isRoot then toString value.toInt else ""
  | .register var => label var
  | .memory address => "mem:" ++ Text.hex address
  | .binary _ _ _ => "("
  | .unary operator _ => operator.symbol ++ "("

def remainder (inAddress : Bool) : Shape → List Piece
  | .binary operator left right =>
      let passed := operator.isAdditive && inAddress
      [.node left passed false, .text operator.symbol, .node right passed false, .text ")"]
  | .unary _ operand => [.node operand false false, .text ")"]
  | _ => []

end Shape

structure Printer where
  printed : String
  pending : List Piece

namespace Printer

/-- The printer before its first turn: the whole value, whose own mark says whether it is part of
an address. -/
def start (value : ValueId) (loaded : Bool) : Printer := ⟨"", [.node value loaded true]⟩

/-- A node is printed as far as its operands, and the rest of it comes before all else. -/
def visit (label : VarId → String) (inAddress isRoot : Bool) (printer : Printer) (node : Node) :
    Printer where
  printed := printer.printed ++ (if node.loaded then "@[" else "") ++
    node.shape.opening label (inAddress || node.loaded) isRoot
  pending := node.shape.remainder (inAddress || node.loaded) ++
    (if node.loaded then [.text "]"] else []) ++ printer.pending

/-- A turn; there is none if nothing is left, or if the node to print does not exist. -/
def turn (arena : Arena) (label : VarId → String) : Printer → Option Printer
  | ⟨_, []⟩ => none
  | ⟨printed, .text words :: pending⟩ => some ⟨printed ++ words, pending⟩
  | ⟨printed, .node id inAddress isRoot :: pending⟩ =>
      arena[id]?.map (visit label inAddress isRoot ⟨printed, pending⟩)

def run (arena : Arena) (label : VarId → String) : Nat → Printer → Option Printer
  | 0, printer => some printer
  | turns + 1, printer => (printer.turn arena label).bind (run arena label turns)

end Printer

/-- The turns that printing an expression takes: one for each node, for each of the words between
and behind operands, and for each closing bracket. -/
def Tree.turns : Tree → Nat
  | .absent => 0
  | .immediate _ loaded | .register _ loaded | .memory _ loaded => 1 + loaded.toNat
  | .binary _ left right loaded => left.turns + right.turns + 3 + loaded.toNat
  | .unary _ operand loaded => operand.turns + 2 + loaded.toNat

namespace Piece

def turns (arena : Arena) : Piece → Nat
  | .text _ => 1
  | .node id _ _ => (arena.tree id).turns

def Present (arena : Arena) : Piece → Prop
  | .text _ => True
  | .node id _ _ => id < arena.size

end Piece

namespace Printer

def text (arena : Arena) (label : VarId → String) (printer : Printer) : String :=
  printer.printed ++ Piece.printAll arena label printer.pending

def turns (arena : Arena) (printer : Printer) : Nat :=
  (printer.pending.map (Piece.turns arena)).sum

def Present (arena : Arena) (printer : Printer) : Prop :=
  ∀ piece ∈ printer.pending, piece.Present arena

end Printer

/-! ## One turn -/

theorem Shape.printAll_ofShape {shape : Shape} {id : ValueId}
    (earlier : ∀ child ∈ shape.children, child < id) (arena : Arena) (label : VarId → String)
    (inAddress isRoot : Bool) :
    Piece.printAll arena label (Piece.ofShape label id inAddress isRoot shape) =
      shape.opening label inAddress isRoot ++
        Piece.printAll arena label (shape.remainder inAddress) := by
  cases shape with
  | immediate value =>
      simp only [Piece.ofShape, opening, remainder]
      split
      · simp [Piece.print]
      · simp
  | register var => simp [Piece.ofShape, opening, remainder, Piece.print]
  | memory address => simp [Piece.ofShape, opening, remainder, Piece.print]
  | binary operator left right =>
      have leftEarlier : left < id := earlier left (by simp [children])
      have rightEarlier : right < id := earlier right (by simp [children])
      simp [Piece.ofShape, opening, remainder, Piece.print, Piece.operand, leftEarlier,
        rightEarlier]
  | unary operator operand =>
      have operandEarlier : operand < id := earlier operand (by simp [children])
      simp [Piece.ofShape, opening, remainder, Piece.print, Piece.operand, operandEarlier]

namespace Printer

variable {arena : Arena} {label : VarId → String}

theorem present_visit {id : ValueId} {node : Node}
    (earlier : ∀ child ∈ node.shape.children, child < id) {printed : String}
    {pending : List Piece} {inAddress isRoot : Bool}
    (present : Present arena ⟨printed, .node id inAddress isRoot :: pending⟩) :
    (visit label inAddress isRoot ⟨printed, pending⟩ node).Present arena := by
  have inside : id < arena.size := present _ List.mem_cons_self
  have exist : ∀ child ∈ node.shape.children, child < arena.size := fun child isChild =>
    Nat.lt_trans (earlier child isChild) inside
  have operands : ∀ piece ∈ node.shape.remainder (inAddress || node.loaded),
      piece.Present arena := by
    cases shape : node.shape with
    | binary operator left right =>
        rw [shape] at exist
        simpa [Shape.remainder, Shape.children, Piece.Present] using exist
    | unary operator operand =>
        rw [shape] at exist
        simpa [Shape.remainder, Shape.children, Piece.Present] using exist
    | _ => simp [Shape.remainder]
  intro piece listed
  rcases List.mem_append.mp listed with own | waiting
  · rcases List.mem_append.mp own with operand | closing
    · exact operands piece operand
    · split at closing
      · obtain rfl := List.mem_singleton.mp closing
        trivial
      · cases closing
  · exact present piece (List.mem_cons_of_mem _ waiting)

section Visit

variable {id : ValueId} {node : Node} (found : arena[id]? = some node)
  (earlier : ∀ child ∈ node.shape.children, child < id)
include found earlier

theorem text_visit (printed : String) (pending : List Piece) (inAddress isRoot : Bool) :
    (visit label inAddress isRoot ⟨printed, pending⟩ node).text arena label =
      text arena label ⟨printed, .node id inAddress isRoot :: pending⟩ := by
  have whole := Piece.printAll_ofNode arena label found inAddress isRoot
  rw [Piece.printAll_ofNode_eq_bracket, Shape.printAll_ofShape earlier] at whole
  simp only [text, visit, Piece.printAll_cons, Piece.print, ← whole]
  cases node.loaded with
  | true => simp [bracket, Piece.print, String.append_assoc]
  | false => simp [bracket, String.append_assoc]

theorem turns_visit (printed : String) (pending : List Piece) (inAddress isRoot : Bool) :
    turns arena ⟨printed, .node id inAddress isRoot :: pending⟩ =
      (visit label inAddress isRoot ⟨printed, pending⟩ node).turns arena + 1 := by
  have unfolded := Arena.tree_of_node found earlier
  obtain ⟨shape, loaded⟩ := node
  have closing : ((if loaded then [.text "]"] else []).map (Piece.turns arena)).sum =
      loaded.toNat := by
    cases loaded with
    | true => rfl
    | false => rfl
  simp only [turns, visit, List.map_append, List.sum_append, List.map_cons, List.sum_cons, closing,
    Piece.turns, unfolded]
  cases shape with
  | binary operator left right =>
      simp only [Shape.remainder, Node.tree, Tree.turns, Piece.turns, List.map_cons, List.map_nil,
        List.sum_cons, List.sum_nil]
      omega
  | unary operator operand =>
      simp only [Shape.remainder, Node.tree, Tree.turns, Piece.turns, List.map_cons, List.map_nil,
        List.sum_cons, List.sum_nil]
      omega
  | _ =>
      simp only [Shape.remainder, Node.tree, Tree.turns, List.map_nil, List.sum_nil]
      omega

end Visit

/-- As long as something is left there is a turn.  It keeps the text that is printed in the end and
takes one turn away. -/
theorem exists_turn (label : VarId → String) (refersBack : arena.RefersBack) {printed : String} {piece : Piece}
    {pending : List Piece} (present : Present arena ⟨printed, piece :: pending⟩) :
    ∃ next, turn arena label ⟨printed, piece :: pending⟩ = some next ∧ next.Present arena ∧
      next.text arena label = text arena label ⟨printed, piece :: pending⟩ ∧
      turns arena ⟨printed, piece :: pending⟩ = next.turns arena + 1 := by
  cases piece with
  | text words =>
      refine ⟨⟨printed ++ words, pending⟩, rfl, ?_, ?_, ?_⟩
      · exact fun piece listed => present piece (List.mem_cons_of_mem _ listed)
      · simp [text, Piece.print, String.append_assoc]
      · simp [turns, Piece.turns, Nat.add_comm]
  | node id inAddress isRoot =>
      have inside : id < arena.size := present _ List.mem_cons_self
      have found : arena[id]? = some arena[id] := Array.getElem?_eq_getElem inside
      have earlier := refersBack.of_node found
      refine ⟨visit label inAddress isRoot ⟨printed, pending⟩ arena[id], ?_, ?_, ?_, ?_⟩
      · rw [turn, found, Option.map_some]
      · exact present_visit earlier present
      · exact text_visit found earlier printed pending inAddress isRoot
      · exact turns_visit found earlier printed pending inAddress isRoot

/-! ## All turns -/

/-- A piece takes at least one turn, so when no turns are left nothing is. -/
theorem run_turns (label : VarId → String) (refersBack : arena.RefersBack) {printer : Printer}
    (present : printer.Present arena) :
    run arena label (printer.turns arena) printer = some ⟨printer.text arena label, []⟩ := by
  induction left : printer.turns arena generalizing printer with
  | zero =>
      obtain ⟨printed, pending⟩ := printer
      cases pending with
      | nil => simp [run, text]
      | cons piece pending =>
          obtain ⟨next, _, _, _, spent⟩ := exists_turn label refersBack present
          omega
  | succ turns ih =>
      obtain ⟨printed, pending⟩ := printer
      cases pending with
      | nil => cases left
      | cons piece pending =>
          obtain ⟨next, turned, nextPresent, sameText, spent⟩ :=
            exists_turn label refersBack present
          rw [run, turned, Option.bind_some, ih nextPresent (by omega), sameText]

end Printer

theorem Node.render_tree_loaded (node : Node) (trees : ValueId → Tree) (label : VarId → String)
    (isRoot : Bool) :
    (node.tree trees).render label node.loaded isRoot =
      (node.tree trees).render label false isRoot := by
  obtain ⟨shape, loaded⟩ := node
  cases shape <;> simp [tree, Tree.render]

namespace Arena

/-- The printer started at the value takes as many turns as the expression needs, and then nothing is
left and the text is printed; and that is the text of the value. -/
structure PrintedAs (arena : Arena) (label : VarId → String) (value : ValueId) (text : String) :
    Prop where
  printed : ∃ node, arena[value]? = some node ∧
    Printer.run arena label (arena.tree value).turns (.start value node.loaded) = some ⟨text, []⟩
  rendered : arena.render label value = text

theorem RefersBack.printedAs {arena : Arena} (refersBack : arena.RefersBack)
    (label : VarId → String) {value : ValueId} {node : Node} (found : arena[value]? = some node) :
    arena.PrintedAs label value ((arena.tree value).render label node.loaded true) where
  printed := by
    obtain ⟨inside, _⟩ := Array.getElem?_eq_some_iff.mp found
    have present : (Printer.start value node.loaded).Present arena := by
      intro piece listed
      obtain rfl := List.mem_singleton.mp listed
      exact inside
    have finished := Printer.run_turns label refersBack present
    have turns : (Printer.start value node.loaded).turns arena = (arena.tree value).turns := by
      simp [Printer.start, Printer.turns, Piece.turns]
    have text : (Printer.start value node.loaded).text arena label =
        (arena.tree value).render label node.loaded true := by
      simp [Printer.start, Printer.text, Piece.print]
    rw [turns, text] at finished
    exact ⟨node, found, finished⟩
  rendered := by
    rw [render_eq, tree_of_node found (refersBack.of_node found), Node.render_tree_loaded]

end Arena

/-- Printing with the stack ends and gives the text of the expression that a value unfolds to.  So
equal expressions are printed alike, in whichever stores and however laid out and shared. -/
theorem Store.printedAs_unfolded (form : Ssa.Form) (machine : Machine) {store : Store}
    (refersBack : store.arena.RefersBack) {value : ValueId} (inside : value < store.arena.size) :
    (∃ node, store.node? value = some node ∧
      store.arena.tree value = node.tree store.arena.tree ∧
      store.arena.PrintedAs (form.label machine) value
        ((store.arena.tree value).render (form.label machine) node.loaded true)) ∧
    ∀ other : Store, other.arena.RefersBack → ∀ same < other.arena.size,
      other.arena.tree same = store.arena.tree value → ∀ text,
        store.arena.PrintedAs (form.label machine) value text →
        other.arena.PrintedAs (form.label machine) same text := by
  constructor
  · have found : store.node? value = some store.arena[value] := Array.getElem?_eq_getElem inside
    exact ⟨_, found, Arena.tree_of_node found (refersBack.of_node found),
      refersBack.printedAs _ found⟩
  · intro other otherBack same otherInside equal text printed
    have found : other.arena[same]? = some other.arena[same] :=
      Array.getElem?_eq_getElem otherInside
    have otherPrinted := otherBack.printedAs (form.label machine) found
    have sameText : other.arena.render (form.label machine) same = text := by
      rw [Arena.render_eq, equal, ← Arena.render_eq, printed.rendered]
    rwa [← otherPrinted.rendered, sameText] at otherPrinted

namespace Sharing

/-- The product of a load and of the address that the load doubles.  The address has one node, which
is printed three times: with the offset inside the load, and without it outside. -/
def shared : Store where
  arena := #[⟨.register 0, false⟩, ⟨.immediate 8, false⟩, ⟨.binary .add 0 1, false⟩,
    ⟨.binary .add 2 2, true⟩, ⟨.binary .mul 3 2, false⟩]

/-- The same with a node for each occurrence, in another order. -/
def spreadOut : Store where
  arena := #[⟨.immediate 8, false⟩, ⟨.register 0, false⟩, ⟨.binary .add 1 0, false⟩,
    ⟨.register 0, false⟩, ⟨.binary .add 3 0, false⟩, ⟨.binary .add 1 0, false⟩,
    ⟨.binary .add 4 5, true⟩, ⟨.binary .mul 6 2, false⟩, ⟨.immediate 5, false⟩]

end Sharing

theorem Store.printedAs_unfolded_sharing :
    Sharing.shared.arena.PrintedAs (Countdown.procedure.ssa.label Countdown.machine) 4
        "(@[((r0_1+8)+(r0_1+8))]*(r0_1+))" ∧
      Sharing.spreadOut.arena.PrintedAs (Countdown.procedure.ssa.label Countdown.machine) 7
        "(@[((r0_1+8)+(r0_1+8))]*(r0_1+))" := by
  have refersBack : Sharing.shared.arena.RefersBack := by decide
  have spreadBack : Sharing.spreadOut.arena.RefersBack := by decide
  have inside : 4 < Sharing.shared.arena.size := by decide
  obtain ⟨⟨node, found, _, printed⟩, elsewhere⟩ :=
    printedAs_unfolded Countdown.procedure.ssa Countdown.machine refersBack inside
  obtain rfl := Option.some.inj found
  have text : (Sharing.shared.arena.tree 4).render
      (Countdown.procedure.ssa.label Countdown.machine) false true =
        "(@[((r0_1+8)+(r0_1+8))]*(r0_1+))" := by
    decide +kernel
  have sharedPrinted := text ▸ printed
  have sameTree : Sharing.spreadOut.arena.tree 7 = Sharing.shared.arena.tree 4 := by
    decide +kernel
  exact ⟨sharedPrinted, elsewhere _ spreadBack 7 (by decide) sameTree _ sharedPrinted⟩

end SymbolicFlow
