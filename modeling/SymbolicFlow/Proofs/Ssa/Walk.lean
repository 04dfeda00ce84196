import SymbolicFlow.Ssa

/-!
# Walking a form

What a path through a procedure does to its registers, read off the form alone.  On the way,
each register is known by the variable that was defined last.  In a block first the phis are
executed and then the machine statements, each defining its outputs in order.
-/

set_option autoImplicit false

namespace SymbolicFlow.Ssa

/-- The variable that was last defined for each register; none before the first definition. -/
abbrev Latest := Register → Option VarId

namespace Form

def assign (form : Form) (latest : Latest) (var : VarId) : Latest := fun register =>
  if (form.var? var).map (·.register) = some register then some var else latest register

def execute (form : Form) (latest : Latest) (statement : Statement) : Latest :=
  statement.outputs.foldl form.assign latest

def enter (form : Form) (latest : Latest) (block : Block) : Latest :=
  block.phis.foldl form.execute latest

def leave (form : Form) (latest : Latest) (block : Block) : Latest :=
  block.machineStatements.foldl form.execute (form.enter latest block)

/-- At the end of a path that starts where nothing has been defined. -/
def walk (form : Form) (path : List NodeId) : Latest :=
  path.foldl
    (fun latest id =>
      match form.block? id with
      | none => latest
      | some block => form.leave latest block)
    fun _ => none

def entryVar? (form : Form) (register : Register) : Option VarId :=
  form.vars.findIdx? fun var => var.register = register ∧ var.version = 0

/-- The variable that a register holds: the one defined last, or its entry variable if none was
defined yet. -/
def current? (form : Form) (latest : Latest) (register : Register) : Option VarId :=
  (latest register).or (form.entryVar? register)

theorem walk_append (form : Form) (path : List NodeId) (id : NodeId) {block : Block}
    (found : form.block? id = some block) :
    form.walk (path ++ [id]) = form.leave (form.walk path) block := by
  simp only [walk, List.foldl_append, List.foldl_cons, List.foldl_nil, found]

end Form

end SymbolicFlow.Ssa
