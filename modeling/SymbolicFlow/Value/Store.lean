import Std.Data.TreeMap
import SymbolicFlow.Text.Quoted
import SymbolicFlow.Value.Render

/-!
# Stores

A store is an arena together with the values of variables found so far.  It only grows:
nodes are added behind the others, and a variable keeps the first value that it is bound to.
-/

set_option autoImplicit false

namespace SymbolicFlow

structure Store where
  arena : Arena := #[]
  bindings : Std.TreeMap VarId ValueId := {}

namespace Store

def empty : Store := {}

def node? (store : Store) (id : ValueId) : Option Node := store.arena[id]?

def valueOf? (store : Store) (var : VarId) : Option ValueId := store.bindings[var]?

def isBound (store : Store) (var : VarId) : Bool := store.bindings.contains var

def alloc (store : Store) (node : Node) : ValueId × Store :=
  let ⟨arena, bindings⟩ := store
  (arena.size, ⟨arena.push node, bindings⟩)

def immediate (store : Store) (value : Int64) : ValueId × Store :=
  store.alloc ⟨.immediate value, false⟩

def register (store : Store) (var : VarId) : ValueId × Store :=
  store.alloc ⟨.register var, false⟩

/-- The content of memory that an instruction at `address` accesses, left unresolved. -/
def memory (store : Store) (address : UInt64) : ValueId × Store :=
  store.alloc ⟨.memory address, true⟩

def binary (store : Store) (operator : Operator) (left right : ValueId) : ValueId × Store :=
  store.alloc ⟨.binary operator left right, false⟩

def unary (store : Store) (operator : Operator) (operand : ValueId) : ValueId × Store :=
  store.alloc ⟨.unary operator operand, false⟩

def remarked? (arena : Arena) (id : ValueId) (loaded : Bool) : Option Node :=
  match arena[id]? with
  | some node => if node.loaded = loaded then none else some ⟨node.shape, loaded⟩
  | none => none

/-- A value like the given one with the given mark: itself if it has the mark already. -/
def mark (store : Store) (id : ValueId) (loaded : Bool) : ValueId × Store :=
  match remarked? store.arena id loaded with
  | none => (id, store)
  | some node => store.alloc node

/-- Binds a variable unless it is bound, and yields the value that it has then. -/
def bind (store : Store) (var : VarId) (value : ValueId) : ValueId × Store :=
  match store.bindings[var]? with
  | some bound => (bound, store)
  | none => (value, { store with bindings := store.bindings.insert var value })

def placeholder (store : Store) (var : VarId) : ValueId × Store :=
  match store.bindings[var]? with
  | some bound => (bound, store)
  | none =>
      let (value, allocated) := store.register var
      allocated.bind var value

def sameAddress (store : Store) (label : VarId → String) (a b : ValueId) : Bool :=
  a == b || store.arena.render label a == store.arena.render label b

def placeholderCount (store : Store) : Nat :=
  (store.arena.toList.filter (·.isPlaceholder)).length

def bound (store : Store) : List (VarId × ValueId) := store.bindings.toList

def summary (store : Store) (machine : Machine) : String :=
  "ValueStore \x7b nodes: " ++ toString store.arena.size ++
    ", bound: " ++ toString store.bindings.size ++
    ", arch: " ++ Text.quoted machine.name ++ " \x7d"

end Store

/-- A variable is shown as its register and version, or as a bare variable if the form does
not have it. -/
def Ssa.Form.label (form : Ssa.Form) (machine : Machine) (var : VarId) : String :=
  match form.var? var with
  | some named => machine.registerName named.register ++ "_" ++ toString named.version
  | none => Ssa.varName var

end SymbolicFlow
