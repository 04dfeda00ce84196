import SymbolicFlow.Fault
import SymbolicFlow.Ssa

/-!
# Events

What an analysis reports about its progress, in order.  Each event has a level and a
wording.
-/

set_option autoImplicit false

namespace SymbolicFlow

inductive Level where
  | trace
  | debug
  | warn
  deriving DecidableEq, Inhabited

def Level.name : Level → String
  | trace => "TRACE"
  | debug => "DEBUG"
  | warn => "WARN"

inductive Event where
  | evaluating (instruction : Instruction)
  | unresolvedShift (instruction : Instruction)
  | unresolvedXor (instruction : Instruction)
  | undefined (var : Ssa.VarId)
  /-- A variable is needed for its own definition. -/
  | cyclic (var : Ssa.VarId)
  | tooDeep (var : Ssa.VarId) (limit : Nat)
  | ready (procedure : String) (count : Nat)
  /-- A block of a procedure is taken although it is not ready. -/
  | forced (procedure : String) (block : NodeId)
  | finished (procedure : String) (visited blocks fallbacks values : Nat)
  deriving DecidableEq, Inhabited

namespace Event

def level : Event → Level
  | evaluating _ | unresolvedShift _ | unresolvedXor _ | undefined _ | cyclic _ => .trace
  | ready _ _ | forced _ _ | finished _ _ _ _ _ => .debug
  | tooDeep _ _ => .warn

def message : Event → String
  | evaluating instruction =>
      "evaluating " ++ instruction.text ++ " (" ++ instruction.family.name ++ ")"
  | unresolvedShift instruction =>
      instruction.text ++ ": shift amount unresolved, binding placeholder"
  | unresolvedXor instruction =>
      instruction.text ++ ": xor of distinct operands left unresolved"
  | undefined var => Ssa.varName var ++ ": no definition, binding placeholder"
  | cyclic var => Ssa.varName var ++ ": cyclic definition, binding placeholder"
  | tooDeep var limit =>
      Ssa.varName var ++ ": " ++ (Fault.depthLimit limit).message ++ ", using placeholder"
  | ready procedure count => procedure ++ ": " ++ toString count ++ " block(s) ready"
  | forced procedure block =>
      procedure ++ ": no block ready, forcing " ++ nodeName block ++ " ahead of its predecessors"
  | finished procedure visited blocks fallbacks values =>
      procedure ++ ": visited " ++ toString visited ++ " of " ++ toString blocks ++ " blocks, " ++
        toString fallbacks ++ " forced, " ++ toString values ++ " values"

end Event

end SymbolicFlow
