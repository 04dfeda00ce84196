import SymbolicFlow.Text.Hex

/-!
# Faults

Everything that can be wrong with a request, by cause, with its wording in one place.
-/

set_option autoImplicit false

namespace SymbolicFlow

inductive EdgeEnd where
  | source
  | target
  deriving DecidableEq, Inhabited

def EdgeEnd.name : EdgeEnd → String
  | source => "source"
  | target => "target"

def nodeName (node : Nat) : String :=
  "n" ++ toString node

inductive Fault where
  | noBlocks
  | missingEntry (block : Nat)
  /-- Inside a block, an instruction does not stand behind the one before it. -/
  | unordered (block : Nat) (procedure : String) (later earlier : UInt64)
  | missingEndpoint (side : EdgeEnd) (node count : Nat)
  | missingBlock (block : Nat)
  /-- A malformed input, reported with the place in a file where it stands. -/
  | malformed (message file : String) (line : Nat)
  | unusableGraph (reason : String)
  | unsupportedOperand (address : UInt64) (position : Nat)
  | depthLimit (limit : Nat)
  deriving DecidableEq, Inhabited

namespace Fault

def message : Fault → String
  | noBlocks => "Function has no basic blocks"
  | missingEntry block => "Entry block " ++ nodeName block ++ " does not exist"
  | unordered block procedure later earlier =>
      "block " ++ nodeName block ++ " of " ++ procedure ++ ": instruction at " ++
        Text.hex later ++ " does not follow " ++ Text.hex earlier
  | missingEndpoint side node count =>
      side.name ++ " node " ++ nodeName node ++ " does not exist in graph with " ++
        toString count ++ " nodes"
  | missingBlock block => "block " ++ nodeName block ++ " does not exist"
  | malformed message file line =>
      "Malformed - " ++ file ++ ":" ++ toString line ++ ": " ++ message
  | unusableGraph reason => reason
  | unsupportedOperand address position =>
      "Unsupported operand " ++ toString position ++ " at " ++ Text.hex address
  | depthLimit limit => "Reach the maximum recursion level allowed - " ++ toString limit

end Fault

end SymbolicFlow
