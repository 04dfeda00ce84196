import SymbolicFlow.Analysis

/-!
# Recording results

A client that writes down the result of every instruction in a chosen set of addresses.
-/

set_option autoImplicit false

namespace SymbolicFlow

structure Recording where
  results : Array (UInt64 × Option ValueId) := #[]
  /-- The number of reads whose variable was not bound when the result was shown. -/
  uncovered : Nat := 0
  seeded : Nat := 0
  /-- For each block in order of visit, the number of results when it was done. -/
  blocks : Array (NodeId × Nat) := #[]
  deriving Inhabited

/-- Records instructions whose address is not in `skip` and, where `only` is given, is in
`only`. -/
def recorder (policy : Policy) (skip : List UInt64) (only : Option (List UInt64)) :
    Client Recording where
  policy := policy
  start := fun _ store => { seeded := store.bindings.size }
  accepts := fun _ statement =>
    match statement.address? with
    | none => false
    | some address =>
        !skip.contains address &&
          match only with
          | none => true
          | some addresses => addresses.contains address
  observe := fun ⟨results, uncovered, seeded, blocks⟩ statement result _ store =>
    let missing := (statement.usedVars.filter fun var => !store.isBound var).length
    let address := statement.address?.getD 0
    ([], ⟨results.push (address, result), uncovered + missing, seeded, blocks⟩)
  leave := fun ⟨results, uncovered, seeded, blocks⟩ block =>
    ⟨results, uncovered, seeded, blocks.push (block.id, results.size)⟩

end SymbolicFlow
