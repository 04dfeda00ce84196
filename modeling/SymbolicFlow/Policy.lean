/-!
# Policies

Two switches that make an evaluation coarser.  As a bit set, the first switch is bit zero
and the second bit one; other bits mean nothing.
-/

set_option autoImplicit false

namespace SymbolicFlow

structure Policy where
  /-- A memory access is not taken apart, except to compute an address. -/
  untrackedMemory : Bool := false
  /-- A shift by an amount that is not constant is not expressed. -/
  constantShifts : Bool := false
  deriving DecidableEq, Inhabited

namespace Policy

def ofBits (bits : Nat) : Policy where
  untrackedMemory := bits.testBit 0
  constantShifts := bits.testBit 1

def bits (policy : Policy) : Nat :=
  (if policy.untrackedMemory then 1 else 0) + (if policy.constantShifts then 2 else 0)

/-- Whether a bit set has no bits beyond the two switches. -/
def isExact (bits : Nat) : Bool := (ofBits bits).bits = bits

def isEmpty (policy : Policy) : Bool := policy.bits = 0

end Policy

end SymbolicFlow
