/-!
# Machines

What an analysis needs to know about the machine that code runs on: its name, the
register that counts the program, and how registers are called.
-/

set_option autoImplicit false

namespace SymbolicFlow

structure Register where
  number : UInt16
  deriving DecidableEq, Inhabited

/-- A machine: two machines may call the same register number by different names. -/
structure Machine where
  name : String
  programCounter : Register
  registerName : Register → String

namespace Machine

def isProgramCounter (machine : Machine) (register : Register) : Bool :=
  register = machine.programCounter

end Machine

end SymbolicFlow
