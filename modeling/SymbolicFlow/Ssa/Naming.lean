import SymbolicFlow.RegisterMap
import SymbolicFlow.Ssa

/-!
# Naming variables

`Naming` hands out variables: a new version whenever a register is written, a variable of
version zero when a register is read that nothing has written, and a variable of its own for
each read of the program counter, since each read sees another address.
-/

set_option autoImplicit false

namespace SymbolicFlow.Ssa

/-- The variable that each register holds at some point of a procedure; a register that is
missing still has its entry value. -/
abbrev Environment := RegisterMap VarId

structure Naming where
  vars : Array Variable := #[]
  /-- The newest version of each register; 32 bits hold it below `2 ^ 32` definitions. -/
  versions : RegisterMap Nat := []
  entryValues : RegisterMap VarId := []
  counterReads : Array (VarId × UInt64) := #[]
  deriving Inhabited

namespace Naming

def define (naming : Naming) (register : Register) (definition : Option Location) :
    VarId × Naming :=
  let version := (naming.versions.get? register).getD 0 + 1
  (naming.vars.size,
    { vars := naming.vars.push ⟨register, version, definition⟩
      versions := naming.versions.set register version
      entryValues := naming.entryValues
      counterReads := naming.counterReads })

/-- The value of a register at the entry, the same variable every time. -/
def entryValue (naming : Naming) (register : Register) : VarId × Naming :=
  match naming.entryValues.get? register with
  | some var => (var, naming)
  | none =>
      (naming.vars.size,
        { vars := naming.vars.push ⟨register, 0, none⟩
          versions := naming.versions
          entryValues := naming.entryValues.set register naming.vars.size
          counterReads := naming.counterReads })

def lookup (naming : Naming) (environment : Environment) (register : Register) :
    VarId × Naming :=
  match environment.get? register with
  | some var => (var, naming)
  | none => naming.entryValue register

/-- A read of the program counter, which yields the address `next`. -/
def readCounter (naming : Naming) (programCounter : Register) (next : UInt64) :
    VarId × Naming :=
  let (var, named) := naming.define programCounter none
  (var, { named with counterReads := named.counterReads.push (var, next) })

def read (naming : Naming) (programCounter : Register) (next : UInt64)
    (environment : Environment) (register : Register) : VarId × Naming :=
  if register = programCounter then naming.readCounter programCounter next
  else naming.lookup environment register

def readSlots (programCounter : Register) (next : UInt64) (environment : Environment) :
    Naming → List (Option Register) → List (Option VarId) × Naming
  | naming, [] => ([], naming)
  | naming, none :: slots =>
      let (vars, named) := readSlots programCounter next environment naming slots
      (none :: vars, named)
  | naming, some register :: slots =>
      let (var, read) := naming.read programCounter next environment register
      let (vars, named) := readSlots programCounter next environment read slots
      (some var :: vars, named)

def defineAll (location : Location) :
    Naming → Environment → List Register → List VarId × Environment × Naming
  | naming, environment, [] => ([], environment, naming)
  | naming, environment, register :: registers =>
      let (var, defined) := naming.define register (some location)
      let (vars, written, named) :=
        defineAll location defined (environment.set register var) registers
      (var :: vars, written, named)

/-- The sources of a phi for `register`, one for each environment that control can arrive
with; an arrival that never happens has no environment and gives an empty slot. -/
def readSources (register : Register) :
    Naming → List (Option Environment) → List (Option VarId) × Naming
  | naming, [] => ([], naming)
  | naming, none :: arrivals =>
      let (vars, named) := readSources register naming arrivals
      (none :: vars, named)
  | naming, some environment :: arrivals =>
      let (var, read) := naming.lookup environment register
      let (vars, named) := readSources register read arrivals
      (some var :: vars, named)

end Naming

end SymbolicFlow.Ssa
