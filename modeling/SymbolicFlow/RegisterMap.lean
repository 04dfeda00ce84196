import SymbolicFlow.Machine

/-!
# Maps from registers

A procedure touches few registers, so a short list of pairs is enough.  A register occurs
at most once; main statement: what is read is what was set last.
-/

set_option autoImplicit false

namespace SymbolicFlow

abbrev RegisterMap (α : Type) := List (Register × α)

namespace RegisterMap

variable {α : Type}

def get? (map : RegisterMap α) (register : Register) : Option α :=
  (map.find? (·.1 = register)).map (·.2)

def set (map : RegisterMap α) (register : Register) (value : α) : RegisterMap α :=
  (register, value) :: map.filter (·.1 ≠ register)

@[simp] theorem get?_nil (register : Register) : get? ([] : RegisterMap α) register = none := rfl

@[simp] theorem get?_set_self (map : RegisterMap α) (register : Register) (value : α) :
    (map.set register value).get? register = some value := by
  simp [set, get?]

theorem get?_set_of_ne (map : RegisterMap α) {register other : Register} (value : α)
    (distinct : other ≠ register) : (map.set register value).get? other = map.get? other := by
  have swapped : register ≠ other := Ne.symm distinct
  simp only [set, get?, List.find?_cons, swapped, decide_false, List.find?_filter]
  congr 2
  funext pair
  by_cases found : pair.1 = other <;> simp [found, distinct]

theorem get?_set (map : RegisterMap α) (register other : Register) (value : α) :
    (map.set register value).get? other = if other = register then some value else map.get? other := by
  by_cases same : other = register
  · subst same
    simp
  · rw [get?_set_of_ne map value same, if_neg same]

end RegisterMap

end SymbolicFlow
