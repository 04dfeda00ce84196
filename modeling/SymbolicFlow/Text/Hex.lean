/-!
# Hexadecimal text

Machine words are written in base sixteen, lower case, without leading zeros and
with `0x` in front.
-/

set_option autoImplicit false

namespace SymbolicFlow.Text

/-- The digits of a natural number in base sixteen; zero is the single digit `0`. -/
def hexDigits (n : Nat) : String :=
  String.ofList (Nat.toDigits 16 n)

def hex (word : UInt64) : String :=
  "0x" ++ hexDigits word.toNat

end SymbolicFlow.Text
