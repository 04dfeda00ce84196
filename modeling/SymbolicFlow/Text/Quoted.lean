import SymbolicFlow.Text.Hex
import SymbolicFlow.Text.Hidden

/-!
# Quoted text

A text between double quotes in which the quote, the backslash and every character that
would not show are escaped.
-/

set_option autoImplicit false

namespace SymbolicFlow.Text

/-- A character as it stands inside quotes.  One that does not show is given by its code. -/
def escape (c : Char) : String :=
  if c = '"' then "\\\""
  else if c = '\\' then "\\\\"
  else if c = '\n' then "\\n"
  else if c = '\r' then "\\r"
  else if c = '\t' then "\\t"
  else if c = '\x00' then "\\0"
  else if c.toNat < 0x20 || c.toNat = 0x7f || (0x80 ≤ c.toNat && isHidden c) then
    "\\u\x7b" ++ hexDigits c.toNat ++ "\x7d"
  else String.singleton c

def quoted (text : String) : String :=
  "\"" ++ String.join (text.toList.map escape) ++ "\""

end SymbolicFlow.Text
