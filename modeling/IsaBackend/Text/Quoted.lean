import IsaBackend.Text.Digits
import IsaBackend.Text.Invisible

/-!
# Quoted text

Text inside messages and listings stands between double quotes. Quotes and backslashes are
escaped, the usual controls have short escapes, and any other invisible character is written as
its code point.
-/

namespace IsaBackend.Quoted

def escape (c : Char) : String :=
  if c = '"' then "\\\""
  else if c = '\\' then "\\\\"
  else if c = '\t' then "\\t"
  else if c = '\r' then "\\r"
  else if c = '\n' then "\\n"
  else if c.toNat = 0 then "\\0"
  else if ' ' ≤ c ∧ c ≤ '~' then c.toString
  else if Invisible.isInvisible c then "\\u\x7b" ++ Digits.lower 16 c.toNat ++ "\x7d"
  else c.toString

def quote (text : String) : String :=
  "\"" ++ String.join (text.toList.map escape) ++ "\""

end IsaBackend.Quoted
