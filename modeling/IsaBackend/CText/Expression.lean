import IsaBackend.Code.Basic
import IsaBackend.CText.Name

/-!
# Expressions in C

Operands and places as C expressions. Literals of bit-vectors are unsigned words and those of
integers signed ones; the least signed word has a name of its own.
-/

namespace IsaBackend

namespace CString

/-- The bytes of a character as octal escapes. -/
def octal (c : Char) : String :=
  String.join ((String.utf8EncodeChar c).map fun byte => "\\" ++ Digits.padded 8 3 byte.toNat)

def escape (c : Char) : String :=
  if c = '"' then "\\\""
  else if c = '\\' then "\\\\"
  else if c = '\n' then "\\n"
  else if c = '\t' then "\\t"
  else if ' ' ≤ c ∧ c ≤ '~' then c.toString
  else octal c

def quote (text : String) : String := "\"" ++ String.join (text.toList.map escape) ++ "\""

end CString

def Inline.toC : Inline → String
  | name key => CName.encode key
  | unit => "UNIT"
  | bool value => toString value
  | int value => if value = -(2 ^ 63) then "INT64_MIN" else "INT64_C(" ++ toString value ++ ")"
  | bits value _ => "UINT64_C(0x" ++ Digits.upperHex value ++ ")"
  | text content => CString.quote content
  | field record key => record.toC ++ "." ++ CName.encode key
  | binary op left right => "(" ++ left.toC ++ " " ++ op.symbol ++ " " ++ right.toC ++ ")"
  | not operand => "!" ++ operand.toC
  | address key => "&" ++ CName.encode key

def Operand.toC : Operand → String
  | name key _ => CName.encode key
  | inline expr _ => expr.toC

namespace Place

/-- A place as the target of an assignment. The result parameter is a pointer with its own name. -/
def toC : Place → String
  | name key _ => CName.encode key
  | field base key _ => base.toC ++ "." ++ CName.encode key
  | deref key _ => "(*" ++ key ++ ")"

def addressToC : Place → String
  | name key _ => "&" ++ CName.encode key
  | field base key _ => "&(" ++ base.toC ++ "." ++ CName.encode key ++ ")"
  | deref key _ => key

end Place

end IsaBackend
