import IsaBackend.Expr
import IsaBackend.Text.Digits
import IsaBackend.Text.Quoted

/-!
# Inline expressions

Small expressions without effects that the generated code evaluates in place. Literals that fit a
machine word are inline, and so are fields, register addresses and operators on them.
-/

namespace IsaBackend

inductive Operator where
  | add
  | sub
  | and
  | or
  | xor
  | eq
  | lt
  | gt
  deriving DecidableEq, Repr

def Operator.symbol : Operator → String
  | add => "+"
  | sub => "-"
  | and => "&"
  | or => "|"
  | xor => "^"
  | eq => "=="
  | lt => "<"
  | gt => ">"

inductive Inline where
  /-- A local, a register or a member of an enumeration. -/
  | name (name : String)
  | unit
  | bool (value : Bool)
  | int (value : Int)
  /-- A bit-vector and its width. -/
  | bits (value width : Nat)
  | text (text : String)
  | field (record : Inline) (field : String)
  | binary (op : Operator) (left right : Inline)
  | not (operand : Inline)
  /-- The address of a register. -/
  | address (name : String)
  deriving DecidableEq, Repr

namespace Inline

/-- The bit-vector of a width with all bits set. -/
def mask (width : Nat) : Inline := bits ((1 <<< width) - 1) width

/-- A bit-vector literal that fits a machine word. Every byte of its text counts as a digit. -/
def ofDigits? (digits : String) (radix bitsPerDigit : Nat) : Option Inline :=
  let width := digits.utf8ByteSize * bitsPerDigit
  if width ≤ 64 then (Digits.readNat? radix digits.toList).map (bits · width) else none

/-- The inline form of a literal, if it has one. -/
def ofLiteral? : Literal → Option Inline
  | .unit => some unit
  | .bool value => some (bool value)
  | .bit value => some (bits value.toNat 1)
  | .num value => some (int value)
  | .hex digits => ofDigits? digits 16 4
  | .bin digits => ofDigits? digits 2 1
  | .string value => some (text value)
  | .undefined => none

/-- Whether nothing but literals occurs. -/
def isLiteral : Inline → Bool
  | name _ => false
  | field _ _ => false
  | address _ => false
  | unit => true
  | bool _ => true
  | int _ => true
  | bits _ _ => true
  | text _ => true
  | binary _ left right => left.isLiteral && right.isLiteral
  | not operand => operand.isLiteral

/-- Whether every integer literal fits a signed machine word. -/
def fitsMachineWord : Inline → Bool
  | int value => fitsWord value
  | field record _ => record.fitsMachineWord
  | binary _ left right => left.fitsMachineWord && right.fitsMachineWord
  | not operand => operand.fitsMachineWord
  | _ => true

/-- The name that a name or a chain of fields reads. -/
def root? : Inline → Option String
  | name key => some key
  | field record _ => record.root?
  | _ => none

/-- A bit-vector is written as its value and, in angle brackets, its width. -/
def renderBits (value width : Nat) : String :=
  "0x" ++ Digits.upperHex value ++ "<" ++ toString width ++ ">"

def render : Inline → String
  | name key => key
  | unit => "()"
  | bool value => toString value
  | int value => toString value
  | bits value width => renderBits value width
  | text content => Quoted.quote content
  | field record key => record.render ++ "." ++ key
  | binary op left right => "(" ++ left.render ++ " " ++ op.symbol ++ " " ++ right.render ++ ")"
  | not operand => "!" ++ operand.render
  | address key => "&" ++ key

end Inline

end IsaBackend
